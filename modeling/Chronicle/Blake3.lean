import Chronicle.Bytes

/-!
# BLAKE3 digests of short messages

A message of at most sixty-four bytes is one block of one chunk, which is also the root of the hash
tree, so its digest takes a single compression. Words are little-endian.
-/

namespace Chronicle.Blake3

/-- The sixteen words that a compression mixes. -/
abbrev Words := Vector UInt32 16

/-- The initial chaining value. -/
def initial : Vector UInt32 8 :=
  #v[0x6a09e667, 0xbb67ae85, 0x3c6ef372, 0xa54ff53a, 0x510e527f, 0x9b05688c, 0x1f83d9ab, 0x5be0cd19]

/-- Where each word of the message comes from in the next round. -/
def permutation : Vector (Fin 16) 16 :=
  #v[2, 6, 3, 10, 7, 0, 4, 13, 1, 11, 12, 5, 9, 14, 15, 8]

/-- The message words of the next round. -/
def permute (message : Words) : Words :=
  permutation.map fun i => message[i]

/-- A word turned to the right by some bits, fewer than 32 and at least one. -/
def rotateRight (x : UInt32) (bits : UInt32) : UInt32 :=
  (x >>> bits) ||| (x <<< (32 - bits))

/-- Mixes two message words into four words of the state. -/
def mix (state : Words) (i j k l : Fin 16) (x y : UInt32) : Words :=
  let a := state[i] + state[j] + x
  let d := rotateRight (state[l] ^^^ a) 16
  let c := state[k] + d
  let b := rotateRight (state[j] ^^^ c) 12
  let a := a + b + y
  let d := rotateRight (d ^^^ a) 8
  let c := c + d
  let b := rotateRight (b ^^^ c) 7
  (((state.set i a).set j b).set k c).set l d

/-- One round: the four columns, then the four diagonals. -/
def round (state message : Words) : Words :=
  let s := mix state 0 4 8 12 message[0] message[1]
  let s := mix s 1 5 9 13 message[2] message[3]
  let s := mix s 2 6 10 14 message[4] message[5]
  let s := mix s 3 7 11 15 message[6] message[7]
  let s := mix s 0 5 10 15 message[8] message[9]
  let s := mix s 1 6 11 12 message[10] message[11]
  let s := mix s 2 7 8 13 message[12] message[13]
  mix s 3 4 9 14 message[14] message[15]

/-- Runs the rounds that are left, permuting the message after each. -/
def rounds : (n : Nat) → (state message : Words) → Words
  | 0, state, _ => state
  | n + 1, state, message => rounds n (round state message) (permute message)

/-- The flags of a block that starts and ends its chunk and is the root. -/
def soleBlockFlags : UInt32 := 0b1011

/-- The little-endian word at a position of a message that zeros continue. -/
def messageWord (message : Bytes) (i : Nat) : UInt32 :=
  UInt32.ofNat (BigEndian.decode ((List.range 4).map fun j => message.getD (4 * i + 3 - j) 0))

/-- The little-endian bytes of a word. -/
def wordBytes (word : UInt32) : Bytes :=
  (BigEndian.encode 4 word.toNat).reverse

/-- The digest of a message that fits one block. -/
def digest (message : Bytes) (_ : message.length ≤ 64) : Bytes :=
  let start : Words := initial ++
    #v[initial[0], initial[1], initial[2], initial[3], 0, 0, UInt32.ofNat message.length,
      soleBlockFlags]
  let mixed := rounds 7 start (Vector.ofFn fun i => messageWord message i.val)
  (List.finRange 8).flatMap fun i =>
    wordBytes (mixed.get ⟨i.val, by omega⟩ ^^^ mixed.get ⟨i.val + 8, by omega⟩)

end Chronicle.Blake3
