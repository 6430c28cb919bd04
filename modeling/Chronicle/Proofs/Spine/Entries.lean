import Chronicle.Proofs.Address
import Mathlib.Data.List.Sort

/-!
# Entries in the order of nids

The payloads of a range of distances, listed one after another, are in ascending order of nids, each
nid once. So a list of all of them is the one that a finite map of nids has.
-/

namespace Chronicle

/-- The nid at a distance with its payload, if it has one. -/
def entryAt (content : Nid → Option Bytes) (offset : Nat) : Option (Nid × Bytes) := do
  let nid ← Nid.ofOffset? offset
  let payload ← content nid
  return (nid, payload)

/-- The payloads of `n` distances, from a distance on. -/
def entriesFrom (content : Nid → Option Bytes) (offset n : Nat) : List (Nid × Bytes) :=
  (List.range' offset n).filterMap (entryAt content)

variable {content : Nid → Option Bytes} {offset m n : Nat} {nid : Nid} {payload : Bytes}

/-- There is an entry at an offset exactly if its nid has the payload. -/
theorem entryAt_eq_some_iff :
    entryAt content offset = some (nid, payload) ↔
      nid.offset? = some offset ∧ content nid = some payload := by
  simp only [entryAt, Option.bind_eq_bind, Option.bind_eq_some_iff, Nid.ofOffset?_eq_some_iff,
    Option.pure_def, Option.some.injEq, Prod.mk.injEq]
  constructor
  · rintro ⟨nid, hnid, payload, hpayload, rfl, rfl⟩
    exact ⟨hnid, hpayload⟩
  · rintro ⟨hnid, hpayload⟩
    exact ⟨nid, hnid, payload, hpayload, rfl, rfl⟩

/-- No offsets, no entries. -/
theorem entriesFrom_zero (content : Nid → Option Bytes) (offset : Nat) :
    entriesFrom content offset 0 = [] :=
  rfl

/-- A range of distances is listed part by part. -/
theorem entriesFrom_add (content : Nid → Option Bytes) (offset m n : Nat) :
    entriesFrom content offset (m + n) =
      entriesFrom content offset m ++ entriesFrom content (offset + m) n := by
  rw [entriesFrom, ← List.range'_append_1, List.filterMap_append]
  rfl

/-- The entries from an offset on are the one there, if any, and those from the next. -/
theorem entriesFrom_succ (content : Nid → Option Bytes) (offset n : Nat) :
    entriesFrom content offset (n + 1) =
      (entryAt content offset).toList ++ entriesFrom content (offset + 1) n := by
  rw [entriesFrom, List.range'_succ, List.filterMap_cons]
  cases entryAt content offset <;> rfl

/-- Ranges of one length, one after another, are one range. -/
theorem flatMap_entriesFrom (content : Nid → Option Bytes) (m n : Nat) :
    (List.range m).flatMap (fun k => entriesFrom content (k * n) n) =
      entriesFrom content 0 (m * n) := by
  induction m with
  | zero => rw [Nat.zero_mul, entriesFrom_zero, List.range_zero, List.flatMap_nil]
  | succ m ih =>
    rw [List.range_succ, List.flatMap_append, ih, List.flatMap_singleton, Nat.succ_mul,
      entriesFrom_add, Nat.zero_add]

/-- Offsets whose nids have no payload make no entries. -/
theorem entriesFrom_eq_nil (h : ∀ k, offset ≤ k → k < offset + n → ∀ nid, nid.offset? = some k →
    content nid = none) : entriesFrom content offset n = [] := by
  rw [entriesFrom, List.filterMap_eq_nil_iff]
  intro k hk
  rw [List.mem_range'_1] at hk
  cases hentry : entryAt content k with
  | none => rfl
  | some entry =>
    obtain ⟨hnid, hpayload⟩ := entryAt_eq_some_iff.mp hentry
    rw [h k hk.1 hk.2 entry.1 hnid] at hpayload
    cases hpayload

/-- The entries of some offsets are the payloads of their nids. -/
theorem mem_entriesFrom_iff :
    (nid, payload) ∈ entriesFrom content offset n ↔
      content nid = some payload ∧ ∃ k, nid.offset? = some k ∧ offset ≤ k ∧ k < offset + n := by
  simp only [entriesFrom, List.mem_filterMap, entryAt_eq_some_iff, List.mem_range'_1]
  constructor
  · rintro ⟨k, hk, hnid, hpayload⟩
    exact ⟨hpayload, k, hnid, hk⟩
  · rintro ⟨hpayload, k, hnid, hk⟩
    exact ⟨k, hk, hnid, hpayload⟩

/-- Entries are listed in strictly ascending order of their nids. -/
theorem pairwise_entriesFrom (content : Nid → Option Bytes) (offset n : Nat) :
    (entriesFrom content offset n).Pairwise fun a b => compare a.1 b.1 = .lt := by
  rw [entriesFrom, List.pairwise_filterMap]
  refine List.Pairwise.imp (fun hlt a ha b hb => ?_) (List.pairwise_lt_range' 1 (Nat.lt_add_one 0))
  rw [Nid.compare_eq_lt_iff (entryAt_eq_some_iff.mp ha).1 (entryAt_eq_some_iff.mp hb).1]
  exact hlt

/-- A range that has every nid with a payload lists the map of the payloads. -/
theorem entriesFrom_eq_toList {map : Std.ExtTreeMap Nid Bytes}
    (hmap : ∀ nid, content nid = map[nid]?)
    (hrange : ∀ nid payload, content nid = some payload → ∃ k, nid.offset? = some k ∧ k < n) :
    entriesFrom content 0 n = map.toList := by
  have hasymm (a b : Nid × Bytes) (hab : compare a.1 b.1 = .lt) (hba : compare b.1 a.1 = .lt) :
      False := by
    have hswap : compare a.1 b.1 = (compare b.1 a.1).swap := Std.OrientedCmp.eq_swap
    rw [hswap, hba] at hab
    cases hab
  have hirrefl : Std.Irrefl fun a b : Nid × Bytes => compare a.1 b.1 = .lt :=
    ⟨fun a haa => hasymm a a haa haa⟩
  have hantisymm : Std.Antisymm fun a b : Nid × Bytes => compare a.1 b.1 = .lt :=
    ⟨fun a b hab hba => (hasymm a b hab hba).elim⟩
  refine (pairwise_entriesFrom content 0 n).eq_of_mem_iff map.ordered_keys_toList ?_
  rintro ⟨nid, payload⟩
  rw [mem_entriesFrom_iff, Std.ExtTreeMap.mem_toList_iff_getElem?_eq_some, ← hmap]
  constructor
  · rintro ⟨hpayload, -⟩
    exact hpayload
  · intro hpayload
    obtain ⟨k, hk, hlt⟩ := hrange nid payload hpayload
    exact ⟨hpayload, k, hk, Nat.zero_le _, by omega⟩

end Chronicle
