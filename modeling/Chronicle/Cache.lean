/-!
# Caches

A cache remembers values by key. What it remembers can be forgotten at any time, one key or all, so
whoever uses a cache has to be able to do without it.
-/

namespace Chronicle

/-- Values by key. -/
structure Cache (κ ν : Type) where
  entries : List (κ × ν) := []
  deriving DecidableEq

namespace Cache

variable {κ ν : Type} [DecidableEq κ]

/-- The value under a key, if the cache has it. -/
def find? (cache : Cache κ ν) (key : κ) : Option ν :=
  (cache.entries.find? fun entry => entry.1 = key).map Prod.snd

/-- Forgets a key. -/
def evict (cache : Cache κ ν) (key : κ) : Cache κ ν :=
  ⟨cache.entries.filter fun entry => entry.1 ≠ key⟩

/-- Remembers a value, in place of the one that the key had. -/
def insert (cache : Cache κ ν) (key : κ) (value : ν) : Cache κ ν :=
  ⟨(key, value) :: (cache.evict key).entries⟩

/-- Forgets everything. -/
def empty : Cache κ ν := {}

/-- The number of keys. -/
def size (cache : Cache κ ν) : Nat :=
  cache.entries.length

/-- Evicting a key forgets it and no other. -/
theorem find?_evict (cache : Cache κ ν) (key other : κ) :
    (cache.evict key).find? other = if other = key then none else cache.find? other := by
  simp only [find?, evict, List.find?_filter]
  by_cases h : other = key
  · simp [h]
  · have hboth : ∀ k : κ, (k ≠ key ∧ k = other) = (k = other) := by
      intro k
      exact propext ⟨fun hk => hk.2, fun hk => ⟨hk ▸ h, hk⟩⟩
    simp [h, hboth]

/-- What was inserted is found under its key, and everything else as before. -/
theorem find?_insert (cache : Cache κ ν) (key other : κ) (value : ν) :
    (cache.insert key value).find? other = if other = key then some value else cache.find? other := by
  have h := find?_evict cache key other
  by_cases ho : other = key
  · simp [find?, insert, ho]
  · have hne : ¬ key = other := fun hkey => ho hkey.symm
    simp only [ho, if_false] at h
    simpa [find?, insert, hne, ho] using h

end Cache

end Chronicle
