import Chronicle.Config.Basic

/-!
# Valid configurations

A configuration is valid exactly if no setting has a fault, in whatever order the faults are looked
for.
-/

namespace Chronicle.Config

/-- A configuration is accepted exactly if the spine size is a power of two and no permit, worker or
cache bound and no number of retries is zero. -/
theorem validate_eq_ok_iff {c : Config} :
    c.validate = .ok () ↔ isPowerOfTwo c.spineSize = true ∧ c.ioPermits ≠ 0 ∧ c.workers ≠ some 0 ∧
      c.coordinateCacheCapacity ≠ 0 ∧ c.calculatorCacheCapacity ≠ 0 ∧ c.stampCacheCapacity ≠ 0 ∧
      c.maxCasRetries ≠ 0 := by
  have hfault : c.validate = .ok () ↔ c.fault? = none := by
    rw [validate]
    cases c.fault? with
    | none => simp
    | some error => simp
  rw [hfault, fault?]
  repeat' split
  all_goals simp_all

/-- A power of two is not zero, so every accepted spine has a slot. -/
theorem pos_of_isPowerOfTwo {n : Nat} (h : isPowerOfTwo n = true) : 0 < n := by
  rw [isPowerOfTwo, Bool.and_eq_true, bne_iff_ne] at h
  exact Nat.pos_of_ne_zero h.1

end Chronicle.Config
