import Chronicle.Proofs.Medium.Writes

/-!
# Attempts at writes that are due

Where writes fail by a schedule only, an attempt carries a write out or leaves all that is stored as
it was. So however many attempts are made at some writes that are due, what was carried out and what
is still due make up what was due at first, and carrying out the rest leaves the same as carrying
out everything at once.
-/

namespace Chronicle

/-- Calls were counted on a schedule, which is otherwise the same. -/
structure Schedule.Runs (before after : Schedule) : Prop where
  fails : after.fails = before.fails
  made : before.made ≤ after.made

/-- A call that was counted failed. -/
def Schedule.Met (before after : Schedule) : Prop :=
  ∃ call, before.made ≤ call ∧ call < after.made ∧ before.fails call = true

namespace Schedule

variable {a b c : Schedule}

private theorem runs_refl (a : Schedule) : a.Runs a :=
  ⟨rfl, Nat.le_refl _⟩

private theorem runs_next (a : Schedule) : a.Runs a.next.2 :=
  ⟨rfl, Nat.le_succ _⟩

private theorem Runs.trans (h : a.Runs b) (hnext : b.Runs c) : a.Runs c :=
  ⟨hnext.fails.trans h.fails, Nat.le_trans h.made hnext.made⟩

private theorem not_met_self (a : Schedule) : ¬ a.Met a := by
  rintro ⟨call, hle, hlt, -⟩
  omega

private theorem met_next_iff : a.Met a.next.2 ↔ a.next.1 = true := by
  constructor
  · rintro ⟨call, hle, hlt, hfails⟩
    obtain rfl : call = a.made := Nat.le_antisymm (Nat.le_of_lt_succ hlt) hle
    exact hfails
  · intro hfails
    exact ⟨a.made, Nat.le_refl _, Nat.lt_succ_self _, hfails⟩

private theorem Runs.met_iff (h : a.Runs b) (hnext : b.Runs c) : a.Met c ↔ a.Met b ∨ b.Met c := by
  constructor
  · rintro ⟨call, hle, hlt, hfails⟩
    by_cases hcall : call < b.made
    · exact Or.inl ⟨call, hle, hcall, hfails⟩
    · exact Or.inr ⟨call, Nat.not_lt.mp hcall, hlt, h.fails ▸ hfails⟩
  · rintro (⟨call, hle, hlt, hfails⟩ | ⟨call, hle, hlt, hfails⟩)
    · exact ⟨call, hle, Nat.lt_of_lt_of_le hlt hnext.made, hfails⟩
    · exact ⟨call, Nat.le_trans h.made hle, hlt, h.fails ▸ hfails⟩

end Schedule

/-- Tables and spines were written on schedules that are otherwise the same. -/
structure Faults.Runs (before after : Faults) : Prop where
  tables : before.tableWrites.Runs after.tableWrites
  spines : before.spineWrites.Runs after.spineWrites

/-- A write of a table or of a spine failed. -/
def Faults.MetWrite (before after : Faults) : Prop :=
  before.tableWrites.Met after.tableWrites ∨ before.spineWrites.Met after.spineWrites

namespace Faults

variable {a b c : Faults}

private theorem runs_refl (a : Faults) : a.Runs a :=
  ⟨Schedule.runs_refl _, Schedule.runs_refl _⟩

private theorem Runs.trans (h : a.Runs b) (hnext : b.Runs c) : a.Runs c :=
  ⟨h.tables.trans hnext.tables, h.spines.trans hnext.spines⟩

/-- Where no call was made no write failed. -/
theorem not_metWrite_self (a : Faults) : ¬ a.MetWrite a := by
  simp [MetWrite, Schedule.not_met_self]

/-- A write failed on the way exactly if one did in the first part or in the second. -/
theorem Runs.metWrite_iff (h : a.Runs b) (hnext : b.Runs c) :
    a.MetWrite c ↔ a.MetWrite b ∨ b.MetWrite c := by
  rw [MetWrite, h.tables.met_iff hnext.tables, h.spines.met_iff hnext.spines]
  exact or_or_or_comm

/-- Schedules without failures are met by none. -/
theorem not_metWrite_never (b : Faults) : ¬ MetWrite {} b := by
  rintro (⟨call, -, -, hfails⟩ | ⟨call, -, -, hfails⟩) <;> cases hfails

end Faults

namespace Medium

/-- Attempts a write. -/
def write : Write → Access Unit
  | .table name bytes => writeTable name bytes
  | .spine index bytes => writeSpine index bytes

/-- Of the writes that were due on a medium, some were carried out and the others are still due. -/
structure Carries (medium : Medium) (due : List Write) (next : Medium) (rest : List Write) :
    Prop where
  done : ∃ done, due.Perm (done ++ rest) ∧ next.backing = medium.backing.afterAll done
  runs : medium.faults.Runs next.faults

variable {medium next last : Medium} {due rest others : List Write}

/-- Without an access every write that was due is still due. -/
theorem carries_refl (medium : Medium) (due : List Write) : medium.Carries due medium due :=
  ⟨⟨[], .refl _, rfl⟩, Faults.runs_refl _⟩

/-- What is still due after a first part of the writes is carried on by the second. -/
theorem Carries.trans (h : medium.Carries due next rest) (hnext : next.Carries rest last others) :
    medium.Carries due last others where
  done := by
    obtain ⟨first, hfirst, hbacking⟩ := h.done
    obtain ⟨second, hsecond, hlast⟩ := hnext.done
    refine ⟨first ++ second, hfirst.trans ?_, ?_⟩
    · rw [List.append_assoc]
      exact hsecond.append_left first
    · rw [hlast, hbacking, Backing.afterAll_append]
  runs := h.runs.trans hnext.runs

/-- The order in which the due writes are listed does not matter. -/
theorem Carries.perm {listed : List Write} (h : medium.Carries due next rest)
    (hperm : listed.Perm due) : medium.Carries listed next rest where
  done := by
    obtain ⟨done, hdone, hbacking⟩ := h.done
    exact ⟨done, hperm.trans hdone, hbacking⟩
  runs := h.runs

/-- Other writes that are due stay due. -/
theorem Carries.append_left (h : medium.Carries due next rest) (others : List Write) :
    medium.Carries (others ++ due) next (others ++ rest) where
  done := by
    obtain ⟨done, hperm, hbacking⟩ := h.done
    refine ⟨done, (hperm.append_left others).trans ?_, hbacking⟩
    rw [← List.append_assoc, ← List.append_assoc]
    exact List.perm_append_comm.append_right rest
  runs := h.runs

/-- What is still due is accepted if everything was, and then leaves the same. -/
theorem Carries.accepts (h : medium.Carries due next rest) (hdue : medium.backing.Accepts due) :
    next.backing.Accepts rest ∧ next.backing.afterAll rest = medium.backing.afterAll due := by
  obtain ⟨done, hperm, hbacking⟩ := h.done
  rw [hbacking]
  exact ⟨(hdue.perm hperm).afterAll, by rw [hdue.afterAll_perm hperm, Backing.afterAll_append]⟩

/-- An attempt counts on its schedule, and fails by it or is made on the backing. -/
theorem write_eq (w : Write) (medium : Medium) :
    ∃ faults, medium.faults.Runs faults ∧
      (medium.faults.MetWrite faults ∧
          write w medium = (.error .unavailable, { medium with faults }) ∨
        ¬ medium.faults.MetWrite faults ∧ write w medium =
          ((medium.backing.put w).1, { backing := medium.backing.after w, faults })) := by
  cases w with
  | table name bytes =>
    refine ⟨{ medium.faults with tableWrites := medium.faults.tableWrites.next.2 },
      ⟨Schedule.runs_next _, Schedule.runs_refl _⟩, ?_⟩
    simp only [Faults.MetWrite, Schedule.met_next_iff, Schedule.not_met_self, or_false, write,
      writeTable]
    cases medium.faults.tableWrites.next.1 with
    | true => exact Or.inl ⟨rfl, rfl⟩
    | false => exact Or.inr ⟨Bool.false_ne_true, rfl⟩
  | spine index bytes =>
    refine ⟨{ medium.faults with spineWrites := medium.faults.spineWrites.next.2 },
      ⟨Schedule.runs_refl _, Schedule.runs_next _⟩, ?_⟩
    simp only [Faults.MetWrite, Schedule.met_next_iff, Schedule.not_met_self, false_or, write,
      writeSpine]
    cases medium.faults.spineWrites.next.1 with
    | true => exact Or.inl ⟨rfl, rfl⟩
    | false => exact Or.inr ⟨Bool.false_ne_true, rfl⟩

/-- An attempt at a write that the backing takes carries it out, unless it fails by the schedule. -/
theorem carries_write {w : Write} {answer : Except IoError Unit} (htakes : medium.backing.Takes w)
    (h : write w medium = (answer, next)) :
    (answer = .ok () ∧ ¬ medium.faults.MetWrite next.faults ∧
        ∀ rest, medium.Carries (w :: rest) next rest) ∨
      (∃ error, answer = .error error) ∧ medium.faults.MetWrite next.faults ∧
        ∀ due, medium.Carries due next due := by
  obtain ⟨faults, hruns, ⟨hmet, hwrite⟩ | ⟨hmet, hwrite⟩⟩ := write_eq w medium
  · rw [hwrite] at h
    cases h
    exact Or.inr ⟨⟨_, rfl⟩, hmet, fun due => ⟨⟨[], .refl _, rfl⟩, hruns⟩⟩
  · rw [hwrite, htakes] at h
    cases h
    exact Or.inl ⟨rfl, hmet, fun rest => ⟨⟨[w], .refl _, rfl⟩, hruns⟩⟩

end Medium

end Chronicle
