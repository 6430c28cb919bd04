import Chronicle.Proofs.Spine.Linearizability

/-!
# Merges inside merges

The function by which a merge combines two payloads may merge into the same slot, and so may the
functions of those merges. While such a function runs, the merge that called it waits between its
read and its swap, and the merges inside it take all their steps. So whatever is nested in a merge,
to any depth, is a contest in which the steps come in one of the possible orders.
-/

namespace Chronicle.SpineStore

/-- What merges into the slot of one nid, looks at the store, and does nothing else with it. The
functions that combine payloads do the same. They may be called several times, and so have to give
answers that depend on the payloads only. -/
inductive Merging (nid : Nid) : {α : Type} → StateM SpineStore α → Prop
  | observe {α : Type} (view : SpineStore → α) : Merging nid fun s => (view s, s)
  | bind {α β : Type} {x : StateM SpineStore α} {f : α → StateM SpineStore β}
      (hx : Merging nid x) (hf : ∀ a, Merging nid (f a)) : Merging nid (x >>= f)
  | merge (offer : Offer) {combine : Bytes → Bytes → StateM SpineStore Bytes}
      (hcombine : ∀ old new, Merging nid (combine old new))
      (hanswer : ∀ old new s, (combine old new s).1 = offer.combine old new) :
      Merging nid (Store.attempt (mergeM nid offer.payload combine))

/-- The stage in which a merge ends that answers a payload, or gives up. -/
def Stage.ended : Option Bytes → Stage
  | some payload => .installed payload
  | none => .exhausted

/-- What a merge answers that ends so. -/
def answerOf (nid : Nid) (attempts : Nat) : Option Bytes → Except StoreError Bytes
  | some payload => .ok payload
  | none => .error (.concurrencyInvariant nid attempts)

namespace Contest

variable {nid : Nid} {place : Place} {s : SpineStore} {c c' c'' : Contest} {i m n : Nat}

/-- Moves by which merges join, or those from the `n`-th one on take steps. -/
def Leads (place : Place) (n : Nat) (c c' : Contest) : Prop :=
  ∃ moves, (∀ i, Move.step i ∈ moves → n ≤ i) ∧ c' = c.after place moves

/-- All merges from the `n`-th one on that have joined have ended. -/
def Settled (n : Nat) (c : Contest) : Prop :=
  ∀ i, n ≤ i → i < c.offers.length → ∃ answer, c.stage i = .ended answer

private theorem Leads.refl (place : Place) (n : Nat) (c : Contest) : Leads place n c c :=
  ⟨[], by simp, rfl⟩

private theorem Leads.mono (h : Leads place m c c') (hle : n ≤ m) : Leads place n c c' := by
  obtain ⟨moves, hmoves, rfl⟩ := h
  exact ⟨moves, fun i hi => Nat.le_trans hle (hmoves i hi), rfl⟩

private theorem Leads.trans (h : Leads place n c c') (h' : Leads place n c' c'') :
    Leads place n c c'' := by
  obtain ⟨moves, hmoves, rfl⟩ := h
  obtain ⟨more, hmore, rfl⟩ := h'
  refine ⟨moves ++ more, fun i hi => ?_, (after_append ..).symm⟩
  obtain hi | hi := List.mem_append.mp hi
  · exact hmoves i hi
  · exact hmore i hi

private theorem leads_join (place : Place) (n : Nat) (c : Contest) (offer : Offer) :
    Leads place n c (c.move place (.join offer)) :=
  ⟨[.join offer], by simp, rfl⟩

private theorem leads_step (place : Place) (c : Contest) (h : n ≤ i) :
    Leads place n c (c.step place i) :=
  ⟨[.step i], by simpa using h, rfl⟩

/-- Where moves lead, a contest is lawful. -/
theorem Leads.lawful (h : Leads place n c c') (hc : c.Lawful place s) : c'.Lawful place s := by
  obtain ⟨moves, -, rfl⟩ := h
  exact hc.after moves

private theorem Leads.offers {offer : Offer} (h : Leads place n c c')
    (hoffer : c.offers[i]? = some offer) :
    c'.offers[i]? = some offer := by
  obtain ⟨moves, -, rfl⟩ := h
  exact offers_after hoffer moves

/-- Merges that take no step stay where they are. -/
theorem Leads.stage_eq (h : Leads place n c c') (hi : i < n) : c'.stage i = c.stage i := by
  obtain ⟨moves, hmoves, rfl⟩ := h
  induction moves generalizing c with
  | nil => rfl
  | cons move moves ih =>
    refine (ih fun j hj => hmoves j (List.mem_cons_of_mem _ hj)).trans ?_
    cases move with
    | join offer => rfl
    | step j =>
      have hj := hmoves j List.mem_cons_self
      exact (steps_step place c j).stage_of_ne (by omega)

private theorem Leads.length_le (h : Leads place n c c') : c.offers.length ≤ c'.offers.length := by
  by_contra hlt
  have hlast : c'.offers.length < c.offers.length := by omega
  have hoffer := h.offers (List.getElem?_eq_getElem hlast)
  exact absurd (List.getElem?_eq_some_iff.mp hoffer).1 (Nat.lt_irrefl _)

/-- What had ended before others went on has still ended. -/
theorem Leads.settled (h : Leads place c.offers.length c c') (hc : c.Settled n)
    (hnew : c'.Settled c.offers.length) : c'.Settled n := by
  intro i hn hi
  by_cases hold : i < c.offers.length
  · rw [h.stage_eq hold]
    exact hc i hn hold
  · exact hnew i (Nat.le_of_not_lt hold) hi

/-- A computation does to the store what merges do that join a contest for it, and all of them
end. -/
def Follows (place : Place) (s : SpineStore) {α : Type} (x : StateM SpineStore α) : Prop :=
  ∀ c : Contest, c.Lawful place s → ∃ c', Leads place c.offers.length c c' ∧
    c'.Settled c.offers.length ∧ (x c.store).2 = c'.store

/-- How an attempt finds out what to install. -/
def computing (payload : Bytes) (combine : Bytes → Bytes → StateM SpineStore Bytes) :
    Option Cell → StateM SpineStore Bytes
  | none => return payload
  | some cell => combine cell.payload payload

/-- An attempt finds out what to install, and swaps. -/
theorem attempt_succ {payload next : Bytes} {combine : Bytes → Bytes → StateM SpineStore Bytes}
    {current : Option Cell} {t : SpineStore} (h : computing payload combine current s = (next, t))
    (left : Nat) :
    attempt place payload combine (left + 1) current s =
      match swap place current next t with
      | (true, u) => (some next, u)
      | (false, u) => attempt place payload combine left (u.cell? place) u := by
  have hrun : attempt place payload combine (left + 1) current s =
      match computing payload combine current s with
      | (next, t) => match swap place current next t with
        | (won, u) => (if won = true then pure (some next) else do
            let v ← get
            attempt place payload combine left (v.cell? place) : StateM SpineStore _) u := by
    cases current <;> rfl
  rw [hrun, h]
  simp only
  cases swap place current next t with
  | mk won u => cases won <;> rfl

/-- A step of one merge leaves the later ones as they are. -/
theorem Settled.step (h : c.Settled (i + 1)) (place : Place) :
    (c.step place i).Settled (i + 1) := by
  intro j hj hlt
  rw [(steps_step place c i).offers_eq] at hlt
  rw [(steps_step place c i).stage_of_ne (by omega)]
  exact h j hj hlt

/-- One more merge that has ended settles a contest from it on. -/
theorem Settled.of_ended {answer : Option Bytes} (h : c.Settled (i + 1))
    (hstage : c.stage i = .ended answer) : c.Settled i := by
  intro j hj hlt
  obtain rfl | hj := Nat.eq_or_lt_of_le hj
  · exact ⟨answer, hstage⟩
  · exact h j hj hlt

variable {offer : Offer} {combine : Bytes → Bytes → StateM SpineStore Bytes}

/-- By its first two steps a merge brings the spine into memory and reads the slot. -/
theorem first_steps (hoffer : c.offers[i]? = some offer) (hstage : c.stage i = .waiting)
    (place : Place) :
    let informed := (c.step place i).step place i
    informed.store = (touch place.index c.store).2 ∧
      informed.stage i = .informed informed.store.maxAttempts (informed.store.cell? place) := by
  simp only [step, hoffer, hstage, advance, Function.update_self]
  exact ⟨trivial, trivial⟩

/-- By two steps a merge makes an attempt. -/
theorem two_steps {left : Nat} {current : Option Cell} (hoffer : c.offers[i]? = some offer)
    (hstage : c.stage i = .informed (left + 1) current) (place : Place) :
    let next := offer.apply (current.map Cell.payload)
    let tried := (c.step place i).step place i
    swap place current next c.store = (true, tried.store) ∧ tried.stage i = .ended (some next) ∨
      swap place current next c.store = (false, tried.store) ∧
        tried.stage i = .informed left (tried.store.cell? place) := by
  intro next tried
  obtain ⟨d, hd⟩ : ∃ d, d = c.step place i := ⟨_, rfl⟩
  have htried : tried = d.step place i := by rw [hd]
  have hprepared : d = c.advance i (.prepared left current next) := by
    simp only [hd, step, hoffer, hstage, next]
  have hoffer' : d.offers[i]? = some offer := by
    rw [hprepared]
    exact hoffer
  have hstage' : d.stage i = .prepared left current next := by
    rw [hprepared]
    exact Function.update_self ..
  have hstore : d.store = c.store := by
    rw [hprepared]
    rfl
  rw [htried, ← hstore]
  by_cases hsame : (d.store.cell? place).map Cell.revision = current.map Cell.revision
  · left
    simp only [step, hoffer', hstage', swap_of_same hsame, advance, Function.update_self]
    exact ⟨trivial, rfl⟩
  · right
    simp only [step, hoffer', hstage', swap_of_changed hsame, advance, Function.update_self]
    exact ⟨trivial, trivial⟩

/-- The attempts of a merge are steps of it in a contest, between which others take theirs. -/
theorem attempt_follows (hcombine : ∀ old new, Follows place s (combine old new))
    (hanswer : ∀ old new t, (combine old new t).1 = offer.combine old new) {left : Nat}
    {current : Option Cell} (hc : c.Lawful place s) (hoffer : c.offers[i]? = some offer)
    (hstage : c.stage i = .informed left current) (hsettled : c.Settled (i + 1)) :
    ∃ c' answer, Leads place i c c' ∧ c'.Settled i ∧ c'.stage i = .ended answer ∧
      attempt place offer.payload combine left current c.store = (answer, c'.store) := by
  induction left generalizing c current with
  | zero =>
    have hstep : c.step place i = c.advance i .exhausted := by simp only [step, hoffer, hstage]
    have hended : (c.step place i).stage i = .ended none := by
      rw [hstep]
      exact Function.update_self ..
    refine ⟨_, none, leads_step place c (Nat.le_refl i), (hsettled.step place).of_ended hended,
      hended, ?_⟩
    rw [hstep]
    rfl
  | succ left ih =>
    obtain ⟨next, hnext⟩ : ∃ next, next = offer.apply (current.map Cell.payload) := ⟨_, rfl⟩
    obtain ⟨d, hrivals, hd, hcomputing⟩ : ∃ d, Leads place c.offers.length c d ∧
        d.Settled (i + 1) ∧
        computing offer.payload combine current c.store = (next, d.store) := by
      cases current with
      | none => exact ⟨c, .refl .., hsettled, by rw [hnext]; rfl⟩
      | some cell =>
        obtain ⟨d, hrivals, hd, hstore⟩ := hcombine cell.payload offer.payload c hc
        refine ⟨d, hrivals, hrivals.settled hsettled hd, Prod.ext ?_ hstore⟩
        rw [hnext]
        exact hanswer cell.payload offer.payload c.store
    have hi : i < c.offers.length := (List.getElem?_eq_some_iff.mp hoffer).1
    have hleads : Leads place i c ((d.step place i).step place i) :=
      ((hrivals.mono (Nat.le_of_lt hi)).trans (leads_step place d (Nat.le_refl i))).trans
        (leads_step place _ (Nat.le_refl i))
    have hsettled' := (hd.step place).step place
    have hstage' := (hrivals.stage_eq hi).trans hstage
    rw [attempt_succ hcomputing]
    obtain ⟨hswap, hended⟩ | ⟨hswap, hinformed⟩ := two_steps (hrivals.offers hoffer) hstage' place
    · rw [← hnext] at hswap hended
      exact ⟨_, some next, hleads, hsettled'.of_ended hended, hended, by rw [hswap]⟩
    · rw [← hnext] at hswap
      obtain ⟨c', answer, hrest, hc', hended, hattempt⟩ :=
        ih (hleads.lawful hc) (hleads.offers hoffer) hinformed hsettled'
      exact ⟨c', answer, hleads.trans hrest, hc', hended, by rw [hswap, ← hattempt]⟩

/-- A merge joins the contest, and then its attempts are steps of it. -/
theorem merge_follows (hcombine : ∀ old new, Follows place s (combine old new))
    (hanswer : ∀ old new t, (combine old new t).1 = offer.combine old new)
    (hplace : s.place? nid = some place) (hc : c.Lawful place s) :
    ∃ c' answer, Leads place c.offers.length (c.move place (.join offer)) c' ∧
      c'.Settled c.offers.length ∧ c'.stage c.offers.length = .ended answer ∧
      Store.attempt (mergeM nid offer.payload combine) c.store =
        (answerOf nid s.maxAttempts answer, c'.store) := by
  obtain ⟨i, hi⟩ : ∃ i, i = c.offers.length := ⟨_, rfl⟩
  rw [← hi]
  obtain ⟨joined, hjoined⟩ : ∃ joined, joined = c.move place (.join offer) := ⟨_, rfl⟩
  have hoffers : joined.offers = c.offers ++ [offer] := by
    rw [hjoined]
    rfl
  have hoffer : joined.offers[i]? = some offer := by
    rw [hoffers, hi, List.getElem?_concat_length]
  have hstage : joined.stage i = .waiting := by
    rw [hjoined]
    exact hc.waiting i (Nat.le_of_eq hi.symm)
  have hsettled : joined.Settled (i + 1) := by
    intro j hj hlt
    rw [hoffers, List.length_append, List.length_singleton] at hlt
    omega
  have hleads : Leads place i joined ((joined.step place i).step place i) :=
    (leads_step place joined (Nat.le_refl i)).trans (leads_step place _ (Nat.le_refl i))
  obtain ⟨hstore, hinformed⟩ := first_steps hoffer hstage place
  have hlawful := hleads.lawful (hjoined ▸ hc.join offer)
  obtain ⟨c', answer, hrest, hc', hended, hattempt⟩ := attempt_follows hcombine hanswer hlawful
    (hleads.offers hoffer) hinformed ((hsettled.step place).step place)
  refine ⟨c', answer, hjoined ▸ hleads.trans hrest, hc', hended, ?_⟩
  have hplace' : c.store.place? nid = some place :=
    (place?_congr hc.hosts.settings.2 nid).trans hplace
  obtain ⟨spine, t, ht⟩ : ∃ spine t, touch place.index c.store = (spine, t) := ⟨_, _, rfl⟩
  have ht' : t = ((joined.step place i).step place i).store := by
    rw [hstore, hjoined]
    exact (congrArg Prod.snd ht).symm
  have hattempts : c'.store.maxAttempts = s.maxAttempts := (hrest.lawful hlawful).hosts.settings.1
  rw [← ht'] at hattempt
  simp only [Store.attempt, mergeM, hplace', ht, hattempt]
  cases answer with
  | some payload => rfl
  | none => simp only [hattempts, answerOf]

end Contest

open Contest

variable {nid : Nid} {place : Place} {s : SpineStore}

/-- Whatever merges into the slot of a nid is a contest for the slot. -/
theorem Merging.follows {α : Type} {x : StateM SpineStore α} (h : Merging nid x)
    (hplace : s.place? nid = some place) : Follows place s x := by
  induction h with
  | observe view => exact fun c hc => ⟨c, .refl .., fun i hi hlt => absurd hlt (by omega), rfl⟩
  | bind hx hf ihx ihf =>
    intro c hc
    obtain ⟨d, hleads, hd, hstore⟩ := ihx c hc
    obtain ⟨e, hleads', he, hstore'⟩ := ihf _ d (hleads.lawful hc)
    refine ⟨e, hleads.trans (hleads'.mono hleads.length_le), hleads'.settled hd he, ?_⟩
    rw [← hstore', ← hstore]
    rfl
  | merge offer hcombine hanswer ih =>
    intro c hc
    obtain ⟨d, answer, hleads, hd, hended, hmerge⟩ := merge_follows ih hanswer hplace hc
    exact ⟨d, (leads_join place _ c offer).trans hleads, hd, congrArg Prod.snd hmerge⟩

/-- Merges into one slot are linearizable. However many race for it, with whatever functions, and in
whatever order they load the spine, read the slot, compute and swap, each one that succeeds replaces
what the slot held at that moment by what it makes of it, each one that gives up lost all its
attempts, the slot holds what those that succeeded make of it in the order of their installs, and
nothing else is touched. A merge whose function merges into the slot itself, to any depth, is a case
of this: it joins such a race, and those that it started are over when it answers. -/
theorem merges_linearizable (hplace : s.place? nid = some place) (moves : List Move) :
    Linearized place s moves ((opening s).after place moves) ∧
    ∀ (offer : Offer) (combine : Bytes → Bytes → StateM SpineStore Bytes),
      (∀ old new, Merging nid (combine old new)) →
      (∀ old new t, (combine old new t).1 = offer.combine old new) →
      let c := (opening s).after place moves
      ∃ more answer, (∀ i, Move.step i ∈ more → c.offers.length ≤ i) ∧
        let c' := (opening s).after place (moves ++ .join offer :: more)
        c'.offers[c.offers.length]? = some offer ∧ c'.stage c.offers.length = .ended answer ∧
        c'.Settled c.offers.length ∧
        Store.attempt (mergeM nid offer.payload combine) c.store =
          (answerOf nid s.maxAttempts answer, c'.store) := by
  refine ⟨linearized place s moves, fun offer combine hcombine hanswer => ?_⟩
  intro c
  have hc : c.Lawful place s := (lawful_opening place s).after moves
  obtain ⟨d, answer, ⟨more, hmore, rfl⟩, hd, hended, hmerge⟩ :=
    merge_follows (fun old new => (hcombine old new).follows hplace) hanswer hplace hc
  have hafter : (opening s).after place (moves ++ .join offer :: more) =
      (c.move place (.join offer)).after place more := by
    rw [Contest.after_append]
    rfl
  refine ⟨more, answer, hmore, ?_⟩
  rw [hafter]
  refine ⟨offers_after ?_ more, hended, hd, hmerge⟩
  exact List.getElem?_concat_length ..

/-- Replaces a payload, but first merges another one into the slot of a nid. -/
def intrude (nid : Nid) (payload : Bytes) (_ update : Bytes) : StateM SpineStore Bytes := do
  let _ ← Store.attempt (mergeM nid payload fun _ update => return update)
  return update

private theorem merging_intrude (nid : Nid) (payload existing update : Bytes) :
    Merging nid (intrude nid payload existing update) :=
  .bind (.merge ⟨payload, fun _ update => update⟩ (fun _ update => .observe fun _ => update)
    fun _ _ _ => rfl) fun _ => .observe fun _ => update

/-- Two merges race for an empty slot, and the one that loses an attempt appends to what the other
has installed. Then a merge gives up whose function merges into the slot on every attempt. -/
theorem merges_linearizable_racing :
    let s := ofMedium .inMemory 4 4 2
    let place : Place := ⟨0, 0⟩
    let moves : List Move := [.join ⟨[1], (· ++ ·)⟩, .join ⟨[2], (· ++ ·)⟩, .step 0, .step 1,
      .step 0, .step 1, .step 0, .step 1, .step 0, .step 1, .step 1, .step 1]
    let c := (opening s).after place moves
    s.place? Nid.first = some place ∧ Linearized place s moves c ∧
      c.content place = some [1, 2] ∧ c.swapsOf 1 = [none, some [1, 2]] ∧
      ∃ more, let c' := (opening s).after place (moves ++ .join ⟨[4], fun _ new => new⟩ :: more)
        c'.stage 2 = .exhausted ∧ c'.content place = some [3] ∧ c'.Settled 2 ∧
        Store.attempt (mergeM Nid.first [4] (intrude Nid.first [3])) c.store =
          (.error (.concurrencyInvariant Nid.first 2), c'.store) := by
  intro s place moves c
  have hplace : s.place? Nid.first = some place := by decide +kernel
  obtain ⟨hlinearized, hmerge⟩ := merges_linearizable hplace moves
  obtain ⟨more, answer, -, -, hended, hsettled, hattempt⟩ := hmerge ⟨[4], fun _ new => new⟩
    (intrude Nid.first [3]) (merging_intrude _ _) fun _ _ _ => rfl
  have hlost : (Store.attempt (mergeM Nid.first [4] (intrude Nid.first [3])) c.store).1.toBool =
      false := by decide +kernel
  have hheld : ((touch 0 (Store.attempt (mergeM Nid.first [4] (intrude Nid.first [3]))
      c.store).2).2.cell? place).map Cell.payload = some [3] := by decide +kernel
  have hlength : c.offers.length = 2 := by decide +kernel
  rw [hlength] at hended hsettled
  rw [hattempt] at hlost hheld
  cases answer with
  | some payload => cases hlost
  | none =>
    exact ⟨hplace, hlinearized, by decide +kernel, by decide +kernel, more, hended, hheld, hsettled,
      hattempt⟩

end Chronicle.SpineStore
