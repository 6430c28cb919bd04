import Chronicle.Proofs.Calculator.Question
import Chronicle.Proofs.Spine.Service

/-!
# What calculators answer

What a coordinate sees is determined by the route from its path and by the payloads that are stored.
A calculator is sound if what it remembers in the present generation agrees with these. Then it
answers what they determine, however much it remembers, and stays sound.
-/

namespace Chronicle

/-- The history of the stamp that is stored for a nid, if a stamp is. -/
def StampHistory.storedIn? (content : Nid → Option Bytes) (stamp : Nid) : Option StampHistory :=
  (content stamp).bind fun payload => (decode payload).toOption

/-- The fields of the stamp that is stored for a nid, if a stamp is. -/
def StampFields.storedIn? (content : Nid → Option Bytes) (stamp : Nid) : Option StampFields :=
  (StampHistory.storedIn? content stamp).map StampHistory.current

namespace Calculator

open SpineStore (Scan OutlastsTouch)
open StampFields (storedIn?)

variable {scene : Scene} {content : Nid → Option Bytes} {coordinate : Coordinate} {c : Calculator}
  {s : SpineStore} {α β : Type}

/-- The latest version in a chronology, by the payloads that are stored. -/
def latestOfIn (coordinate : Coordinate) (route : Route) (content : Nid → Option Bytes)
    (chronology : Chronology) : Latest Version :=
  coordinate.latest route
    (chronology.versions.map fun version => (version, storedIn? content version.stamp))

/-- The latest version in a payload, by the payloads that are stored. -/
def latestInIn (coordinate : Coordinate) (route : Route) (content : Nid → Option Bytes)
    (payload : Bytes) : Latest Version :=
  if payload.head? = some StampHistory.tag then .absent
  else
    match Chronology.decode payload with
    | .ok chronology => latestOfIn coordinate route content chronology
    | .error _ => .absent

/-- The answer to a question that a route and the payloads that are stored determine. -/
def Question.reply (coordinate : Coordinate) (route : Route) (content : Nid → Option Bytes) :
    Question → Reply
  | stamp nid => .fields (storedIn? content nid)
  | reach path => .reach route[path]?
  | isVisible nid => .visible ((storedIn? content nid).bind (coordinate.sees? route)).isSome
  | latest nid =>
    .latest ((content nid).elim .absent (latestInIn coordinate route content))
  | latestOf chronology => .latest (latestOfIn coordinate route content chronology)
  | relativePosition a b =>
    .position (route.relativePosition (a, storedIn? content a) (b, storedIn? content b))

/-- A calculator of a coordinate agrees with the paths and with what the store serves: what it
remembers in the present generation is right, and it remembers nothing of a later one. -/
structure Sound (scene : Scene) (content : Nid → Option Bytes) (c : Calculator) : Prop where
  generation_le : c.generation ≤ scene.generation
  stamps_le : ∀ stamp generation fields, c.stamps.find? stamp = some (generation, fields) →
    generation ≤ c.generation
  route_eq : c.generation = scene.generation →
    c.route = scene.paths.route c.coordinate.path c.coordinate.time
  remembered : c.generation = scene.generation → ∀ stamp fields,
    c.remembered? stamp = some fields → storedIn? content stamp = some fields

/-- A new calculator is sound, since it remembers nothing and has the present route. -/
theorem sound_make (coordinate : Coordinate) (scene : Scene) (content : Nid → Option Bytes) :
    (make coordinate scene).Sound scene content := by
  refine ⟨Nat.le_refl _, fun stamp generation fields h => ?_, fun _ => rfl,
    fun _ stamp fields h => ?_⟩
  · simp [make, Cache.find?] at h
  · simp [remembered?, make, Cache.find?] at h

/-- A calculator that is asked in a later generation forgets its route and, in effect, all
fields. -/
theorem Sound.refreshed (h : c.Sound scene content) : (c.refreshed scene).Sound scene content := by
  rw [Calculator.refreshed]
  split
  · rename_i hstale
    rw [isStale, bne_iff_ne] at hstale
    have hlt : c.generation < scene.generation := Nat.lt_of_le_of_ne h.generation_le hstale
    refine ⟨Nat.le_refl _, fun stamp generation fields hfind => ?_, fun _ => rfl,
      fun _ stamp fields hfound => ?_⟩
    · have := h.stamps_le stamp generation fields hfind
      change generation ≤ scene.generation
      omega
    · simp only [remembered?] at hfound
      split at hfound
      · rename_i generation found hfind
        have := h.stamps_le stamp generation found hfind
        split at hfound
        · rename_i heq
          change generation = scene.generation at heq
          omega
        · cases hfound
      · cases hfound
  · exact h

/-- A calculator keeps its coordinate when it is brought up to date. -/
theorem coordinate_refreshed (c : Calculator) (scene : Scene) :
    (c.refreshed scene).coordinate = c.coordinate := by
  rw [refreshed]
  split <;> rfl

/-- A calculator that was brought up to date is of the present generation. -/
theorem generation_refreshed (c : Calculator) (scene : Scene) :
    (c.refreshed scene).generation = scene.generation := by
  rw [refreshed]
  split
  · rfl
  · rename_i hstale
    simpa [isStale] using hstale

/-- What is remembered is found under its stamp, and everything else as before. -/
theorem remembered?_remember (c : Calculator) (stamp other : Nid) (fields : StampFields) :
    (c.remember stamp fields).remembered? other =
      if other = stamp then some fields else c.remembered? other := by
  simp only [remembered?, remember, Cache.find?_insert]
  by_cases hother : other = stamp
  · simp [hother]
  · simp only [if_neg hother]
    rfl

/-- What is evicted is forgotten, and nothing else. -/
theorem remembered?_evict (c : Calculator) (stamp other : Nid) :
    remembered? { c with stamps := c.stamps.evict stamp } other =
      if other = stamp then none else c.remembered? other := by
  simp only [remembered?, Cache.find?_evict]
  by_cases hother : other = stamp
  · simp [hother]
  · simp only [if_neg hother]

/-- Fields that are stored can be remembered. -/
theorem Sound.remember {stamp : Nid} {fields : StampFields} (h : c.Sound scene content)
    (hfields : storedIn? content stamp = some fields) :
    (c.remember stamp fields).Sound scene content := by
  refine ⟨h.generation_le, fun other generation found hfind => ?_, h.route_eq,
    fun hcurrent other found hfound => ?_⟩
  · simp only [Calculator.remember, Cache.find?_insert] at hfind
    split at hfind
    · cases hfind
      exact Nat.le_refl _
    · exact h.stamps_le other generation found hfind
  · rw [remembered?_remember] at hfound
    split at hfound
    · rename_i heq
      cases hfound
      rw [heq, hfields]
    · exact h.remembered hcurrent other found hfound

/-- What a calculator forgets of a stamp does no harm. -/
theorem Sound.evict (h : c.Sound scene content) (stamp : Nid) :
    Sound scene content { c with stamps := c.stamps.evict stamp } := by
  refine ⟨h.generation_le, fun other generation fields hother => ?_, h.route_eq,
    fun hcurrent other fields hother => ?_⟩
  · rw [Cache.find?_evict] at hother
    split at hother
    · cases hother
    · exact h.stamps_le other generation fields hother
  · rw [remembered?_evict] at hother
    split at hother
    · cases hother
    · exact h.remembered hcurrent other fields hother

/-- A calculator and a store are in order for a coordinate: what the calculator remembers agrees
with what the store serves. -/
structure InOrder (scene : Scene) (content : Nid → Option Bytes) (coordinate : Coordinate)
    (c : Calculator) (s : SpineStore) : Prop where
  sound : c.Sound scene content
  coordinate_eq : c.coordinate = coordinate
  serves : s.Serves content

/-- The fields of a stamp are those that are remembered. Otherwise its nid is looked up, and if a
stamp is found, its fields are remembered from then on. -/
theorem fields?_cases (stamp : Nid) (c : Calculator) (s : SpineStore) :
    let stored := storedIn? (fun nid => (SpineStore.lookup nid s).1) stamp
    (∃ fields, c.remembered? stamp = some fields ∧
      Calculator.fields? stamp c s = ((some fields, c), s)) ∨
    c.remembered? stamp = none ∧ Calculator.fields? stamp c s =
      ((stored, stored.elim c (c.remember stamp)), (SpineStore.lookup stamp s).2) := by
  intro stored
  cases hremembered : c.remembered? stamp with
  | some fields =>
    refine Or.inl ⟨fields, rfl, ?_⟩
    simp only [Calculator.fields?, hremembered]
  | none =>
    refine Or.inr ⟨rfl, ?_⟩
    obtain ⟨payload?, t, hlookup⟩ : ∃ payload? t, SpineStore.lookup stamp s = (payload?, t) :=
      ⟨_, _, rfl⟩
    simp only [stored, Calculator.fields?, hremembered, storedIn?, StampHistory.storedIn?, hlookup]
    cases payload? with
    | none => rfl
    | some payload =>
      rw [Option.map_some, Option.bind_some]
      cases StampHistory.decode payload <;> rfl

/-- The fields of a stamp are answered as they are remembered or else as they are stored. -/
theorem InOrder.fields? (h : InOrder scene content coordinate c s) (stamp : Nid) :
    ∃ c' s', Calculator.fields? stamp c s =
        (((c.remembered? stamp).or (storedIn? content stamp), c'), s') ∧
      InOrder scene content coordinate c' s' ∧ c'.generation = c.generation := by
  obtain ⟨fields, hremembered, hrun⟩ | ⟨hremembered, hrun⟩ := fields?_cases stamp c s
  · exact ⟨c, s, by rw [hrun, hremembered, Option.some_or], h, rfl⟩
  · obtain ⟨t, hlookup, hserves⟩ := h.serves.lookup stamp
    have hstored : storedIn? (fun nid => (SpineStore.lookup nid s).1) stamp =
        storedIn? content stamp := by
      simp only [storedIn?, StampHistory.storedIn?, hlookup]
    rw [hstored, hlookup] at hrun
    rw [hremembered, Option.none_or]
    cases hfields : storedIn? content stamp with
    | none =>
      rw [hfields] at hrun
      exact ⟨c, t, hrun, ⟨h.sound, h.coordinate_eq, hserves⟩, rfl⟩
    | some fields =>
      rw [hfields] at hrun
      exact ⟨_, t, hrun, ⟨h.sound.remember hfields, h.coordinate_eq, hserves⟩, rfl⟩

/-- A calculator and a store are in order, and the calculator is up to date. -/
structure Current (scene : Scene) (content : Nid → Option Bytes) (coordinate : Coordinate)
    (c : Calculator) (s : SpineStore) : Prop extends InOrder scene content coordinate c s where
  generation_eq : c.generation = scene.generation

/-- An activity answers the same from all states of one kind and leads to states of another. -/
def Answers (P Q : Calculator → SpineStore → Prop) (x : Scan Calculator α) (a : α) : Prop :=
  ∀ c s, P c s → ∃ c' s', x.run c s = ((a, c'), s') ∧ Q c' s'

section

variable {P Q R : Calculator → SpineStore → Prop} {x : Scan Calculator α} {a : α} {b : β}

/-- An answer that reads nothing is the same from all states. -/
theorem answers_pure (h : ∀ c s, P c s → Q c s) : Answers P Q (pure a) a :=
  fun c s hs => ⟨c, s, rfl, h c s hs⟩

/-- Two activities one after the other answer what the second does after the first. -/
theorem Answers.bind {f : α → Scan Calculator β} (hx : Answers P Q x a)
    (hf : Answers Q R (f a) b) : Answers P R (x >>= f) b := by
  intro c s hs
  obtain ⟨c', s', hrun, hs'⟩ := hx c s hs
  obtain ⟨c'', s'', hrun', hs''⟩ := hf c' s' hs'
  refine ⟨c'', s'', ?_, hs''⟩
  change (match x.run c s with | ((a, c), s) => (f a).run c s) = _
  rw [hrun]
  exact hrun'

/-- A function of an answer is answered from the same states. -/
theorem Answers.map (hx : Answers P Q x a) (f : α → β) : Answers P Q (f <$> x) (f a) := by
  intro c s hs
  obtain ⟨c', s', hrun, hs'⟩ := hx c s hs
  refine ⟨c', s', ?_, hs'⟩
  change (match x.run c s with | ((a, c), s) => ((f a, c), s)) = _
  rw [hrun]

/-- Answers hold from fewer states and lead to more. -/
theorem Answers.mono {P' Q' : Calculator → SpineStore → Prop} (hx : Answers P Q x a)
    (hP : ∀ c s, P' c s → P c s) (hQ : ∀ c s, Q c s → Q' c s) : Answers P' Q' x a := by
  intro c s hs
  obtain ⟨c', s', hrun, hs'⟩ := hx c s (hP c s hs)
  exact ⟨c', s', hrun, hQ c' s' hs'⟩

end

section

variable (scene : Scene) (content : Nid → Option Bytes) (coordinate : Coordinate)

/-- The route that is present in a scene. -/
abbrev presentRoute : Route :=
  scene.paths.route coordinate.path coordinate.time

/-- What follows once a calculator has been brought up to date. -/
theorem answers_refresh {f : Calculator → Scan Calculator β} {b : β}
    (hf : ∀ c : Calculator, c.coordinate = coordinate → c.route = presentRoute scene coordinate →
      Answers (Current scene content coordinate) (Current scene content coordinate) (f c) b) :
    Answers (InOrder scene content coordinate) (Current scene content coordinate)
      (refresh scene >>= f) b := by
  intro c s hs
  have hcoordinate : (c.refreshed scene).coordinate = coordinate :=
    (coordinate_refreshed c scene).trans hs.coordinate_eq
  have hroute := hs.sound.refreshed.route_eq (generation_refreshed c scene)
  rw [hcoordinate] at hroute
  exact hf _ hcoordinate hroute _ s
    ⟨⟨hs.sound.refreshed, hcoordinate, hs.serves⟩, generation_refreshed c scene⟩

/-- The fields of a stamp are answered as they are stored. -/
theorem answers_fields? (stamp : Nid) :
    Answers (Current scene content coordinate) (Current scene content coordinate)
      (fields? stamp) (storedIn? content stamp) := by
  intro c s h
  obtain ⟨c', s', hrun, horder, hgeneration⟩ := h.toInOrder.fields? stamp
  refine ⟨c', s', ?_, horder, hgeneration.trans h.generation_eq⟩
  cases hremembered : c.remembered? stamp with
  | some fields =>
    rw [hremembered] at hrun
    rw [h.sound.remembered h.generation_eq stamp fields hremembered]
    exact hrun
  | none =>
    rw [hremembered] at hrun
    exact hrun

/-- Every version is paired with the fields that are stored for its stamp. -/
theorem answers_withFields (versions : List Version) :
    Answers (Current scene content coordinate) (Current scene content coordinate)
      (withFields versions)
      (versions.map fun version => (version, storedIn? content version.stamp)) := by
  induction versions with
  | nil => exact answers_pure fun _ _ hs => hs
  | cons version versions ih =>
    exact (answers_fields? scene content coordinate version.stamp).bind
      (ih.bind (answers_pure fun _ _ hs => hs))

/-- The latest version of a chronology is the one by what is stored, and the calculator is up to
date then. -/
theorem answers_latestOf (chronology : Chronology) :
    Answers (InOrder scene content coordinate) (Current scene content coordinate)
      (Calculator.latestOf scene chronology)
      (latestOfIn coordinate (presentRoute scene coordinate) content chronology) := by
  refine answers_refresh scene content coordinate fun c hcoordinate hroute => ?_
  refine (answers_withFields scene content coordinate chronology.versions).bind ?_
  rw [hcoordinate, hroute]
  exact answers_pure fun _ _ hs => hs

/-- The latest version in a payload is the one by what is stored. -/
theorem answers_latestIn (payload : Bytes) :
    Answers (InOrder scene content coordinate) (InOrder scene content coordinate)
      (latestIn scene payload)
      (latestInIn coordinate (presentRoute scene coordinate) content payload) := by
  rw [latestIn, latestInIn]
  split
  · exact answers_pure fun _ _ hs => hs
  · cases Chronology.decode payload with
    | ok chronology =>
      exact (answers_latestOf scene content coordinate chronology).mono (fun _ _ hs => hs)
        fun _ _ hs => hs.toInOrder
    | error error => exact answers_pure fun _ _ hs => hs

/-- The latest version of a nid is the one in the payload that is stored for it, and absent if none
is. -/
theorem answers_latest (nid : Nid) :
    Answers (InOrder scene content coordinate) (InOrder scene content coordinate)
      (Calculator.latest scene nid)
      ((content nid).elim .absent
        (latestInIn coordinate (presentRoute scene coordinate) content)) := by
  have hlookup : Answers (InOrder scene content coordinate) (InOrder scene content coordinate)
      (liftM (SpineStore.lookup nid : StateM SpineStore (Option Bytes)) :
        Scan Calculator (Option Bytes)) (content nid) := by
    intro c s hs
    obtain ⟨t, hrun, hserves⟩ := hs.serves.lookup nid
    refine ⟨c, t, ?_, hs.sound, hs.coordinate_eq, hserves⟩
    exact congrArg (fun result => ((result.1, c), result.2)) hrun
  refine hlookup.bind ?_
  cases content nid with
  | none => exact answers_pure fun _ _ hs => hs
  | some payload => exact answers_latestIn scene content coordinate payload

/-- Every question is answered as the present route and the stored payloads determine. -/
theorem answers_ask (question : Question) :
    Answers (InOrder scene content coordinate) (InOrder scene content coordinate)
      (question.ask scene)
      (question.reply coordinate (presentRoute scene coordinate) content) := by
  have hweaken {α : Type} {x : Scan Calculator α} {a : α}
      (hx : Answers (InOrder scene content coordinate) (Current scene content coordinate) x a) :
      Answers (InOrder scene content coordinate) (InOrder scene content coordinate) x a :=
    hx.mono (fun _ _ hs => hs) fun _ _ hs => hs.toInOrder
  have hfields := answers_fields? scene content coordinate
  cases question with
  | stamp nid =>
    exact (hweaken (answers_refresh _ _ _ fun c _ _ => hfields nid)).map Reply.fields
  | reach path =>
    refine (hweaken (answers_refresh _ _ _ fun c _ hroute => ?_)).map Reply.reach
    rw [hroute]
    exact answers_pure fun _ _ hs => hs
  | isVisible nid =>
    refine (hweaken (answers_refresh _ _ _ fun c hcoordinate hroute => ?_)).map Reply.visible
    rw [hcoordinate, hroute]
    exact (hfields nid).bind (answers_pure fun _ _ hs => hs)
  | latest nid => exact (answers_latest scene content coordinate nid).map Reply.latest
  | latestOf chronology =>
    exact (hweaken (answers_latestOf scene content coordinate chronology)).map Reply.latest
  | relativePosition a b =>
    refine (hweaken (answers_refresh _ _ _ fun c _ hroute => ?_)).map Reply.position
    rw [hroute]
    exact (hfields a).bind ((hfields b).bind (answers_pure fun _ _ hs => hs))

/-- Being in order outlasts every answer. -/
theorem outlastsAnswers_inOrder : OutlastsAnswers scene (InOrder scene content coordinate) := by
  refine ⟨fun c s index hreaches hs =>
      ⟨hs.sound, hs.coordinate_eq, hs.serves.touch (Or.inr hreaches)⟩,
    fun c s hs => ⟨hs.sound.refreshed, (coordinate_refreshed c scene).trans hs.coordinate_eq,
      hs.serves⟩, fun stamp c s hs => ?_⟩
  obtain ⟨c', s', hrun, horder, -⟩ := hs.fields? stamp
  simp only [StateT.run, hrun]
  exact horder

end

end Calculator

end Chronicle
