import Chronicle.Proofs.Path.Table
import Chronicle.Proofs.Spine.Durability
import Chronicle.Proofs.Store.Identified
import Chronicle.Proofs.Store.Perform

/-!
# What a store has persisted

Each part of a store has a mark for its changes: the registry, the path graph and every spine in
memory. Without the mark, the part is the one that the medium has. This holds in every moment of
every session, whatever fails.
-/

namespace Chronicle

/-- The path table has the edges of a graph: it was never written and there are none, or it is that
of a graph with the same edges, and as many. -/
inductive Backing.HasEdges (backing : Backing) (g : PathGraph) : Prop
  | missing (h : backing.readTable Store.pathTable = .ok none)
      (hempty : ∀ path, g.origins path = [])
  | written {written : PathGraph}
      (h : backing.readTable Store.pathTable = .ok (some written.encodeTable))
      (hedges : ∀ path edge, edge ∈ g.origins path ↔ edge ∈ written.origins path)
      (hsize : written.size = g.size)

/-- A table has the edges of every graph with the same ones. -/
theorem Backing.HasEdges.congr {backing next : Backing} {g g' : PathGraph} (h : backing.HasEdges g)
    (htable : next.readTable Store.pathTable = backing.readTable Store.pathTable)
    (hedges : g'.edges = g.edges) : next.HasEdges g' := by
  have horigins (path : Nid) : g'.origins path = g.origins path := by
    rw [PathGraph.origins, PathGraph.origins, hedges]
  cases h with
  | missing h hempty =>
    exact .missing (htable.trans h) fun path => (horigins path).trans (hempty path)
  | written h hmem hsize =>
    refine .written (htable.trans h) (fun path edge => ?_) ?_
    · rw [horigins]
      exact hmem path edge
    · rw [hsize, PathGraph.size, PathGraph.size, hedges]

namespace Store

/-- Whenever the store is flushed, the format can count the aliases of every nid. -/
def persisting : Usage where
  admits _ := True
  allows s
    | .flush => s.registry.Writable
    | _ => True

/-- The identity table is written when the format can count the aliases of every nid. -/
def persistingRules : Rules where
  stored _ _ := True
  linked _ _ := True
  identity s := s.registry.Writable
  paths _ := True
  spines _ := True

/-- What is allowed of a store that persists is done by the rules. -/
theorem persisting_permits {s : Store} {operation : Operation} (h : persisting.allows s operation) :
    persistingRules.Permits s operation := by
  cases operation with
  | payloads request => cases request <;> trivial
  | addPathOrigin => exact ⟨trivial, trivial⟩
  | flush => exact ⟨fun _ => h, fun _ _ => trivial, fun _ _ => trivial⟩
  | _ => trivial

variable {s t : Store} {config : Config} {medium : Medium} {opened : Store}

/-! ## Identities -/

/-- Every operation only adds to the registry. -/
theorem invariant_grows (r : Registry) :
    Invariant unrestrictedRules fun s => r.Grows s.registry :=
  invariant_of_change fun h hchange => h.trans hchange.grows

/-- The identity table stays that of the registry. -/
theorem invariant_inscribed : Invariant unrestrictedRules Inscribed :=
  invariant_of_change Inscribed.change

/-- If the format can count the aliases at the end of a session, it could do so at every flush. -/
theorem Session.persisting_of_writable {usage : Usage} (hs : Session usage opened s)
    (h : s.registry.Writable) : Session persisting opened s := by
  induction hs with
  | opened => exact .opened
  | @performed s operation _ _ ih =>
    have hgrows := ((invariant_grows s.registry).perform (.refl _)
      (unrestricted_permits s operation)).holds
    have hwritable := hgrows.writable h
    refine .performed (ih hwritable) ?_
    cases operation with
    | flush => exact hwritable
    | _ => trivial
  | faults _ faults ih => exact .faults (ih h) faults

/-! ## Tables -/

/-- What every moment knows of the tables. -/
structure Tabled (s : Store) : Prop where
  identified : s.Identified
  persisted : ∃ g, s.backing.HasEdges g
  settled : s.paths.changed = false → s.backing.HasEdges s.paths

private theorem Tabled.congr (h : s.Tabled) (hidentified : t.Identified)
    (hpaths : t.paths = s.paths)
    (htable : t.backing.readTable pathTable = s.backing.readTable pathTable) : t.Tabled := by
  obtain ⟨g, hg⟩ := h.persisted
  refine ⟨hidentified, ⟨g, hg.congr htable rfl⟩, fun hchanged => ?_⟩
  rw [hpaths] at hchanged
  exact (h.settled hchanged).congr htable (by rw [hpaths])

/-- Every change by the rules keeps what is known of the tables. -/
theorem Tabled.change (h : s.Tabled) (hchange : Change persistingRules s t) : t.Tabled := by
  have hidentified : t.Identified := h.identified.change hchange id
  cases hchange with
  | pool => exact h.congr hidentified rfl rfl
  | resolved => exact h.congr hidentified rfl rfl
  | linked _ _ hadd =>
    refine ⟨hidentified, h.persisted, fun hchanged => ?_⟩
    rw [(PathGraph.origins_of_addOrigin hadd).2.1] at hchanged
    cases hchanged
  | touched htransition =>
    exact h.congr hidentified rfl (by rw [backing, htransition.backing_eq (by simp)])
  | installed _ htransition =>
    exact h.congr hidentified rfl (by rw [backing, htransition.backing_eq (by simp)])
  | flushed _ _ _ hpaths => exact h.congr hidentified rfl hpaths
  | identity _ hwrites => exact h.congr hidentified rfl hwrites.other
  | paths _ hwrites =>
    have hedges : Backing.HasEdges _ s.paths.settled :=
      .written (hwrites.written rfl) (fun _ _ => Iff.rfl) rfl
    exact ⟨hidentified, ⟨_, hedges⟩, fun _ => hedges⟩
  | accessed _ _ hpaths => exact h.congr hidentified rfl hpaths

/-- What is known of the tables is an invariant. -/
theorem invariant_tabled : Invariant persistingRules Tabled where
  change := Tabled.change
  stored _ _ _ := trivial
  resolved _ _ := trivial
  held _ _ := trivial
  spines _ _ _ := trivial

/-- What is known of the tables is known when a store is opened. -/
theorem Opens.tabled (h : Opens config medium opened) (hidentities : medium.backing.HasIdentities)
    (hedges : ∃ g, medium.backing.HasEdges g) : opened.Tabled := by
  have hbacking : opened.backing = medium.backing := h.backing_eq
  have hpersisted : opened.backing.HasEdges opened.paths := by
    rw [hbacking]
    generalize hopened : opened.paths = paths
    have hpaths := h.paths
    rw [hopened] at hpaths
    obtain ⟨g, hg⟩ := hedges
    cases hpaths with
    | missing hnone => exact .missing hnone fun path => by simp [PathGraph.origins, PathGraph.empty]
    | @decoded table _ hsome hdecode =>
      cases hg with
      | missing hnone =>
        rw [hnone] at hsome
        cases hsome
      | @written written hwritten =>
        rw [hwritten] at hsome
        cases hsome
        obtain ⟨-, rfl⟩ := PathGraph.decodeTable_encodeTable_iff.mp hdecode
        exact .written hwritten (fun _ _ => PathGraph.mem_origins_reread)
          (PathGraph.size_reread written).symm
  exact ⟨h.identified hidentities, ⟨_, hpersisted⟩, fun _ => hpersisted⟩

/-- Sessions leave nothing on a medium but tables of stores. -/
theorem Leaves.tabled {backing : Backing} (h : Leaves persisting backing) :
    backing.HasIdentities ∧ ∃ g, backing.HasEdges g := by
  induction h with
  | blank h =>
    have hedges : Backing.HasEdges _ .empty :=
      .missing h.paths fun path => by simp [PathGraph.origins, PathGraph.empty]
    exact ⟨Or.inl h.identity, _, hedges⟩
  | session _ _ hopen hs ih =>
    have htabled := invariant_tabled.session ((opens_of_overMedium hopen).tabled ih.1 ih.2)
      (fun _ _ _ hallowed => persisting_permits hallowed) hs
    exact ⟨htabled.identified.persisted, htabled.persisted⟩

/-! ## Spines -/

/-- What every moment knows of the spines, if they could be listed when the store was opened. -/
structure Spined (config : Config) (s : Store) : Prop where
  spineSize_eq : s.spines.spineSize = config.spineSize
  attempts_eq : s.spines.maxAttempts = config.maxCasRetries
  size_pos : 0 < config.spineSize
  attempts_pos : 0 < config.maxCasRetries
  coherent : s.spines.Coherent
  traced : s.spines.Traced

/-- Every event keeps what is known of the spines. -/
theorem Spined.transition {spines : SpineStore} {event : SpineStore.Event} (h : Spined config s)
    (htransition : SpineStore.Transition s.spines event spines) :
    Spined config { s with spines } := by
  have hsize : 0 < s.spines.spineSize := h.spineSize_eq ▸ h.size_pos
  exact ⟨htransition.spineSize_eq.trans h.spineSize_eq,
    htransition.maxAttempts_eq.trans h.attempts_eq, h.size_pos, h.attempts_pos,
    h.coherent.transition hsize htransition, h.traced.transition h.coherent htransition⟩

private theorem Spined.accessed {next : Medium} {registry : Registry} {paths : PathGraph}
    (h : Spined config s)
    (hread : ∀ index, next.backing.readSpine index = s.backing.readSpine index) :
    Spined config { s with registry, paths, spines := { s.spines with medium := next } } :=
  ⟨h.spineSize_eq, h.attempts_eq, h.size_pos, h.attempts_pos, h.coherent.accessed hread,
    h.traced.accessed hread⟩

/-- Every change by the rules keeps what is known of the spines. -/
theorem Spined.change (h : Spined config s) (hchange : Change persistingRules s t) :
    Spined config t := by
  cases hchange with
  | pool => exact ⟨h.spineSize_eq, h.attempts_eq, h.size_pos, h.attempts_pos, h.coherent, h.traced⟩
  | resolved => exact h.accessed fun _ => rfl
  | linked => exact h.accessed fun _ => rfl
  | touched htransition => exact h.transition htransition
  | installed _ htransition => exact h.transition htransition
  | flushed _ htransition => exact h.transition htransition
  | identity _ hwrites => exact h.accessed hwrites.readSpine
  | paths _ hwrites => exact h.accessed hwrites.readSpine
  | accessed hread => exact h.accessed hread

/-- What is known of the spines is an invariant. -/
theorem invariant_spined (config : Config) : Invariant persistingRules (Spined config) where
  change := Spined.change
  stored _ _ _ := trivial
  resolved _ _ := trivial
  held _ _ := trivial
  spines _ _ _ := trivial

/-- What is known of the spines is known when a store is opened over a medium whose spines are
listed. -/
theorem Opens.spined {indices : List Nat} (h : Opens config medium opened)
    (hlisting : (Medium.spineIndices medium).1 = .ok indices) : Spined config opened := by
  obtain ⟨hpower, -, -, -, -, -, hattempts⟩ := Config.validate_eq_ok_iff.mp h.valid
  have hsize := Config.pos_of_isPowerOfTwo hpower
  obtain ⟨read, hsame, hspines⟩ := h.spines
  have hopened : (SpineStore.ofMedium read config.spineSize config.ioPermits
      config.maxCasRetries).Coherent ∧ SpineStore.Traced _ :=
    SpineStore.traced_after hsize (hsame.spineIndices.trans hlisting) []
  have hsizes : opened.spines.spineSize = config.spineSize ∧
      opened.spines.maxAttempts = config.maxCasRetries := by
    rw [hspines]
    exact ⟨rfl, rfl⟩
  refine ⟨hsizes.1, hsizes.2, hsize, Nat.pos_of_ne_zero hattempts, ?_, ?_⟩
  · rw [hspines]
    exact hopened.1
  · rw [hspines]
    exact hopened.2

end Store

end Chronicle
