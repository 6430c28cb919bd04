import Chronicle.Proofs.Path.Table
import Chronicle.Proofs.Store.Identified
import Chronicle.Proofs.Store.Perform

/-!
# Edges between nids that were handed out

The path table refers to nids as the spines do, but a flush writes it even if the identity table
could not be written. As long as that does not happen, the edges on the medium only mention nids
that the identity table accounts for, so that a nid which is handed out after the next opening has
no edges. Otherwise it can start out with the origins of a nid that was lost.
-/

namespace Chronicle

/-- The graph that is persisted, if there is one. -/
def Backing.paths? (backing : Backing) : Option PathGraph :=
  match backing.readTable Store.pathTable with
  | .ok (some table) => (PathGraph.decodeTable table).toOption
  | _ => none

private theorem Backing.paths?_congr {backing next : Backing}
    (h : next.readTable Store.pathTable = backing.readTable Store.pathTable) :
    next.paths? = backing.paths? := by
  rw [paths?, paths?, h]

/-- A graph that was written is read back with the same edges. -/
theorem Backing.mentions_of_readTable {backing : Backing} {g decoded : PathGraph} {nid : Nid}
    (h : backing.readTable Store.pathTable = .ok (some g.encodeTable))
    (hpaths : backing.paths? = some decoded) (hnid : decoded.Mentions nid) : g.Mentions nid := by
  simp only [paths?, h] at hpaths
  cases hdecode : PathGraph.decodeTable g.encodeTable with
  | error error =>
    rw [hdecode] at hpaths
    cases hpaths
  | ok found =>
    rw [hdecode] at hpaths
    cases hpaths
    obtain ⟨-, rfl⟩ := PathGraph.decodeTable_encodeTable_iff.mp hdecode
    obtain ⟨path, edge, hedge, hends⟩ := hnid
    exact ⟨path, edge, PathGraph.mem_origins_reread.mp hedge, hends⟩

/-- The edges on a medium only mention nids that its identity table accounts for. -/
structure Backing.Links (backing : Backing) : Prop where
  identities : backing.HasIdentities
  mentioned : ∀ g nid, backing.paths? = some g → g.Mentions nid →
    Nid.first.raw ≤ nid.raw ∧ ∃ next, backing.next? = some next ∧ nid.raw < next.raw

namespace Store

/-- Edges lead between nids that were handed out. Whenever the store is flushed, the format can
count the aliases of every nid, and the path table is not written if the identity table could not
be. -/
def linking : Usage where
  admits _ := True
  allows s
    | .flush => s.registry.Writable ∧ ((∃ error, (flushRegistry s).1 = .error error) →
        (flushPaths (flushRegistry s).2).1 ≠ .ok 1)
    | operation => ∀ nid ∈ operation.links, s.registry.Allocated nid

/-- The path table is written when the registry has no changes. -/
def linkingRules : Rules where
  stored _ _ := True
  linked s nid := s.registry.Allocated nid
  identity s := s.registry.Writable
  paths s := s.registry.changed = false
  spines _ := True

/-- The edges on the medium mention nids that the identity table accounts for, and those in memory
nids that the registry has handed out. -/
structure Links (s : Store) : Prop where
  identified : s.Identified
  linked : ∀ nid, s.paths.Mentions nid → s.registry.Allocated nid
  persisted : s.backing.Links

variable {s t : Store} {nid : Nid}

private theorem linking_permits {operation : Operation} (h : linking.allows s operation) :
    linkingRules.Permits s operation := by
  cases operation with
  | payloads request => cases request <;> trivial
  | appendVersion => trivial
  | addPathOrigin path edge =>
    exact ⟨h path (by simp [Operation.links]), h edge.origin (by simp [Operation.links])⟩
  | flush =>
    obtain ⟨hwritable, htable⟩ := h
    refine ⟨fun _ => hwritable, fun hchanged hsettled => ?_, fun _ _ => trivial⟩
    -- If the path table was written, the identity table was not in the way.
    have hfirst := flushesRegistry s
    have hsecond := flushesPaths (flushRegistry s).2
    generalize flushRegistry s = first at *
    obtain ⟨answer, after⟩ := first
    dsimp only at *
    cases hfirst with
    | unchanged hclean => exact hclean
    | written => rfl
    | failed =>
      refine absurd ?_ (htable ⟨_, rfl⟩)
      generalize flushPaths _ = second at *
      obtain ⟨answer', last⟩ := second
      cases hsecond with
      | unchanged hclean =>
        rw [hchanged] at hclean
        cases hclean
      | written => rfl
      | failed =>
        rw [hchanged] at hsettled
        cases hsettled
  | _ => trivial

/-- What does not change the edges and hands no nid back keeps the rules, if the path table is not
written and the identity table accounts for as many nids as before. -/
theorem Links.congr (h : s.Links) (hidentified : t.Identified) (hpaths : t.paths = s.paths)
    (hallocated : ∀ nid, s.registry.Allocated nid → t.registry.Allocated nid)
    (htable : t.backing.readTable pathTable = s.backing.readTable pathTable)
    (hnext : ∀ next, s.backing.next? = some next →
      ∃ later, t.backing.next? = some later ∧ next.raw ≤ later.raw) : t.Links := by
  refine ⟨hidentified, fun nid hnid => ?_, hidentified.persisted, fun g nid hg hnid => ?_⟩
  · rw [hpaths] at hnid
    exact hallocated nid (h.linked nid hnid)
  · rw [Backing.paths?_congr htable] at hg
    obtain ⟨hfirst, next, hpersisted, hlt⟩ := h.persisted.mentioned g nid hg hnid
    obtain ⟨later, hlater, hle⟩ := hnext next hpersisted
    exact ⟨hfirst, later, hlater, Int32.lt_of_lt_of_le hlt hle⟩

/-- Every change by the rules keeps the edges away from nids that were not handed out. -/
theorem Links.change (h : s.Links) (hchange : Change linkingRules s t) : t.Links := by
  have hidentified : t.Identified := h.identified.change hchange id
  have hkept (hpaths : t.paths = s.paths)
      (htable : t.backing.readTable pathTable = s.backing.readTable pathTable) : t.Links :=
    h.congr hidentified hpaths (fun _ => hchange.allocated) htable
      (h.identified.next?_change hchange id)
  cases hchange with
  | pool => exact hkept rfl rfl
  | resolved => exact hkept rfl rfl
  | linked hpath horigin hadd =>
    refine ⟨hidentified, fun nid hnid => ?_, h.persisted⟩
    obtain rfl | rfl | hnid := PathGraph.mentions_of_addOrigin hadd hnid
    · exact hpath
    · exact horigin
    · exact h.linked nid hnid
  | touched htransition => exact hkept rfl (by rw [backing, htransition.backing_eq (by simp)])
  | installed _ htransition => exact hkept rfl (by rw [backing, htransition.backing_eq (by simp)])
  | flushed _ _ _ hpaths => exact hkept rfl hpaths
  | identity _ hwrites => exact hkept rfl hwrites.other
  | paths hrule hwrites =>
    refine ⟨hidentified, h.linked, hidentified.persisted, fun g nid hg hnid => ?_⟩
    have hmentions := Backing.mentions_of_readTable (hwrites.written rfl) hg hnid
    have hnext := h.identified.next?_eq hrule
    rw [← Backing.next?_congr hwrites.other] at hnext
    exact ⟨(h.linked nid hmentions).1, _, hnext, (h.linked nid hmentions).2⟩
  | accessed _ _ hpaths => exact hkept rfl hpaths

/-- Every change by the rules keeps edges between nids that are accounted for. -/
theorem invariant_links : Invariant linkingRules Links where
  change := Links.change
  stored _ _ _ := trivial
  resolved _ _ := trivial
  held _ _ := trivial
  spines _ _ _ := trivial

/-- A store that is opened over such a medium has edges between nids that it knows. -/
theorem Opens.links {config : Config} {medium : Medium} {opened : Store}
    (h : Opens config medium opened) (hmedium : medium.backing.Links) : opened.Links := by
  have hidentified := h.identified hmedium.identities
  have hbacking : opened.backing = medium.backing := h.backing_eq
  refine ⟨hidentified, fun nid hnid => ?_, by rwa [hbacking]⟩
  generalize hopened : opened.paths = paths at hnid
  have hpaths := h.paths
  rw [hopened] at hpaths
  cases hpaths with
  | missing => exact absurd hnid PathGraph.not_mentions_empty
  | decoded hsome hdecode =>
    have hread : medium.backing.paths? = some paths := by
      simp only [Backing.paths?, hsome, hdecode]
      rfl
    obtain ⟨hfirst, next, hnext, hlt⟩ := hmedium.mentioned paths nid hread hnid
    rw [← hbacking] at hnext
    exact ⟨hfirst, Int32.lt_of_lt_of_le hlt (hidentified.next_le next hnext)⟩

/-- Every session that is opened on such a medium keeps it so. -/
theorem Session.links {config : Config} {rooted : Bool} {medium next : Medium} {opened s : Store}
    (hs : Session linking opened s) (hmedium : medium.backing.Links)
    (hopen : overMedium config rooted medium = .ok opened next) : s.Links :=
  invariant_links.session ((opens_of_overMedium hopen).links hmedium)
    (fun _ _ _ hallowed => linking_permits hallowed) hs

private theorem Leaves.links {backing : Backing} (h : Leaves linking backing) : backing.Links := by
  induction h with
  | @blank backing h =>
    refine ⟨Or.inl h.identity, fun g nid hg => ?_⟩
    simp [Backing.paths?, h.paths] at hg
  | session _ _ hopen hs ih => exact (hs.links ih hopen).persisted

/-- As long as no flush writes the path table without the identity table, every nid that an edge on
the medium mentions is smaller than the one that the identity table hands out next, however sessions
follow one another and wherever each of them ends. So in each later session, a nid that is handed
out newly has no origins and is the origin of no path. -/
theorem links_allocated {backing : Backing} (h : Leaves linking backing) :
    (∀ g nid, backing.paths? = some g → g.Mentions nid →
      ∃ next, backing.next? = some next ∧ nid.raw < next.raw) ∧
    ∀ (config : Config) rooted faults opened next s,
      overMedium config rooted { backing, faults } = .ok opened next → Session linking opened s →
      ∀ id nid t, s.registry.nidFor? id = none → resolve id s = .ok nid t →
        ¬ t.paths.Mentions nid := by
  have hmedium := h.links
  refine ⟨fun g nid hg hnid => (hmedium.mentioned g nid hg hnid).2,
    fun config rooted faults opened next s hopen hs id nid t hnew hresolve => ?_⟩
  have hbacking : ({ backing, faults } : Medium).backing.Links := hmedium
  have hlinks := hs.links hbacking hopen
  obtain ⟨rfl, registry, rfl⟩ := eq_next_of_resolve hnew hresolve
  exact fun hnid => not_allocated_next s (hlinks.linked _ hnid)

private theorem not_error_of_toBool {ε α : Type} {x : Except ε α} (h : x.toBool = true) :
    ¬ ∃ error, x = .error error := by
  rintro ⟨error, rfl⟩
  cases h

/-- A session hands out two nids, makes one the origin of the other and is flushed. The next session
hands out a nid without origins. -/
theorem links_allocated_flushed :
    ∃ backing g, Leaves linking backing ∧ backing.paths? = some g ∧ g.Mentions ⟨-2147483642⟩ ∧
      (∃ next, backing.next? = some next ∧ -2147483642 < next.raw) ∧
      ∃ opened next id t, overMedium { spineSize := 4 } false { backing } = .ok opened next ∧
        resolve id opened = .ok ⟨-2147483640⟩ t ∧ ¬ t.paths.Mentions ⟨-2147483640⟩ := by
  let edge : PathOrigin := { origin := ⟨-2147483641⟩, time := 7 }
  obtain ⟨opened, next, s, hopen, hs, hpaths, hhands⟩ :
      ∃ opened next s, overMedium { spineSize := 4 } false Medium.inMemory = .ok opened next ∧
        Session linking opened s ∧
        (s.backing.paths?.map fun g => g.origins ⟨-2147483642⟩) = some [edge] ∧
        handsOut s.backing ⟨3⟩ ⟨-2147483640⟩ (fun _ => true) = true := by
    refine ⟨_, _, _, rfl, (((Session.opened.andThen (.resolveAliases [⟨1⟩]) ?_).andThen
      (.resolveAliases [⟨2⟩]) ?_).andThen (.addPathOrigin ⟨-2147483642⟩ edge) ?_).andThen .flush ?_,
      by decide +kernel, by decide +kernel⟩
    · exact fun nid hnid => by cases hnid
    · exact fun nid hnid => by cases hnid
    · intro nid hnid
      obtain rfl | hnid := List.mem_cons.mp hnid
      · constructor <;> decide +kernel
      · obtain rfl := List.mem_singleton.mp hnid
        constructor <;> decide +kernel
    · refine ⟨Registry.writable_of_toList (by decide +kernel), ?_⟩
      exact fun herror => absurd herror (not_error_of_toBool (by decide +kernel))
  obtain ⟨g, hg, horigins⟩ := Option.map_eq_some_iff.mp hpaths
  have hmentions : g.Mentions ⟨-2147483642⟩ :=
    ⟨_, edge, horigins ▸ List.mem_singleton_self edge, Or.inl rfl⟩
  have hleaves : Leaves linking s.backing :=
    .session (.blank Backing.blank_inMemory) trivial hopen hs
  obtain ⟨hallocated, hfresh⟩ := links_allocated hleaves
  obtain ⟨reopened, next', id, t, hreopen, hunknown, hresolve, -⟩ := exists_of_handsOut hhands
  exact ⟨s.backing, g, hleaves, hg, hmentions, hallocated g _ hg hmentions, reopened, next', id, t,
    hreopen, hresolve, hfresh _ _ {} _ _ _ hreopen .opened _ _ _ hunknown hresolve⟩

/-- Edges lead between nids that were handed out. -/
def relating : Usage where
  admits _ := True
  allows s operation := ∀ nid ∈ operation.links, s.registry.Allocated nid

/-- A medium in memory whose first write of a table fails. -/
def failingTable : Medium :=
  { Medium.inMemory with faults := { tableWrites := .first 1 } }

/-- A flush that fails to write the identity table writes the path table nevertheless. After the
session ends there, the edges on the medium mention a nid that the identity table does not account
for, and the next session hands it out with an origin. -/
theorem link_unaccounted :
    ∃ backing g, Leaves relating backing ∧ backing.paths? = some g ∧ g.Mentions ⟨-2147483642⟩ ∧
      backing.next? = none ∧
      ∃ opened next id t, overMedium { spineSize := 4 } false { backing } = .ok opened next ∧
        opened.registry.nidFor? id = none ∧ resolve id opened = .ok ⟨-2147483642⟩ t ∧
        t.paths.Mentions ⟨-2147483642⟩ := by
  let edge : PathOrigin := { origin := ⟨-2147483641⟩, time := 7 }
  obtain ⟨opened, next, s, hopen, hs, hpaths, hnext, hhands⟩ :
      ∃ opened next s, overMedium { spineSize := 4 } false failingTable = .ok opened next ∧
        Session relating opened s ∧
        (s.backing.paths?.map fun g => g.origins ⟨-2147483642⟩) = some [edge] ∧
        s.backing.next? = none ∧
        handsOut s.backing ⟨3⟩ ⟨-2147483642⟩
          (fun t => t.paths.origins ⟨-2147483642⟩ = [edge]) = true := by
    refine ⟨_, _, _, rfl, (((Session.opened.andThen (.resolveAliases [⟨1⟩]) ?_).andThen
      (.resolveAliases [⟨2⟩]) ?_).andThen (.addPathOrigin ⟨-2147483642⟩ edge) ?_).andThen .flush ?_,
      by decide +kernel, by decide +kernel, by decide +kernel⟩
    · exact fun nid hnid => by cases hnid
    · exact fun nid hnid => by cases hnid
    · intro nid hnid
      obtain rfl | hnid := List.mem_cons.mp hnid
      · constructor <;> decide +kernel
      · obtain rfl := List.mem_singleton.mp hnid
        constructor <;> decide +kernel
    · exact fun nid hnid => by cases hnid
  have hblank : failingTable.backing.Blank := Backing.blank_inMemory
  obtain ⟨g, hg, hpersisted⟩ := Option.map_eq_some_iff.mp hpaths
  obtain ⟨reopened, next', id, t, hreopen, hunknown, hresolve, htest⟩ := exists_of_handsOut hhands
  have horigins := of_decide_eq_true htest
  refine ⟨s.backing, g, .session (.blank hblank) trivial hopen hs, hg, ⟨_, edge, ?_, Or.inl rfl⟩,
    hnext, reopened, next', id, t, hreopen, hunknown, hresolve, _, edge, ?_, Or.inl rfl⟩
  · exact hpersisted ▸ List.mem_singleton_self edge
  · exact horigins ▸ List.mem_singleton_self edge

end Store

end Chronicle
