import Bpmn.Proofs.Recut.Linking

/-!
# The same tree declared in another order

A model is `Redeclared` if its elements were declared in another order that leaves siblings in the
same order.  An injective renaming that keeps as much at every handle `Transports` the model, and
under it everything that is read off the tree is renamed, upward and downward: what is around an
element, what is below it, and what a connection sees in any mode.
-/

namespace Bpmn
namespace Model

/-- The second model is the first with other handles. -/
structure Redeclared (s : Handle → Handle) (m n : Model) : Prop extends
    Alike s m.extant n.extant m n where
  isLane : ∀ h ∈ m.extant, n.isLane (s h) = m.isLane h
  roots : n.roots = m.roots.map s
  children : ∀ h ∈ m.extant, n.children (s h) = (m.children h).map s

/-- A renaming of all handles under which a model is redeclared. -/
structure Transports (e : Handle → Handle) (m n : Model) : Prop extends Carries e m n where
  isLane : ∀ h, n.isLane (e h) = m.isLane h
  name? : ∀ h, n.name? (e h) = m.name? h
  roots : n.roots = m.roots.map e
  children : ∀ h, n.children (e h) = (m.children h).map e

section

variable {s : Handle → Handle} {m n : Model}

theorem mem_extant_of_mem_children {h c : Handle} (hc : c ∈ m.children h) :
    h ∈ m.extant ∧ c ∈ m.extant := by
  obtain ⟨hlt, hc⟩ := lt_of_mem_children hc
  exact ⟨Nat.lt_trans hlt hc, hc⟩

/-- A model that is redeclared is so under a renaming of all handles. -/
theorem Redeclared.exists_transports (hr : Redeclared s m n) (hm : m.BoundWithin m.extant) :
    ∃ e, Set.EqOn e s m.extant ∧ Transports e m n := by
  obtain ⟨e, hc, heq, hout⟩ := hr.toAlike.exists_carries nonLanes_subset_extant subset_rfl hm
  have hnone : ∀ h, h ∉ m.extant → m.element? h = none := fun h => element?_eq_none_iff.mpr
  refine ⟨e, heq, hc, fun h => ?_, fun h => ?_, ?_, fun h => ?_⟩
  · by_cases hh : h ∈ m.extant
    · rw [heq hh, hr.isLane h hh]
    · rw [Model.isLane, hout h hh, Model.isLane, hnone h hh]
  · by_cases hh : h ∈ m.extant
    · rw [heq hh, hr.name? h hh]
    · rw [Model.name?, hout h hh, Model.name?, hnone h hh]
  · rw [hr.roots]
    exact List.map_congr_left fun r hroot => (heq (mem_roots.mp hroot).1).symm
  · by_cases hh : h ∈ m.extant
    · rw [heq hh, hr.children h hh]
      exact List.map_congr_left fun c hc => (heq (mem_extant_of_mem_children hc).2).symm
    · -- Nothing stands in what does not exist.
      have hm : m.children h = [] := children_eq_nil (by rw [Arena.isContainer, hnone h hh]; rfl)
      have hn : n.children (e h) = [] :=
        children_eq_nil (by rw [Arena.isContainer, hout h hh]; rfl)
      rw [hm, hn, List.map_nil]

theorem mem_extant_iff {h : Handle} :
    h ∈ m.extant ↔ m.isPool h = true ∨ m.isLane h = true ∨ m.isLeaf h = true := by
  constructor
  · intro hh
    cases hl : m.isLane h with
    | true => exact .inr (.inl rfl)
    | false => exact (isPool_or_isLeaf_of_mem_nonLanes ⟨hh, hl⟩).imp_right .inr
  · rintro (hp | hl | hl)
    · exact mem_extant_of_isPool hp
    · obtain ⟨_, _, he⟩ := isLane_iff.mp hl
      exact Arena.lt_size he
    · exact (mem_nonLanes_of_isLeaf hl).1

end

namespace Transports

variable {e : Handle → Handle} {m n : Model} (hr : Transports e m n)
include hr

/-! ## Upward -/

theorem parent? (h : Handle) : n.parent? (e h) = (m.parent? h).map e := by
  cases hp : m.parent? h with
  | some p =>
    have hchild : e h ∈ n.children (e p) := by
      rw [hr.children]
      exact List.mem_map_of_mem (mem_children.mpr hp)
    exact mem_children.mp hchild
  | none =>
    by_cases hh : h ∈ m.extant
    · have hroot : e h ∈ n.roots := by
        rw [hr.roots]
        exact List.mem_map_of_mem (mem_roots.mpr ⟨hh, hp⟩)
      exact (mem_roots.mp hroot).2
    · have hout : e h ∉ n.extant := by
        rwa [mem_extant_iff, hr.isPool, hr.isLane, hr.isLeaf, ← mem_extant_iff]
      rw [Arena.parent?, element?_eq_none_iff.mpr hout]
      rfl

theorem ancestors (h : Handle) : n.ancestors (e h) = (m.ancestors h).map e := by
  induction h using outward (m := m) with
  | root h hp =>
    have hn : n.parent? (e h) = none := by rw [hr.parent?, hp, Option.map_none]
    rw [ancestors_of_root hp, ancestors_of_root hn, List.map_nil]
  | step h p hp ih =>
    have hn : n.parent? (e h) = some (e p) := by rw [hr.parent?, hp, Option.map_some]
    rw [ancestors_of_parent hp, ancestors_of_parent hn, lineage, lineage, ih, List.map_cons]

theorem poolOf? (h : Handle) : n.poolOf? (e h) = (m.poolOf? h).map e := by
  rw [Model.poolOf?, hr.ancestors, List.find?_map, Model.poolOf?]
  congr 1
  exact List.find?_congr fun a _ => hr.isPool a

theorem scopeOf (h : Handle) : n.scopeOf (e h) = m.scopeOf h := by
  rw [Model.scopeOf, hr.ancestors, ← List.map_reverse, List.filterMap_map, Model.scopeOf]
  congr 1
  exact List.filterMap_congr fun a _ => hr.name? a

/-! ## Downward -/

theorem subtree (h : Handle) : n.subtree (e h) = (m.subtree h).map e := by
  induction h using inward (m := m) with
  | step h ih =>
    rw [Model.subtree, descendants_eq, hr.children, List.flatMap_map, Model.subtree,
      descendants_eq, List.map_cons, List.map_flatMap, List.flatMap_congr ih]

theorem descendants (h : Handle) : n.descendants (e h) = (m.descendants h).map e := by
  have hsame := hr.subtree h
  rw [Model.subtree, Model.subtree, List.map_cons] at hsame
  exact (List.cons.inj hsame).2

theorem walk : n.walk = m.walk.map e := by
  rw [walk_eq, hr.roots, List.flatMap_map, walk_eq, List.map_flatMap]
  exact List.flatMap_congr fun r _ => hr.subtree r

theorem reshapes : Reshapes e m n where
  toCarries := hr.toCarries
  name? h _ := hr.name? h
  roots := hr.roots
  leavesIn p _ := by rw [leavesIn, hr.descendants, filter_map_eq hr.isLeaf, leavesIn]
  children_eq_nil_iff p _ := by rw [hr.children, List.map_eq_nil_iff]

theorem nodesIn (h : Handle) : n.nodesIn (e h) = (m.nodesIn h).map e := by
  rw [Model.nodesIn, hr.descendants, filter_map_eq hr.isNode, Model.nodesIn]

/-! ## Scopes -/

theorem localScope (mode : Visibility) (h : Handle) :
    n.localScope mode (e h) = (m.localScope mode h).map e := by
  rw [Model.localScope, Model.localScope, containerOf?_eq, containerOf?_eq, hr.parent?]
  cases m.parent? h with
  | none => rw [Option.map_none, hr.roots, filter_map_eq hr.isNode]
  | some p =>
    simp only [Option.map_some, hr.isLane, hr.poolOf?, hr.nodesIn]
    split
    · cases m.poolOf? p with
      | none => rfl
      | some q => exact hr.nodesIn q
    · rfl

theorem candidates (mode : Visibility) (h : Handle) :
    n.candidates mode (e h) = (m.candidates mode h).map e := by
  have hmessages : n.messageScope mode = (m.messageScope mode).map e := by
    cases mode with
    | poolWide => exact hr.reshapes.messageScope
    | laneLocal => rfl
  rw [Model.candidates, Model.candidates, hr.connection?]
  cases m.connection? h with
  | none => rfl
  | some c =>
    simp only [Option.map_some, Connection.isMessageFlow_rename]
    rw [apply_ite (List.map e), hmessages, hr.localScope]
    rfl

theorem resolve (mode : Visibility) (h : Handle) (endpoint : Endpoint) :
    n.resolve mode (e h) endpoint = (m.resolve mode h endpoint).map e :=
  hr.reshapes.resolve_of_candidates (hr.candidates mode h) endpoint

end Transports
end Model
end Bpmn
