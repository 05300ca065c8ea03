import Bpmn.Proofs.Homes
import Bpmn.Proofs.Linking
import Bpmn.Proofs.Renaming.Alike

/-!
# Pools cut into lanes in another way

A model is `Recut` if its pools are divided into other lanes, with the nodes and connections below
each pool still in the same order.  An injective renaming that keeps as much at every handle
`Reshapes` the model, and under it the lists that look through lanes are renamed member by member:
what is below a pool, and what is left of the walk without pools and lanes.
-/

namespace Bpmn
namespace Model

/-- The nodes and connections below an element in tree order. -/
def leavesIn (m : Model) (h : Handle) : List Handle := (m.descendants h).filter m.isLeaf

/-- The second model is the first with other handles and with other lanes in its pools. -/
structure Recut (s : Handle → Handle) (m n : Model) : Prop extends
    Alike s m.nonLanes n.nonLanes m n where
  roots : n.roots = m.roots.map s
  leavesIn : ∀ p, m.isPool p = true → n.leavesIn (s p) = (m.leavesIn p).map s
  /-- A pool in which nothing stands directly has no process, so lanes alone may make one. -/
  children_eq_nil_iff : ∀ p, m.isPool p = true → (n.children (s p) = [] ↔ m.children p = [])

/-- A renaming of all handles under which a model is recut. -/
structure Reshapes (e : Handle → Handle) (m n : Model) : Prop extends Carries e m n where
  name? : ∀ h, m.isLane h = false → n.name? (e h) = m.name? h
  roots : n.roots = m.roots.map e
  leavesIn : ∀ p, m.isPool p = true → n.leavesIn (e p) = (m.leavesIn p).map e
  children_eq_nil_iff : ∀ p, m.isPool p = true → (n.children (e p) = [] ↔ m.children p = [])

section

variable {m : Model} {h : Handle}

theorem mem_nonLanes_of_isLeaf (hl : m.isLeaf h = true) : h ∈ m.nonLanes := by
  rw [isLeaf, Bool.or_eq_true] at hl
  rcases hl with hn | hc
  · exact mem_nonLanes_of_isNode hn
  · exact mem_nonLanes_of_isConnection hc

theorem isPool_or_isLeaf_of_mem_nonLanes (hh : h ∈ m.nonLanes) :
    m.isPool h = true ∨ m.isLeaf h = true := by
  obtain ⟨hlt, hl⟩ := hh
  have he : m.element? h = some m.elements[h.index] := Array.getElem?_eq_getElem hlt
  have hleaf := isLeaf_eq_not_isContainer he
  rw [isContainer_eq, hl, Bool.or_false] at hleaf
  cases hp : m.isPool h with
  | true => exact .inl rfl
  | false => rw [hp] at hleaf; exact .inr hleaf

theorem isLeaf_of_mem_leavesIn {p : Handle} (hh : h ∈ m.leavesIn p) : m.isLeaf h = true :=
  (List.mem_filter.mp hh).2

theorem poolOf?_of_isPool (hp : m.isPool h = true) : m.poolOf? h = none :=
  poolOf?_eq_none_iff.mpr (parent?_of_isPool hp)

theorem mem_leavesIn_iff {p : Handle} (hp : m.isPool p = true) :
    h ∈ m.leavesIn p ↔ m.isLeaf h = true ∧ m.poolOf? h = some p := by
  rw [Model.leavesIn, List.mem_filter, mem_descendants_iff_poolOf? hp, and_comm]

/-- The walk without containers.  Top-level elements come with what is below them. -/
theorem walk_filter_isLeaf :
    m.walk.filter m.isLeaf = m.roots.flatMap fun r => if m.isPool r then m.leavesIn r else [r] := by
  rw [walk_eq, List.filter_flatMap]
  refine List.flatMap_congr fun r hr => ?_
  split
  next hp =>
    have hl : ¬ m.isLeaf r = true := fun hl => by
      rw [isPool_eq_false_of_isLeaf hl] at hp
      cases hp
    rw [subtree, List.filter_cons_of_neg hl, Model.leavesIn]
  next hp =>
    rw [Bool.not_eq_true] at hp
    have hl : m.isLeaf r = true :=
      (isPool_or_isLeaf_of_mem_nonLanes (mem_nonLanes_of_root hr)).resolve_left (by simp [hp])
    rw [subtree_of_root (mem_roots.mp hr).2 hp, List.filter_cons_of_pos hl, List.filter_nil]

end

section

variable {s : Handle → Handle} {m n : Model}

/-- A model that is recut is so under a renaming of all handles. -/
theorem Recut.exists_reshapes (hr : Recut s m n) (hm : m.BoundWithin m.nonLanes) :
    ∃ e, Set.EqOn e s m.nonLanes ∧ Reshapes e m n := by
  obtain ⟨e, hc, heq, hout⟩ := hr.toAlike.exists_carries subset_rfl nonLanes_subset_extant hm
  refine ⟨e, heq, hc, fun h hl => ?_, ?_, fun p hp => ?_, fun p hp => ?_⟩
  · by_cases hh : h ∈ m.nonLanes
    · rw [heq hh, hr.name? h hh]
    · have hnone := element?_eq_none_iff.mpr fun hlt => hh ⟨hlt, hl⟩
      rw [Model.name?, hout h hh, Model.name?, hnone]
  · rw [hr.roots]
    exact List.map_congr_left fun r hroot => (heq (mem_nonLanes_of_root hroot)).symm
  · rw [heq (mem_nonLanes_of_isPool hp), hr.leavesIn p hp]
    refine List.map_congr_left fun h hh => ?_
    exact (heq (mem_nonLanes_of_isLeaf (isLeaf_of_mem_leavesIn hh))).symm
  · rw [heq (mem_nonLanes_of_isPool hp), hr.children_eq_nil_iff p hp]

end

namespace Reshapes

variable {e : Handle → Handle} {m n : Model} (hr : Reshapes e m n)
include hr

/-! ## Lists that look through lanes -/

theorem pools : n.pools = m.pools.map e := by
  rw [Model.pools, hr.roots, filter_map_eq hr.isPool, Model.pools]

theorem descendants_filter {p q : Handle → Bool} (hpq : ∀ h, q (e h) = p h)
    (hp : ∀ h, p h = true → m.isLeaf h = true) (hq : ∀ h, q h = true → n.isLeaf h = true)
    {pool : Handle} (hpool : m.isPool pool = true) :
    (n.descendants (e pool)).filter q = ((m.descendants pool).filter p).map e := by
  have hleaves := hr.leavesIn pool hpool
  rw [Model.leavesIn, Model.leavesIn] at hleaves
  rw [← filter_of_imp hq, hleaves, filter_map_eq hpq, filter_of_imp hp]

theorem nodesIn {pool : Handle} (hpool : m.isPool pool = true) :
    n.nodesIn (e pool) = (m.nodesIn pool).map e :=
  hr.descendants_filter hr.isNode (fun _ => isLeaf_of_isNode) (fun _ => isLeaf_of_isNode) hpool

theorem walk_filter {p q : Handle → Bool} (hpq : ∀ h, q (e h) = p h)
    (hp : ∀ h, p h = true → m.isLeaf h = true) (hq : ∀ h, q h = true → n.isLeaf h = true) :
    n.walk.filter q = (m.walk.filter p).map e := by
  have hleaves : n.walk.filter n.isLeaf = (m.walk.filter m.isLeaf).map e := by
    rw [walk_filter_isLeaf, walk_filter_isLeaf, hr.roots, List.flatMap_map, List.map_flatMap]
    refine List.flatMap_congr fun r _ => ?_
    rw [hr.isPool]
    split
    next hpool => exact hr.leavesIn r hpool
    next => rfl
  rw [← filter_of_imp hq, hleaves, filter_map_eq hpq, filter_of_imp hp]

theorem connections : n.connections = m.connections.map e :=
  hr.walk_filter hr.isConnection (fun _ => isLeaf_of_isConnection)
    fun _ => isLeaf_of_isConnection

/-! ## The pool around an element -/

theorem poolOf? {h : Handle} (hh : h ∈ m.nonLanes) : n.poolOf? (e h) = (m.poolOf? h).map e := by
  rcases isPool_or_isLeaf_of_mem_nonLanes hh with hpool | hleaf
  · rw [poolOf?_of_isPool hpool, poolOf?_of_isPool (by rw [hr.isPool, hpool]), Option.map_none]
  · cases hp : m.poolOf? h with
    | none =>
      have hroot : h ∈ m.roots := (mem_roots_iff_poolOf? (mem_walk.mpr hh.1)).mpr hp
      have himage : e h ∈ n.roots := hr.roots ▸ List.mem_map_of_mem hroot
      exact poolOf?_eq_none_iff.mpr (mem_roots.mp himage).2
    | some p =>
      have hpool := (poolOf?_eq_some_iff.mp hp).2
      have hmem : e h ∈ n.leavesIn (e p) := by
        rw [hr.leavesIn p hpool]
        exact List.mem_map_of_mem ((mem_leavesIn_iff hpool).mpr ⟨hleaf, hp⟩)
      exact ((mem_leavesIn_iff (by rw [hr.isPool, hpool])).mp hmem).2

end Reshapes
end Model
end Bpmn
