import Bpmn.History
import Bpmn.Proofs.Sorts

/-!
# Containment is an ordered forest

Parents, lists of children and the list of the top level are kept apart, and `OrderedForest` says
what a reader of all three may rely on.  It holds of every model that edits can make, whatever
parents they name and whichever of them fail.
-/

namespace Bpmn
namespace Model

/-- What can be seen of containment from outside. -/
structure OrderedForest (m : Model) : Prop where
  /-- The walk lists the handles from zero to the last one, each once. -/
  walk_perm : m.walk.Perm ((List.range m.size).map Handle.mk)
  parent_iff_mem_children : ∀ {c : Handle}, c.index < m.size →
    ∀ p : Handle, m.parent? c = some p ↔ c ∈ m.children p
  count_children : ∀ {c p : Handle}, c ∈ m.children p → (m.children p).count c = 1
  parent_none_iff_mem_roots : ∀ {c : Handle}, c.index < m.size →
    (m.parent? c = none ↔ c ∈ m.roots)
  parent_earlier : ∀ {c p : Handle}, m.parent? c = some p →
    p < c ∧ (m.isPool p = true ∨ m.isLane p = true)
  roots_sorted : m.roots.Pairwise (· < ·)
  children_sorted : ∀ p : Handle, (m.children p).Pairwise (· < ·)
  pool_mem_roots : ∀ {h : Handle}, m.isPool h = true → h ∈ m.roots
  lane_not_mem_roots : ∀ {h : Handle}, m.isLane h = true → h ∉ m.roots

theorem orderedForest (m : Model) : m.OrderedForest where
  walk_perm := walk_perm
  parent_iff_mem_children _ _ := mem_children.symm
  count_children hc := List.count_eq_one_of_mem (children_nodup _) hc
  parent_none_iff_mem_roots hc := by rw [mem_roots, and_iff_right hc]
  parent_earlier hp := by
    refine ⟨parent_lt hp, ?_⟩
    rw [← Bool.or_eq_true, ← isContainer_eq]
    exact parent_isContainer hp
  roots_sorted := m.coherent.roots_sorted
  children_sorted := m.coherent.children_sorted
  pool_mem_roots := by
    intro h hp
    obtain ⟨name, he⟩ := isPool_iff.mp hp
    exact mem_roots.mpr ⟨Arena.lt_size he, parent?_of_isPool hp⟩
  lane_not_mem_roots := by
    intro h hl hr
    obtain ⟨p, hp⟩ := exists_parent_of_isLane hl
    rw [(mem_roots.mp hr).2] at hp
    cases hp

/-- Every history of edits leads to an ordered forest. -/
theorem orderedForest_ofEdits (edits : List Edit) : (ofEdits edits).OrderedForest :=
  orderedForest (ofEdits edits)

end Model
end Bpmn
