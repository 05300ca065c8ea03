import Bpmn.Proofs.Check.Duplicates
import Bpmn.Proofs.Recut.Findings
import Bpmn.Proofs.Redeclared.Tree

/-!
# The same findings in another order of declaration

Checks read a model in tree order, so a model that was declared in another order has the same
findings under other handles (`Transports.findings`).  Every label of a finding points at an
element of the model.
-/

namespace Bpmn
namespace Check

open Model

/-- What is found on an empty element, told by its sort and name. -/
theorem emptinessFindings_eq (m : Model) (h : Handle) :
    emptinessFindings m h =
      if (m.children h).isEmpty then
        if m.isPool h then (m.name? h).toList.map (emptyPool h)
        else if m.isLane h then (m.name? h).toList.map (emptyLane h) else []
      else [] := by
  rw [emptinessFindings, isPool, isLane, name?]
  cases m.element? h with
  | none => rfl
  | some e => cases e <;> rfl

section

variable {e : Handle → Handle} {m n : Model} (hr : Transports e m n)
include hr

theorem kept (h : Handle) : Kept e m n h := ⟨hr.name? h, hr.poolOf? h⟩

/-! ## Names -/

theorem isNodeNamed_rename (name : String) (h : Handle) :
    isNodeNamed n name (e h) = isNodeNamed m name h := by
  rw [isNodeNamed, hr.node?, isNodeNamed]

theorem isNodeAt_rename (scope name : String) (h : Handle) :
    isNodeAt n scope name (e h) = isNodeAt m scope name h := by
  rw [isNodeAt, isNodeNamed_rename hr, hr.scopeOf, isNodeAt]

/-- The first of a sort in one walk is the first of that sort in the other. -/
theorem find?_walk_rename {p q : Handle → Bool} (hpq : ∀ h, q (e h) = p h) :
    n.walk.find? q = (m.walk.find? p).map e := by
  rw [hr.walk, List.find?_map]
  congr 1
  exact List.find?_congr fun h _ => hpq h

theorem duplicateFinding?_rename (h : Handle) (name : String) :
    duplicateFinding? n (e h) name = (duplicateFinding? m h name).map (Diagnostic.rename e) := by
  rw [duplicateFinding?, duplicateFinding?, hr.scopeOf,
    find?_walk_rename hr (isNodeAt_rename hr (m.scopeOf h) name)]
  cases m.walk.find? (isNodeAt m (m.scopeOf h) name) with
  | none => rfl
  | some first =>
    simp only [Option.map_some, Option.bind_eq_bind, Option.bind_some, hr.injective.eq_iff]
    split <;> rfl

theorem reuseFinding?_rename (h : Handle) (name : String) :
    reuseFinding? n (e h) name = (reuseFinding? m h name).map (Diagnostic.rename e) := by
  rw [reuseFinding?, reuseFinding?, find?_walk_rename hr (isNodeNamed_rename hr name)]
  cases m.walk.find? (isNodeNamed m name) with
  | none => rfl
  | some first =>
    have hhome : ((n.parent? (e first)).bind n.name?) = (m.parent? first).bind m.name? := by
      rw [hr.parent?, Option.bind_map]
      exact Option.bind_congr fun p _ => hr.name? p
    have helsewhere : (n.parent? (e first) != n.parent? (e h)) =
        (m.parent? first != m.parent? h) := by
      rw [Bool.eq_iff_iff, bne_iff_ne, bne_iff_ne, hr.parent?, hr.parent?, Ne,
        (Option.map_injective hr.injective).eq_iff]
    simp only [Option.map_some, Option.bind_eq_bind, Option.bind_some, hhome, helsewhere]
    rw [hr.parent?, Option.isSome_map]
    split <;> rfl

theorem nameFindings_rename (h : Handle) :
    nameFindings n (e h) = (nameFindings m h).map (Diagnostic.rename e) := by
  rw [nameFindings, nameFindings, hr.node?]
  cases m.node? h with
  | none => rfl
  | some node =>
    simp only [duplicateFinding?_rename hr, reuseFinding?_rename hr, Option.toList_map,
      List.map_append]

/-! ## Empty containers -/

theorem emptinessFindings_rename (h : Handle) :
    emptinessFindings n (e h) = (emptinessFindings m h).map (Diagnostic.rename e) := by
  rw [emptinessFindings_eq, emptinessFindings_eq, hr.children, List.isEmpty_map, hr.isPool,
    hr.isLane, hr.name?]
  cases m.name? h with
  | none => simp
  | some name =>
    simp only [apply_ite (List.map (Diagnostic.rename e)), List.map_nil]
    rfl

/-! ## All findings -/

theorem findings_rename : n.findings = m.findings.map (Diagnostic.rename e) := by
  have hends : ∀ h endpoint, ∀ b ∈ m.binding? h endpoint, Kept e m n b := fun _ _ b _ => kept hr b
  rw [findings, hr.reshapes.connections, hr.walk, List.flatMap_map, List.flatMap_map,
    List.flatMap_map, findings, List.map_append, List.map_append, List.map_flatMap,
    List.map_flatMap, List.map_flatMap]
  congr 1
  · exact List.flatMap_congr fun h _ => connectionFindings_rename hr.reshapes (hends h)
  · congr 1
    · exact List.flatMap_congr fun h _ => nameFindings_rename hr h
    · exact List.flatMap_congr fun h _ => emptinessFindings_rename hr h

end

/-! ## Where the labels point -/

section

variable {m : Model} {h : Handle} {d : Diagnostic} {l : Label}

theorem mem_of_nameFindings (hh : h ∈ m.walk) (hd : d ∈ nameFindings m h) (hl : l ∈ d.labels) :
    l.element ∈ m.extant := by
  obtain ⟨n, -, hd | hd⟩ := mem_nameFindings.mp hd
  · obtain ⟨first, hfind, -, rfl⟩ := duplicateFinding?_eq_some.mp hd
    simp only [duplicateName, List.mem_cons, List.not_mem_nil, or_false] at hl
    rcases hl with rfl | rfl
    · exact mem_walk.mp hh
    · exact mem_walk.mp (List.mem_of_find?_eq_some hfind)
  · obtain ⟨first, hfind, -, -, rfl⟩ := reuseFinding?_eq_some.mp hd
    simp only [nameReused, List.mem_cons, List.not_mem_nil, or_false] at hl
    rcases hl with rfl | rfl
    · exact mem_walk.mp hh
    · exact mem_walk.mp (List.mem_of_find?_eq_some hfind)

theorem mem_of_emptinessFindings (hd : d ∈ emptinessFindings m h) (hl : l ∈ d.labels) :
    l.element = h := by
  obtain ⟨-, ⟨name, -, rfl⟩ | ⟨name, parent, -, rfl⟩⟩ := mem_emptinessFindings.mp hd
  · exact congrArg Label.element (List.mem_singleton.mp hl)
  · exact congrArg Label.element (List.mem_singleton.mp hl)

/-- Diagnostics point at elements of the model. -/
theorem mem_extant_of_findings (hm : m.BoundWithin m.extant) (hd : d ∈ m.findings)
    (hl : l ∈ d.labels) : l.element ∈ m.extant := by
  rw [findings, List.mem_append, List.mem_append, List.mem_flatMap, List.mem_flatMap,
    List.mem_flatMap] at hd
  rcases hd with ⟨h, -, hd⟩ | ⟨h, hh, hd⟩ | ⟨h, hh, hd⟩
  · exact mem_of_connectionFindings hm nonLanes_subset_extant hd hl
  · exact mem_of_nameFindings hh hd hl
  · rw [mem_of_emptinessFindings hd hl]
    exact mem_walk.mp hh

end
end Check
end Bpmn
