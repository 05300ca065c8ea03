import Bpmn.Proofs.Check.Findings
import Bpmn.Proofs.Lists
import Bpmn.Proofs.Partition

/-!
# Visits and empty containers

A visitor that leaves containers to the default is called for just the nodes and connections, in
the order of the walk, be it started at the whole model or at one element.  The check of empty
containers is a visitor that looks at a container before it goes inside, so it warns of just the
containers in which nothing stands directly, in the order of the walk (`visits_follow_walk`).
-/

namespace Bpmn
namespace Check

open Model

/-- The warning that nothing stands directly in a pool or lane, which points at that alone. -/
structure WarnsOf (m : Model) (h : Handle) (d : Diagnostic) : Prop where
  finding : (∃ name, m.element? h = some (.pool name) ∧ d = emptyPool h name) ∨
    ∃ name parent, m.element? h = some (.lane name parent) ∧ d = emptyLane h name
  code : d.code = some (if m.isPool h then .emptyPool else .emptyLane)
  elements : d.labels.map Label.element = [h]

section

variable {m : Model} {h : Handle}

/-- Containers in which nothing stands directly. -/
def isBare (m : Model) (h : Handle) : Bool := m.isContainer h && (m.children h).isEmpty

theorem emptinessFindings_of_not_isBare (hb : isBare m h = false) : emptinessFindings m h = [] := by
  refine List.eq_nil_iff_forall_not_mem.mpr fun d hd => ?_
  obtain ⟨hkids, ⟨name, he, -⟩ | ⟨name, parent, he, -⟩⟩ := mem_emptinessFindings.mp hd
  · simp [isBare, Arena.isContainer, Element.isContainer, he, hkids] at hb
  · simp [isBare, Arena.isContainer, Element.isContainer, he, hkids] at hb

theorem emptinessFindings_of_isBare (hb : isBare m h = true) :
    ∃ d, emptinessFindings m h = [d] ∧ WarnsOf m h d := by
  obtain ⟨hc, hkids⟩ := Bool.and_eq_true_iff.mp hb
  obtain ⟨e, he, hsort⟩ := (Option.any_eq_true _ _).mp hc
  rw [emptinessFindings, if_pos hkids, he]
  cases e with
  | pool name =>
    have hpool : m.isPool h = true := isPool_iff.mpr ⟨name, he⟩
    exact ⟨_, rfl, .inl ⟨name, he, rfl⟩, by rw [hpool]; rfl, rfl⟩
  | lane name parent =>
    have hpool : m.isPool h = false := by rw [isPool, he]; rfl
    exact ⟨_, rfl, .inr ⟨name, parent, he, rfl⟩, by rw [hpool]; rfl, rfl⟩
  | node | connection => cases hsort

theorem forall₂_warnsOf (m : Model) : List.Forall₂ (WarnsOf m) (m.walk.filter (isBare m))
    (m.walk.flatMap (emptinessFindings m)) := by
  rw [← flatMap_filter_eq (p := isBare m) fun _ _ => emptinessFindings_of_not_isBare]
  have hsingle : ∀ h ∈ m.walk.filter (isBare m),
      List.Forall₂ (WarnsOf m) [h] (emptinessFindings m h) := by
    intro h hh
    obtain ⟨d, hd, hwarns⟩ := emptinessFindings_of_isBare (List.mem_filter.mp hh).2
    rw [hd]
    exact .cons hwarns .nil
  have hwarned := forall₂_flatMap hsingle
  rwa [List.flatMap_singleton'] at hwarned

end
end Check

namespace Model

open Check

variable {m : Model} {h : Handle}

theorem map_handle_calls (m : Model) (list : List Handle) :
    (list.filterMap m.call?).map Call.handle = list.filter m.isLeaf := by
  rw [List.map_filterMap, ← List.filterMap_eq_filter]
  refine List.filterMap_congr fun h _ => ?_
  have hsome := isSome_call? m h
  rw [Option.guard, isLeaf, ← hsome]
  cases hc : m.call? h with
  | none => rfl
  | some call => rw [Option.map_some, handle_of_call? hc]; rfl

theorem calls_eq_nil (hh : m.size ≤ h.index) :
    (h :: m.descendants h).filterMap m.call? = [] := by
  have hnone : m.element? h = none := Array.getElem?_eq_none hh
  have hc : m.isContainer h = false := by rw [Arena.isContainer, hnone]; rfl
  rw [descendants_eq_nil hc, List.filterMap_cons_none (by rw [call?, hnone]), List.filterMap_nil]

/-- By default a visitor is called once for each node and each connection in the order of the walk,
and from one element on for those among that element and what is below it.  The check of empty
containers warns of the containers in which nothing stands directly, each once and in the order of
the walk.  So a container that holds a lane is not warned of, and the lane is if it is empty. -/
theorem visits_follow_walk (m : Model) :
    (∀ (σ : Type) (node : Handle → Node → σ → σ) (connection : Handle → Connection → σ → σ) (s : σ),
      (Visitor.ofLeaves node connection).visitModel m s =
        (m.walk.filterMap m.call?).foldl (Visitor.ofLeaves node connection).answer s ∧
      ∀ x, (Visitor.ofLeaves node connection).visitElement m x s =
          ((x :: m.descendants x).filterMap m.call?).foldl
            (Visitor.ofLeaves node connection).answer s ∧
        (m.size ≤ x.index → (Visitor.ofLeaves node connection).visitElement m x s = s)) ∧
    (m.walk.filterMap m.call?).map Call.handle =
      m.walk.filter (fun h => m.isNode h || m.isConnection h) ∧
    (∀ h, ((m.walk.filterMap m.call?).map Call.handle).count h =
      if m.isNode h || m.isConnection h then 1 else 0) ∧
    ∀ r, ∃ warnings, (emptyContainers m r).diagnostics = r.diagnostics ++ warnings ∧
      List.Forall₂ (WarnsOf m)
        (m.walk.filter fun h => m.isContainer h && (m.children h).isEmpty) warnings ∧
      ∀ p l, l ∈ m.children p →
        (∀ d ∈ warnings, p ∉ d.labels.map Label.element) ∧
        (m.isLane l = true → m.children l = [] →
          ∃ d ∈ warnings, d.code = some .emptyLane ∧ d.labels.map Label.element = [l]) := by
  refine ⟨fun σ node connection s => ⟨Visitor.visitModel_ofLeaves s, fun x =>
      ⟨Visitor.visitElement_ofLeaves x s, fun hx => ?_⟩⟩,
    map_handle_calls m m.walk, fun h => ?_, fun r =>
      ⟨m.walk.flatMap (emptinessFindings m), ?_, forall₂_warnsOf m, fun p l hl => ⟨?_, ?_⟩⟩⟩
  · rw [Visitor.visitElement_ofLeaves, calls_eq_nil hx, List.foldl_nil]
  · rw [map_handle_calls]
    exact Partition.count_walk_filter (fun _ hl => hl) h
  · rw [emptyContainers_eq, Report.diagnostics_extend]
  · intro d hd hp
    obtain ⟨h, hzip, hwarns⟩ := exists_mem_zip_of_forall₂ (forall₂_warnsOf m).flip hd
    rw [hwarns.elements, List.mem_singleton] at hp
    have hbare := (List.mem_filter.mp (List.of_mem_zip hzip).2).2
    rw [isBare, ← hp, Bool.and_eq_true, List.isEmpty_iff] at hbare
    rw [hbare.2] at hl
    cases hl
  · intro hlane hkids
    have hbare : isBare m l = true := by
      rw [isBare, isContainer_eq, hlane, Bool.or_true, Bool.true_and, List.isEmpty_iff, hkids]
    obtain ⟨d, hzip, hwarns⟩ := exists_mem_zip_of_forall₂ (forall₂_warnsOf m)
      (List.mem_filter.mpr ⟨mem_walk.mpr (lt_of_mem_children hl).2, hbare⟩)
    refine ⟨d, (List.of_mem_zip hzip).2, ?_, hwarns.elements⟩
    rw [hwarns.code, isPool_eq_false_of_parent (mem_children.mp hl), if_neg Bool.false_ne_true]

end Model
end Bpmn
