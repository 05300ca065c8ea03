import Bpmn.Proofs.Check.Verdict
import Bpmn.Proofs.Linking
import Bpmn.Proofs.Lists

/-!
# Open ends

Linking lists the ends that it leaves unbound while it goes through a model, and the checks report
the ends that are not bound when they come to them.  Both go by connections in tree order and take
the source before the target, and what linking binds moves nothing in the tree.  So the errors on
open ends are the list of the linking pass, entry by entry (`open_ends_reported`).
-/

namespace Bpmn
namespace Check

open Model

/-- The error on an end that is not bound. -/
def openFinding? (m : Model) (place : Handle × Endpoint) : Option Diagnostic :=
  (m.connection? place.1).map fun c => unresolved place.1 c place.2

section

variable {m : Model} {h : Handle} {c : Connection}

theorem bindingFindings_eq (hc : m.connection? h = some c) :
    bindingFindings h c =
      ((Endpoint.both.map fun endpoint => (h, endpoint)).filter fun place =>
        m.isUnbound place.1 place.2).filterMap (openFinding? m) := by
  have hopen : ∀ endpoint, m.isUnbound h endpoint = (c.reference endpoint).bound.isNone := by
    intro endpoint
    rw [isUnbound, hc, Option.any_some]
  have hfound : ∀ endpoint, openFinding? m (h, endpoint) = some (unresolved h c endpoint) := by
    intro endpoint
    rw [openFinding?, hc, Option.map_some]
  rw [filter_map_eq (f := fun endpoint => (h, endpoint))
    (q := fun place => m.isUnbound place.1 place.2) hopen, List.filterMap_map, bindingFindings,
    ← List.filterMap_eq_map]
  exact List.filterMap_congr fun endpoint _ => (hfound endpoint).symm

/-- What is found on a connection besides open ends is not reported as one. -/
theorem among_connectionFindings (hc : m.connection? h = some c) :
    Code.unresolvedReference.among (connectionFindings m h) = bindingFindings h c := by
  have hbinding : ∀ d ∈ bindingFindings h c, d.code = some .unresolvedReference := by
    intro d hd
    obtain ⟨endpoint, -, rfl⟩ := mem_bindingFindings.mp hd
    rfl
  have hplacement : ∀ d ∈ placementFindings m h c, d.code ≠ some .unresolvedReference := by
    intro d hd hcode
    obtain ⟨s, t, -, -, hd | ⟨-, rfl⟩⟩ := mem_placementFindings.mp hd
    · obtain ⟨-, hother⟩ := placement?_eq_some hd
      simp [hcode] at hother
    · cases hcode
  rw [connectionFindings, hc, Code.among_append, Code.among_eq_self hbinding,
    Code.among_eq_nil hplacement, List.append_nil]

end
end Check

namespace Model

open Check

section

variable {m : Model}

/-- The errors on open ends are those of all ends that are not bound, in tree order. -/
theorem among_diagnostics (m : Model) :
    Code.unresolvedReference.among m.diagnostics = m.unboundEnds.filterMap (openFinding? m) := by
  have hnames : ∀ d ∈ m.walk.flatMap (nameFindings m), d.code ≠ some .unresolvedReference := by
    intro d hd hcode
    obtain ⟨h, -, hd⟩ := List.mem_flatMap.mp hd
    have hother := mem_nameFindings_code hd
    simp [hcode] at hother
  have hempty : ∀ d ∈ m.walk.flatMap (emptinessFindings m), d.code ≠ some .unresolvedReference := by
    intro d hd hcode
    obtain ⟨h, -, hd⟩ := List.mem_flatMap.mp hd
    have hother := (code_of_mem_emptinessFindings hd).2
    simp [hcode] at hother
  rw [diagnostics_eq, findings, Code.among_append, Code.among_append, Code.among_eq_nil hnames,
    Code.among_eq_nil hempty, List.append_nil, List.append_nil, Code.among_flatMap, unboundEnds,
    endpoints, List.filter_flatMap, List.filterMap_flatMap]
  refine List.flatMap_congr fun h hh => ?_
  obtain ⟨c, hc⟩ := Option.isSome_iff_exists.mp (List.mem_filter.mp hh).2
  rw [among_connectionFindings hc, bindingFindings_eq hc]

theorem exists_openFinding? {place : Handle × Endpoint} (hp : place ∈ m.unboundEnds) :
    ∃ d, openFinding? m place = some d := by
  obtain ⟨hc, -⟩ := isUnbound_iff.mp (List.mem_filter.mp hp).2
  obtain ⟨c, hc⟩ := Option.isSome_iff_exists.mp hc
  exact ⟨_, by rw [openFinding?, hc, Option.map_some]⟩

/-- Where an error on an open end points. -/
theorem primaryLabel?_of_openFinding? {place : Handle × Endpoint} {d : Diagnostic}
    (hd : openFinding? m place = some d) :
    d.primaryLabel?.map (fun l => (l.element, l.field)) =
      some (place.1, some (.ofEndpoint place.2)) := by
  obtain ⟨c, -, rfl⟩ := Option.map_eq_some_iff.mp hd
  rfl

theorem among_diagnostics_labels (m : Model) :
    (Code.unresolvedReference.among m.diagnostics).map
        (fun d => d.primaryLabel?.map fun l => (l.element, l.field)) =
      m.unboundEnds.map fun place => some (place.1, some (.ofEndpoint place.2)) := by
  rw [among_diagnostics]
  refine map_filterMap_eq fun place hp => ?_
  obtain ⟨d, hd⟩ := exists_openFinding? hp
  exact ⟨d, hd, primaryLabel?_of_openFinding? hd⟩

/-- A connection is not reported for an open end exactly if both its ends are bound. -/
theorem not_reported_iff_bound {h : Handle} {c : Connection} (hc : m.connection? h = some c) :
    (¬∃ d ∈ Code.unresolvedReference.among m.diagnostics,
        d.primaryLabel?.map Label.element = some h) ↔
      ∀ endpoint, (c.reference endpoint).bound.isSome := by
  have helements : (Code.unresolvedReference.among m.diagnostics).map
      (fun d => d.primaryLabel?.map Label.element) =
      m.unboundEnds.map fun place => some place.1 := by
    have hlabels := congrArg (List.map (Option.map Prod.fst)) (among_diagnostics_labels m)
    simpa only [List.map_map, Function.comp_def, Option.map_map, Option.map_some] using hlabels
  have hreported : (∃ d ∈ Code.unresolvedReference.among m.diagnostics,
      d.primaryLabel?.map Label.element = some h) ↔ ∃ endpoint, (h, endpoint) ∈ m.unboundEnds := by
    rw [← List.mem_map, helements]
    simp
  have hend : ∀ endpoint, (h, endpoint) ∈ m.unboundEnds ↔
      (c.reference endpoint).bound = none := by
    intro endpoint
    have hconnection : m.isConnection h = true := by rw [isConnection, hc, Option.isSome_some]
    rw [unboundEnds, List.mem_filter, mem_endpoints, isUnbound_iff, binding?, hc,
      Option.bind_some, and_self_left, and_iff_right hconnection]
  rw [hreported, not_exists]
  refine forall_congr' fun endpoint => ?_
  rw [hend, Option.isSome_iff_ne_none]

end

/-- After linking, the verdict lists an open end for each entry of the linkage, in its order and at
its end of its connection, and none on a connection that has both ends bound. -/
theorem open_ends_reported (m : Model) (mode : Visibility) :
    ∃ linked report found, m.link mode = .ok (linked, report) ∧
      (linked.validate = .ok found ∨ linked.validate = .error ⟨found⟩) ∧
      (Code.unresolvedReference.among found).map
          (fun d => d.primaryLabel?.map fun l => (l.element, l.field)) =
        report.unresolved.map (fun (h, endpoint) => some (h, some (.ofEndpoint endpoint))) ∧
      ∀ h c, linked.connection? h = some c →
        ((¬∃ d ∈ found, d.code = some .unresolvedReference ∧
            d.primaryLabel?.map Label.element = some h) ↔
          ∀ endpoint, (c.reference endpoint).bound.isSome) := by
  obtain ⟨linked, hlink, hr, hbound⟩ := link_eq m mode
  have hverdict : linked.validate = .ok linked.diagnostics ∨
      linked.validate = .error ⟨linked.diagnostics⟩ := by
    rw [validate_eq]
    split
    · exact .inr rfl
    · exact .inl rfl
  refine ⟨linked, _, linked.diagnostics, hlink, hverdict, ?_, fun h c hc => ?_⟩
  · rw [among_diagnostics_labels, unboundEnds_linked hr hbound]
  · rw [← not_reported_iff_bound hc]
    simp only [Code.mem_among, and_assoc]

end Model
end Bpmn
