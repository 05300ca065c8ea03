import Bpmn.Check.Connection
import Bpmn.Check.Emptiness
import Bpmn.Proofs.Traversal

/-!
# Findings

A check never looks at the report that it adds to, so what it adds is a list of findings that can
be told from the model alone.  The findings on a connection are those on its ends and those on
where the ends stand, and the findings on empty containers are those of all elements in tree
order.
-/

namespace Bpmn
namespace Report

def extend (r : Report) (findings : List Diagnostic) : Report := findings.foldl emit r

theorem extend_nil (r : Report) : r.extend [] = r := rfl

theorem extend_extend (r : Report) (a b : List Diagnostic) :
    (r.extend a).extend b = r.extend (a ++ b) := List.foldl_append.symm

theorem diagnostics_extend (r : Report) (findings : List Diagnostic) :
    (r.extend findings).diagnostics = r.diagnostics ++ findings := by
  induction findings generalizing r with
  | nil => exact (List.append_nil _).symm
  | cons d rest ih =>
    rw [extend, List.foldl_cons, ← extend, ih, emit, List.append_assoc, List.singleton_append]

/-- A report that begins empty holds what is added to it. -/
theorem diagnostics_extend_empty (findings : List Diagnostic) :
    (empty.extend findings).diagnostics = findings := diagnostics_extend empty findings

theorem emit_eq (r : Report) (d : Diagnostic) : r.emit d = r.extend [d] := rfl

/-- Steps that add findings one after another add all of them. -/
theorem foldl_extend {α : Type} {step : Report → α → Report} (findings : α → List Diagnostic)
    (hstep : ∀ r a, step r a = r.extend (findings a)) (list : List α) (r : Report) :
    list.foldl step r = r.extend (list.flatMap findings) := by
  induction list generalizing r with
  | nil => rw [List.flatMap_nil, extend_nil, List.foldl_nil]
  | cons a rest ih => rw [List.foldl_cons, hstep, ih, extend_extend, List.flatMap_cons]

end Report

/-! ## Findings of one sort -/

namespace Code

/-- The diagnostics of one sort among some, in the order in which they stand. -/
def among (code : Code) (list : List Diagnostic) : List Diagnostic :=
  list.filter fun d => d.code == some code

section

variable {code : Code} {list : List Diagnostic} {d : Diagnostic}

theorem mem_among : d ∈ code.among list ↔ d ∈ list ∧ d.code = some code := by
  rw [among, List.mem_filter, beq_iff_eq]

theorem among_append (a b : List Diagnostic) :
    code.among (a ++ b) = code.among a ++ code.among b := List.filter_append a b

theorem among_flatMap {α : Type} (findings : α → List Diagnostic) (list : List α) :
    code.among (list.flatMap findings) = list.flatMap fun a => code.among (findings a) :=
  List.filter_flatMap

/-- Where each element has one diagnostic of a sort at most, these stand as the elements do. -/
theorem among_flatMap_eq {α : Type} {findings : α → List Diagnostic} {found : α → Option Diagnostic}
    (h : ∀ a, code.among (findings a) = (found a).toList) (list : List α) :
    code.among (list.flatMap findings) = list.filterMap found := by
  rw [among_flatMap, List.filterMap_eq_flatMap_toList]
  exact List.flatMap_congr fun a _ => h a

theorem among_eq_self (h : ∀ d ∈ list, d.code = some code) : code.among list = list :=
  List.filter_eq_self.mpr fun d hd => beq_iff_eq.mpr (h d hd)

theorem among_eq_nil (h : ∀ d ∈ list, d.code ≠ some code) : code.among list = [] := by
  refine List.filter_eq_nil_iff.mpr fun d hd => ?_
  rw [beq_iff_eq]
  exact h d hd

end
end Code

namespace Check

open Model

/-! ## Connections -/

def bindingFindings (h : Handle) (c : Connection) : List Diagnostic :=
  (Endpoint.both.filter fun endpoint => (c.reference endpoint).bound.isNone).map (unresolved h c)

/-- What there is to say about a connection with both ends bound. -/
def placementFindings (m : Model) (h : Handle) (c : Connection) : List Diagnostic :=
  match c.source.bound, c.target.bound with
  | some source, some target =>
    (placement? m h c source target).toList ++
      if source = target then [selfLoop m h c source] else []
  | _, _ => []

def connectionFindings (m : Model) (h : Handle) : List Diagnostic :=
  match m.connection? h with
  | none => []
  | some c => bindingFindings h c ++ placementFindings m h c

theorem foldl_binding (h : Handle) (c : Connection) (r : Report) :
    Endpoint.both.foldl (binding h c) r = r.extend (bindingFindings h c) := by
  rw [Report.foldl_extend (fun endpoint =>
    ([endpoint].filter fun e => (c.reference e).bound.isNone).map (unresolved h c))]
  · rw [bindingFindings, ← List.map_flatMap, ← List.filter_flatMap, List.flatMap_singleton']
  · intro r endpoint
    rw [binding]
    cases hb : (c.reference endpoint).bound with
    | none => simp [hb, Report.emit_eq]
    | some n => simp [hb, Report.extend_nil]

theorem connection_eq (m : Model) (h : Handle) (r : Report) :
    connection m h r = r.extend (connectionFindings m h) := by
  rw [connection, connectionFindings]
  cases m.connection? h with
  | none => exact r.extend_nil.symm
  | some c =>
    simp only [foldl_binding, placementFindings, ← Report.extend_extend]
    cases c.source.bound with
    | none => simp [Report.extend_nil]
    | some source =>
      cases c.target.bound with
      | none => simp [Report.extend_nil]
      | some target =>
        cases hp : placement? m h c source target with
        | none =>
          simp only [hp, Option.toList_none, List.nil_append]
          split
          · exact Report.emit_eq _ _
          · exact (Report.extend_nil _).symm
        | some d =>
          simp only [hp, Option.toList_some, ← Report.extend_extend, ← Report.emit_eq]
          split
          · exact Report.emit_eq _ _
          · exact (Report.extend_nil _).symm

/-! ## Empty containers -/

def emptinessFindings (m : Model) (h : Handle) : List Diagnostic :=
  if (m.children h).isEmpty then
    match m.element? h with
    | some (.pool name) => [emptyPool h name]
    | some (.lane name _) => [emptyLane h name]
    | _ => []
  else []

theorem mem_emptinessFindings {m : Model} {h : Handle} {d : Diagnostic} :
    d ∈ emptinessFindings m h ↔ m.children h = [] ∧
      ((∃ name, m.element? h = some (.pool name) ∧ d = emptyPool h name) ∨
        ∃ name parent, m.element? h = some (.lane name parent) ∧ d = emptyLane h name) := by
  rw [emptinessFindings]
  split
  next hkids =>
    rw [List.isEmpty_iff] at hkids
    cases m.element? h with
    | none => simp
    | some e => cases e <;> simp [hkids]
  next hkids => simp [mt List.isEmpty_iff.mpr hkids]

/-- The check looks at a container before it goes inside. -/
theorem emptinessVisitor_eq (m : Model) : emptinessVisitor m =
    .outsideIn (fun _ _ r => r) (fun _ _ r => r)
      (fun h name r => if (m.children h).isEmpty then r.emit (emptyPool h name) else r)
      fun h name r => if (m.children h).isEmpty then r.emit (emptyLane h name) else r := rfl

theorem emptyContainers_eq (m : Model) (r : Report) :
    emptyContainers m r = r.extend (m.walk.flatMap (emptinessFindings m)) := by
  rw [emptyContainers, emptinessVisitor_eq, Visitor.visitModel_outsideIn]
  refine Report.foldl_extend _ (fun r h => ?_) m.walk r
  rw [Visitor.stepAt, emptinessFindings]
  cases m.element? h with
  | none => rw [ite_self, Report.extend_nil]
  | some e =>
    cases e with
    | node | connection => rw [ite_self, Report.extend_nil]
    | pool | lane =>
      dsimp only
      split
      · exact Report.emit_eq _ _
      · exact (Report.extend_nil _).symm

end Check
end Bpmn
