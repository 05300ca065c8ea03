import Bpmn.Check.Basic
import Bpmn.Proofs.Check.Naming

/-!
# The verdict on a model

What all checks together find is one list, and a model is accepted exactly if nothing on it is an
error.  In a model that is accepted every connection has both ends bound.  The ends of a message
flow have different pools, and those of any other connection the same pool or none.
-/

namespace Bpmn
namespace Check

open Model

/-- What is wrong with the place of two ends, and what is said about it. -/
inductive Misplaced (m : Model) (h : Handle) (c : Connection) (s t : Handle) : Diagnostic → Prop
  | source (hflow : c.isMessageFlow = true) (hs : m.poolOf? s = none) :
    Misplaced m h c s t (endOutsidePools m h .source s)
  | target (hflow : c.isMessageFlow = true) (ht : m.poolOf? t = none) :
    Misplaced m h c s t (endOutsidePools m h .target t)
  | within {p : Handle} (hflow : c.isMessageFlow = true) (hs : m.poolOf? s = some p)
    (ht : m.poolOf? t = some p) : Misplaced m h c s t (withinOnePool m h p)
  | crosses {a b : Handle} (hflow : c.isMessageFlow = false) (hs : m.poolOf? s = some a)
    (ht : m.poolOf? t = some b) (hne : a ≠ b) : Misplaced m h c s t (crossesPools m h c a b)
  | leaves {a : Handle} (hflow : c.isMessageFlow = false) (hs : m.poolOf? s = some a)
    (ht : m.poolOf? t = none) : Misplaced m h c s t (mixesPooling m h c s t)
  | enters {b : Handle} (hflow : c.isMessageFlow = false) (hs : m.poolOf? s = none)
    (ht : m.poolOf? t = some b) : Misplaced m h c s t (mixesPooling m h c t s)

section

variable {m : Model} {h : Handle} {c : Connection} {d : Diagnostic}

/-! ## What each check may find -/

theorem mem_bindingFindings : d ∈ bindingFindings h c ↔
    ∃ endpoint, (c.reference endpoint).bound = none ∧ d = unresolved h c endpoint := by
  have hboth : ∀ endpoint, endpoint ∈ Endpoint.both := by
    intro endpoint
    cases endpoint <;> simp [Endpoint.both]
  simp only [bindingFindings, List.mem_map, List.mem_filter, Option.isNone_iff_eq_none, hboth,
    true_and]
  exact exists_congr fun endpoint => and_congr_right fun _ => eq_comm

theorem mem_placementFindings : d ∈ placementFindings m h c ↔
    ∃ s t, c.source.bound = some s ∧ c.target.bound = some t ∧
      (placement? m h c s t = some d ∨ s = t ∧ d = selfLoop m h c s) := by
  rw [placementFindings]
  cases c.source.bound with
  | none => simp
  | some s =>
    cases c.target.bound with
    | none => simp
    | some t =>
      by_cases heq : s = t
      · simp [heq]
      · simp [heq]

/-- Within one pool, or outside all of them, nothing is wrong with a connection that is no message
flow. -/
theorem placement?_eq_none_iff {s t : Handle} (hc : c.isMessageFlow = false) :
    placement? m h c s t = none ↔ m.poolOf? s = m.poolOf? t := by
  rw [placement?, hc, if_neg Bool.false_ne_true]
  cases m.poolOf? s with
  | none => cases m.poolOf? t <;> simp
  | some a => cases m.poolOf? t <;> simp

/-- A message flow asks for two different pools. -/
theorem placement?_eq_none_iff_of_message {s t : Handle} (hc : c.isMessageFlow = true) :
    placement? m h c s t = none ↔
      ∃ a b, m.poolOf? s = some a ∧ m.poolOf? t = some b ∧ a ≠ b := by
  rw [placement?, hc, if_pos rfl]
  cases m.poolOf? s with
  | none => simp
  | some a => cases m.poolOf? t <;> simp

theorem misplaced_of_placement? {s t : Handle} (hd : placement? m h c s t = some d) :
    Misplaced m h c s t d := by
  rw [placement?] at hd
  split at hd
  next hflow =>
    split at hd
    next hs => exact Option.some.inj hd ▸ .source hflow hs
    next ht => exact Option.some.inj hd ▸ .target hflow ht
    next hs ht =>
      obtain ⟨rfl, hwithin⟩ := Option.ite_none_right_eq_some.mp hd
      exact Option.some.inj hwithin ▸ .within hflow hs ht
  next hflow =>
    rw [Bool.not_eq_true] at hflow
    split at hd
    next hs ht =>
      obtain ⟨hne, hcrosses⟩ := Option.ite_none_left_eq_some.mp hd
      exact Option.some.inj hcrosses ▸ .crosses hflow hs ht hne
    next hs ht => exact Option.some.inj hd ▸ .leaves hflow hs ht
    next hs ht => exact Option.some.inj hd ▸ .enters hflow hs ht
    next => cases hd

theorem placement?_eq_some {s t : Handle} (hd : placement? m h c s t = some d) :
    d.severity = .error ∧
      (d.code = some .withinOnePool ∨
        d.code = some .endOutsidePools ∧ c.isMessageFlow = true ∧
          (m.poolOf? s = none ∨ m.poolOf? t = none) ∨
        (d.code = some .crossesPools ∨ d.code = some .mixesPooling) ∧
          c.isMessageFlow = false ∧ m.poolOf? s ≠ m.poolOf? t) := by
  cases misplaced_of_placement? hd with
  | source hflow hs => exact ⟨rfl, .inr (.inl ⟨rfl, hflow, .inl hs⟩)⟩
  | target hflow ht => exact ⟨rfl, .inr (.inl ⟨rfl, hflow, .inr ht⟩)⟩
  | within => exact ⟨rfl, .inl rfl⟩
  | crosses hflow hs ht hne =>
    exact ⟨rfl, .inr (.inr ⟨.inl rfl, hflow, by rw [hs, ht]; exact mt Option.some.inj hne⟩)⟩
  | leaves hflow hs ht =>
    exact ⟨rfl, .inr (.inr ⟨.inr rfl, hflow, by rw [hs, ht]; exact Option.some_ne_none _⟩)⟩
  | enters hflow hs ht =>
    exact ⟨rfl, .inr (.inr ⟨.inr rfl, hflow, by rw [hs, ht]; exact (Option.some_ne_none _).symm⟩)⟩

theorem code_of_mem_emptinessFindings (hd : d ∈ emptinessFindings m h) :
    d.severity = .warning ∧ (d.code = some .emptyPool ∨ d.code = some .emptyLane) := by
  obtain ⟨-, ⟨name, -, rfl⟩ | ⟨name, parent, -, rfl⟩⟩ := mem_emptinessFindings.mp hd
  · exact ⟨rfl, .inl rfl⟩
  · exact ⟨rfl, .inr rfl⟩

end
end Check

namespace Model

open Check

/-! ## All checks -/

/-- All there is to find in a model, in the order in which it is reported. -/
def findings (m : Model) : List Diagnostic :=
  m.connections.flatMap (connectionFindings m) ++
    (m.walk.flatMap (nameFindings m) ++ m.walk.flatMap (emptinessFindings m))

theorem check_eq (m : Model) (r : Report) : m.check r = r.extend m.findings := by
  rw [check, emptyContainers_eq, nodeNames_eq,
    Report.foldl_extend (connectionFindings m) (fun r h => connection_eq m h r),
    Report.extend_extend, Report.extend_extend, findings]

theorem diagnostics_eq (m : Model) : m.diagnostics = m.findings := by
  rw [diagnostics, check_eq, Report.diagnostics_extend_empty]

section

variable {m : Model} {h : Handle} {c : Connection} {d : Diagnostic}

theorem mem_diagnostics : d ∈ m.diagnostics ↔
    (∃ h c, m.connection? h = some c ∧
      (d ∈ bindingFindings h c ∨ d ∈ placementFindings m h c)) ∨
    (∃ h ∈ m.walk, d ∈ nameFindings m h) ∨ ∃ h ∈ m.walk, d ∈ emptinessFindings m h := by
  rw [diagnostics_eq, findings, List.mem_append, List.mem_append, List.mem_flatMap,
    List.mem_flatMap, List.mem_flatMap]
  refine or_congr ⟨?_, ?_⟩ Iff.rfl
  · rintro ⟨h, -, hd⟩
    rw [connectionFindings] at hd
    cases hc : m.connection? h with
    | none => simp [hc] at hd
    | some c => exact ⟨h, c, hc, by simpa [hc] using hd⟩
  · rintro ⟨h, c, hc, hd⟩
    have hconnection : m.isConnection h = true := by rw [isConnection, hc]; rfl
    obtain ⟨_, _, he⟩ := isConnection_iff.mp hconnection
    refine ⟨h, List.mem_filter.mpr ⟨mem_walk.mpr (Arena.lt_size he), hconnection⟩, ?_⟩
    rw [connectionFindings, hc]
    exact List.mem_append.mpr hd

/-- A model is accepted exactly if nothing found in it is an error. -/
theorem validate_eq_ok {warnings : List Diagnostic} : m.validate = .ok warnings ↔
    m.diagnostics = warnings ∧ ∀ d ∈ m.diagnostics, d.severity ≠ .error := by
  have hclean : (m.check .empty).hasErrors = false ↔
      ∀ d ∈ m.diagnostics, d.severity ≠ .error := by
    simp [Report.hasErrors_eq, Severity.isError, diagnostics]
  rw [validate, Report.accept]
  cases herrors : (m.check .empty).hasErrors with
  | true =>
    have hnot : ¬ ∀ d ∈ m.diagnostics, d.severity ≠ .error := by
      rw [← hclean, herrors]
      exact Bool.noConfusion
    simp [hnot]
  | false =>
    rw [if_neg Bool.false_ne_true, and_iff_left (hclean.mp herrors), diagnostics,
      Except.ok.injEq]

theorem validate_eq_error {rejection : Rejection} (hv : m.validate = .error rejection) :
    rejection.diagnostics = m.diagnostics := by
  rw [validate, Report.accept] at hv
  split at hv
  · rw [← Except.error.inj hv, diagnostics]
  · cases hv

/-- In a model that is accepted, every connection is bound and nothing is wrong with its place. -/
theorem placed_of_validate {warnings : List Diagnostic} (hv : m.validate = .ok warnings)
    (hc : m.connection? h = some c) :
    ∃ s t, c.source.bound = some s ∧ c.target.bound = some t ∧ placement? m h c s t = none := by
  have hclean := (validate_eq_ok.mp hv).2
  have hbound : ∀ endpoint, ∃ n, (c.reference endpoint).bound = some n := by
    intro endpoint
    refine Option.ne_none_iff_exists'.mp fun hnone => ?_
    have hd : unresolved h c endpoint ∈ bindingFindings h c :=
      mem_bindingFindings.mpr ⟨endpoint, hnone, rfl⟩
    exact hclean _ (mem_diagnostics.mpr (.inl ⟨h, c, hc, .inl hd⟩)) rfl
  obtain ⟨s, hs⟩ := hbound .source
  obtain ⟨t, ht⟩ := hbound .target
  refine ⟨s, t, hs, ht, Option.eq_none_iff_forall_ne_some.mpr fun d hd => ?_⟩
  have hfound := mem_placementFindings.mpr ⟨s, t, hs, ht, .inl hd⟩
  exact hclean d (mem_diagnostics.mpr (.inl ⟨h, c, hc, .inr hfound⟩)) (placement?_eq_some hd).1

/-- The ends of a connection in a model that is accepted. -/
theorem bound_of_validate {warnings : List Diagnostic} (hv : m.validate = .ok warnings)
    (hc : m.connection? h = some c) :
    ∃ s t, c.source.bound = some s ∧ c.target.bound = some t ∧
      (c.isMessageFlow = false → m.poolOf? s = m.poolOf? t) := by
  obtain ⟨s, t, hs, ht, hplace⟩ := placed_of_validate hv hc
  exact ⟨s, t, hs, ht, fun hflow => (placement?_eq_none_iff hflow).mp hplace⟩

end

/-! ## Each check on its own -/

theorem diagnostics_eq_checks (m : Model) :
    m.diagnostics =
      (m.connections.flatMap fun h => (connection m h .empty).diagnostics) ++
        (nodeNames m .empty).diagnostics ++ (emptyContainers m .empty).diagnostics := by
  have hconnection : ∀ h, (connection m h .empty).diagnostics = connectionFindings m h := by
    intro h
    rw [connection_eq, Report.diagnostics_extend_empty]
  simp only [hconnection, nodeNames_eq, emptyContainers_eq, Report.diagnostics_extend_empty]
  rw [diagnostics_eq, findings, List.append_assoc]

theorem validate_eq (m : Model) : m.validate =
    if ∃ d ∈ m.diagnostics, d.severity = .error then .error ⟨m.diagnostics⟩
    else .ok m.diagnostics := by
  cases hv : m.validate with
  | error rejection =>
    have hsome : ∃ d ∈ m.diagnostics, d.severity = .error := by
      by_contra hnone
      have hok := validate_eq_ok.mpr ⟨rfl, fun d hd he => hnone ⟨d, hd, he⟩⟩
      rw [hv] at hok
      cases hok
    rw [if_pos hsome, ← validate_eq_error hv]
  | ok warnings =>
    obtain ⟨rfl, hclean⟩ := validate_eq_ok.mp hv
    rw [if_neg fun ⟨d, hd, he⟩ => hclean d hd he]

end Model
end Bpmn
