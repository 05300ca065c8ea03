import Bpmn.Proofs.Check.Verdict
import Bpmn.Proofs.Lists

/-!
# What every diagnostic is like

Each place where a check reports something sets a severity, a code and labels by itself.  All of
them keep to the table of severities and put one primary label first, on the element that the check
was looking at.  As every element is looked at once, and what is found on one element differs in
code or in field, nothing is reported twice (`diagnostics_wellFormed`).
-/

namespace Bpmn

/-- What a diagnostic with a given code is about. -/
def Code.IsAbout (code : Code) (m : Model) (h : Handle) : Prop :=
  match code with
  | .unresolvedReference | .crossesPools | .mixesPooling | .endOutsidePools | .withinOnePool
  | .selfLoop => m.isConnection h = true
  | .duplicateName | .nameReused => m.isNode h = true
  | .emptyPool => m.isPool h = true ∧ m.children h = []
  | .emptyLane => m.isLane h = true ∧ m.children h = []

namespace Diagnostic

/-- The diagnostic has this code with its severity, and of its labels just the first is primary,
which stands on this element. -/
structure Accuses (d : Diagnostic) (code : Code) (h : Handle) : Prop where
  code_eq : d.code = some code
  severity_eq : d.severity = code.severity
  primary_eq : d.labels.filter Label.isPrimary = d.labels.head?.toList
  element_eq : d.labels.head?.map Label.element = some h

/-- What is reported and where. -/
def spot (d : Diagnostic) : Option Code × Option (Handle × Option Field) :=
  (d.code, d.primaryLabel?.map fun l => (l.element, l.field))

/-- The element that is shown to be at fault. -/
theorem Accuses.element {d : Diagnostic} {code : Code} {h : Handle} (ha : d.Accuses code h) :
    d.spot.2.map Prod.fst = some h := by
  rw [spot, primaryLabel?, ← List.head?_filter, ha.primary_eq, Option.head?_toList,
    Option.map_map, ← ha.element_eq]
  rfl

end Diagnostic

namespace Check

open Model

/-- All there is to find on one element, by the check that its sort asks for. -/
def elementFindings (m : Model) (h : Handle) : List Diagnostic :=
  match m.element? h with
  | some (.connection _ _) => connectionFindings m h
  | some (.node _ _) => nameFindings m h
  | some (.pool _) | some (.lane _ _) => emptinessFindings m h
  | none => []

section

variable {m : Model} {h : Handle} {c : Connection} {d : Diagnostic}

/-! ## On what it is found -/

theorem placement?_accuses {s t : Handle} (hd : placement? m h c s t = some d) :
    ∃ code, d.Accuses code h ∧ code ≠ .selfLoop ∧ code ≠ .unresolvedReference ∧
      (m.isConnection h = true → code.IsAbout m h) := by
  cases misplaced_of_placement? hd with
  | source | target => exact ⟨.endOutsidePools, ⟨rfl, rfl, rfl, rfl⟩, by decide, by decide, id⟩
  | within => exact ⟨.withinOnePool, ⟨rfl, rfl, rfl, rfl⟩, by decide, by decide, id⟩
  | crosses => exact ⟨.crossesPools, ⟨rfl, rfl, rfl, rfl⟩, by decide, by decide, id⟩
  | leaves | enters => exact ⟨.mixesPooling, ⟨rfl, rfl, rfl, rfl⟩, by decide, by decide, id⟩

theorem accuses_of_mem_connectionFindings (hd : d ∈ connectionFindings m h) :
    ∃ code, d.Accuses code h ∧ code.IsAbout m h := by
  rw [connectionFindings] at hd
  cases hc : m.connection? h with
  | none => simp [hc] at hd
  | some c =>
    have hconnection : m.isConnection h = true := by rw [isConnection, hc]; rfl
    rw [hc, List.mem_append, mem_bindingFindings, mem_placementFindings] at hd
    rcases hd with ⟨endpoint, -, rfl⟩ | ⟨s, t, -, -, hd | ⟨-, rfl⟩⟩
    · exact ⟨.unresolvedReference, ⟨rfl, rfl, rfl, rfl⟩, hconnection⟩
    · obtain ⟨code, ha, -, -, habout⟩ := placement?_accuses hd
      exact ⟨code, ha, habout hconnection⟩
    · exact ⟨.selfLoop, ⟨rfl, rfl, rfl, rfl⟩, hconnection⟩

theorem accuses_of_mem_nameFindings (hd : d ∈ nameFindings m h) :
    ∃ code, d.Accuses code h ∧ code.IsAbout m h := by
  obtain ⟨n, hn, hd⟩ := mem_nameFindings.mp hd
  have hnode : m.isNode h = true := by rw [isNode, hn]; rfl
  rcases hd with hd | hd
  · obtain ⟨first, -, -, rfl⟩ := duplicateFinding?_eq_some.mp hd
    exact ⟨.duplicateName, ⟨rfl, rfl, rfl, rfl⟩, hnode⟩
  · obtain ⟨first, -, -, -, rfl⟩ := reuseFinding?_eq_some.mp hd
    exact ⟨.nameReused, ⟨rfl, rfl, rfl, rfl⟩, hnode⟩

theorem accuses_of_mem_emptinessFindings (hd : d ∈ emptinessFindings m h) :
    ∃ code, d.Accuses code h ∧ code.IsAbout m h := by
  obtain ⟨hkids, ⟨name, he, rfl⟩ | ⟨name, parent, he, rfl⟩⟩ := mem_emptinessFindings.mp hd
  · exact ⟨.emptyPool, ⟨rfl, rfl, rfl, rfl⟩, isPool_iff.mpr ⟨name, he⟩, hkids⟩
  · exact ⟨.emptyLane, ⟨rfl, rfl, rfl, rfl⟩, isLane_iff.mpr ⟨name, parent, he⟩, hkids⟩

theorem accuses_of_mem_elementFindings (hd : d ∈ elementFindings m h) :
    ∃ code, d.Accuses code h ∧ code.IsAbout m h := by
  rw [elementFindings] at hd
  split at hd
  next => exact accuses_of_mem_connectionFindings hd
  next => exact accuses_of_mem_nameFindings hd
  next => exact accuses_of_mem_emptinessFindings hd
  next => exact accuses_of_mem_emptinessFindings hd
  next => cases hd

/-! ## Nothing is found twice on one element -/

/-- What differs in code is not reported twice. -/
theorem nodup_spots_append {a b : List Diagnostic} (ha : (a.map Diagnostic.spot).Nodup)
    (hb : (b.map Diagnostic.spot).Nodup) (hcodes : ∀ d ∈ a, ∀ e ∈ b, d.code ≠ e.code) :
    ((a ++ b).map Diagnostic.spot).Nodup := by
  rw [List.map_append, List.nodup_append]
  refine ⟨ha, hb, fun spot hspot other hother heq => ?_⟩
  obtain ⟨d, hd, rfl⟩ := List.mem_map.mp hspot
  obtain ⟨e, he, rfl⟩ := List.mem_map.mp hother
  exact hcodes d hd e he (congrArg Prod.fst heq)

theorem nodup_spots_toList (found : Option Diagnostic) :
    (found.toList.map Diagnostic.spot).Nodup := by
  cases found with
  | none => exact List.nodup_nil
  | some d => exact List.nodup_singleton _

theorem nodup_spots_bindingFindings : ((bindingFindings h c).map Diagnostic.spot).Nodup := by
  rw [bindingFindings, List.map_map]
  refine List.Nodup.map (fun a b hab => ?_) (List.Nodup.filter _ (by decide))
  have hfield : Field.ofEndpoint a = Field.ofEndpoint b := by
    simpa [Diagnostic.spot, Diagnostic.primaryLabel?, unresolved, Label.primary] using hab
  cases a <;> cases b <;> trivial

theorem nodup_spots_placementFindings : ((placementFindings m h c).map Diagnostic.spot).Nodup := by
  rw [placementFindings]
  split
  next s t _ _ =>
    refine nodup_spots_append (nodup_spots_toList _) ?_ ?_
    · split
      next => exact List.nodup_singleton _
      next => exact List.nodup_nil
    · intro d hd e he
      obtain ⟨code, ha, hne, -⟩ := placement?_accuses (Option.mem_toList.mp hd)
      obtain ⟨-, rfl⟩ : s = t ∧ e = selfLoop m h c s := by simpa using he
      rw [ha.code_eq]
      exact mt Option.some.inj hne
  next => exact List.nodup_nil

theorem nodup_spots_connectionFindings : ((connectionFindings m h).map Diagnostic.spot).Nodup := by
  rw [connectionFindings]
  cases m.connection? h with
  | none => exact List.nodup_nil
  | some c =>
    refine nodup_spots_append nodup_spots_bindingFindings nodup_spots_placementFindings ?_
    intro d hd e he heq
    obtain ⟨endpoint, -, rfl⟩ := mem_bindingFindings.mp hd
    obtain ⟨s, t, -, -, he | ⟨-, rfl⟩⟩ := mem_placementFindings.mp he
    · obtain ⟨code, ha, -, hne, -⟩ := placement?_accuses he
      exact hne (Option.some.inj (heq.trans ha.code_eq)).symm
    · cases heq

theorem nodup_spots_nameFindings : ((nameFindings m h).map Diagnostic.spot).Nodup := by
  rw [nameFindings]
  cases m.node? h with
  | none => exact List.nodup_nil
  | some n =>
    refine nodup_spots_append (nodup_spots_toList _) (nodup_spots_toList _) ?_
    intro d hd e he heq
    obtain ⟨first, -, -, rfl⟩ := duplicateFinding?_eq_some.mp (Option.mem_toList.mp hd)
    obtain ⟨earlier, -, -, -, rfl⟩ := reuseFinding?_eq_some.mp (Option.mem_toList.mp he)
    cases heq

theorem nodup_spots_emptinessFindings : ((emptinessFindings m h).map Diagnostic.spot).Nodup := by
  rw [emptinessFindings]
  split
  next =>
    split
    next => exact List.nodup_singleton _
    next => exact List.nodup_singleton _
    next => exact List.nodup_nil
  next => exact List.nodup_nil

theorem nodup_spots_elementFindings : ((elementFindings m h).map Diagnostic.spot).Nodup := by
  rw [elementFindings]
  split
  next => exact nodup_spots_connectionFindings
  next => exact nodup_spots_nameFindings
  next => exact nodup_spots_emptinessFindings
  next => exact nodup_spots_emptinessFindings
  next => exact List.nodup_nil

/-! ## All elements -/

/-- The other checks have nothing to say about an element. -/
theorem elementFindings_eq (m : Model) (h : Handle) : elementFindings m h =
    connectionFindings m h ++ (nameFindings m h ++ emptinessFindings m h) := by
  rw [elementFindings, connectionFindings, nameFindings, emptinessFindings, connection?, node?]
  cases m.element? h with
  | none => simp
  | some e => cases e <;> simp [Element.connection?, Element.node?]

theorem elementFindings_of_connection (hc : m.isConnection h = true) :
    elementFindings m h = connectionFindings m h := by
  obtain ⟨c, parent, he⟩ := isConnection_iff.mp hc
  rw [elementFindings, he]

end
end Check

namespace Model

open Check

/-- Check by check or element by element, the same is found. -/
theorem findings_perm (m : Model) : m.findings.Perm (m.walk.flatMap (elementFindings m)) := by
  have hconnections : m.connections.flatMap (connectionFindings m) =
      m.walk.flatMap (connectionFindings m) := by
    refine flatMap_filter_eq fun h _ hc => ?_
    have hnone : m.connection? h = none := by simpa [isConnection] using hc
    rw [connectionFindings, hnone]
  rw [findings, hconnections, funext (elementFindings_eq m)]
  exact ((List.flatMap_append_perm _ _ _).append_left _).trans (List.flatMap_append_perm _ _ _)

/-- What is reported on a model, be it accepted or not. -/
def reported (m : Model) : List Diagnostic :=
  match m.validate with
  | .ok warnings => warnings
  | .error rejection => rejection.diagnostics

theorem reported_eq (m : Model) : m.reported = m.findings := by
  rw [reported, ← diagnostics_eq]
  cases hv : m.validate with
  | ok warnings => exact (validate_eq_ok.mp hv).1.symm
  | error rejection => exact validate_eq_error hv

theorem mem_reported {m : Model} {d : Diagnostic} :
    d ∈ m.reported ↔ ∃ h ∈ m.walk, d ∈ elementFindings m h := by
  rw [reported_eq, m.findings_perm.mem_iff, List.mem_flatMap]

theorem nodup_spots_reported (m : Model) : (m.reported.map Diagnostic.spot).Nodup := by
  rw [reported_eq, (m.findings_perm.map _).nodup_iff, List.map_flatMap, List.nodup_flatMap]
  refine ⟨fun h _ => nodup_spots_elementFindings, walk_nodup.imp fun {a b} hne spot ha hb => ?_⟩
  obtain ⟨d, hd, rfl⟩ := List.mem_map.mp ha
  obtain ⟨e, he, heq⟩ := List.mem_map.mp hb
  obtain ⟨code, hdcode, -⟩ := accuses_of_mem_elementFindings hd
  obtain ⟨other, hecode, -⟩ := accuses_of_mem_elementFindings he
  exact hne (Option.some.inj (hdcode.element.symm.trans (heq ▸ hecode.element)))

/-- Whatever is reported on a model, linked or not, has a code and the severity of that code.  The
first of its labels is primary and the others are not, and the element under it is one of the model
that the code can be about.  Of a connection just what its own check finds is reported.  No two
reports agree in code, element and field. -/
theorem diagnostics_wellFormed (m : Model) :
    (∀ d ∈ m.reported, ∃ code h, d.Accuses code h ∧ h.index < m.size ∧ code.IsAbout m h ∧
      (m.isConnection h = true → d ∈ (connection m h .empty).diagnostics)) ∧
    (m.reported.map Diagnostic.spot).Nodup := by
  refine ⟨fun d hd => ?_, nodup_spots_reported m⟩
  obtain ⟨h, hh, hd⟩ := mem_reported.mp hd
  obtain ⟨code, haccuses, habout⟩ := accuses_of_mem_elementFindings hd
  refine ⟨code, h, haccuses, mem_walk.mp hh, habout, fun hc => ?_⟩
  rw [connection_eq, Report.diagnostics_extend_empty, ← elementFindings_of_connection hc]
  exact hd

end Model
end Bpmn
