import Bpmn.Document.Export
import Bpmn.Document.Tree
import Bpmn.Proofs.Document.Closure
import Bpmn.Proofs.Markup.RoundTrip

/-!
# What an export writes

An export is a run of events, and its parts write elements that are closed in turn (`Writes`).  This
composes along the export, so record by record it writes the tree of the record wherever no
reference is blank (`writes_definitions`).
-/

namespace Bpmn

open Markup Reading

namespace Exporter

/-- A part of an export that writes a run of elements. -/
def Writes {w : Writer} (x : Exporter w Unit) (ts : List Content) : Prop :=
  ∃ es : List Event, x = es.forM write ∧ Nests es ts

section

variable {w : Writer} {x y : Exporter w Unit} {ts us : List Content} {tag : String}
  {attributes : List (String × String)}

theorem forM_singleton (e : Event) : ([e].forM write : Exporter w Unit) = write e := by
  simp only [List.forM_eq_forM, List.forM_cons, List.forM_nil]
  exact bind_pure _

theorem writes_nil : Writes (pure () : Exporter w Unit) [] := ⟨[], rfl, .nil⟩

theorem Writes.append (hx : Writes x ts) (hy : Writes y us) :
    Writes (x >>= fun _ => y) (ts ++ us) := by
  obtain ⟨es, rfl, hes⟩ := hx
  obtain ⟨fs, rfl, hfs⟩ := hy
  exact ⟨es ++ fs, List.forM_append.symm, hes.append hfs⟩

theorem writes_empty (htag : isName tag.toList = true) (hnamed : Named attributes) :
    Writes (empty tag attributes : Exporter w Unit) [.element tag attributes []] :=
  ⟨[.empty tag attributes], (forM_singleton _).symm, .empty htag hnamed⟩

/-- Text that is still there when it is read back. -/
def Visible (s : String) : Prop := isBlank s.toList = false

theorem writes_textElement (htag : isName tag.toList = true) {s : String} (hs : Visible s) :
    Writes (textElement tag s : Exporter w Unit) [.leaf tag s] := by
  refine ⟨[.opening tag [], .text s, .closing tag], ?_, .text htag hs⟩
  simp only [List.forM_eq_forM, List.forM_cons, List.forM_nil]
  rw [textElement, closing]
  refine congrArg _ (funext fun _ => congrArg _ (funext fun _ => ?_))
  exact (bind_pure _).symm

/-- Tags around a run of elements. -/
theorem Writes.element (htag : isName tag.toList = true) (hnamed : Named attributes)
    (hx : Writes x ts) :
    Writes (opening tag attributes >>= fun _ => x >>= fun _ => closing tag)
      [.element tag attributes ts] := by
  obtain ⟨es, rfl, hes⟩ := hx
  refine ⟨.opening tag attributes :: es ++ [.closing tag], ?_, .element htag hnamed hes⟩
  simp only [List.forM_eq_forM, List.cons_append, List.forM_cons, List.forM_append, List.forM_nil]
  refine congrArg _ (funext fun _ => congrArg _ (funext fun _ => ?_))
  exact (bind_pure _).symm

theorem writes_forM {α : Type} (list : List α) {f : α → Exporter w Unit} {g : α → Content}
    (h : ∀ a ∈ list, Writes (f a) [g a]) : Writes (list.forM f) (list.map g) := by
  induction list with
  | nil => exact writes_nil
  | cons a rest ih =>
    obtain ⟨ha, hrest⟩ := List.forall_mem_cons.mp h
    rw [List.forM_eq_forM, List.forM_cons, List.map_cons, ← List.singleton_append]
    exact ha.append (ih hrest)

theorem writes_option {α : Type} (o : Option α) {f : α → Exporter w Unit} {g : α → Content}
    (h : ∀ a ∈ o, Writes (f a) [g a]) : Writes (o.forM f) (o.toList.map g) := by
  cases o with
  | none => exact writes_nil
  | some a => exact h a rfl

/-! ## Attributes and tags -/

theorem presentAttributes_cons (name : String) (value : Option String)
    (rest : List (String × Option String)) :
    presentAttributes ((name, value) :: rest) =
      optionalAttribute name value ++ presentAttributes rest := by
  cases value with
  | none => rfl
  | some value => rfl

theorem named_presentAttributes {attributes : List (String × Option String)} (names : List String)
    (hnames : attributes.map Prod.fst = names)
    (h : (names.all fun name => isName name.toList) = true) :
    Named (presentAttributes attributes) := by
  subst hnames
  intro a ha
  obtain ⟨b, hb, hab⟩ := List.mem_filterMap.mp ha
  obtain ⟨value, _, rfl⟩ := Option.map_eq_some_iff.mp hab
  exact List.all_eq_true.mp h b.1 (List.mem_map.mpr ⟨b, hb, rfl⟩)

theorem tag_nodeKind (kind : NodeKind) : "bpmn:" ++ kind.tag = kind.elementName := by
  rcases kind with ⟨_ | type, trigger⟩ | ⟨_ | type⟩ | ⟨_ | type⟩
  case event.none | task.none | gateway.none => rfl
  all_goals cases type <;> rfl

theorem tag_trigger (trigger : Trigger) : "bpmn:" ++ trigger.tag = trigger.elementName := by
  cases trigger <;> rfl

theorem tag_connector (connector : Connector) :
    "bpmn:" ++ connector.tag = connector.elementName := by
  cases connector <;> rfl

theorem isName_nodeKind (kind : NodeKind) : isName kind.elementName.toList = true := by
  rcases kind with ⟨_ | type, trigger⟩ | ⟨_ | type⟩ | ⟨_ | type⟩
  case event.none | task.none | gateway.none => simp only [NodeKind.elementName]; decide
  all_goals cases type <;> simp only [NodeKind.elementName] <;> decide

theorem isName_trigger (trigger : Trigger) : isName trigger.elementName.toList = true := by
  cases trigger <;> decide

theorem isName_connector (connector : Connector) :
    isName connector.elementName.toList = true := by
  cases connector <;> decide

/-! ## Processes -/

variable (w) in
theorem writes_leaves (tag : String) (htag : isName tag.toList = true) {refs : List String}
    (h : ∀ id ∈ refs, Visible id) :
    Writes (refs.forM (textElement tag) : Exporter w Unit) (refs.map (.leaf tag)) :=
  writes_forM refs fun id hid => writes_textElement htag (h id hid)

theorem writes_eventDefinition (d : EventDefinition) :
    Writes (empty ("bpmn:" ++ d.trigger.tag) [("id", d.id)] : Exporter w Unit) [d.tree] := by
  rw [tag_trigger]
  exact writes_empty (isName_trigger d.trigger) (named_of_names ["id"] rfl (by decide))

theorem writes_flowNode {n : FlowNode} (h : ∀ id ∈ n.references, Visible id) :
    Writes (flowNode n : Exporter w Unit) [n.tree] := by
  obtain ⟨hincoming, houtgoing⟩ := List.forall_mem_append.mp h
  have htag := isName_nodeKind n.kind
  have hnamed : Named [("id", n.id), ("name", n.name)] :=
    named_of_names ["id", "name"] rfl (by decide)
  rw [flowNode, tag_nodeKind, FlowNode.tree]
  split
  next hempty =>
    simp only [FlowNode.isEmpty, Bool.and_eq_true, List.isEmpty_iff, Option.isNone_iff_eq_none]
      at hempty
    rw [hempty.1.1, hempty.1.2, hempty.2]
    exact writes_empty htag hnamed
  next =>
    have hrefs := (writes_leaves w "bpmn:incoming" (by decide) hincoming).append
      (writes_leaves w "bpmn:outgoing" (by decide) houtgoing)
    have hevent := writes_option n.eventDefinition fun d _ => writes_eventDefinition (w := w) d
    simpa only [bind_assoc] using (hrefs.append hevent).element htag hnamed

theorem writes_flow (f : Flow) : Writes (flow f : Exporter w Unit) [f.tree] := by
  have hdirection : f.connector.direction? = f.connector.pointing := by
    cases f.connector <;> rfl
  have hattributes : [("id", f.id)] ++ optionalAttribute "name" f.name ++
      optionalAttribute "sourceRef" f.sourceRef ++ optionalAttribute "targetRef" f.targetRef ++
      optionalAttribute "associationDirection" f.connector.direction? =
      presentAttributes
        [("id", some f.id), ("name", f.name), ("sourceRef", f.sourceRef),
          ("targetRef", f.targetRef), ("associationDirection", f.connector.pointing)] := by
    simp only [hdirection, presentAttributes_cons, List.append_assoc]
    rw [presentAttributes, List.filterMap_nil, List.append_nil]
    rfl
  rw [flow, tag_connector, Flow.tree, hattributes]
  exact writes_empty (isName_connector f.connector) (named_presentAttributes
    ["id", "name", "sourceRef", "targetRef", "associationDirection"] rfl (by decide))

theorem writes_laneSet (tag : String) (htag : isName tag.toList = true) (id : String)
    (hx : Writes x ts) :
    Writes (laneSet tag id x) [.element tag [("id", id)] ts] :=
  hx.element htag (named_of_names ["id"] rfl (by decide))

mutual

theorem writes_lane (l : Lane) (h : ∀ id ∈ l.flatten.flatMap Lane.flowNodeRefs, Visible id) :
    Writes (lane l : Exporter w Unit) [l.tree] := by
  have hnamed : ∀ id name, Named [("id", id), ("name", name)] :=
    fun _ _ => named_of_names ["id", "name"] rfl (by decide)
  match l with
  | .whole id name refs =>
    rw [Lane.flatten, List.flatMap_singleton] at h
    have hrefs := writes_leaves w "bpmn:flowNodeRef" (by decide) h
    rw [lane, Lane.tree]
    split
    next hempty =>
      rw [List.isEmpty_iff.mp hempty]
      exact writes_empty (by decide) (hnamed id name)
    next => exact hrefs.element (by decide) (hnamed id name)
  | .divided id name refs laneSetId children =>
    rw [Lane.flatten, List.flatMap_cons, List.forall_mem_append] at h
    obtain ⟨hvisible : ∀ r ∈ refs, Visible r, hchildren⟩ := h
    have hrefs := writes_leaves w "bpmn:flowNodeRef" (by decide) hvisible
    have hset := writes_laneSet "bpmn:childLaneSet" (by decide) laneSetId
      (writes_lanes children hchildren)
    rw [lane, Lane.tree]
    simpa only [bind_assoc] using (hrefs.append hset).element (by decide) (hnamed id name)

theorem writes_lanes (ls : List Lane)
    (h : ∀ id ∈ (Lane.flattenAll ls).flatMap Lane.flowNodeRefs, Visible id) :
    Writes (lanes ls : Exporter w Unit) (Lane.trees ls) := by
  match ls with
  | [] =>
    rw [lanes, Lane.trees]
    exact writes_nil
  | first :: rest =>
    rw [Lane.flattenAll, List.flatMap_append, List.forall_mem_append] at h
    rw [lanes, Lane.trees]
    exact (writes_lane first h.1).append (writes_lanes rest h.2)

end

theorem writes_process {p : Process} (h : ∀ id ∈ p.references, Visible id) :
    Writes (process p : Exporter w Unit) [p.tree] := by
  obtain ⟨hreferences, -⟩ := List.forall_mem_append.mp h
  obtain ⟨hlanes, hnodes⟩ := List.forall_mem_append.mp hreferences
  have hnamed : Named [("id", p.id), ("isExecutable", "false")] :=
    named_of_names ["id", "isExecutable"] rfl (by decide)
  rw [process, Process.tree]
  split
  next hempty =>
    simp only [Bool.and_eq_true, List.isEmpty_iff, Option.isNone_iff_eq_none] at hempty
    rw [hempty.1.1, hempty.1.2, hempty.2]
    exact writes_empty (by decide) hnamed
  next =>
    have hset : Writes (p.laneSet.forM fun s => laneSet (w := w) "bpmn:laneSet" s.id
        (lanes s.lanes)) (p.laneSet.toList.map LaneSet.tree) := by
      refine writes_option p.laneSet fun s hs => writes_laneSet "bpmn:laneSet" (by decide) s.id
        (writes_lanes s.lanes fun id hid => hlanes id ?_)
      rw [Process.lanes, List.flatMap_assoc]
      exact List.mem_flatMap.mpr ⟨s, Option.mem_toList.mpr hs, hid⟩
    have hnodes : Writes (p.nodes.forM (flowNode (w := w))) (p.nodes.map FlowNode.tree) :=
      writes_forM p.nodes fun n hn => writes_flowNode fun id hid =>
        hnodes id (List.mem_flatMap.mpr ⟨n, hn, hid⟩)
    have hflows := writes_forM p.flows fun f _ => writes_flow (w := w) f
    simpa only [bind_assoc] using
      ((hset.append hnodes).append hflows).element (by decide) hnamed

/-! ## Collaboration -/

theorem writes_participant (p : Participant) :
    Writes (participant p : Exporter w Unit) [p.tree] :=
  writes_empty (by decide) (named_of_names ["id", "name", "processRef"] rfl (by decide))

theorem writes_collaboration (c : Collaboration) :
    Writes (collaboration c : Exporter w Unit) [c.tree] := by
  have hnamed : Named [("id", c.id)] := named_of_names ["id"] rfl (by decide)
  rw [collaboration, Collaboration.tree]
  split
  next hempty =>
    simp only [Bool.and_eq_true, List.isEmpty_iff] at hempty
    rw [hempty.1, hempty.2]
    exact writes_empty (by decide) hnamed
  next =>
    have hparticipants := writes_forM c.participants fun p _ => writes_participant (w := w) p
    have hflows := writes_forM c.messageFlows fun f _ => writes_flow (w := w) f
    simpa only [bind_assoc] using (hparticipants.append hflows).element (by decide) hnamed

/-! ## Diagram -/

theorem writes_bounds (b : Bounds) :
    Writes (bounds b : Exporter w Unit) [b.tree Binary32.text] :=
  writes_empty (by decide) (named_of_names ["x", "y", "width", "height"] rfl (by decide))

theorem writes_shape (s : Shape) : Writes (shape s : Exporter w Unit) [s.tree Binary32.text] := by
  have hattributes : ([("id", s.id), ("bpmnElement", s.elementRef)] ++
      if s.isHorizontal then [("isHorizontal", "true")] else []) =
      presentAttributes
        [("id", some s.id), ("bpmnElement", some s.elementRef),
          ("isHorizontal", if s.isHorizontal then some "true" else none)] := by
    cases s.isHorizontal with
    | true => rfl
    | false => rfl
  rw [shape, hattributes, Shape.tree]
  exact (writes_bounds s.bounds).element (by decide)
    (named_presentAttributes ["id", "bpmnElement", "isHorizontal"] rfl (by decide))

theorem writes_waypoint (p : Point) :
    Writes (waypoint p : Exporter w Unit) [p.tree Binary32.text] :=
  writes_empty (by decide) (named_of_names ["x", "y"] rfl (by decide))

theorem writes_edge (e : Edge) : Writes (edge e : Exporter w Unit) [e.tree Binary32.text] := by
  have hnamed : Named [("id", e.id), ("bpmnElement", e.elementRef)] :=
    named_of_names ["id", "bpmnElement"] rfl (by decide)
  have hpoints := (writes_waypoint (w := w) e.route.start).append (writes_waypoint e.route.finish)
  have hedge := hpoints.element (by decide : isName "bpmndi:BPMNEdge".toList = true) hnamed
  rw [bind_assoc] at hedge
  exact hedge

theorem writes_diagram (d : Diagram) :
    Writes (diagram d : Exporter w Unit) [d.tree Binary32.text] := by
  have hnamed : Named [("id", d.id)] := named_of_names ["id"] rfl (by decide)
  have hplane : Named [("id", d.planeId), ("bpmnElement", d.planeElement)] :=
    named_of_names ["id", "bpmnElement"] rfl (by decide)
  have hdrawn := (writes_forM d.shapes fun s _ => writes_shape (w := w) s).append
    (writes_forM d.edges fun e _ => writes_edge e)
  have hinside := hdrawn.element (by decide : isName "bpmndi:BPMNPlane".toList = true) hplane
  rw [diagram, Diagram.tree]
  simpa only [bind_assoc] using hinside.element (by decide) hnamed

/-! ## The whole document -/

theorem writes_definitions {d : Document}
    (h : ∀ id ∈ d.processes.flatMap Process.references, Visible id) :
    Writes (definitions d : Exporter w Unit) [d.tree Binary32.text] := by
  have hnamed : Named (vocabularies ++
      [("id", d.id), ("targetNamespace", "http://bpmn.io/schema/bpmn")]) :=
    named_of_names
      ["xmlns:bpmn", "xmlns:bpmndi", "xmlns:dc", "xmlns:di", "id", "targetNamespace"] rfl
      (by decide)
  have hprocesses : Writes (d.processes.forM (process (w := w)))
      (d.processes.map Process.tree) :=
    writes_forM d.processes fun p hp => writes_process fun id hid =>
      h id (List.mem_flatMap.mpr ⟨p, hp, hid⟩)
  have hcollaboration := writes_option d.collaboration fun c _ => writes_collaboration (w := w) c
  have hdiagram := writes_option d.diagram fun g _ => writes_diagram (w := w) g
  have hwritten := ((hprocesses.append hcollaboration).append hdiagram).element
    (by decide : isName "bpmn:definitions".toList = true) hnamed
  simp only [bind_assoc] at hwritten
  exact hwritten

end
end Exporter
end Bpmn
