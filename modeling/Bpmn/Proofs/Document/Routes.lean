import Bpmn.Proofs.Bindings
import Bpmn.Proofs.Document.Closure
import Bpmn.Proofs.Homes

/-!
# Where the lines of a diagram run

The line of a connection is routed among some of the boxes, for a message flow among those of all
nodes and for any other connection among those of the nodes in the process that holds it.  It runs
between the boxes of its ends if both are there (`route_of_joins`), and if not, it shrinks to the
origin (`route_of_not_joins`).
-/

namespace Bpmn

/-- A line from the middle of one box to the middle of another, each coordinate rounded. -/
structure Route.Connects (r : Route) (a b : Bounds) : Prop where
  start : r.start =
    ⟨Binary32.round ((a.minX + a.maxX) / 2), Binary32.round ((a.minY + a.maxY) / 2)⟩
  finish : r.finish =
    ⟨Binary32.round ((b.minX + b.maxX) / 2), Binary32.round ((b.minY + b.maxY) / 2)⟩

namespace Diagram

/-- All edges of a flow run between boxes of these two elements. -/
def Runs (d : Diagram) (flow source target : String) : Prop :=
  ∀ e ∈ d.edges, e.elementRef = flow →
    ∃ a ∈ d.shapes, ∃ b ∈ d.shapes, a.elementRef = source ∧ b.elementRef = target ∧
      e.route.Connects a.bounds b.bounds

/-- All edges of a flow stay at the origin. -/
def Shrinks (d : Diagram) (flow : String) : Prop :=
  ∀ e ∈ d.edges, e.elementRef = flow → e.route = ⟨⟨0, 0⟩, ⟨0, 0⟩⟩

end Diagram

open Model Naming Assembly

namespace Document

/-- A flow with an edge from the middle of the one end's box to the middle of the other's. -/
def Routed (d : Document) (flow source target : String) : Prop :=
  ∃ diagram, d.diagram = some diagram ∧ (∃ e ∈ diagram.edges, e.elementRef = flow) ∧
    diagram.Runs flow source target

/-- A flow with an edge that stays at the origin. -/
def Shrunk (d : Document) (flow : String) : Prop :=
  ∃ diagram, d.diagram = some diagram ∧ (∃ e ∈ diagram.edges, e.elementRef = flow) ∧
    diagram.Shrinks flow

def elementId (m : Model) (h : Handle) : String := (Names.ofModel m).id (.element h)

/-- A node that the line of a connection can run to. -/
def Reaches (m : Model) (h n : Handle) : Prop :=
  if m.isMessageFlow h then m.isNode n = true
  else ∃ q ∈ (Partition.ofModel m).processes, h ∈ q.flows ∧ n ∈ q.nodes

/-- A connection with both ends bound to nodes that its line can run to. -/
structure Joins (m : Model) (h s t : Handle) : Prop where
  source : m.binding? h .source = some s
  target : m.binding? h .target = some t
  reaches_source : Reaches m h s
  reaches_target : Reaches m h t

abbrev layout (m : Model) (placement : Placement) : Layout :=
  .ofPartition m (Partition.ofModel m) placement

section

variable {m : Model} {placement : Placement} {q : ProcessOutline} {h n : Handle} {c : Connection}

/-! ## Identifiers tell elements -/

theorem elementRef_shape (isHorizontal : Bool) (n : Handle) (bounds : Bounds) :
    (shape (Names.ofModel m) isHorizontal n bounds).elementRef = elementId m n := by
  rw [elementId, shape_elementRef]

theorem elementRef_edge (h : Handle) (route : Route) :
    (edge (Names.ofModel m) h route).elementRef = elementId m h := by
  rw [elementId, edge_elementRef]

theorem elementId_inj {a b : Handle} (ha : a ∈ namedHandles m) (hb : b ∈ namedHandles m)
    (hid : elementId m a = elementId m b) : a = b :=
  Entity.element.inj
    (Names.id_inj (element_mem_entities.mpr ha) (element_mem_entities.mpr hb) hid)

theorem elementId_inj_of_isNode {a b : Handle} (ha : m.isNode a = true) (hb : m.isNode b = true)
    (hid : elementId m a = elementId m b) : a = b :=
  elementId_inj (mem_namedHandles_of_isNode ha) (mem_namedHandles_of_isNode hb) hid

theorem elementId_inj_of_isConnection {a b : Handle} (ha : m.isConnection a = true)
    (hb : m.isConnection b = true) (hid : elementId m a = elementId m b) : a = b :=
  elementId_inj (mem_namedHandles_of_isConnection ha) (mem_namedHandles_of_isConnection hb) hid

/-! ## Sorts of connections -/

theorem isConnection_of_connection? (hc : m.connection? h = some c) : m.isConnection h = true := by
  rw [isConnection, hc, Option.isSome_some]

theorem isFlow_of_connection? (hc : m.connection? h = some c) (hflow : c.isMessageFlow = false) :
    m.isFlow h = true := by
  rw [isFlow, hc, Option.any_some, hflow, Bool.not_false]

theorem isMessageFlow_eq (hc : m.connection? h = some c) : m.isMessageFlow h = c.isMessageFlow := by
  rw [isMessageFlow, hc, Option.any_some]

/-! ## Shapes -/

variable (placement) in
theorem keys_row {i : Nat} (hi : (Partition.ofModel m).processes[i]? = some q) :
    (Layout.row m placement i q).boxes.map Prod.fst = q.nodes :=
  Layout.boxes_row (List.mem_of_getElem? hi)

theorem mem_zip_rows {row : Row} :
    (q, row) ∈ (Partition.ofModel m).processes.zip (layout m placement).rows ↔
      ∃ i, (Partition.ofModel m).processes[i]? = some q ∧ Layout.row m placement i q = row := by
  rw [layout, Layout.ofPartition]
  exact mem_zip_mapIdx

variable (placement) in
theorem exists_shape {i : Nat} (hi : (Partition.ofModel m).processes[i]? = some q)
    (hn : n ∈ q.nodes) : ∃ shape ∈ allShapes (Names.ofModel m) (Partition.ofModel m)
        (layout m placement), shape.elementRef = elementId m n ∧
      List.lookup n (Layout.row m placement i q).boxes = some shape.bounds := by
  have hq := List.mem_of_getElem? hi
  rw [← keys_row placement hi] at hn
  obtain ⟨bounds, hmem, hlookup⟩ := Table.exists_lookup hn
  refine ⟨shape (Names.ofModel m) false n bounds, ?_, elementRef_shape false n bounds, ?_⟩
  · rw [allShapes, List.mem_flatMap]
    refine ⟨(q, Layout.row m placement i q), mem_zip_rows.mpr ⟨i, hi, rfl⟩, ?_⟩
    dsimp only
    rw [shapes_eq (keys_row placement hi) fun x hx =>
      Names.id?_isSome (mem_namedHandles_of_mem_processes hq hx)]
    exact List.mem_append_right _ (List.mem_map.mpr ⟨(n, bounds), hmem, rfl⟩)
  · rw [hlookup, shape]

variable (placement) in
/-- A node of a model has one box, which is drawn and which lines to any row find. -/
theorem exists_shape_of_isNode (hn : m.isNode n = true) :
    ∃ shape ∈ allShapes (Names.ofModel m) (Partition.ofModel m) (layout m placement),
      shape.elementRef = elementId m n ∧
      List.lookup n (layout m placement).boxes = some shape.bounds := by
  obtain ⟨q, hq, hmem⟩ := Partition.exists_process_of_isNode hn
  obtain ⟨i, hi⟩ := List.mem_iff_getElem?.mp hq
  obtain ⟨shape, hshape, href, hlookup⟩ := exists_shape placement hi hmem
  obtain ⟨before, after, hboxes, -⟩ := List.lookup_eq_some_iff.mp hlookup
  refine ⟨shape, hshape, href,
    Layout.lookup_boxes (List.of_mem_zip (mem_zip_rows.mpr ⟨i, hi, rfl⟩)).2 ?_⟩
  rw [hboxes]
  exact List.mem_append_right before List.mem_cons_self

/-! ## Edges -/

theorem mem_edges_iff {boxes : Boxes} {hs : List Handle}
    (hhs : ∀ x ∈ hs, m.isConnection x = true) (hc : m.connection? h = some c) {e : Edge} :
    e ∈ edges m (Names.ofModel m) boxes hs ∧ e.elementRef = elementId m h ↔
      h ∈ hs ∧ edge (Names.ofModel m) h (boxes.route c.source.bound c.target.bound) = e := by
  rw [edges_eq fun x hx => Names.id?_isSome (mem_namedHandles_of_isConnection (hhs x hx)),
    List.mem_filterMap]
  constructor
  · rintro ⟨⟨x, hx, he⟩, href⟩
    obtain ⟨d, hd, rfl⟩ := Option.map_eq_some_iff.mp he
    rw [elementRef_edge] at href
    obtain rfl : x = h :=
      elementId_inj_of_isConnection (hhs x hx) (isConnection_of_connection? hc) href
    obtain rfl : d = c := Option.some.inj (hd.symm.trans hc)
    exact ⟨hx, rfl⟩
  · rintro ⟨hh, rfl⟩
    exact ⟨⟨h, hh, Option.map_eq_some_iff.mpr ⟨c, hc, rfl⟩⟩, elementRef_edge h _⟩

variable (placement) in
/-- The edge of a flow is routed in the row of the process that holds the flow, and that of a
message flow among the boxes of all rows. -/
theorem mem_allEdges_iff (hc : m.connection? h = some c) {e : Edge} :
    e ∈ allEdges m (Names.ofModel m) (Partition.ofModel m) (layout m placement) ∧
        e.elementRef = elementId m h ↔
      (∃ i q, (Partition.ofModel m).processes[i]? = some q ∧ h ∈ q.flows ∧
        edge (Names.ofModel m) h
          ((Layout.row m placement i q).boxes.route c.source.bound c.target.bound) = e) ∨
      h ∈ (Partition.ofModel m).messageFlows ∧ edge (Names.ofModel m) h
        ((layout m placement).boxes.route c.source.bound c.target.bound) = e := by
  have hflows : ∀ q ∈ (Partition.ofModel m).processes, ∀ x ∈ q.flows, m.isConnection x = true :=
    fun q hq x hx => isConnection_of_isFlow (Partition.isFlow_of_mem_flows hq hx)
  rw [allEdges, List.mem_append, List.mem_flatMap, or_and_right]
  refine or_congr ⟨?_, ?_⟩ (mem_edges_iff (fun x hx => isConnection_of_mem_messageFlows hx) hc)
  · rintro ⟨⟨⟨q, row⟩, hzip, he⟩, href⟩
    obtain ⟨i, hi, rfl⟩ := mem_zip_rows.mp hzip
    obtain ⟨hh, he⟩ := (mem_edges_iff (hflows q (List.mem_of_getElem? hi)) hc).mp ⟨he, href⟩
    exact ⟨i, q, hi, hh, he⟩
  · rintro ⟨i, q, hi, hh, he⟩
    obtain ⟨he, href⟩ := (mem_edges_iff (hflows q (List.mem_of_getElem? hi)) hc).mpr ⟨hh, he⟩
    exact ⟨⟨(q, Layout.row m placement i q), mem_zip_rows.mpr ⟨i, hi, rfl⟩, he⟩, href⟩

variable (m placement) in
/-- There is always a process, so there is something for a diagram to be on. -/
theorem diagram_ofModel : ∃ planeElement, (ofModel m placement).diagram =
    diagram? m (Names.ofModel m) (Partition.ofModel m) (layout m placement) planeElement := by
  have hplane : ∃ planeElement, ((ofModel m placement).collaboration.map Collaboration.id).or
      ((ofModel m placement).processes.head?.map Process.id) = some planeElement := by
    refine Option.ne_none_iff_exists'.mp fun hnone => ?_
    obtain ⟨-, hhead⟩ := Option.or_eq_none_iff.mp hnone
    rw [Option.map_eq_none_iff, List.head?_eq_none_iff, processes_ofModel, List.map_eq_nil_iff]
      at hhead
    exact Partition.processes_ne_nil hhead
  obtain ⟨planeElement, hplane⟩ := hplane
  refine ⟨planeElement, ?_⟩
  rw [← Option.bind_some (f := diagram? m (Names.ofModel m) (Partition.ofModel m)
    (layout m placement)), ← hplane]
  rfl

variable (placement) in
/-- A document with a connection has a diagram, and the connection an edge there. -/
theorem exists_edge (hh : m.isConnection h = true) :
    ∃ diagram, (ofModel m placement).diagram = some diagram ∧
      diagram.shapes = allShapes (Names.ofModel m) (Partition.ofModel m) (layout m placement) ∧
      diagram.edges = allEdges m (Names.ofModel m) (Partition.ofModel m) (layout m placement) ∧
      ∃ e ∈ diagram.edges, e.elementRef = elementId m h := by
  have href : elementId m h ∈ (allEdges m (Names.ofModel m) (Partition.ofModel m)
      (layout m placement)).map Edge.elementRef := by
    rw [allEdges_map elementRef_edge]
    exact List.mem_map_of_mem (Partition.mem_connections.mpr hh)
  obtain ⟨e, he, href⟩ := List.mem_map.mp href
  have hedges : (allEdges m (Names.ofModel m) (Partition.ofModel m)
      (layout m placement)).isEmpty = false :=
    List.isEmpty_eq_false_iff.mpr (List.ne_nil_of_mem he)
  obtain ⟨planeElement, hdraw⟩ := diagram_ofModel m placement
  rw [hdraw, diagram?, hedges, Bool.and_false, if_neg Bool.false_ne_true]
  exact ⟨_, rfl, rfl, rfl, e, he, href⟩

/-! ## Among which boxes -/

theorem reaches_iff_of_isFlow (hf : m.isFlow h = true) :
    Reaches m h n ↔ m.isNode n = true ∧ m.poolOf? h = m.poolOf? n := by
  obtain ⟨c, hc⟩ := Option.isSome_iff_exists.mp (isConnection_of_isFlow hf)
  have hflow : c.isMessageFlow = false := by
    rwa [isFlow, hc, Option.any_some, Bool.not_eq_true'] at hf
  rw [Reaches, isMessageFlow_eq hc, hflow, if_neg Bool.false_ne_true]
  constructor
  · rintro ⟨q, hq, hmem, hn⟩
    obtain ⟨hn, hpool⟩ := (Partition.mem_nodes_iff hq).mp hn
    exact ⟨hn, ((Partition.mem_flows_iff hq).mp hmem).2.trans hpool.symm⟩
  · rintro ⟨hn, hpool⟩
    obtain ⟨q, hq, hmem⟩ := Partition.exists_process_of_isFlow hf
    refine ⟨q, hq, hmem, (Partition.mem_nodes_iff hq).mpr ⟨hn, hpool.symm.trans ?_⟩⟩
    exact ((Partition.mem_flows_iff hq).mp hmem).2

theorem reaches_iff_of_mem_flows (hq : q ∈ (Partition.ofModel m).processes) (hh : h ∈ q.flows) :
    Reaches m h n ↔ n ∈ q.nodes := by
  obtain ⟨hf, hpool⟩ := (Partition.mem_flows_iff hq).mp hh
  rw [reaches_iff_of_isFlow hf, Partition.mem_nodes_iff hq, hpool, eq_comm (a := q.pool)]

theorem reaches_iff_of_isMessageFlow (hh : m.isMessageFlow h = true) :
    Reaches m h n ↔ m.isNode n = true := by
  rw [Reaches, if_pos hh]

/-- Boxes among which the line of a connection is routed. -/
structure RoutedAmong (m : Model) (placement : Placement) (h : Handle) (boxes : Boxes) : Prop where
  drawn : ∀ n, Reaches m h n →
    ∃ a ∈ allShapes (Names.ofModel m) (Partition.ofModel m) (layout m placement),
      a.elementRef = elementId m n ∧ boxes.lookup n = some a.bounds
  beyond : ∀ n, ¬Reaches m h n → boxes.lookup n = none

theorem routedAmong_row {i : Nat} (hi : (Partition.ofModel m).processes[i]? = some q)
    (hh : h ∈ q.flows) : RoutedAmong m placement h (Layout.row m placement i q).boxes := by
  have hiff := fun n => reaches_iff_of_mem_flows (n := n) (List.mem_of_getElem? hi) hh
  refine ⟨fun n hn => exists_shape placement hi ((hiff n).mp hn), fun n hn => ?_⟩
  rw [hiff, ← keys_row placement hi] at hn
  exact Table.lookup_eq_none hn

theorem routedAmong_boxes (hh : m.isMessageFlow h = true) :
    RoutedAmong m placement h (layout m placement).boxes := by
  have hiff := fun n => reaches_iff_of_isMessageFlow (n := n) hh
  refine ⟨fun n hn => exists_shape_of_isNode placement ((hiff n).mp hn), fun n hn => ?_⟩
  refine Table.lookup_eq_none fun hmem => hn ?_
  rw [Layout.keys_boxes, Partition.mem_nodes] at hmem
  exact (hiff n).mpr hmem

theorem exists_routedAmong (hc : m.connection? h = some c) {e : Edge}
    (he : e ∈ allEdges m (Names.ofModel m) (Partition.ofModel m) (layout m placement))
    (href : e.elementRef = elementId m h) : ∃ boxes, RoutedAmong m placement h boxes ∧
      e.route = boxes.route c.source.bound c.target.bound := by
  rcases (mem_allEdges_iff placement hc).mp ⟨he, href⟩ with ⟨i, q, hi, hh, rfl⟩ | ⟨hh, rfl⟩
  · exact ⟨_, routedAmong_row hi hh, rfl⟩
  · exact ⟨_, routedAmong_boxes (Partition.mem_messageFlows.mp hh), rfl⟩

/-! ## Between boxes, or nowhere -/

theorem connects_of_lookup {boxes : Boxes} {s t : Handle} {a b : Bounds}
    (hs : List.lookup s boxes = some a) (ht : List.lookup t boxes = some b) :
    (boxes.route (some s) (some t)).Connects a b := by
  simp only [Boxes.route, Option.bind_some, hs, ht]
  exact ⟨rfl, rfl⟩

theorem route_eq_origin {boxes : Boxes} {source target : Option Handle}
    (hends : ∀ s t, source = some s → target = some t →
      List.lookup s boxes = none ∨ List.lookup t boxes = none) :
    boxes.route source target = ⟨.origin, .origin⟩ := by
  rw [Boxes.route]
  split
  next a b ha hb =>
    obtain ⟨s, rfl, hs⟩ := Option.bind_eq_some_iff.mp ha
    obtain ⟨t, rfl, ht⟩ := Option.bind_eq_some_iff.mp hb
    rcases hends s t rfl rfl with hnone | hnone
    · rw [hs] at hnone
      cases hnone
    · rw [ht] at hnone
      cases hnone
  next => rfl

theorem route_of_joins {s t : Handle} (hj : Joins m h s t) {e : Edge}
    (he : e ∈ allEdges m (Names.ofModel m) (Partition.ofModel m) (layout m placement))
    (href : e.elementRef = elementId m h) :
    ∃ a ∈ allShapes (Names.ofModel m) (Partition.ofModel m) (layout m placement),
      ∃ b ∈ allShapes (Names.ofModel m) (Partition.ofModel m) (layout m placement),
        a.elementRef = elementId m s ∧ b.elementRef = elementId m t ∧
          e.route.Connects a.bounds b.bounds := by
  obtain ⟨c, hc, hs⟩ := Option.bind_eq_some_iff.mp hj.source
  obtain ⟨d, hd, ht⟩ := Option.bind_eq_some_iff.mp hj.target
  obtain rfl : c = d := Option.some.inj (hc.symm.trans hd)
  obtain ⟨boxes, hboxes, hroute⟩ := exists_routedAmong hc he href
  obtain ⟨a, ha, haref, hlookupa⟩ := hboxes.drawn s hj.reaches_source
  obtain ⟨b, hb, hbref, hlookupb⟩ := hboxes.drawn t hj.reaches_target
  have hends : boxes.route c.source.bound c.target.bound = boxes.route (some s) (some t) :=
    congrArg₂ boxes.route hs ht
  refine ⟨a, ha, b, hb, haref, hbref, ?_⟩
  rw [hroute, hends]
  exact connects_of_lookup hlookupa hlookupb

theorem route_of_not_joins (hh : m.isConnection h = true) (hj : ¬∃ s t, Joins m h s t) {e : Edge}
    (he : e ∈ allEdges m (Names.ofModel m) (Partition.ofModel m) (layout m placement))
    (href : e.elementRef = elementId m h) : e.route = ⟨.origin, .origin⟩ := by
  obtain ⟨c, hc⟩ := Option.isSome_iff_exists.mp hh
  obtain ⟨boxes, hboxes, hroute⟩ := exists_routedAmong hc he href
  refine hroute.trans (route_eq_origin fun s t hs ht => ?_)
  by_contra hlookups
  obtain ⟨hsource, htarget⟩ := not_or.mp hlookups
  refine hj ⟨s, t, (binding?_of_connection? hc .source).trans hs,
    (binding?_of_connection? hc .target).trans ht, ?_, ?_⟩
  · exact not_not.mp fun hnot => hsource (hboxes.beyond s hnot)
  · exact not_not.mp fun hnot => htarget (hboxes.beyond t hnot)

/-! ## In the document -/

theorem runs_of_joins {s t : Handle} (hj : Joins m h s t) {d : Diagram}
    (hshapes : d.shapes = allShapes (Names.ofModel m) (Partition.ofModel m) (layout m placement))
    (hedges : d.edges = allEdges m (Names.ofModel m) (Partition.ofModel m) (layout m placement)) :
    d.Runs (elementId m h) (elementId m s) (elementId m t) := by
  rw [Diagram.Runs, hshapes, hedges]
  exact fun e he href => route_of_joins hj he href

theorem shrinks_of_not_joins (hh : m.isConnection h = true) (hj : ¬∃ s t, Joins m h s t)
    {d : Diagram}
    (hedges : d.edges = allEdges m (Names.ofModel m) (Partition.ofModel m) (layout m placement)) :
    d.Shrinks (elementId m h) := by
  rw [Diagram.Shrinks, hedges]
  exact fun e he href => route_of_not_joins hh hj he href

theorem routed_of_joins {s t : Handle} (hj : Joins m h s t) :
    (ofModel m placement).Routed (elementId m h) (elementId m s) (elementId m t) := by
  obtain ⟨c, hc, -⟩ := Option.bind_eq_some_iff.mp hj.source
  obtain ⟨diagram, hdiagram, hshapes, hedges, hedge⟩ :=
    exists_edge placement (isConnection_of_connection? hc)
  exact ⟨diagram, hdiagram, hedge, runs_of_joins hj hshapes hedges⟩

theorem shrunk_of_not_joins (hh : m.isConnection h = true) (hj : ¬∃ s t, Joins m h s t) :
    (ofModel m placement).Shrunk (elementId m h) := by
  obtain ⟨diagram, hdiagram, -, hedges, hedge⟩ := exists_edge placement hh
  exact ⟨diagram, hdiagram, hedge, shrinks_of_not_joins hh hj hedges⟩

end
end Document
end Bpmn
