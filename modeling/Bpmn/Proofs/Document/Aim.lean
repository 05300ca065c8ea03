import Bpmn.Proofs.Document.Linked

/-!
# What flows are aimed at

A flow of a model that the checks accept has both ends bound, but the checks do not ask to what.
Bound to a node, an end refers to that node, whichever process holds it, as all nodes are named
before any flow.  Bound to anything else, it refers to no node.  So the flows of a document are
aimed at nodes exactly if the ends of connections are bound to nothing but nodes
(`wellAimed_iff_boundToNodes`), as they are in a model that no declaration brings bindings into.
-/

namespace Bpmn

open Markup Model Naming Assembly

namespace Document

/-- An identifier of a node, which is none of a lane or a flow. -/
structure NamesNode (d : Document) (id : String) : Prop where
  node : ∃ a ∈ d.allNodes, a.id = id
  lane : ∀ l ∈ d.allLanes, l.id ≠ id
  flow : ∀ f ∈ d.allFlows, f.id ≠ id

/-- A flow with a node at either end. -/
def WellAimed (d : Document) (f : Flow) : Prop :=
  ∀ endpoint, ∃ id, f.reference? endpoint = some id ∧ d.NamesNode id

section

variable {m : Model} {placement : Placement} {h n : Handle} {c : Connection}

/-! ## All that a document holds -/

theorem mem_allNodes {a : FlowNode} (ha : a ∈ (ofModel m placement).allNodes) :
    ∃ x, m.isNode x = true ∧ a.id = elementId m x := by
  obtain ⟨p, hp, ha⟩ := List.mem_flatMap.mp ha
  obtain ⟨q, hq, rfl⟩ := mem_processes.mp hp
  obtain ⟨x, hx, node, -, rfl⟩ := (mem_nodes_process hq).mp ha
  exact ⟨x, Partition.isNode_of_mem_nodes hq hx, id_flowNode x node⟩

theorem exists_mem_allNodes (hn : m.isNode n = true) :
    ∃ a ∈ (ofModel m placement).allNodes, a.id = elementId m n := by
  obtain ⟨q, hq, hmem⟩ := Partition.exists_process_of_isNode hn
  obtain ⟨node, hnode⟩ := exists_node hn
  have hheld := (mem_nodes_process hq).mpr ⟨n, hmem, node, hnode, rfl⟩
  exact ⟨_, List.mem_flatMap.mpr ⟨_, mem_processes.mpr ⟨q, hq, rfl⟩, hheld⟩, id_flowNode n node⟩

theorem allLanes_ofModel : (ofModel m placement).allLanes =
    (laneHandles m).filterMap (laneAt m (Names.ofModel m)) := by
  rw [allLanes, processes_ofModel, List.flatMap_map, laneHandles, ← Partition.pools_eq,
    Partition.pools, List.flatMap_assoc, List.filterMap_flatMap]
  exact List.flatMap_congr fun q _ => lanes_process

theorem mem_allLanes {l : Lane} (hl : l ∈ (ofModel m placement).allLanes) :
    ∃ x, m.isLane x = true ∧ l.id = elementId m x := by
  rw [allLanes_ofModel] at hl
  obtain ⟨x, -, hl⟩ := List.mem_filterMap.mp hl
  exact ⟨x, isLane_of_laneAt hl, (records_laneAt hl).id⟩

theorem mem_flows_iff {hs : List Handle} {f : Flow} :
    f ∈ flows m (Names.ofModel m) hs ↔
      ∃ x ∈ hs, ∃ c, m.connection? x = some c ∧ flow (Names.ofModel m) x c = f := by
  rw [flows, List.mem_filterMap]
  exact exists_congr fun x => and_congr_right fun _ => Option.map_eq_some_iff

theorem messageFlows_ofModel :
    (ofModel m placement).collaboration.toList.flatMap Collaboration.messageFlows =
      flows m (Names.ofModel m) (Partition.ofModel m).messageFlows := by
  cases hc : (ofModel m placement).collaboration with
  | none =>
    obtain ⟨-, hnil⟩ := collaboration?_eq_none_iff.mp hc
    rw [hnil]
    rfl
  | some c =>
    rw [Option.toList_some, List.flatMap_singleton, eq_of_collaboration? hc]
    rfl

theorem allFlows_ofModel : (ofModel m placement).allFlows =
    flows m (Names.ofModel m)
      ((Partition.ofModel m).flows ++ (Partition.ofModel m).messageFlows) := by
  rw [allFlows, messageFlows_ofModel, processes_ofModel, List.flatMap_map, Partition.flows, flows,
    flows, List.filterMap_append, List.filterMap_flatMap]
  rfl

/-- The flows of a document are those of the connections of its model. -/
theorem mem_allFlows {f : Flow} : f ∈ (ofModel m placement).allFlows ↔
    ∃ h c, m.connection? h = some c ∧ flow (Names.ofModel m) h c = f := by
  rw [allFlows_ofModel, mem_flows_iff]
  constructor
  · rintro ⟨h, -, hf⟩
    exact ⟨h, hf⟩
  · rintro ⟨h, c, hc, hf⟩
    exact ⟨h, Partition.mem_connections.mpr (Option.isSome_iff_exists.mpr ⟨c, hc⟩), c, hc, hf⟩

/-! ## Identifiers of nodes -/

theorem isNode_of_connection? (hc : m.connection? h = some c) : m.isNode h = false := by
  obtain ⟨e, he, hc⟩ := Option.bind_eq_some_iff.mp hc
  rw [isNode, node?, he]
  cases e with
  | connection => rfl
  | pool | lane | node => cases hc

theorem isNode_of_isLane {l : Handle} (hl : m.isLane l = true) : m.isNode l = false := by
  obtain ⟨name, parent, he⟩ := isLane_iff.mp hl
  rw [isNode, node?, he]
  rfl

theorem isNode_of_elementId_eq {x : Handle} (hx : x ∈ namedHandles m) (hn : m.isNode n = true)
    (hid : elementId m x = elementId m n) : m.isNode x = true := by
  rw [elementId_inj hx (mem_namedHandles_of_isNode hn) hid]
  exact hn

theorem namesNode (hn : m.isNode n = true) :
    (ofModel m placement).NamesNode (elementId m n) := by
  refine ⟨exists_mem_allNodes hn, fun l hl hid => ?_, fun f hf hid => ?_⟩
  · obtain ⟨x, hx, hlane⟩ := mem_allLanes hl
    have hnode := isNode_of_elementId_eq (mem_namedHandles_of_isLane hx) hn (hlane.symm.trans hid)
    rw [isNode_of_isLane hx] at hnode
    cases hnode
  · obtain ⟨h, c, hc, rfl⟩ := mem_allFlows.mp hf
    rw [id_flow] at hid
    have hnamed := mem_namedHandles_of_isConnection (isConnection_of_connection? hc)
    have hnode := isNode_of_elementId_eq hnamed hn hid
    rw [isNode_of_connection? hc] at hnode
    cases hnode

/-! ## The ends of flows -/

theorem reference?_flow (endpoint : Endpoint) :
    (flow (Names.ofModel m) h c).reference? endpoint =
      (c.reference endpoint).bound.bind ((Names.ofModel m).visibleFrom? h) := by
  cases endpoint <;> rfl

/-- An end that is bound to a node refers to it. -/
theorem reference?_of_isNode (hc : m.connection? h = some c) {endpoint : Endpoint}
    (hb : (c.reference endpoint).bound = some n) (hn : m.isNode n = true) :
    (flow (Names.ofModel m) h c).reference? endpoint = some (elementId m n) := by
  rw [reference?_flow, hb, Option.bind_some]
  exact Names.visibleFrom?_of_isNode (isNode_of_connection? hc) hn

/-- An end that refers to a node is bound to it. -/
theorem isNode_of_reference? {endpoint : Endpoint} (hb : (c.reference endpoint).bound = some n)
    {a : FlowNode} (ha : a ∈ (ofModel m placement).allNodes)
    (hr : (flow (Names.ofModel m) h c).reference? endpoint = some a.id) : m.isNode n = true := by
  obtain ⟨x, hx, hid⟩ := mem_allNodes ha
  rw [reference?_flow, hb, Option.bind_some] at hr
  obtain ⟨hkey, hname⟩ := Names.visibleFrom?_eq_some hr
  have hnamed := element_mem_entities.mp (Names.mem_keys.mp hkey)
  exact isNode_of_elementId_eq hnamed hx (hname.trans hid)

end

/-- In the document of a model that compiles, an end of a flow refers to the node that it is bound
to, and to no node if it is bound to anything else.  So all flows are aimed at nodes exactly if no
end is bound to anything else, in particular if no declaration brings a binding with it. -/
theorem wellAimed_iff_boundToNodes (m : Model) (w : Writer) (options : Options) (text : String)
    (hcompile : m.compile w options = .ok text) :
    (ofModel m options.placement).written w options.indent = .ok text ∧
      (∀ f ∈ (ofModel m options.placement).allFlows, ∃ h c, m.connection? h = some c ∧
        f.id = elementId m h ∧ ∀ endpoint, ∃ n, (c.reference endpoint).bound = some n ∧
          if m.isNode n then
            f.reference? endpoint = some (elementId m n) ∧
              (ofModel m options.placement).NamesNode (elementId m n)
          else
            ∀ a ∈ (ofModel m options.placement).allNodes, f.reference? endpoint ≠ some a.id) ∧
      ((∀ f ∈ (ofModel m options.placement).allFlows,
        (ofModel m options.placement).WellAimed f) ↔ m.BoundToNodes) ∧
      ∀ edits, m = ofEdits edits → (∀ e ∈ edits, e.comesOpen = true) →
        ∀ f ∈ (ofModel m options.placement).allFlows,
          (ofModel m options.placement).WellAimed f := by
  obtain ⟨⟨warnings, hvalid⟩, hgenerate⟩ := compile_eq_ok.mp hcompile
  have hbound : ∀ h c, m.connection? h = some c →
      ∀ endpoint, ∃ n, (c.reference endpoint).bound = some n := by
    intro h c hc endpoint
    obtain ⟨s, t, hs, ht, -⟩ := bound_of_validate hvalid hc
    cases endpoint with
    | source => exact ⟨s, hs⟩
    | target => exact ⟨t, ht⟩
  have haimed : m.BoundToNodes → ∀ f ∈ (ofModel m options.placement).allFlows,
      (ofModel m options.placement).WellAimed f := by
    intro hm f hf endpoint
    obtain ⟨h, c, hc, rfl⟩ := mem_allFlows.mp hf
    obtain ⟨n, hn⟩ := hbound h c hc endpoint
    have hnode : m.isNode n = true := hm h endpoint n (by rw [binding?, hc]; exact hn)
    exact ⟨_, reference?_of_isNode hc hn hnode, namesNode hnode⟩
  refine ⟨generate_eq_ok.mp hgenerate, fun f hf => ?_, ⟨fun hall => ?_, haimed⟩, ?_⟩
  · obtain ⟨h, c, hc, rfl⟩ := mem_allFlows.mp hf
    refine ⟨h, c, hc, rfl, fun endpoint => ?_⟩
    obtain ⟨n, hn⟩ := hbound h c hc endpoint
    refine ⟨n, hn, ?_⟩
    split
    next hnode => exact ⟨reference?_of_isNode hc hn hnode, namesNode hnode⟩
    next hother => exact fun a ha hr => hother (isNode_of_reference? hn ha hr)
  · intro h endpoint n hn
    obtain ⟨c, hc, hn⟩ := Option.bind_eq_some_iff.mp hn
    obtain ⟨id, hr, ⟨a, ha, rfl⟩, -, -⟩ := hall _ (mem_allFlows.mpr ⟨h, c, hc, rfl⟩) endpoint
    exact isNode_of_reference? hn ha hr
  · rintro edits rfl hopen
    exact haimed (boundToNodes_ofEdits hopen)

/-- A pool with a flow and a message flow to another one, linked. -/
def handover : List Edit :=
  [.declare (.pool "P"), .declare (.node ⟨"A", .task none⟩ (some ⟨0⟩)),
    .declare (.node ⟨"B", .task none⟩ (some ⟨0⟩)), .declare (.pool "Q"),
    .declare (.node ⟨"C", .task none⟩ (some ⟨3⟩)),
    .declare (.connection ⟨⟨"A", none⟩, .sequence, ⟨"B", none⟩, none⟩ (some ⟨0⟩)),
    .declare (.connection ⟨⟨"B", none⟩, .message, ⟨"C", none⟩, none⟩ none), .link .poolWide]

theorem handover_wellAimed : (∃ text, (ofEdits handover).compile .memory {} = .ok text) ∧
    ∀ f ∈ (ofModel (ofEdits handover) {}).allFlows,
      (ofModel (ofEdits handover) {}).WellAimed f := by
  have hvalid : (ofEdits handover).validate = .ok [] := by decide +kernel
  obtain ⟨text, hcompile⟩ := exists_compile Writer.lawful_memory hvalid {}
  obtain ⟨-, -, -, hall⟩ := wellAimed_iff_boundToNodes (ofEdits handover) .memory {} text hcompile
  exact ⟨⟨text, hcompile⟩, hall handover rfl (by decide)⟩

/-- A pool with a node in a lane, and a flow that comes bound to the lane. -/
def flowToLane : Model :=
  ofEdits
    [.declare (.pool "P"), .declare (.lane "L" (some ⟨0⟩)),
      .declare (.node ⟨"A", .task none⟩ (some ⟨1⟩)),
      .declare (.connection ⟨⟨"A", some ⟨2⟩⟩, .sequence, ⟨"L", some ⟨1⟩⟩, none⟩ (some ⟨0⟩))]

/-- The checks accept the flow, which refers to the lane. -/
theorem flowToLane_refers_to_lane : (∃ text, flowToLane.compile .memory {} = .ok text) ∧
    ∃ f ∈ (ofModel flowToLane {}).allFlows, ∃ l ∈ (ofModel flowToLane {}).allLanes,
      f.targetRef = some l.id ∧ ¬ (ofModel flowToLane {}).WellAimed f := by
  have hvalid : flowToLane.validate = .ok [] := by decide +kernel
  have hflows : (ofModel flowToLane {}).allFlows =
      [⟨.sequence, "Flow_1", none, some "A_1", some "L_1"⟩] := by decide +kernel
  have hlanes : (ofModel flowToLane {}).allLanes.map Lane.id = ["L_1"] := by decide +kernel
  obtain ⟨l, hl, hid⟩ : ∃ l ∈ (ofModel flowToLane {}).allLanes, l.id = "L_1" := by
    rw [← List.mem_map, hlanes]
    exact List.mem_cons_self
  have hflow : ⟨.sequence, "Flow_1", none, some "A_1", some "L_1"⟩ ∈
      (ofModel flowToLane {}).allFlows := by
    rw [hflows]
    exact List.mem_cons_self
  refine ⟨exists_compile Writer.lawful_memory hvalid {}, _, hflow, l, hl, ?_, fun haimed => ?_⟩
  · rw [hid]
  · obtain ⟨id, hr, hnode⟩ := haimed .target
    exact hnode.lane l hl (hid.trans (Option.some.inj hr))

end Document
end Bpmn
