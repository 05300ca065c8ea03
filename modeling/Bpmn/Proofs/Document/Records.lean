import Bpmn.Proofs.Document.Aim

/-!
# Records of nodes and flows

A document has one record for each node and each connection of its model, in the order of the
partition.  The record of a node lists the flows of its own process that meet it, those that start
there apart from those that end there (`records_complete`).  The record of a flow refers to the
records of its ends, whichever process holds them, as all nodes are named before any flow
(`ends_refer_to_records`).
-/

namespace Bpmn

open Model Naming Assembly

namespace NodeKind

theorem trigger?_eq_some {kind : NodeKind} {t : Trigger} :
    kind.trigger? = some t ↔ ∃ type, kind = .event type (some t) := by
  cases kind with
  | event type trigger => simp [trigger?]
  | task | gateway => simp [trigger?]

end NodeKind

/-- The flows that a node lists at one end of theirs. -/
def FlowNode.listed (a : FlowNode) : Endpoint → List String
  | .source => a.outgoing
  | .target => a.incoming

namespace Document

/-- What a connection is recorded as, its ends apart. -/
structure RecordsFlow (m : Model) (h : Handle) (f : Flow) : Prop where
  id : f.id = elementId m h
  connection : ∃ c, m.connection? h = some c ∧ f.connector = c.connector ∧
    f.name = if c.connector.isAssociation then none else c.label

/-- What a node of an outline is recorded as in the process made of it. -/
structure RecordsNode (m : Model) (q : ProcessOutline) (p : Process) (n : Handle) (a : FlowNode) :
    Prop where
  id : a.id = elementId m n
  node : m.node? n = some ⟨a.name, a.kind⟩
  /-- The flows of the process in order, those left out that are not bound to the node. -/
  listed : ∀ endpoint, a.listed endpoint =
    ((q.flows.zip p.flows).filter fun x => m.binding? x.1 endpoint == some n).map fun x => x.2.id
  /-- A flow with both ends at the node is on both lists. -/
  count_listed : ∀ h ∈ q.flows, ∀ endpoint,
    (a.listed endpoint).count (elementId m h) = if m.binding? h endpoint = some n then 1 else 0
  trigger : ∀ t, a.eventDefinition.map EventDefinition.trigger = some t ↔
    ∃ type, a.kind = .event type (some t)

/-- The record of a node, which stands among the records as the node does in the partition, and has
its identifier to itself. -/
structure IsRecordOf (d : Document) (m : Model) (n : Handle) (a : FlowNode) : Prop where
  place : (n, a) ∈ (Partition.ofModel m).nodes.zip d.allNodes
  id : a.id = elementId m n
  node : m.node? n = some ⟨a.name, a.kind⟩
  unique : ∀ b ∈ d.allNodes, b.id = a.id → b = a

section

variable {m : Model} {placement : Placement} {q : ProcessOutline} {h n : Handle} {c : Connection}

/-! ## Flows -/

theorem recordsFlow_flow (hc : m.connection? h = some c) :
    RecordsFlow m h (flow (Names.ofModel m) h c) := ⟨id_flow, c, hc, rfl, rfl⟩

/-- No connection of a list is left out of the flows made of it. -/
theorem forall₂_flows {hs : List Handle} (hcs : ∀ h ∈ hs, m.isConnection h = true) :
    List.Forall₂ (fun h f => ∃ c, m.connection? h = some c ∧ f = flow (Names.ofModel m) h c)
      hs (flows m (Names.ofModel m) hs) := by
  refine forall₂_filterMap fun h hh => ?_
  obtain ⟨c, hc⟩ := Option.isSome_iff_exists.mp (hcs h hh)
  exact ⟨_, by rw [hc, Option.map_some], c, hc, rfl⟩

theorem forall₂_flows_process (hq : q ∈ (Partition.ofModel m).processes) :
    List.Forall₂ (RecordsFlow m) q.flows (process m (Names.ofModel m) q).flows := by
  refine (forall₂_flows fun h hh => ?_).imp ?_
  · exact isConnection_of_isFlow (Partition.isFlow_of_mem_flows hq hh)
  · rintro h f ⟨c, hc, rfl⟩
    exact recordsFlow_flow hc

/-! ## Lists of flows -/

theorem listed_flowNode (node : Node) (endpoint : Endpoint) :
    (flowNode m (Names.ofModel m) q n node).listed endpoint =
      meeting m (Names.ofModel m) q.flows endpoint n := by
  cases endpoint <;> rfl

/-! ## Nodes -/

theorem recordsNode_flowNode (hq : q ∈ (Partition.ofModel m).processes) {node : Node}
    (hnode : m.node? n = some node) : RecordsNode m q (process m (Names.ofModel m) q) n
      (flowNode m (Names.ofModel m) q n node) where
  id := id_flowNode n node
  node := hnode
  listed endpoint := by
    rw [listed_flowNode, meeting_eq]
    exact (map_filter_zip_eq (forall₂_flows_process hq) (fun _ _ => RecordsFlow.id) _).symm
  count_listed h hh endpoint := by rw [listed_flowNode, count_meeting_of_mem hq hh]
  trigger t := by
    rw [← NodeKind.trigger?_eq_some, flowNode, Option.map_map]
    exact Iff.of_eq (congrArg (· = some t) Option.map_id')

theorem forall₂_nodes_process (hq : q ∈ (Partition.ofModel m).processes) :
    List.Forall₂ (RecordsNode m q (process m (Names.ofModel m) q)) q.nodes
      (process m (Names.ofModel m) q).nodes := by
  rw [nodes_process (wellFormed hq)]
  refine forall₂_filterMap fun n hn => ?_
  obtain ⟨node, hnode⟩ := exists_node (Partition.isNode_of_mem_nodes hq hn)
  exact ⟨_, by rw [hnode, Option.map_some], recordsNode_flowNode hq hnode⟩

theorem forall₂_allNodes :
    List.Forall₂ (fun n a => a.id = elementId m n ∧ m.node? n = some ⟨a.name, a.kind⟩)
      (Partition.ofModel m).nodes (ofModel m placement).allNodes := by
  rw [Partition.nodes, allNodes, processes_ofModel, List.flatMap_map]
  exact forall₂_flatMap fun q hq =>
    (forall₂_nodes_process hq).imp fun n a hrecord => ⟨hrecord.id, hrecord.node⟩

theorem ids_allNodes : (ofModel m placement).allNodes.map FlowNode.id =
    (Partition.ofModel m).nodes.map (elementId m) := by
  rw [allNodes, processes_ofModel, List.flatMap_map, Partition.nodes, List.map_flatMap,
    List.map_flatMap]
  exact List.flatMap_congr fun q hq => nodes_id (wellFormed hq)

theorem ids_allNodes_nodup : ((ofModel m placement).allNodes.map FlowNode.id).Nodup := by
  rw [ids_allNodes]
  have hnamed : ∀ n ∈ (Partition.ofModel m).nodes, n ∈ namedHandles m :=
    fun n hn => mem_namedHandles_of_isNode (Partition.mem_nodes.mp hn)
  exact Partition.nodes_nodup.map_on fun a ha b hb hid =>
    elementId_inj (hnamed a ha) (hnamed b hb) hid

theorem exists_isRecordOf (hn : m.isNode n = true) :
    ∃ a, (ofModel m placement).IsRecordOf m n a := by
  obtain ⟨a, hzip, hid, hnode⟩ :=
    exists_mem_zip_of_forall₂ forall₂_allNodes (Partition.mem_nodes.mpr hn)
  refine ⟨a, hzip, hid, hnode, fun b hb heq => ?_⟩
  exact List.inj_on_of_nodup_map ids_allNodes_nodup hb (List.of_mem_zip hzip).2 heq

end

/-- Each process of a document has the records of all nodes and all flows of its outline, once and
in order, and on the record of a node are listed just the flows of that process that meet it. -/
theorem records_complete (m : Model) (placement : Placement) :
    List.Forall₂
      (fun q p => q.nodes.Nodup ∧ List.Forall₂ (RecordsNode m q p) q.nodes p.nodes ∧
        q.flows.Nodup ∧ List.Forall₂ (RecordsFlow m) q.flows p.flows)
      (Partition.ofModel m).processes (ofModel m placement).processes := by
  rw [processes_ofModel, List.forall₂_map_right_iff, List.forall₂_same]
  exact fun q hq =>
    ⟨(wellFormed hq).nodup, forall₂_nodes_process hq, Partition.flows_nodup_of_mem hq,
      forall₂_flows_process hq⟩

/-- A task that may be done again. -/
def retry : Model :=
  ofEdits [.declare (.node ⟨"A", .task none⟩ none), .declare (.connect ⟨0⟩ .sequence ⟨0⟩ none)]

-- A flow from a node to itself is on both lists of the node.
example : (ofModel retry {}).allNodes.map (fun a => (a.incoming, a.outgoing)) =
    [(["Flow_1"], ["Flow_1"])] := by
  decide +kernel

/-- Where ends are bound to nodes only, each connection is recorded as one flow.  It refers at each
end to the record of the node that the end is bound to, and to nothing at an end that is not bound.
It does not matter in which process that record is. -/
theorem ends_refer_to_records (m : Model) (hm : m.BoundToNodes) (placement : Placement) :
    (∀ h, ((Partition.ofModel m).flows ++ (Partition.ofModel m).messageFlows).count h =
      if m.isConnection h then 1 else 0) ∧
    List.Forall₂
      (fun h f => RecordsFlow m h f ∧ ∀ endpoint,
        Option.Rel (fun n id => ∃ a, (ofModel m placement).IsRecordOf m n a ∧ a.id = id)
          (m.binding? h endpoint) (f.reference? endpoint))
      ((Partition.ofModel m).flows ++ (Partition.ofModel m).messageFlows)
      (ofModel m placement).allFlows := by
  refine ⟨Partition.count_connections, ?_⟩
  rw [allFlows_ofModel]
  refine (forall₂_flows fun h => Partition.mem_connections.mp).imp ?_
  rintro h f ⟨c, hc, rfl⟩
  refine ⟨recordsFlow_flow hc, fun endpoint => ?_⟩
  have hbinding : m.binding? h endpoint = (c.reference endpoint).bound := by
    rw [binding?, hc, Option.bind_some]
  cases hb : (c.reference endpoint).bound with
  | none =>
    rw [hbinding, reference?_flow, hb]
    exact .none
  | some n =>
    have hn := hm h endpoint n (hbinding.trans hb)
    rw [hbinding, reference?_of_isNode hc hb hn, hb]
    obtain ⟨a, ha⟩ := exists_isRecordOf hn
    exact .some ⟨a, ha, ha.id⟩

/-- A flow of one pool to a node of a later one, and a message flow with open ends. -/
def crossing : Model :=
  ofEdits
    [.declare (.pool "P"), .declare (.node ⟨"A", .task none⟩ (some ⟨0⟩)), .declare (.pool "Q"),
      .declare (.node ⟨"B", .task none⟩ (some ⟨2⟩)),
      .declare (.connect ⟨1⟩ .sequence ⟨3⟩ (some ⟨0⟩)),
      .declare (.connection ⟨⟨"B", none⟩, .message, ⟨"A", none⟩, none⟩ none)]

theorem crossing_refers : crossing.BoundToNodes ∧ ∃ f ∈ (ofModel crossing {}).allFlows,
    f.id = elementId crossing ⟨4⟩ ∧ ∃ a, (ofModel crossing {}).IsRecordOf crossing ⟨3⟩ a ∧
      f.targetRef = some a.id := by
  have hbound : crossing.BoundToNodes := boundToNodes_ofEdits (by decide)
  obtain ⟨-, hall⟩ := ends_refer_to_records crossing hbound {}
  obtain ⟨f, hzip, hrecord, hends⟩ := exists_mem_zip_of_forall₂ hall
    (Partition.mem_connections.mpr (by decide +kernel : crossing.isConnection ⟨4⟩ = true))
  refine ⟨hbound, f, (List.of_mem_zip hzip).2, hrecord.id, ?_⟩
  have htarget : Option.Rel _ (some (⟨3⟩ : Handle)) f.targetRef := hends .target
  cases hr : f.targetRef with
  | none =>
    rw [hr] at htarget
    cases htarget
  | some id =>
    rw [hr] at htarget
    obtain ⟨a, ha, rfl⟩ := Option.rel_some_some.mp htarget
    exact ⟨a, ha, rfl⟩

end Document
end Bpmn
