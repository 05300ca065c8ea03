import Bpmn.Proofs.Document.Lanes
import Bpmn.Proofs.Document.Nodes
import Bpmn.Proofs.Redeclared.Naming

/-!
# The same document in another order of declaration

A document holds names and places and no handles.  Assembled from records under other handles and
from the same names in the hands of these, it is the same document (`Transports.document`).
-/

namespace Bpmn
namespace Model.Transports

open Assembly

variable {e : Handle → Handle} {m n : Model} (hr : Transports e m n) {names : Names}
include hr

/-! ## Processes -/

theorem flow (h : Handle) (c : Connection) :
    flow (Naming.rename e names) (e h) (c.rename e) = flow names h c := by
  have hend : ∀ bound : Option Handle,
      (bound.map e).bind (Names.visibleFrom? (Naming.rename e names) (e h)) =
        bound.bind (names.visibleFrom? h) := by
    intro bound
    rw [Option.bind_map]
    exact Option.bind_congr fun x _ => Names.visibleFrom?_rename hr.injective names h x
  have hid := Names.id_rename hr.injective names (.element h)
  rw [Assembly.flow, Assembly.flow, ← hid, ← hend c.source.bound, ← hend c.target.bound]
  rfl

theorem flows (hs : List Handle) :
    flows n (Naming.rename e names) (hs.map e) = flows m names hs := by
  rw [Assembly.flows, Assembly.flows, List.filterMap_map]
  refine List.filterMap_congr fun h _ => ?_
  rw [Function.comp_apply, hr.connection?, Option.map_map]
  exact Option.map_congr fun c _ => hr.flow h c

theorem meeting (hs : List Handle) (endpoint : Endpoint) (node : Handle) :
    meeting n (Naming.rename e names) (hs.map e) endpoint (e node) =
      meeting m names hs endpoint node := by
  have hmeets : ∀ h, ((n.connection? (e h)).any fun c =>
      (c.reference endpoint).bound == some (e node)) =
        (m.connection? h).any fun c => (c.reference endpoint).bound == some node := by
    intro h
    rw [hr.connection?, Option.any_map]
    congr 1
    funext c
    show (((c.rename e).reference endpoint).bound == some (e node)) = _
    rw [Connection.bound_rename, Bool.eq_iff_iff, beq_iff_eq, beq_iff_eq]
    exact (Option.map_injective hr.injective).eq_iff (b := some node)
  have hfilter : (hs.map e).filter (fun h => (n.connection? h).any fun c =>
      (c.reference endpoint).bound == some (e node)) =
        (hs.filter fun h => (m.connection? h).any fun c =>
          (c.reference endpoint).bound == some node).map e := by
    rw [List.filter_map]
    congr 1
    exact List.filter_congr fun h _ => hmeets h
  rw [Assembly.meeting, hfilter, List.map_map, Assembly.meeting]
  exact List.map_congr_left fun h _ => Names.id_rename hr.injective names (.element h)

theorem flowNode (p : ProcessOutline) (h : Handle) (node : Node) :
    flowNode n (Naming.rename e names) (p.rename e) (e h) node = flowNode m names p h node := by
  have hid := Names.id_rename hr.injective names (.element h)
  have hevent := Names.id_rename hr.injective names (.eventDefinition h)
  rw [Assembly.flowNode, Assembly.flowNode, ← hid, ← hevent, ← hr.meeting p.flows .target h,
    ← hr.meeting p.flows .source h]
  rfl

theorem laneAt (h : Handle) : laneAt n (Naming.rename e names) (e h) = laneAt m names h := by
  induction h using inward (m := m) with
  | step h ih =>
    have hinside : (n.children (e h)).filterMap (Assembly.laneAt n (Naming.rename e names)) =
        (m.children h).filterMap (Assembly.laneAt m names) := by
      rw [hr.children, List.filterMap_map]
      exact List.filterMap_congr ih
    have hid := Names.id_rename hr.injective names (.element h)
    have hset := Names.id_rename hr.injective names (.laneSet h)
    have hrefs : (n.nodesIn (e h)).filterMap (Names.visibleFrom? (Naming.rename e names) (e h)) =
        (m.nodesIn h).filterMap (names.visibleFrom? h) := by
      rw [hr.nodesIn, List.filterMap_map]
      exact List.filterMap_congr fun x _ => Names.visibleFrom?_rename hr.injective names h x
    rw [Assembly.laneAt, Assembly.laneAt, branch_eq, branch_eq, lane?, lane?, lanes_branch,
      lanes_branch, hr.isLane, hr.name?, hinside, hrefs, ← hid, ← hset]
    rfl

theorem laneSet? (p : Handle) :
    laneSet? n (Naming.rename e names) (e p) = laneSet? m names p := by
  have hinside : (n.children (e p)).filterMap (Assembly.laneAt n (Naming.rename e names)) =
      (m.children p).filterMap (Assembly.laneAt m names) := by
    rw [hr.children, List.filterMap_map]
    exact List.filterMap_congr fun c _ => hr.laneAt c
  have hset := Names.id_rename hr.injective names (.laneSet p)
  rw [Assembly.laneSet?, Assembly.laneSet?, lanes_children, lanes_children, hinside, ← hset]
  rfl

theorem process {p : ProcessOutline} (hp : WellFormed m names p)
    (hrenamed : WellFormed n (Naming.rename e names) (p.rename e)) :
    process n (Naming.rename e names) (p.rename e) = process m names p := by
  have hid := Names.id_rename hr.injective names (.process p.pool)
  have hlaneSet : (p.pool.map e).bind (Assembly.laneSet? n (Naming.rename e names)) =
      p.pool.bind (Assembly.laneSet? m names) := by
    rw [Option.bind_map]
    exact Option.bind_congr fun pool _ => hr.laneSet? pool
  have hnodes : flowNodes m names (.ofOutline m names p) p.nodes =
      flowNodes n (Naming.rename e names) (.ofOutline n (Naming.rename e names) (p.rename e))
        (p.rename e).nodes := by
    refine (nodes_process hp).trans (Eq.trans ?_ (nodes_process hrenamed).symm)
    rw [ProcessOutline.rename, List.filterMap_map]
    refine List.filterMap_congr fun h _ => ?_
    rw [Function.comp_apply, hr.node?, Option.map_congr fun node _ => (hr.flowNode p h node).symm]
    rfl
  rw [Assembly.process, Assembly.process, ← hid, ← hlaneSet, hnodes, ← hr.flows p.flows]
  rfl

/-! ## Collaboration -/

theorem participants (p : Partition) (processes : List Process) :
    participants n (Naming.rename e names) (p.rename e) processes =
      participants m names p processes := by
  rw [Assembly.participants, Assembly.participants, Partition.rename, List.zip_map_left,
    List.filterMap_map]
  refine List.filterMap_congr fun member _ => ?_
  obtain ⟨q, process⟩ := member
  refine Option.bind_map.trans (Option.bind_congr fun pool _ => ?_)
  have hid := Names.id_rename hr.injective names (.element pool)
  rw [Function.comp_apply, hr.name?, ← hid]
  rfl

theorem collaboration? (p : Partition) (processes : List Process) :
    collaboration? n (Naming.rename e names) (p.rename e) processes =
      collaboration? m names p processes := by
  have hid := Names.id_rename hr.injective names .collaboration
  rw [Assembly.collaboration?, Assembly.collaboration?, hr.participants, ← hid]
  simp only [Partition.rename, hr.flows]
  rfl

/-! ## Diagram -/

theorem shape? (lying : Bool) (h : Handle) (bounds : Bounds) :
    shape? (Naming.rename e names) lying (e h) bounds = shape? names lying h bounds := by
  rw [Assembly.shape?, Assembly.shape?, ← Names.id?_rename hr.injective names (.element h)]
  rfl

theorem shapes (p : ProcessOutline) (row : Row) :
    shapes (Naming.rename e names) (p.rename e) (row.rename e) = shapes names p row := by
  have hpool : ((p.rename e).pool.bind fun pool => (row.rename e).poolBounds.bind
      (Assembly.shape? (Naming.rename e names) true pool)) =
        p.pool.bind fun pool => row.poolBounds.bind (Assembly.shape? names true pool) := by
    rw [ProcessOutline.rename, Option.bind_map]
    exact Option.bind_congr fun pool _ => Option.bind_congr fun bounds _ =>
      hr.shape? true pool bounds
  have hnodes : ((row.rename e).boxes.filterMap fun box =>
      Assembly.shape? (Naming.rename e names) false box.1 box.2) =
        row.boxes.filterMap fun box => Assembly.shape? names false box.1 box.2 := by
    rw [Row.rename, Boxes.rename, List.filterMap_map]
    exact List.filterMap_congr fun box _ => hr.shape? false box.1 box.2
  show (Option.toList _) ++ _ = (Option.toList _) ++ _
  rw [← hnodes]
  exact congrArg (fun pool => Option.toList pool ++ _) hpool

theorem edge? (h : Handle) (route : Route) :
    edge? (Naming.rename e names) (e h) route = edge? names h route := by
  rw [Assembly.edge?, Assembly.edge?, ← Names.id?_rename hr.injective names (.element h)]
  rfl

theorem edges (boxes : Boxes) (hs : List Handle) :
    edges n (Naming.rename e names) (boxes.rename e) (hs.map e) = edges m names boxes hs := by
  rw [Assembly.edges, Assembly.edges, List.filterMap_map]
  refine List.filterMap_congr fun h _ => ?_
  rw [Function.comp_apply, hr.connection?]
  refine Option.bind_map.trans (Option.bind_congr fun c _ => ?_)
  have hroute := Boxes.route_rename hr.injective boxes c.source.bound c.target.bound
  rw [← hr.edge?, ← hroute]
  rfl

variable (p : Partition) (l : Layout)

theorem allShapes :
    allShapes (Naming.rename e names) (p.rename e) (l.rename e) = allShapes names p l := by
  rw [Assembly.allShapes, Layout.zip_rename, List.flatMap_map, Assembly.allShapes]
  exact List.flatMap_congr fun x _ => hr.shapes x.1 x.2

theorem allEdges :
    allEdges n (Naming.rename e names) (p.rename e) (l.rename e) = allEdges m names p l := by
  rw [Assembly.allEdges, Layout.zip_rename, List.flatMap_map, Assembly.allEdges,
    Layout.boxes_rename hr.injective]
  congr 1
  · exact List.flatMap_congr fun x _ => hr.edges x.2.boxes x.1.flows
  · exact hr.edges l.boxes p.messageFlows

theorem diagram? (planeElement : String) :
    diagram? n (Naming.rename e names) (p.rename e) (l.rename e) planeElement =
      diagram? m names p l planeElement := by
  have hid := Names.id_rename hr.injective names .diagram
  have hplane := Names.id_rename hr.injective names .plane
  rw [Assembly.diagram?, Assembly.diagram?, hr.allShapes, hr.allEdges, ← hid, ← hplane]
  rfl

/-! ## The whole document -/

omit p l in
theorem document (placement : Placement) :
    Document.ofModel n placement = Document.ofModel m placement := by
  have hnames : Names.ofPartition n (Partition.ofModel n) =
      Naming.rename e (Names.ofPartition m (Partition.ofModel m)) := hr.names
  have hid : Names.id (Naming.rename e (Names.ofPartition m (Partition.ofModel m))) .document =
      (Names.ofPartition m (Partition.ofModel m)).id .document :=
    Names.id_rename hr.injective _ .document
  have hprocesses : ((Partition.ofModel m).rename e).processes.map
      (Assembly.process n (Naming.rename e (Names.ofPartition m (Partition.ofModel m)))) =
        (Partition.ofModel m).processes.map
          (Assembly.process m (Names.ofPartition m (Partition.ofModel m))) := by
    rw [Partition.rename, List.map_map]
    refine List.map_congr_left fun p hp => hr.process (wellFormed hp) ?_
    rw [← hnames]
    refine wellFormed ?_
    rw [hr.reshapes.partition]
    exact List.mem_map_of_mem hp
  simp only [Document.ofModel, Document.assemble]
  rw [hnames, hid, hr.reshapes.layout, hr.reshapes.partition, hprocesses, hr.collaboration?]
  simp only [hr.diagram?]

end Model.Transports
end Bpmn
