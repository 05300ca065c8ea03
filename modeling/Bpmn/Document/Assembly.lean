import Bpmn.Document.Basic
import Bpmn.Naming.Plan

/-!
# Assembling the document

Fills in the records of a document from a model, its partition, its layout and the names of all
entities.  What a node lists is gathered from the flows of its process before any node is recorded.
Nothing can go wrong: an end that is bound to nothing with a name gets no reference, what has no
name is not drawn, and a line without both boxes shrinks to the origin.
-/

namespace Bpmn

namespace Assembly

/-- What is gathered for the nodes of a process before they are recorded. -/
structure Gathered where
  events : Table EventDefinition := []
  incoming : Table (List String) := []
  outgoing : Table (List String) := []

namespace Gathered

def addEvent (m : Model) (names : Names) (events : Table EventDefinition) (h : Handle) :
    Table EventDefinition :=
  match (m.node? h).bind fun n => n.kind.trigger? with
  | none => events
  | some t => events.insert h ⟨t, names.id (.eventDefinition h)⟩

/-- Adds a flow to the list of what one of its ends is bound to. -/
def addTo (bound : Option Handle) (id : String) (lists : Table (List String)) :
    Table (List String) :=
  match bound with
  | none => lists
  | some n => lists.alter n fun ids => ids.getD [] ++ [id]

def addFlow (m : Model) (names : Names) (g : Gathered) (h : Handle) : Gathered :=
  match names.id? (.element h), m.connection? h with
  | some id, some c =>
    { g with
      incoming := addTo c.target.bound id g.incoming
      outgoing := addTo c.source.bound id g.outgoing }
  | _, _ => g

def ofOutline (m : Model) (names : Names) (p : ProcessOutline) : Gathered :=
  p.flows.foldl (addFlow m names) { events := p.nodes.foldl (addEvent m names) [] }

def without (g : Gathered) (h : Handle) : Gathered :=
  ⟨g.events.erase h, g.incoming.erase h, g.outgoing.erase h⟩

end Gathered

/-! ## Processes -/

def flow (names : Names) (h : Handle) (c : Connection) : Flow where
  connector := c.connector
  id := names.id (.element h)
  name := if c.connector.isAssociation then none else c.label
  sourceRef := c.source.bound.bind (names.visibleFrom? h)
  targetRef := c.target.bound.bind (names.visibleFrom? h)

def flows (m : Model) (names : Names) (hs : List Handle) : List Flow :=
  hs.filterMap fun h => (m.connection? h).map (flow names h)

/-- The record of a node with what is gathered for it, and with its identifier. -/
def Gathered.flowNode (g : Gathered) (h : Handle) (n : Node) (id : String) : FlowNode where
  kind := n.kind
  id
  name := n.name
  incoming := (g.incoming.lookup h).getD []
  outgoing := (g.outgoing.lookup h).getD []
  eventDefinition := g.events.lookup h

/-- The records of nodes.  Each node takes what is gathered for it and leaves the rest. -/
def flowNodes (m : Model) (names : Names) : Gathered → List Handle → List FlowNode
  | _, [] => []
  | g, h :: rest =>
    match m.node? h, names.id? (.element h) with
    | some n, some id => g.flowNode h n id :: flowNodes m names (g.without h) rest
    | _, _ => flowNodes m names g rest

mutual

/-- A lane from its branch, none if the branch is not a lane. -/
def lane? (m : Model) (names : Names) : Branch → Option Lane
  | .mk h children =>
    if m.isLane h then
      let id := names.id (.element h)
      let name := (m.name? h).getD ""
      let refs := (m.nodesIn h).filterMap (names.visibleFrom? h)
      match lanes m names children with
      | [] => some (.whole id name refs)
      | first :: rest => some (.divided id name refs (names.id (.laneSet h)) (first :: rest))
    else none

def lanes (m : Model) (names : Names) : List Branch → List Lane
  | [] => []
  | b :: rest => (lane? m names b).toList ++ lanes m names rest

end

def laneSet? (m : Model) (names : Names) (pool : Handle) : Option LaneSet :=
  match lanes m names (m.branch pool).children with
  | [] => none
  | first :: rest => some ⟨names.id (.laneSet pool), first :: rest⟩

def process (m : Model) (names : Names) (p : ProcessOutline) : Process where
  id := names.id (.process p.pool)
  laneSet := p.pool.bind (laneSet? m names)
  nodes := flowNodes m names (.ofOutline m names p) p.nodes
  flows := flows m names p.flows

/-! ## Collaboration -/

/-- The participants of a partition, each with the process that stands where its own does. -/
def participants (m : Model) (names : Names) (p : Partition) (processes : List Process) :
    List Participant :=
  (p.processes.zip processes).filterMap fun (outline, process) => do
    let pool ← outline.pool
    let name ← m.name? pool
    return ⟨names.id (.element pool), name, process.id⟩

def collaboration? (m : Model) (names : Names) (p : Partition) (processes : List Process) :
    Option Collaboration :=
  let participants := participants m names p processes
  let messageFlows := flows m names p.messageFlows
  if participants.isEmpty && messageFlows.isEmpty then none
  else some ⟨names.id .collaboration, participants, messageFlows⟩

/-! ## Diagram -/

/-- The shape of an element that has an identifier. -/
def shape? (names : Names) (isHorizontal : Bool) (h : Handle) (bounds : Bounds) : Option Shape :=
  (names.id? (.element h)).map fun id => ⟨Identifier.drawn id, id, bounds, isHorizontal⟩

/-- The shapes of one process: its pool, then its nodes. -/
def shapes (names : Names) (p : ProcessOutline) (row : Row) : List Shape :=
  let pool := do
    let pool ← p.pool
    let bounds ← row.poolBounds
    shape? names true pool bounds
  pool.toList ++ row.boxes.filterMap fun (h, bounds) => shape? names false h bounds

/-- The edge of a connection that has an identifier. -/
def edge? (names : Names) (h : Handle) (route : Route) : Option Edge :=
  (names.id? (.element h)).map fun id => ⟨Identifier.drawn id, id, route⟩

def edges (m : Model) (names : Names) (boxes : Boxes) (hs : List Handle) : List Edge :=
  hs.filterMap fun h => do
    let c ← m.connection? h
    edge? names h (boxes.route c.source.bound c.target.bound)

def allShapes (names : Names) (p : Partition) (l : Layout) : List Shape :=
  (p.processes.zip l.rows).flatMap fun (process, row) => shapes names process row

/-- The edges of all processes, then those between them. -/
def allEdges (m : Model) (names : Names) (p : Partition) (l : Layout) : List Edge :=
  ((p.processes.zip l.rows).flatMap fun (process, row) =>
      edges m names row.boxes process.flows) ++
    edges m names l.boxes p.messageFlows

/-- The diagram, unless there is nothing to draw. -/
def diagram? (m : Model) (names : Names) (p : Partition) (l : Layout) (planeElement : String) :
    Option Diagram :=
  let shapes := allShapes names p l
  let edges := allEdges m names p l
  if shapes.isEmpty && edges.isEmpty then none
  else some ⟨names.id .diagram, names.id .plane, planeElement, shapes, edges⟩

end Assembly

namespace Document

def assemble (m : Model) (p : Partition) (l : Layout) : Document :=
  let names := Names.ofPartition m p
  let processes := p.processes.map (Assembly.process m names)
  let collaboration := Assembly.collaboration? m names p processes
  let planeElement :=
    (collaboration.map Collaboration.id).or (processes.head?.map Process.id)
  { id := names.id .document
    processes
    collaboration
    diagram := planeElement.bind (Assembly.diagram? m names p l) }

def ofModel (m : Model) (placement : Placement) : Document :=
  let p := Partition.ofModel m
  assemble m p (.ofPartition m p placement)

end Document
end Bpmn
