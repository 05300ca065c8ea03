import Bpmn.Naming.Registry
import Bpmn.Partition

/-!
# Who is named when

Everything in a document that carries an identifier of its own is an `Entity`, and the naming plan
lists all entities in the order in which they get their identifiers, each with the base that it is
made from:

1. the document,
2. every flow node, so that a flow can name a node of a later process,
3. for each process the process itself, its lane sets and lanes, its event definitions, its flows,
4. message flows, then participants,
5. the collaboration, the diagram and its plane.

Counting goes by this order, and so does visibility: a flow names what an end is bound to only if
that has its identifier by the time the flow gets its own.
-/

namespace Bpmn

inductive Entity where
  | document
  /-- The process of a pool, or of what stands outside pools. -/
  | process (pool : Option Handle)
  /-- The lane set that divides a pool or lane. -/
  | laneSet (container : Handle)
  /-- A node, a lane, a flow, or a pool as a participant. -/
  | element (h : Handle)
  | eventDefinition (node : Handle)
  | collaboration
  | diagram
  | plane
deriving DecidableEq, Repr

def Trigger.base : Trigger → String
  | message => "MessageEventDefinition"
  | timer => "TimerEventDefinition"
  | signal => "SignalEventDefinition"
  | error => "ErrorEventDefinition"
  | terminate => "TerminateEventDefinition"

def Connector.base : Connector → String
  | sequence => "Flow"
  | association | directedAssociation => "Association"
  | message => "MessageFlow"

namespace Naming

abbrev Plan := List (Entity × String)

/-- A node, lane or pool, named after itself. -/
def named (m : Model) (h : Handle) : Plan := (m.name? h).toList.map fun name => (.element h, name)

def ofFlow (m : Model) (h : Handle) : Plan :=
  (m.connection? h).toList.map fun c => (.element h, c.connector.base)

def ofEvent (m : Model) (h : Handle) : Plan :=
  ((m.node? h).bind fun n => n.kind.trigger?).toList.map fun t => (.eventDefinition h, t.base)

/-- The lane set of a container with these branches in it, if there are lanes among them. -/
def ofLaneSet (m : Model) (container : Handle) (children : List Branch) : Plan :=
  if children.any fun b => m.isLane b.handle then [(.laneSet container, "LaneSet")] else []

mutual

/-- A lane and what divides it.  Anything but a lane is left out. -/
def ofLane (m : Model) : Branch → Plan
  | .mk h children =>
    if m.isLane h then named m h ++ (ofLaneSet m h children ++ ofLanes m children) else []

def ofLanes (m : Model) : List Branch → Plan
  | [] => []
  | b :: rest => ofLane m b ++ ofLanes m rest

end

def ofPoolLanes (m : Model) (pool : Handle) : Plan :=
  let children := (m.branch pool).children
  ofLaneSet m pool children ++ ofLanes m children

def ofProcess (m : Model) (p : ProcessOutline) : Plan :=
  (.process p.pool, "Process") ::
    (p.pool.toList.flatMap (ofPoolLanes m) ++ p.nodes.flatMap (ofEvent m) ++
      p.flows.flatMap (ofFlow m))

def plan (m : Model) (p : Partition) : Plan :=
  [(.document, "Definitions")] ++
    p.processes.flatMap (fun process => process.nodes.flatMap (named m)) ++
    p.processes.flatMap (ofProcess m) ++
    p.messageFlows.flatMap (ofFlow m) ++
    p.processes.flatMap (fun process => process.pool.toList.flatMap (named m)) ++
    [(.collaboration, "Collaboration"), (.diagram, "BPMNDiagram"), (.plane, "BPMNPlane")]

def issue (m : Model) (p : Partition) : Registry Entity := Registry.empty.assignAll (plan m p)

end Naming

/-- The identifiers of all entities of a document, in the order of naming. -/
abbrev Names := List (Entity × String)

namespace Names

def ofPartition (m : Model) (p : Partition) : Names := (Naming.issue m p).assigned

/-- The identifier of an entity, if it is in the plan. -/
def id? (names : Names) (e : Entity) : Option String := List.lookup e names

def id (names : Names) (e : Entity) : String := (names.id? e).getD ""

/-- The names given up to and including an entity's own. -/
def upTo : Names → Entity → Names
  | [], _ => []
  | (e, id) :: rest, last => (e, id) :: if e = last then [] else upTo rest last

/-- The identifier of what is behind `h`, if it has one by the time that `viewer` gets its own. -/
def visibleFrom? (names : Names) (viewer h : Handle) : Option String :=
  (names.upTo (.element viewer)).id? (.element h)

end Names
end Bpmn
