import Bpmn.Diagram.Layout

/-!
# The document

What a document holds, element by element, with every identifier and every reference in place and
nothing yet said about how it is written.
-/

namespace Bpmn

/-- What an event waits for or raises. -/
structure EventDefinition where
  trigger : Trigger
  id : String
deriving DecidableEq, Repr

structure FlowNode where
  kind : NodeKind
  id : String
  name : String
  /-- Flows of the same process that end here. -/
  incoming : List String
  /-- Flows of the same process that start here. -/
  outgoing : List String
  eventDefinition : Option EventDefinition
deriving DecidableEq, Repr

/-- A connection of any kind.  An end that is bound to nothing known has no reference. -/
structure Flow where
  connector : Connector
  id : String
  name : Option String
  sourceRef : Option String
  targetRef : Option String
deriving DecidableEq, Repr

/-- A lane with references to the nodes anywhere inside it.  A lane that is divided further has a
lane set of its own. -/
inductive Lane where
  | whole (id name : String) (flowNodeRefs : List String)
  | divided (id name : String) (flowNodeRefs : List String) (laneSetId : String)
      (lanes : List Lane)
deriving Repr

namespace Lane

def id : Lane → String
  | whole id .. | divided id .. => id

def name : Lane → String
  | whole _ name _ | divided _ name .. => name

def flowNodeRefs : Lane → List String
  | whole _ _ refs | divided _ _ refs .. => refs

def lanes : Lane → List Lane
  | whole .. => []
  | divided _ _ _ _ lanes => lanes

end Lane

structure LaneSet where
  id : String
  lanes : List Lane
deriving Repr

structure Process where
  id : String
  laneSet : Option LaneSet
  nodes : List FlowNode
  flows : List Flow
deriving Repr

structure Participant where
  id : String
  name : String
  processRef : String
deriving DecidableEq, Repr

structure Collaboration where
  id : String
  participants : List Participant
  messageFlows : List Flow
deriving DecidableEq, Repr

structure Shape where
  id : String
  elementRef : String
  bounds : Bounds
  /-- Set for pools, which are drawn lying down. -/
  isHorizontal : Bool
deriving DecidableEq

structure Edge where
  id : String
  elementRef : String
  route : Route
deriving DecidableEq

structure Diagram where
  id : String
  planeId : String
  /-- What the diagram draws: the collaboration if there is one, else the first process. -/
  planeElement : String
  shapes : List Shape
  edges : List Edge
deriving DecidableEq

structure Document where
  id : String
  processes : List Process
  collaboration : Option Collaboration
  diagram : Option Diagram

end Bpmn
