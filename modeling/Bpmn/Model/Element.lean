import Bpmn.Vocabulary

/-!
# Elements of a process model

A model is made of pools, the lanes that divide them, flow nodes (events, tasks and gateways) and
connections between nodes.  Where an element may stand is part of its type: a pool has no parent,
a lane always has one, and nodes and connections stand either in a pool or lane or at the top
level.
-/

namespace Bpmn

/-- An element, named by its position in the order of declaration. -/
structure Handle where
  index : Nat
deriving DecidableEq, Repr

namespace Handle

def text (h : Handle) : String := s!"#{h.index}"

/-- Earlier in the order of declaration. -/
instance : LT Handle := ⟨fun a b => a.index < b.index⟩

theorem lt_def {a b : Handle} : a < b ↔ a.index < b.index := Iff.rfl

theorem eq_iff {a b : Handle} : a = b ↔ a.index = b.index :=
  ⟨congrArg index, fun h => by cases a; cases b; exact congrArg mk h⟩

end Handle

/-- What a flow node is.  A kind that leaves its type open takes a default when it is drawn. -/
inductive NodeKind where
  | event (type : Option EventType) (trigger : Option Trigger)
  | task (type : Option TaskType)
  | gateway (type : Option GatewayType)
deriving DecidableEq, Repr

namespace NodeKind

/-- The kind with a trigger; only events take one. -/
def withTrigger (kind : NodeKind) (trigger : Trigger) : NodeKind :=
  match kind with
  | event type _ => event type (some trigger)
  | other => other

/-- The type of an event, by default one passed on the way. -/
def eventType? : NodeKind → Option EventType
  | event type _ => some (type.getD .intermediate)
  | _ => none

/-- The type of a task, by default one not said further. -/
def taskType? : NodeKind → Option TaskType
  | task type => some (type.getD .task)
  | _ => none

/-- The type of a gateway, by default one that takes a single branch. -/
def gatewayType? : NodeKind → Option GatewayType
  | gateway type => some (type.getD .exclusive)
  | _ => none

def trigger? : NodeKind → Option Trigger
  | event _ trigger => trigger
  | _ => none

def isEvent : NodeKind → Bool
  | event .. => true
  | _ => false

def isGateway : NodeKind → Bool
  | gateway .. => true
  | _ => false

end NodeKind

structure Node where
  name : String
  kind : NodeKind
deriving DecidableEq, Repr

inductive Endpoint where
  | source | target
deriving DecidableEq, Repr

namespace Endpoint

def both : List Endpoint := [.source, .target]

def word : Endpoint → String
  | .source => "source"
  | .target => "target"

end Endpoint

/-- One end of a connection as written, and the element it is bound to once that is known. -/
structure Reference where
  text : String
  bound : Option Handle := none
deriving DecidableEq, Repr

structure Connection where
  source : Reference
  connector : Connector
  target : Reference
  label : Option String := none
deriving DecidableEq, Repr

namespace Connection

def reference (c : Connection) : Endpoint → Reference
  | .source => c.source
  | .target => c.target

/-- The connection with one end bound to `h` and all else as it was. -/
def bind (c : Connection) (endpoint : Endpoint) (h : Handle) : Connection :=
  match endpoint with
  | .source => { c with source := { c.source with bound := some h } }
  | .target => { c with target := { c.target with bound := some h } }

def isMessageFlow (c : Connection) : Bool := c.connector.isMessageFlow

end Connection

inductive Element where
  | pool (name : String)
  | lane (name : String) (parent : Handle)
  | node (node : Node) (parent : Option Handle)
  | connection (connection : Connection) (parent : Option Handle)
deriving DecidableEq, Repr

namespace Element

def parent? : Element → Option Handle
  | pool _ => none
  | lane _ parent => some parent
  | node _ parent => parent
  | connection _ parent => parent

/-- The name of a pool, lane or node.  Connections have none. -/
def name? : Element → Option String
  | pool name | lane name _ => some name
  | node n _ => some n.name
  | connection .. => none

def isPool : Element → Bool
  | pool _ => true
  | _ => false

def isLane : Element → Bool
  | lane .. => true
  | _ => false

/-- Pools and lanes hold other elements. -/
def isContainer : Element → Bool
  | pool _ | lane .. => true
  | _ => false

def node? : Element → Option Node
  | node n _ => some n
  | _ => none

def connection? : Element → Option Connection
  | connection c _ => some c
  | _ => none

def sort : Element → String
  | pool _ => "pool"
  | lane .. => "lane"
  | connection .. => "connection"
  | node n _ =>
    match n.kind with
    | .event .. => "event"
    | .task _ => "task"
    | .gateway _ => "gateway"

/-- Binds one end of a connection; any other element stays as it is. -/
def bind (e : Element) (endpoint : Endpoint) (h : Handle) : Element :=
  match e with
  | connection c parent => connection (c.bind endpoint h) parent
  | other => other

@[simp] theorem parent?_bind (e : Element) (endpoint : Endpoint) (h : Handle) :
    (e.bind endpoint h).parent? = e.parent? := by
  cases e <;> rfl

@[simp] theorem isContainer_bind (e : Element) (endpoint : Endpoint) (h : Handle) :
    (e.bind endpoint h).isContainer = e.isContainer := by
  cases e <;> rfl

end Element
end Bpmn
