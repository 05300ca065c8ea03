/-!
# Keywords

The words in which a process is described: what kind of event, task or gateway a node is, what
triggers an event, and which arrow a connection is drawn with.  A `Vocabulary` names a type's
words in their order, and `Vocabulary.read?` recognises them.
-/

namespace Bpmn

class Vocabulary (α : Type) where
  /-- What the words are called when one is not recognised. -/
  noun : String
  all : List α
  word : α → String

def Vocabulary.read? {α : Type} [Vocabulary α] (text : String) : Option α :=
  (Vocabulary.all : List α).find? fun value => Vocabulary.word value == text

inductive EventType where
  | start | finish | intermediate | catching
deriving DecidableEq, Repr

instance : Vocabulary EventType where
  noun := "event type"
  all := [.start, .finish, .intermediate, .catching]
  word
    | .start => "start"
    | .finish => "end"
    | .intermediate => "intermediate"
    | .catching => "catch"

inductive Trigger where
  | message | timer | signal | error | terminate
deriving DecidableEq, Repr

instance : Vocabulary Trigger where
  noun := "event trigger"
  all := [.message, .timer, .signal, .error, .terminate]
  word
    | .message => "message"
    | .timer => "timer"
    | .signal => "signal"
    | .error => "error"
    | .terminate => "terminate"

inductive TaskType where
  | task | user | service | manual | script | send | receive | businessRule
deriving DecidableEq, Repr

instance : Vocabulary TaskType where
  noun := "task type"
  all := [.task, .user, .service, .manual, .script, .send, .receive, .businessRule]
  word
    | .task => "task"
    | .user => "user"
    | .service => "service"
    | .manual => "manual"
    | .script => "script"
    | .send => "send"
    | .receive => "receive"
    | .businessRule => "business-rule"

inductive GatewayType where
  | exclusive | parallel | inclusive | eventBased | complex
deriving DecidableEq, Repr

instance : Vocabulary GatewayType where
  noun := "gateway type"
  all := [.exclusive, .parallel, .inclusive, .eventBased, .complex]
  word
    | .exclusive => "exclusive"
    | .parallel => "parallel"
    | .inclusive => "inclusive"
    | .eventBased => "event-based"
    | .complex => "complex"

inductive Connector where
  | sequence | directedAssociation | association | message
deriving DecidableEq, Repr

instance : Vocabulary Connector where
  noun := "connector"
  all := [.sequence, .directedAssociation, .association, .message]
  word
    | .sequence => "-->"
    | .directedAssociation => "..>"
    | .association => ".."
    | .message => "~>"

namespace Connector

def isMessageFlow (c : Connector) : Bool := c == .message

def isAssociation (c : Connector) : Bool := c == .association || c == .directedAssociation

def noun : Connector → String
  | .sequence => "sequence flow"
  | .directedAssociation | .association => "association"
  | .message => "message flow"

end Connector
end Bpmn
