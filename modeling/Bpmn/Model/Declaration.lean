import Bpmn.Model.Tree

/-!
# Declaring elements and binding references

A model grows by declarations.  A declaration that is not possible leaves the model as it was and
says why.
-/

namespace Bpmn

inductive ModelError where
  | unknownElement (h : Handle)
  | notAContainer (h : Handle)
  | notANode (h : Handle)
  | notAConnection (h : Handle)
  | topLevelLane (name : String)
  | unknownKeyword (noun word : String)
deriving DecidableEq, Repr

def ModelError.message : ModelError → String
  | unknownElement h => s!"element {h.text} does not exist in this model"
  | notAContainer h => s!"element {h.text} is not a pool or a lane"
  | notANode h => s!"element {h.text} is not a node"
  | notAConnection h => s!"element {h.text} is not a connection"
  | topLevelLane name => s!"lane `{name}` must be declared inside a pool or another lane"
  | unknownKeyword noun word => s!"unknown {noun} `{word}`"

/-- The message marked as one about models, for a caller that meets errors of other sorts too. -/
def ModelError.reported (e : ModelError) : String := "model error: " ++ e.message

/-- Reads a keyword, or says which kind of keyword it is not. -/
def Vocabulary.read {α : Type} [Vocabulary α] (text : String) : Except ModelError α :=
  match Vocabulary.read? text with
  | some value => .ok value
  | none => .error (.unknownKeyword (Vocabulary.noun α) text)

/-- A request to add one element.  `connect` asks for a connection with both ends bound. -/
inductive Declaration where
  | pool (name : String)
  | lane (name : String) (parent : Option Handle)
  | node (node : Node) (parent : Option Handle)
  | connection (connection : Connection) (parent : Option Handle)
  | connect (source : Handle) (connector : Connector) (target : Handle) (parent : Option Handle)
deriving DecidableEq, Repr

namespace Model

/-- Adds an element below its parent and answers its handle. -/
def add (m : Model) (e : Element) : Except ModelError (Handle × Model) :=
  match he : e.parent? with
  | none => .ok (⟨m.size⟩, m.push e (by simp [he]))
  | some p =>
    match m.element? p with
    | none => .error (.unknownElement p)
    | some _ =>
      if hp : m.isContainer p then
        .ok (⟨m.size⟩, m.push e (by
          intro q hq
          rw [he] at hq
          exact Option.some.inj hq ▸ hp))
      else .error (.notAContainer p)

/-- A reference bound to a node and written with the node's name. -/
def referenceTo (m : Model) (h : Handle) : Except ModelError Reference :=
  match m.node? h with
  | some node => .ok ⟨node.name, some h⟩
  | none => .error (.notANode h)

def declare (m : Model) : Declaration → Except ModelError (Handle × Model)
  | .pool name => m.add (.pool name)
  | .lane name none => .error (.topLevelLane name)
  | .lane name (some parent) => m.add (.lane name parent)
  | .node node parent => m.add (.node node parent)
  | .connection connection parent => m.add (.connection connection parent)
  | .connect source connector target parent => do
    let source ← m.referenceTo source
    let target ← m.referenceTo target
    m.add (.connection ⟨source, connector, target, none⟩ parent)

def bind (m : Model) (connection : Handle) (endpoint : Endpoint) (node : Handle) :
    Except ModelError Model :=
  if m.isNode node then
    match m.element? connection with
    | some (.connection ..) => .ok (m.setBinding connection endpoint node)
    | some _ => .error (.notAConnection connection)
    | none => .error (.unknownElement connection)
  else .error (.notANode node)

end Model
end Bpmn
