import Bpmn.Model.Tree

/-!
# What a connection end may name

A connection is written with names, and its scope is the list of nodes those names may mean.

| connection   | stands in      | pool-wide                     | lane-local         |
|--------------|----------------|-------------------------------|--------------------|
| message flow | anywhere       | every node inside a pool      | nothing            |
| other        | top level      | nodes at the top level        | the same           |
| other        | pool           | every node inside that pool   | the same           |
| other        | lane           | every node of the lane's pool | nodes of that lane |

The scope only offers nodes.  Whether two ends may be joined is a question for the checks.
-/

namespace Bpmn

/-- How far a connection inside a lane sees. -/
inductive Visibility where
  /-- Lanes hide nothing. -/
  | poolWide
  /-- A lane sees only itself, and message flows see nothing. -/
  | laneLocal
deriving DecidableEq, Repr

instance : Vocabulary Visibility where
  noun := "scope mode"
  all := [.poolWide, .laneLocal]
  word
    | .poolWide => "pool-wide"
    | .laneLocal => "lane-local"

namespace Model

/-- The nodes that a message flow sees. -/
def messageScope (m : Model) : Visibility → List Handle
  | .poolWide => m.pools.flatMap m.nodesIn
  | .laneLocal => []

/-- The nodes that any other connection standing at `h` sees. -/
def localScope (m : Model) (mode : Visibility) (h : Handle) : List Handle :=
  match m.containerOf? h with
  | none => m.roots.filter m.isNode
  | some container =>
    if m.isLane container && mode == .poolWide then
      ((m.poolOf? container).map m.nodesIn).getD []
    else m.nodesIn container

/-- The nodes that either end of a connection may name, in tree order.  Anything but a connection
sees none. -/
def candidates (m : Model) (mode : Visibility) (h : Handle) : List Handle :=
  match m.connection? h with
  | none => []
  | some connection =>
    if connection.isMessageFlow then m.messageScope mode else m.localScope mode h

/-- The first node in scope with the name that an end of a connection is written with. -/
def resolve (m : Model) (mode : Visibility) (h : Handle) (endpoint : Endpoint) : Option Handle :=
  match m.connection? h with
  | none => none
  | some connection =>
    (m.candidates mode h).find? fun n => m.name? n == some (connection.reference endpoint).text

end Model
end Bpmn
