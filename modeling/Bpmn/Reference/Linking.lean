import Bpmn.Model.Declaration
import Bpmn.Reference.Scope

/-!
# Linking

Linking binds every unbound end of every connection to the node its text means, connections in
tree order and the source before the target.  Ends that are bound already are left alone, and
ends whose text means nothing in scope are listed.
-/

namespace Bpmn

structure Linkage where
  bound : Nat := 0
  /-- The ends left unbound, in tree order. -/
  unresolved : List (Handle × Endpoint) := []
deriving DecidableEq, Repr

namespace Model

/-- Every end of every connection in tree order. -/
def endpoints (m : Model) : List (Handle × Endpoint) :=
  m.connections.flatMap fun h => Endpoint.both.map fun endpoint => (h, endpoint)

/-- Whether the end of a connection is still to be bound. -/
def isUnbound (m : Model) (h : Handle) (endpoint : Endpoint) : Bool :=
  (m.connection? h).any fun connection => (connection.reference endpoint).bound.isNone

/-- Binds one end if it is unbound and its text means a node. -/
def linkEndpoint (mode : Visibility) (state : Model × Linkage) (place : Handle × Endpoint) :
    Except ModelError (Model × Linkage) :=
  let (m, report) := state
  let (h, endpoint) := place
  if m.isUnbound h endpoint then
    match m.resolve mode h endpoint with
    | some node => do
      let m ← m.bind h endpoint node
      return (m, { report with bound := report.bound + 1 })
    | none => .ok (m, { report with unresolved := report.unresolved ++ [(h, endpoint)] })
  else .ok (m, report)

def link (m : Model) (mode : Visibility) : Except ModelError (Model × Linkage) :=
  m.endpoints.foldlM (linkEndpoint mode) (m, {})

end Model
end Bpmn
