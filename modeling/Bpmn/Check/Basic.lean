import Bpmn.Check.Connection
import Bpmn.Check.Emptiness
import Bpmn.Check.Naming

/-!
# All checks

The checks run one after another on one report: every connection in tree order, then the names of
nodes, then empty containers.
-/

namespace Bpmn.Model

def check (m : Model) (r : Report) : Report :=
  let r := m.connections.foldl (fun r h => Check.connection m h r) r
  Check.emptyContainers m (Check.nodeNames m r)

def diagnostics (m : Model) : List Diagnostic := (m.check .empty).diagnostics

/-- The warnings of a model without errors. -/
def validate (m : Model) : Except Rejection (List Diagnostic) := (m.check .empty).accept

end Bpmn.Model
