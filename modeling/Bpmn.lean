import Bpmn.Compiler
import Bpmn.Options.Reading
import Bpmn.Reference.Linking
import Bpmn.Vocabulary
import Bpmn.Proofs.Ancestry
import Bpmn.Proofs.BindingRuns
import Bpmn.Proofs.Containment
import Bpmn.Proofs.Declaring
import Bpmn.Proofs.Linking
import Bpmn.Proofs.Narrowing
import Bpmn.Proofs.Check.Connection
import Bpmn.Proofs.Check.Duplicates
import Bpmn.Proofs.Check.Emptiness
import Bpmn.Proofs.Check.Linked
import Bpmn.Proofs.Check.OpenEnds
import Bpmn.Proofs.Check.Repeats
import Bpmn.Proofs.Check.Reuse
import Bpmn.Proofs.Check.Unambiguous
import Bpmn.Proofs.Check.WellFormed
import Bpmn.Proofs.Document.Aim
import Bpmn.Proofs.Document.Closure
import Bpmn.Proofs.Document.Drawn
import Bpmn.Proofs.Document.Landing
import Bpmn.Proofs.Document.LaneTree
import Bpmn.Proofs.Document.Legality
import Bpmn.Proofs.Document.Linked
import Bpmn.Proofs.Document.Messages
import Bpmn.Proofs.Document.NodeIds
import Bpmn.Proofs.Document.Participants
import Bpmn.Proofs.Document.ReadBack
import Bpmn.Proofs.Document.Records
import Bpmn.Proofs.Naming.Requests
import Bpmn.Proofs.Recut.Transparency
import Bpmn.Proofs.Redeclared.Independence
