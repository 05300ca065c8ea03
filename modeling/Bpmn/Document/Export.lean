import Bpmn.Document.Basic
import Bpmn.Markup

/-!
# Writing a document

Each record of a document is one element, its fields in a fixed order.  An optional field that is
missing is left out, and a record that holds nothing is written as one empty tag.  Whatever the
writer refuses ends the export.
-/

namespace Bpmn

open Markup

def NodeKind.tag : NodeKind → String
  | .event type _ =>
    match type.getD .intermediate with
    | .start => "startEvent"
    | .finish => "endEvent"
    | .intermediate => "intermediateThrowEvent"
    | .catching => "intermediateCatchEvent"
  | .task type =>
    match type.getD .task with
    | .task => "task"
    | .user => "userTask"
    | .service => "serviceTask"
    | .manual => "manualTask"
    | .script => "scriptTask"
    | .send => "sendTask"
    | .receive => "receiveTask"
    | .businessRule => "businessRuleTask"
  | .gateway type =>
    match type.getD .exclusive with
    | .exclusive => "exclusiveGateway"
    | .parallel => "parallelGateway"
    | .inclusive => "inclusiveGateway"
    | .eventBased => "eventBasedGateway"
    | .complex => "complexGateway"

def Trigger.tag : Trigger → String
  | message => "messageEventDefinition"
  | timer => "timerEventDefinition"
  | signal => "signalEventDefinition"
  | error => "errorEventDefinition"
  | terminate => "terminateEventDefinition"

def Connector.tag : Connector → String
  | sequence => "sequenceFlow"
  | association | directedAssociation => "association"
  | message => "messageFlow"

def Connector.direction? : Connector → Option String
  | directedAssociation => some "One"
  | association => some "None"
  | _ => none

/-- A node that is written as one empty tag. -/
def FlowNode.isEmpty (n : FlowNode) : Bool :=
  n.incoming.isEmpty && n.outgoing.isEmpty && n.eventDefinition.isNone

/-- Why a document could not be written. -/
inductive ExportError where
  | write (reason : String)
  /-- What was written is not text. -/
  | encoding (bytes : ByteArray)

abbrev Exporter (w : Writer) := StateT w.State (Except ExportError)

namespace Exporter

variable {w : Writer}

def write (e : Event) : Exporter w Unit := fun s =>
  match w.write e s with
  | .ok next => .ok ((), next)
  | .error reason => .error (.write reason)

def opening (tag : String) (attributes : List (String × String)) : Exporter w Unit :=
  write (.opening tag attributes)

def empty (tag : String) (attributes : List (String × String)) : Exporter w Unit :=
  write (.empty tag attributes)

def closing (tag : String) : Exporter w Unit := write (.closing tag)

def textElement (tag content : String) : Exporter w Unit := do
  opening tag []
  write (.text content)
  closing tag

/-! ## Processes -/

def flowNode (n : FlowNode) : Exporter w Unit := do
  let tag := "bpmn:" ++ n.kind.tag
  let attributes := [("id", n.id), ("name", n.name)]
  if n.isEmpty then
    empty tag attributes
  else
    opening tag attributes
    n.incoming.forM (textElement "bpmn:incoming")
    n.outgoing.forM (textElement "bpmn:outgoing")
    n.eventDefinition.forM fun d => empty ("bpmn:" ++ d.trigger.tag) [("id", d.id)]
    closing tag

/-- An attribute that is left out if it has no value. -/
def optionalAttribute (name : String) (value : Option String) : List (String × String) :=
  value.toList.map fun v => (name, v)

def flow (f : Flow) : Exporter w Unit :=
  empty ("bpmn:" ++ f.connector.tag)
    ([("id", f.id)] ++ optionalAttribute "name" f.name ++
      optionalAttribute "sourceRef" f.sourceRef ++ optionalAttribute "targetRef" f.targetRef ++
      optionalAttribute "associationDirection" f.connector.direction?)

/-- A set of lanes around what writes the lanes. -/
def laneSet (tag id : String) (lanes : Exporter w Unit) : Exporter w Unit := do
  opening tag [("id", id)]
  lanes
  closing tag

mutual

def lane : Lane → Exporter w Unit
  | .whole id name refs => do
    let attributes := [("id", id), ("name", name)]
    if refs.isEmpty then
      empty "bpmn:lane" attributes
    else
      opening "bpmn:lane" attributes
      refs.forM (textElement "bpmn:flowNodeRef")
      closing "bpmn:lane"
  | .divided id name refs laneSetId children => do
    opening "bpmn:lane" [("id", id), ("name", name)]
    refs.forM (textElement "bpmn:flowNodeRef")
    laneSet "bpmn:childLaneSet" laneSetId (lanes children)
    closing "bpmn:lane"

def lanes : List Lane → Exporter w Unit
  | [] => pure ()
  | first :: rest => do
    lane first
    lanes rest

end

def process (p : Process) : Exporter w Unit := do
  let attributes := [("id", p.id), ("isExecutable", "false")]
  if p.laneSet.isNone && p.nodes.isEmpty && p.flows.isEmpty then
    empty "bpmn:process" attributes
  else
    opening "bpmn:process" attributes
    p.laneSet.forM fun s => laneSet "bpmn:laneSet" s.id (lanes s.lanes)
    p.nodes.forM flowNode
    p.flows.forM flow
    closing "bpmn:process"

/-! ## Collaboration -/

def participant (p : Participant) : Exporter w Unit :=
  empty "bpmn:participant" [("id", p.id), ("name", p.name), ("processRef", p.processRef)]

def collaboration (c : Collaboration) : Exporter w Unit := do
  let attributes := [("id", c.id)]
  if c.participants.isEmpty && c.messageFlows.isEmpty then
    empty "bpmn:collaboration" attributes
  else
    opening "bpmn:collaboration" attributes
    c.participants.forM participant
    c.messageFlows.forM flow
    closing "bpmn:collaboration"

/-! ## Diagram -/

def bounds (b : Bounds) : Exporter w Unit :=
  empty "dc:Bounds"
    [("x", Binary32.text b.minX), ("y", Binary32.text b.minY), ("width", Binary32.text b.width),
      ("height", Binary32.text b.height)]

def shape (s : Shape) : Exporter w Unit := do
  opening "bpmndi:BPMNShape"
    ([("id", s.id), ("bpmnElement", s.elementRef)] ++
      if s.isHorizontal then [("isHorizontal", "true")] else [])
  bounds s.bounds
  closing "bpmndi:BPMNShape"

def waypoint (p : Point) : Exporter w Unit :=
  empty "di:waypoint" [("x", Binary32.text p.x), ("y", Binary32.text p.y)]

def edge (e : Edge) : Exporter w Unit := do
  opening "bpmndi:BPMNEdge" [("id", e.id), ("bpmnElement", e.elementRef)]
  waypoint e.route.start
  waypoint e.route.finish
  closing "bpmndi:BPMNEdge"

def diagram (d : Diagram) : Exporter w Unit := do
  opening "bpmndi:BPMNDiagram" [("id", d.id)]
  opening "bpmndi:BPMNPlane" [("id", d.planeId), ("bpmnElement", d.planeElement)]
  d.shapes.forM shape
  d.edges.forM edge
  closing "bpmndi:BPMNPlane"
  closing "bpmndi:BPMNDiagram"

/-! ## The whole document -/

/-- The vocabularies that a document uses, each with the letters it is marked by. -/
def vocabularies : List (String × String) :=
  [("xmlns:bpmn", "http://www.omg.org/spec/BPMN/20100524/MODEL"),
    ("xmlns:bpmndi", "http://www.omg.org/spec/BPMN/20100524/DI"),
    ("xmlns:dc", "http://www.omg.org/spec/DD/20100524/DC"),
    ("xmlns:di", "http://www.omg.org/spec/DD/20100524/DI")]

def definitions (d : Document) : Exporter w Unit := do
  opening "bpmn:definitions"
    (vocabularies ++ [("id", d.id), ("targetNamespace", "http://bpmn.io/schema/bpmn")])
  d.processes.forM process
  d.collaboration.forM collaboration
  d.diagram.forM diagram
  closing "bpmn:definitions"

def document (d : Document) : Exporter w Unit := do
  write (.declaration "1.0" (some "UTF-8") none)
  definitions d

end Exporter

/-- What was written, as text with the end of a line behind it. -/
def Exporter.finished (bytes : ByteArray) : Except ExportError String :=
  match String.fromUTF8? bytes with
  | some text => .ok (text.push '\n')
  | none => .error (.encoding bytes)

/-- The text of a document.  Without blanks to indent by, it is written on one line. -/
def Document.written (w : Writer) (indent : Nat) (d : Document) : Except ExportError String := do
  let ((), s) ← (Exporter.document d).run (w.new (if indent = 0 then none else some indent))
  Exporter.finished (w.bytes s)

end Bpmn
