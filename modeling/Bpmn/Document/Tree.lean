import Bpmn.Document.Basic
import Bpmn.Markup.Reading

/-!
# The tree of a document

What a reader is to find in a document, told without regard to how a document is written.  Each
record is one element, with its attributes in order and then what it holds in order.  What a record
leaves out is not in the tree either.  Numbers are attributes too, and how they are put in digits is
left open.
-/

namespace Bpmn

/-- An element that holds a text alone. -/
def Content.leaf (tag text : String) : Content := .element tag [] [.characters text]

/-- The attributes among these that have a value. -/
def presentAttributes (attributes : List (String × Option String)) : List (String × String) :=
  attributes.filterMap fun a => a.2.map fun value => (a.1, value)

/-! ## Names of elements -/

def NodeKind.elementName : NodeKind → String
  | .event (some .start) _ => "bpmn:startEvent"
  | .event (some .finish) _ => "bpmn:endEvent"
  | .event none _ | .event (some .intermediate) _ => "bpmn:intermediateThrowEvent"
  | .event (some .catching) _ => "bpmn:intermediateCatchEvent"
  | .task none | .task (some .task) => "bpmn:task"
  | .task (some .user) => "bpmn:userTask"
  | .task (some .service) => "bpmn:serviceTask"
  | .task (some .manual) => "bpmn:manualTask"
  | .task (some .script) => "bpmn:scriptTask"
  | .task (some .send) => "bpmn:sendTask"
  | .task (some .receive) => "bpmn:receiveTask"
  | .task (some .businessRule) => "bpmn:businessRuleTask"
  | .gateway none | .gateway (some .exclusive) => "bpmn:exclusiveGateway"
  | .gateway (some .parallel) => "bpmn:parallelGateway"
  | .gateway (some .inclusive) => "bpmn:inclusiveGateway"
  | .gateway (some .eventBased) => "bpmn:eventBasedGateway"
  | .gateway (some .complex) => "bpmn:complexGateway"

def Trigger.elementName : Trigger → String
  | message => "bpmn:messageEventDefinition"
  | timer => "bpmn:timerEventDefinition"
  | signal => "bpmn:signalEventDefinition"
  | error => "bpmn:errorEventDefinition"
  | terminate => "bpmn:terminateEventDefinition"

def Connector.elementName : Connector → String
  | sequence => "bpmn:sequenceFlow"
  | association | directedAssociation => "bpmn:association"
  | message => "bpmn:messageFlow"

/-- Associations tell whether they point one way. -/
def Connector.pointing : Connector → Option String
  | association => some "None"
  | directedAssociation => some "One"
  | sequence | message => none

/-! ## Processes -/

def EventDefinition.tree (d : EventDefinition) : Content :=
  .element d.trigger.elementName [("id", d.id)] []

def FlowNode.tree (n : FlowNode) : Content :=
  .element n.kind.elementName [("id", n.id), ("name", n.name)]
    (n.incoming.map (.leaf "bpmn:incoming") ++ n.outgoing.map (.leaf "bpmn:outgoing") ++
      n.eventDefinition.toList.map EventDefinition.tree)

def Flow.tree (f : Flow) : Content :=
  .element f.connector.elementName
    (presentAttributes
      [("id", some f.id), ("name", f.name), ("sourceRef", f.sourceRef), ("targetRef", f.targetRef),
        ("associationDirection", f.connector.pointing)])
    []

mutual

def Lane.tree : Lane → Content
  | .whole id name refs =>
    .element "bpmn:lane" [("id", id), ("name", name)] (refs.map (.leaf "bpmn:flowNodeRef"))
  | .divided id name refs laneSetId lanes =>
    .element "bpmn:lane" [("id", id), ("name", name)]
      (refs.map (.leaf "bpmn:flowNodeRef") ++
        [.element "bpmn:childLaneSet" [("id", laneSetId)] (Lane.trees lanes)])

def Lane.trees : List Lane → List Content
  | [] => []
  | lane :: rest => lane.tree :: Lane.trees rest

end

def LaneSet.tree (s : LaneSet) : Content :=
  .element "bpmn:laneSet" [("id", s.id)] (Lane.trees s.lanes)

def Process.tree (p : Process) : Content :=
  .element "bpmn:process" [("id", p.id), ("isExecutable", "false")]
    (p.laneSet.toList.map LaneSet.tree ++ p.nodes.map FlowNode.tree ++ p.flows.map Flow.tree)

/-! ## Collaboration -/

def Participant.tree (p : Participant) : Content :=
  .element "bpmn:participant" [("id", p.id), ("name", p.name), ("processRef", p.processRef)] []

def Collaboration.tree (c : Collaboration) : Content :=
  .element "bpmn:collaboration" [("id", c.id)]
    (c.participants.map Participant.tree ++ c.messageFlows.map Flow.tree)

/-! ## Diagram -/

section

variable (numeral : Float32 → String)

def Bounds.tree (b : Bounds) : Content :=
  .element "dc:Bounds"
    [("x", numeral b.minX), ("y", numeral b.minY), ("width", numeral (b.maxX - b.minX)),
      ("height", numeral (b.maxY - b.minY))]
    []

def Shape.tree (s : Shape) : Content :=
  .element "bpmndi:BPMNShape"
    (presentAttributes
      [("id", some s.id), ("bpmnElement", some s.elementRef),
        ("isHorizontal", if s.isHorizontal then some "true" else none)])
    [s.bounds.tree numeral]

def Point.tree (p : Point) : Content :=
  .element "di:waypoint" [("x", numeral p.x), ("y", numeral p.y)] []

def Edge.tree (e : Edge) : Content :=
  .element "bpmndi:BPMNEdge" [("id", e.id), ("bpmnElement", e.elementRef)]
    [e.route.start.tree numeral, e.route.finish.tree numeral]

def Diagram.tree (d : Diagram) : Content :=
  .element "bpmndi:BPMNDiagram" [("id", d.id)]
    [.element "bpmndi:BPMNPlane" [("id", d.planeId), ("bpmnElement", d.planeElement)]
      (d.shapes.map (Shape.tree numeral) ++ d.edges.map (Edge.tree numeral))]

/-- The tree of a document whose numbers are put in digits in this way. -/
def Document.tree (d : Document) : Content :=
  .element "bpmn:definitions"
    [("xmlns:bpmn", "http://www.omg.org/spec/BPMN/20100524/MODEL"),
      ("xmlns:bpmndi", "http://www.omg.org/spec/BPMN/20100524/DI"),
      ("xmlns:dc", "http://www.omg.org/spec/DD/20100524/DC"),
      ("xmlns:di", "http://www.omg.org/spec/DD/20100524/DI"),
      ("id", d.id), ("targetNamespace", "http://bpmn.io/schema/bpmn")]
    (d.processes.map Process.tree ++ d.collaboration.toList.map Collaboration.tree ++
      d.diagram.toList.map (Diagram.tree numeral))

end

end Bpmn
