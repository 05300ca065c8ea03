import Bpmn.Document.Basic

/-!
# Identifiers and references of a document

What a document holds, listed: all identifiers, those of them that something can refer to, and all
references.  And all nodes, lanes and flows, wherever they stand.
-/

namespace Bpmn

namespace Lane

/-- The lane set that divides a lane. -/
def laneSetId? : Lane → Option String
  | whole .. => none
  | divided _ _ _ laneSetId _ => some laneSetId

mutual

/-- A lane and all lanes inside it in tree order. -/
def flatten : Lane → List Lane
  | whole id name refs => [whole id name refs]
  | divided id name refs laneSetId lanes =>
    divided id name refs laneSetId lanes :: flattenAll lanes

def flattenAll : List Lane → List Lane
  | [] => []
  | lane :: rest => flatten lane ++ flattenAll rest

end

def ids (l : Lane) : List String := l.id :: l.laneSetId?.toList

end Lane

namespace FlowNode

def ids (n : FlowNode) : List String := n.id :: (n.eventDefinition.map EventDefinition.id).toList

def references (n : FlowNode) : List String := n.incoming ++ n.outgoing

end FlowNode

namespace Flow

def references (f : Flow) : List String := f.sourceRef.toList ++ f.targetRef.toList

def reference? (f : Flow) : Endpoint → Option String
  | .source => f.sourceRef
  | .target => f.targetRef

end Flow

namespace Process

def lanes (p : Process) : List Lane := p.laneSet.toList.flatMap fun s => Lane.flattenAll s.lanes

def ids (p : Process) : List String :=
  p.id :: ((p.laneSet.map LaneSet.id).toList ++ p.lanes.flatMap Lane.ids ++
    p.nodes.flatMap FlowNode.ids ++ p.flows.map Flow.id)

def elementIds (p : Process) : List String :=
  p.id :: (p.lanes.map Lane.id ++ p.nodes.map FlowNode.id ++ p.flows.map Flow.id)

def references (p : Process) : List String :=
  p.lanes.flatMap Lane.flowNodeRefs ++ p.nodes.flatMap FlowNode.references ++
    p.flows.flatMap Flow.references

end Process

namespace Collaboration

def ids (c : Collaboration) : List String :=
  c.id :: (c.participants.map Participant.id ++ c.messageFlows.map Flow.id)

def references (c : Collaboration) : List String :=
  c.participants.map Participant.processRef ++ c.messageFlows.flatMap Flow.references

end Collaboration

namespace Diagram

def ids (d : Diagram) : List String :=
  d.id :: d.planeId :: (d.shapes.map Shape.id ++ d.edges.map Edge.id)

def references (d : Diagram) : List String :=
  d.planeElement :: (d.shapes.map Shape.elementRef ++ d.edges.map Edge.elementRef)

end Diagram

namespace Document

def ids (d : Document) : List String :=
  d.id :: (d.processes.flatMap Process.ids ++ d.collaboration.toList.flatMap Collaboration.ids ++
    d.diagram.toList.flatMap Diagram.ids)

/-- The identifiers of all that is described, as opposed to drawn or grouped. -/
def elementIds (d : Document) : List String :=
  d.processes.flatMap Process.elementIds ++ d.collaboration.toList.flatMap Collaboration.ids

/-- All references of a document, each as often as it stands there. -/
def references (d : Document) : List String :=
  d.processes.flatMap Process.references ++
    d.collaboration.toList.flatMap Collaboration.references ++
    d.diagram.toList.flatMap Diagram.references

def allNodes (d : Document) : List FlowNode := d.processes.flatMap Process.nodes

def allLanes (d : Document) : List Lane := d.processes.flatMap Process.lanes

/-- The flows of all processes, then those between them. -/
def allFlows (d : Document) : List Flow :=
  d.processes.flatMap Process.flows ++ d.collaboration.toList.flatMap Collaboration.messageFlows

end Document
end Bpmn
