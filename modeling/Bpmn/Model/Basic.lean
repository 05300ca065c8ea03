import Bpmn.Model.Arena

/-!
# Process models

A model is an arena whose tables agree, so its elements form a forest: going up ends because
handles get smaller, going down ends because they get larger.  Elements are only ever added and
references only ever bound, and both keep the tables in agreement.
-/

namespace Bpmn

structure Model extends Arena where
  coherent : toArena.Coherent

namespace Model

def empty : Model where
  toArena := .empty
  coherent := .empty

instance : Inhabited Model := ⟨empty⟩

def isEmpty (m : Model) : Bool := m.elements.isEmpty

/-! ## Looking up -/

def node? (m : Model) (h : Handle) : Option Node := (m.element? h).bind Element.node?

def connection? (m : Model) (h : Handle) : Option Connection :=
  (m.element? h).bind Element.connection?

def name? (m : Model) (h : Handle) : Option String := (m.element? h).bind Element.name?

def isNode (m : Model) (h : Handle) : Bool := (m.node? h).isSome

def isConnection (m : Model) (h : Handle) : Bool := (m.connection? h).isSome

def isPool (m : Model) (h : Handle) : Bool := (m.element? h).any Element.isPool

def isLane (m : Model) (h : Handle) : Bool := (m.element? h).any Element.isLane

theorem parent_lt {m : Model} {h p : Handle} (hp : m.parent? h = some p) :
    p.index < h.index := m.coherent.parent_lt hp

theorem parent_isContainer {m : Model} {h p : Handle} (hp : m.parent? h = some p) :
    m.isContainer p = true := m.coherent.parent_isContainer hp

theorem mem_children {m : Model} {h c : Handle} :
    c ∈ m.children h ↔ m.parent? c = some h := m.coherent.mem_children

theorem mem_roots {m : Model} {h : Handle} :
    h ∈ m.roots ↔ h.index < m.size ∧ m.parent? h = none := m.coherent.mem_roots

theorem lt_of_mem_children {m : Model} {h c : Handle} (hc : c ∈ m.children h) :
    h.index < c.index ∧ c.index < m.size :=
  ⟨parent_lt (mem_children.mp hc), Arena.lt_size_of_parent (mem_children.mp hc)⟩

/-! ## Editing -/

/-- Adds an element after all others, given that its parent, if it has one, is a container. -/
def push (m : Model) (e : Element)
    (fits : ∀ p, e.parent? = some p → m.isContainer p = true) : Model where
  toArena := m.toArena.push e
  coherent := m.coherent.push fits

/-- Binds one end of the connection behind `h`; any other element stays as it is. -/
def setBinding (m : Model) (h : Handle) (endpoint : Endpoint) (bound : Handle) : Model where
  toArena := m.toArena.setBinding h endpoint bound
  coherent := m.coherent.setBinding h endpoint bound

end Model
end Bpmn
