import Bpmn.History
import Bpmn.Proofs.Growth
import Bpmn.Proofs.Linking

/-!
# How ends come to be bound

A connection may be declared with ends bound to anything.  If none is, then what binds an end later
is a connection declared between two nodes, a binding that asks for a node, or a linking pass, so
every end is bound to a node (`boundToNodes_ofEdits`).
-/

namespace Bpmn

namespace Element

def binding? (e : Element) (endpoint : Endpoint) : Option Handle :=
  e.connection?.bind fun c => (c.reference endpoint).bound

end Element

namespace Declaration

/-- The element that a declaration asks for. -/
def element (m : Model) : Declaration → Except ModelError Element
  | .pool name => .ok (.pool name)
  | .lane name none => .error (.topLevelLane name)
  | .lane name (some parent) => .ok (.lane name parent)
  | .node n parent => .ok (.node n parent)
  | .connection c parent => .ok (.connection c parent)
  | .connect source connector target parent => do
    let source ← m.referenceTo source
    let target ← m.referenceTo target
    return .connection ⟨source, connector, target, none⟩ parent

/-- Unless this is a connection that comes with a binding. -/
def comesOpen : Declaration → Bool
  | .connection c _ => c.source.bound.isNone && c.target.bound.isNone
  | _ => true

/-- Unless this asks for a connection with a bound end. -/
def bindsNothing : Declaration → Bool
  | .connection c _ => c.source.bound.isNone && c.target.bound.isNone
  | .connect .. => false
  | _ => true

theorem eq_of_element_connect {m : Model} {source target : Handle} {connector : Connector}
    {parent : Option Handle} {e : Element}
    (he : (connect source connector target parent).element m = .ok e) :
    ∃ s t, m.referenceTo source = .ok s ∧ m.referenceTo target = .ok t ∧
      e = .connection ⟨s, connector, t, none⟩ parent := by
  rw [element] at he
  cases hs : m.referenceTo source with
  | error =>
    rw [hs] at he
    cases he
  | ok s =>
    cases ht : m.referenceTo target with
    | error =>
      rw [hs, ht] at he
      cases he
    | ok t =>
      rw [hs, ht] at he
      exact ⟨s, t, rfl, rfl, (Except.ok.inj he).symm⟩

theorem binding?_of_bindsNothing {m : Model} {d : Declaration} {e : Element}
    (hd : d.bindsNothing = true) (he : d.element m = .ok e) (endpoint : Endpoint) :
    e.binding? endpoint = none := by
  cases d with
  | connection c parent =>
    obtain rfl := Except.ok.inj he
    simp only [bindsNothing, Bool.and_eq_true, Option.isNone_iff_eq_none] at hd
    cases endpoint with
    | source => exact hd.1
    | target => exact hd.2
  | connect => cases hd
  | pool | node =>
    obtain rfl := Except.ok.inj he
    rfl
  | lane name parent =>
    cases parent with
    | none => cases he
    | some p =>
      obtain rfl := Except.ok.inj he
      rfl

end Declaration

namespace Edit

def comesOpen : Edit → Bool
  | .declare declaration => declaration.comesOpen
  | _ => true

end Edit

namespace Model

/-- No end of a connection is bound. -/
def Unbound (m : Model) : Prop := ∀ h endpoint, m.binding? h endpoint = none

/-- Ends are bound to nothing but nodes. -/
def BoundToNodes (m : Model) : Prop :=
  ∀ h endpoint n, m.binding? h endpoint = some n → m.isNode n = true

section

variable {m : Model} {d : Declaration} {e : Element}

/-! ## Declarations -/

theorem declare_eq (m : Model) (d : Declaration) : m.declare d = d.element m >>= m.add := by
  cases d with
  | pool | node | connection => rfl
  | lane name parent => cases parent <;> rfl
  | connect source connector target parent =>
    simp only [declare, Declaration.element, bind_assoc, pure_bind]

theorem add_eq_ok {h : Handle} {grown : Model} (ha : m.add e = .ok (h, grown)) :
    ∃ fits, h = ⟨m.size⟩ ∧ grown = m.push e fits := by
  rw [add] at ha
  split at ha
  next =>
    obtain ⟨rfl, rfl⟩ := Prod.mk.inj (Except.ok.inj ha)
    exact ⟨_, rfl, rfl⟩
  next =>
    split at ha
    · cases ha
    · split at ha
      · obtain ⟨rfl, rfl⟩ := Prod.mk.inj (Except.ok.inj ha)
        exact ⟨_, rfl, rfl⟩
      · cases ha

theorem declare_eq_ok {h : Handle} {grown : Model} (hd : m.declare d = .ok (h, grown)) :
    ∃ e fits, d.element m = .ok e ∧ h = ⟨m.size⟩ ∧ grown = m.push e fits := by
  rw [declare_eq] at hd
  cases he : d.element m with
  | error error =>
    rw [he] at hd
    cases hd
  | ok e =>
    rw [he] at hd
    obtain ⟨fits, rfl, rfl⟩ := add_eq_ok hd
    exact ⟨e, fits, rfl, rfl, rfl⟩

section push

variable (fits : ∀ p, e.parent? = some p → m.isContainer p = true)

theorem binding?_push (h : Handle) (endpoint : Endpoint) :
    (m.push e fits).binding? h endpoint =
      if h.index = m.size then e.binding? endpoint else m.binding? h endpoint := by
  rw [binding?, connection?, element?_push]
  split <;> rfl

theorem isNode_push {n : Handle} (hn : m.isNode n = true) : (m.push e fits).isNode n = true := by
  obtain ⟨node, parent, he⟩ := isNode_iff.mp hn
  rwa [isNode, node?, element?_push_of_lt fits (Arena.lt_size he)]

end push

theorem Unbound.declare (hm : m.Unbound) (hd : d.bindsNothing = true) :
    (m.edit (.declare d)).Unbound := by
  intro h endpoint
  rw [edit]
  split
  next new grown hgrown =>
    obtain ⟨e, fits, he, -, rfl⟩ := declare_eq_ok hgrown
    rw [binding?_push]
    split
    · exact Declaration.binding?_of_bindsNothing hd he endpoint
    · exact hm h endpoint
  next => exact hm h endpoint

/-- A model that is declared without bindings has none. -/
theorem unbound_of_declarations {declarations : List Declaration}
    (hd : ∀ d ∈ declarations, d.bindsNothing = true) :
    (ofEdits (declarations.map .declare)).Unbound := by
  have hrun : ∀ m : Model, m.Unbound → ((declarations.map Edit.declare).foldl edit m).Unbound := by
    induction declarations with
    | nil => exact fun m hm => hm
    | cons d rest ih =>
      intro m hm
      refine ih (fun d hd' => hd d (List.mem_cons_of_mem _ hd')) _ ?_
      exact hm.declare (hd d List.mem_cons_self)
  refine hrun empty fun h endpoint => ?_
  simp [binding?, connection?, Arena.element?, empty, Arena.empty]

/-! ## Ends bound to nodes -/

theorem isNode_of_referenceTo {h : Handle} {r : Reference} (hr : m.referenceTo h = .ok r)
    {n : Handle} (hn : r.bound = some n) : m.isNode n = true := by
  rw [referenceTo] at hr
  split at hr
  next node hnode =>
    obtain rfl := Except.ok.inj hr
    obtain rfl := Option.some.inj hn
    rw [isNode, hnode]
    rfl
  next => cases hr

theorem isNode_of_element (hd : d.comesOpen = true) (he : d.element m = .ok e)
    {endpoint : Endpoint} {n : Handle} (hn : e.binding? endpoint = some n) :
    m.isNode n = true := by
  cases hnothing : d.bindsNothing with
  | true =>
    rw [Declaration.binding?_of_bindsNothing hnothing he] at hn
    cases hn
  | false =>
    cases d with
    | pool | lane | node => cases hnothing
    | connection c parent =>
      rw [Declaration.comesOpen] at hd
      rw [Declaration.bindsNothing, hd] at hnothing
      cases hnothing
    | connect source connector target parent =>
      obtain ⟨s, t, hs, ht, rfl⟩ := Declaration.eq_of_element_connect he
      cases endpoint with
      | source => exact isNode_of_referenceTo hs hn
      | target => exact isNode_of_referenceTo ht hn

section

variable (hm : m.BoundToNodes)
include hm

theorem BoundToNodes.declare (hd : d.comesOpen = true) :
    (m.edit (.declare d)).BoundToNodes := by
  intro h endpoint n hn
  rw [Model.edit] at hn ⊢
  split at hn
  next new grown hgrown =>
    obtain ⟨e, fits, he, -, rfl⟩ := declare_eq_ok hgrown
    rw [binding?_push] at hn
    refine isNode_push fits ?_
    split at hn
    · exact isNode_of_element hd he hn
    · exact hm h endpoint n hn
  next => exact hm h endpoint n hn

theorem BoundToNodes.bind {connection node : Handle} {endpoint : Endpoint} {bound : Model}
    (hb : m.bind connection endpoint node = .ok bound) : bound.BoundToNodes := by
  intro h other n hn
  rw [Model.bind] at hb
  split at hb
  next hnode =>
    split at hb
    · obtain rfl := Except.ok.inj hb
      rw [(Rebound.setBinding m connection endpoint node).isNode]
      rw [binding?_setBinding] at hn
      split at hn
      · exact Option.some.inj hn ▸ hnode
      · exact hm h other n hn
    · cases hb
    · cases hb
  next => cases hb

theorem BoundToNodes.link (mode : Visibility) : (m.edit (.link mode)).BoundToNodes := by
  intro h endpoint n hn
  obtain ⟨linked, hlink, hr, hbound⟩ := link_eq m mode
  rw [Model.edit, hlink] at hn ⊢
  rw [hr.isNode]
  rw [hbound, Option.or_eq_some_iff] at hn
  rcases hn with hn | ⟨-, hn⟩
  · exact hm h endpoint n hn
  · exact isNode_of_resolve hn

theorem BoundToNodes.edit {change : Edit} (hc : change.comesOpen = true) :
    (m.edit change).BoundToNodes := by
  cases change with
  | declare d => exact hm.declare hc
  | bind connection endpoint node =>
    rw [Model.edit]
    split
    next bound hb => exact hm.bind hb
    next => exact hm
  | link mode => exact hm.link mode

end

theorem boundToNodes_ofEdits {edits : List Edit} (he : ∀ e ∈ edits, e.comesOpen = true) :
    (ofEdits edits).BoundToNodes := by
  have hrun : ∀ m : Model, m.BoundToNodes → (edits.foldl Model.edit m).BoundToNodes := by
    induction edits with
    | nil => exact fun m hm => hm
    | cons e rest ih =>
      intro m hm
      refine ih (fun e he' => he e (List.mem_cons_of_mem _ he')) _ ?_
      exact hm.edit (he e List.mem_cons_self)
  refine hrun empty fun h endpoint n hn => ?_
  simp [binding?, connection?, Arena.element?, empty, Arena.empty] at hn

end
end Model
end Bpmn
