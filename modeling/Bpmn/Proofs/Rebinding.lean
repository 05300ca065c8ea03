import Bpmn.Proofs.Sorts
import Bpmn.Reference.Linking

/-!
# Bindings do not shape a model

What a reference is bound to is read by the checks and by the document, and by nothing that finds
its way through a model.  Two models are `Rebound` if they differ in bindings alone, and the tree,
the walk, scopes, candidates and what a name is resolved to are then the same.  So a pass that
binds one reference after another may be told by the model it began with.
-/

namespace Bpmn

/-! ## Elements as they are written -/

namespace Connection

def unbound (c : Connection) : Connection :=
  { c with source := ⟨c.source.text, none⟩, target := ⟨c.target.text, none⟩ }

theorem unbound_bind (c : Connection) (endpoint : Endpoint) (h : Handle) :
    (c.bind endpoint h).unbound = c.unbound := by
  cases endpoint <;> rfl

theorem isMessageFlow_unbound (c : Connection) : c.unbound.isMessageFlow = c.isMessageFlow := rfl

theorem text_unbound (c : Connection) (endpoint : Endpoint) :
    (c.unbound.reference endpoint).text = (c.reference endpoint).text := by
  cases endpoint <;> rfl

theorem bound_bind (c : Connection) (endpoint other : Endpoint) (h : Handle) :
    ((c.bind endpoint h).reference other).bound =
      if endpoint = other then some h else (c.reference other).bound := by
  cases endpoint <;> cases other <;> rfl

/-- What is written and what is bound make up a connection. -/
theorem eq_of_unbound {c d : Connection} (hw : c.unbound = d.unbound)
    (hb : ∀ endpoint, (c.reference endpoint).bound = (d.reference endpoint).bound) : c = d := by
  have hs := hb .source
  have ht := hb .target
  obtain ⟨⟨sourceText, source⟩, connector, ⟨targetText, target⟩, label⟩ := c
  obtain ⟨⟨sourceText', source'⟩, connector', ⟨targetText', target'⟩, label'⟩ := d
  simp only [unbound, reference, mk.injEq, Reference.mk.injEq, and_true] at hw hs ht
  simp [hw, hs, ht]

end Connection

namespace Element

def unbound : Element → Element
  | connection c parent => connection c.unbound parent
  | other => other

theorem unbound_bind (e : Element) (endpoint : Endpoint) (h : Handle) :
    (e.bind endpoint h).unbound = e.unbound := by
  cases e with
  | connection c parent => exact congrArg (connection · parent) (c.unbound_bind endpoint h)
  | _ => rfl

theorem parent?_unbound (e : Element) : e.unbound.parent? = e.parent? := by
  cases e <;> rfl

theorem name?_unbound (e : Element) : e.unbound.name? = e.name? := by
  cases e <;> rfl

theorem node?_unbound (e : Element) : e.unbound.node? = e.node? := by
  cases e <;> rfl

theorem isContainer_unbound (e : Element) : e.unbound.isContainer = e.isContainer := by
  cases e <;> rfl

theorem isPool_unbound (e : Element) : e.unbound.isPool = e.isPool := by
  cases e <;> rfl

theorem isLane_unbound (e : Element) : e.unbound.isLane = e.isLane := by
  cases e <;> rfl

theorem connection?_unbound (e : Element) :
    e.unbound.connection? = e.connection?.map Connection.unbound := by
  cases e <;> rfl

theorem eq_of_unbound {e d : Element} (hw : e.unbound = d.unbound)
    (hb : ∀ endpoint, (e.connection?.bind fun c => (c.reference endpoint).bound) =
      d.connection?.bind fun c => (c.reference endpoint).bound) : e = d := by
  cases e with
  | connection c parent =>
    cases d with
    | connection c' parent' =>
      obtain ⟨hc, hparent⟩ := Element.connection.inj hw
      rw [Connection.eq_of_unbound hc hb, hparent]
    | _ => cases hw
  | _ =>
    cases d with
    | connection => cases hw
    | _ => exact hw

end Element

namespace Model

/-- The second model is the first with references bound in another way. -/
structure Rebound (m n : Model) : Prop where
  roots : n.roots = m.roots
  contents : n.contents = m.contents
  elements : ∀ h, (n.element? h).map Element.unbound = (m.element? h).map Element.unbound

/-- What one end of the connection behind `h` is bound to. -/
def binding? (m : Model) (h : Handle) (endpoint : Endpoint) : Option Handle :=
  (m.connection? h).bind fun c => (c.reference endpoint).bound

theorem binding?_of_connection? {m : Model} {h : Handle} {c : Connection}
    (hc : m.connection? h = some c) (endpoint : Endpoint) :
    m.binding? h endpoint = (c.reference endpoint).bound := by
  rw [binding?, hc, Option.bind_some]

namespace Rebound

theorem refl (m : Model) : Rebound m m := ⟨rfl, rfl, fun _ => rfl⟩

theorem trans {m n k : Model} (hmn : Rebound m n) (hnk : Rebound n k) : Rebound m k where
  roots := hnk.roots.trans hmn.roots
  contents := hnk.contents.trans hmn.contents
  elements h := (hnk.elements h).trans (hmn.elements h)

theorem symm {m n : Model} (hr : Rebound m n) : Rebound n m where
  roots := hr.roots.symm
  contents := hr.contents.symm
  elements h := (hr.elements h).symm

theorem setBinding (m : Model) (h : Handle) (endpoint : Endpoint) (bound : Handle) :
    Rebound m (m.setBinding h endpoint bound) where
  roots := rfl
  contents := rfl
  elements x := by
    show ((m.toArena.setBinding h endpoint bound).element? x).map Element.unbound = _
    rw [Arena.element?_setBinding]
    split
    next =>
      rw [Option.map_map]
      congr 1
      exact funext fun e => e.unbound_bind endpoint bound
    next => rfl

section

variable {m n : Model} (hr : Rebound m n)
include hr

/-! ## Looking up -/

theorem size : n.size = m.size := by
  rw [← n.coherent.contents_size, hr.contents, m.coherent.contents_size]

theorem bind_element? {α : Type} {f : Element → Option α} (hf : ∀ e, f e.unbound = f e)
    (h : Handle) : (n.element? h).bind f = (m.element? h).bind f := by
  have hsame := congrArg (Option.bind · f) (hr.elements h)
  simpa [Option.bind_map, Function.comp_def, hf] using hsame

theorem any_element? {f : Element → Bool} (hf : ∀ e, f e.unbound = f e) (h : Handle) :
    (n.element? h).any f = (m.element? h).any f := by
  have hsame := congrArg (Option.any f) (hr.elements h)
  simpa [Option.any_map, Function.comp_def, hf] using hsame

theorem parent? : n.parent? = m.parent? := funext (hr.bind_element? Element.parent?_unbound)

theorem name? : n.name? = m.name? := funext (hr.bind_element? Element.name?_unbound)

theorem node? : n.node? = m.node? := funext (hr.bind_element? Element.node?_unbound)

theorem isContainer : n.isContainer = m.isContainer :=
  funext (hr.any_element? Element.isContainer_unbound)

theorem isPool : n.isPool = m.isPool := funext (hr.any_element? Element.isPool_unbound)

theorem isLane : n.isLane = m.isLane := funext (hr.any_element? Element.isLane_unbound)

theorem isNode : n.isNode = m.isNode := by
  funext h
  rw [Model.isNode, hr.node?, Model.isNode]

theorem connection? (h : Handle) :
    (n.connection? h).map Connection.unbound = (m.connection? h).map Connection.unbound := by
  have hsame := congrArg (Option.bind · Element.connection?) (hr.elements h)
  simpa [Model.connection?, Option.bind_map, Function.comp_def, Element.connection?_unbound,
    Option.map_bind] using hsame

theorem connection?_eq_none {h : Handle} (hc : m.connection? h = none) :
    n.connection? h = none := by
  have hsame := hr.connection? h
  rwa [hc, Option.map_none, Option.map_eq_none_iff] at hsame

theorem connection?_eq_some {h : Handle} {c : Connection} (hc : m.connection? h = some c) :
    ∃ d, n.connection? h = some d ∧ d.unbound = c.unbound := by
  have hsame := hr.connection? h
  rwa [hc, Option.map_some, Option.map_eq_some_iff] at hsame

theorem isConnection : n.isConnection = m.isConnection := by
  funext h
  have hsame := congrArg Option.isSome (hr.connection? h)
  simpa [Model.isConnection] using hsame

/-- What is told of a connection as it is written is told whatever its ends are bound to. -/
theorem any_connection? {p : Connection → Bool} (hp : ∀ c, p c.unbound = p c) (h : Handle) :
    (n.connection? h).any p = (m.connection? h).any p := by
  have hsame := congrArg (Option.any p) (hr.connection? h)
  simpa [Option.any_map, Function.comp_def, hp] using hsame

theorem children : n.children = m.children := by
  funext h
  rw [Arena.children, hr.contents, Arena.children]

/-! ## The tree -/

theorem branch : n.branch = m.branch := by
  funext h
  induction h using inward (m := m) with
  | step h ih => rw [branch_eq, branch_eq, hr.children, List.map_congr_left ih]

theorem forest : n.forest = m.forest := by
  rw [Model.forest, hr.roots, hr.branch, Model.forest]

theorem walk : n.walk = m.walk := by
  rw [Model.walk, hr.forest, Model.walk]

theorem ancestors : n.ancestors = m.ancestors := by
  funext h
  induction h using outward (m := m) with
  | root h hp => rw [ancestors_of_root hp, ancestors_of_root (by rw [hr.parent?, hp])]
  | step h p hp ih =>
    have hn : n.parent? h = some p := by rw [hr.parent?, hp]
    rw [ancestors_of_parent hp, ancestors_of_parent hn, lineage, lineage, ih]

theorem poolOf? : n.poolOf? = m.poolOf? := by
  funext h
  rw [Model.poolOf?, hr.ancestors, hr.isPool, Model.poolOf?]

theorem containerOf? : n.containerOf? = m.containerOf? := by
  funext h
  rw [Model.containerOf?, hr.ancestors, hr.isContainer, Model.containerOf?]

theorem scopeOf : n.scopeOf = m.scopeOf := by
  funext h
  rw [Model.scopeOf, hr.ancestors, hr.name?, Model.scopeOf]

theorem descendants : n.descendants = m.descendants := by
  funext h
  rw [Model.descendants, hr.branch, Model.descendants]

theorem nodesIn : n.nodesIn = m.nodesIn := by
  funext h
  rw [Model.nodesIn, hr.descendants, hr.isNode, Model.nodesIn]

theorem connections : n.connections = m.connections := by
  rw [Model.connections, hr.walk, hr.isConnection, Model.connections]

theorem endpoints : n.endpoints = m.endpoints := by
  rw [Model.endpoints, hr.connections, Model.endpoints]

/-! ## Scopes -/

theorem messageScope (mode : Visibility) : n.messageScope mode = m.messageScope mode := by
  cases mode with
  | poolWide =>
    rw [Model.messageScope, Model.messageScope, pools, pools, hr.roots, hr.isPool, hr.nodesIn]
  | laneLocal => rfl

theorem localScope (mode : Visibility) (h : Handle) :
    n.localScope mode h = m.localScope mode h := by
  rw [Model.localScope, Model.localScope, hr.containerOf?, hr.roots, hr.isNode, hr.isLane,
    hr.poolOf?, hr.nodesIn]

theorem candidates (mode : Visibility) (h : Handle) :
    n.candidates mode h = m.candidates mode h := by
  rw [Model.candidates, Model.candidates]
  cases hc : m.connection? h with
  | none => rw [hr.connection?_eq_none hc]
  | some c =>
    obtain ⟨d, hd, hsame⟩ := hr.connection?_eq_some hc
    have hflow : d.isMessageFlow = c.isMessageFlow := by
      rw [← d.isMessageFlow_unbound, hsame, c.isMessageFlow_unbound]
    simp only [hd, hflow, hr.messageScope, hr.localScope]

theorem resolve (mode : Visibility) (h : Handle) (endpoint : Endpoint) :
    n.resolve mode h endpoint = m.resolve mode h endpoint := by
  rw [Model.resolve, Model.resolve]
  cases hc : m.connection? h with
  | none => rw [hr.connection?_eq_none hc]
  | some c =>
    obtain ⟨d, hd, hsame⟩ := hr.connection?_eq_some hc
    have htext : (d.reference endpoint).text = (c.reference endpoint).text := by
      rw [← d.text_unbound, hsame, c.text_unbound]
    simp only [hd, htext, hr.candidates, hr.name?]

/-! ## The same bindings -/

/-- Models with one tree and the same bindings are the same. -/
theorem eq_of_binding? (hb : ∀ h endpoint, n.binding? h endpoint = m.binding? h endpoint) :
    n = m := by
  have helement : ∀ h, n.element? h = m.element? h := by
    intro h
    have hsame := hr.elements h
    have hb := hb h
    simp only [binding?, Model.connection?] at hb
    cases hm : m.element? h with
    | none => simpa [hm] using hsame
    | some e =>
      rw [hm, Option.map_some, Option.map_eq_some_iff] at hsame
      obtain ⟨d, hd, hsame⟩ := hsame
      rw [hm, hd] at hb
      rw [hd, Element.eq_of_unbound hsame hb]
  have helements : n.elements = m.elements :=
    Array.ext_getElem? fun i => helement ⟨i⟩
  obtain ⟨⟨_, _, _⟩, _⟩ := n
  obtain ⟨⟨_, _, _⟩, _⟩ := m
  have hroots := hr.roots
  have hcontents := hr.contents
  simp only at helements hroots hcontents
  subst helements hroots hcontents
  rfl

end
end Rebound

/-! ## Binding one end -/

theorem binding?_setBinding (m : Model) (h : Handle) (endpoint : Endpoint) (bound x : Handle)
    (other : Endpoint) : (m.setBinding h endpoint bound).binding? x other =
      if h = x ∧ endpoint = other ∧ m.isConnection h = true then some bound
      else m.binding? x other := by
  have helement : (m.setBinding h endpoint bound).element? x =
      if h = x then (m.element? x).map fun e => e.bind endpoint bound else m.element? x :=
    Arena.element?_setBinding m.toArena h endpoint bound x
  by_cases hx : h = x
  · subst hx
    rw [if_pos rfl] at helement
    simp only [binding?, connection?, isConnection, helement, true_and]
    cases m.element? h with
    | none => simp
    | some e =>
      cases e with
      | connection c parent =>
        simp [Element.bind, Element.connection?, Connection.bound_bind]
      | _ => simp [Element.bind, Element.connection?]
  · simp [binding?, connection?, helement, hx]

end Model
end Bpmn
