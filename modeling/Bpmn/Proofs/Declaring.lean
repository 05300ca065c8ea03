import Bpmn.Proofs.Bindings
import Bpmn.Proofs.Growth
import Bpmn.Proofs.Partition

/-!
# What a declaration does

A declaration is refused for one of few reasons (`Refused`) and then changes nothing.  Otherwise it
adds one element, and `Grows` says all that can be seen of that: the new element gets the next
handle and its place in the tree, and the others keep theirs.
-/

namespace Bpmn

namespace Declaration

/-- Where a declaration asks for its element to stand. -/
def parent? : Declaration → Option Handle
  | .pool _ => none
  | .lane _ parent => parent
  | .node _ parent => parent
  | .connection _ parent => parent
  | .connect _ _ _ parent => parent

/-- What a declaration binds ends to are nodes.  A connection as written may be bound to
anything. -/
def JoinsNodes (m : Model) : Declaration → Prop
  | .connect source _ target _ => m.isNode source = true ∧ m.isNode target = true
  | _ => True

end Declaration

namespace Model

/-- Why nothing can stand in an element. -/
inductive Unfit (m : Model) (p : Handle) : ModelError → Prop
  | unknown (hp : m.size ≤ p.index) : Unfit m p (.unknownElement p)
  | leaf (hp : m.isLeaf p = true) : Unfit m p (.notAContainer p)

/-- Why a declaration is refused.  A later reason counts only where no earlier one does. -/
inductive Refused (m : Model) : Declaration → ModelError → Prop
  | topLevelLane (name : String) : Refused m (.lane name none) (.topLevelLane name)
  | source {source target : Handle} {connector : Connector} {parent : Option Handle}
    (hs : m.isNode source = false) :
    Refused m (.connect source connector target parent) (.notANode source)
  | target {source target : Handle} {connector : Connector} {parent : Option Handle}
    (hs : m.isNode source = true) (ht : m.isNode target = false) :
    Refused m (.connect source connector target parent) (.notANode target)
  | parent {d : Declaration} {p : Handle} {error : ModelError} (hd : d.JoinsNodes m)
    (hp : d.parent? = some p) (hunfit : m.Unfit p error) : Refused m d error

/-- The second model is the first with one element added by a declaration. -/
structure Grows (m : Model) (d : Declaration) (new : Handle) (grown : Model) : Prop where
  handle : new.index = m.size
  size : grown.size = m.size + 1
  added : ∃ e, d.element m = .ok e ∧ grown.element? new = some e
  parent_new : grown.parent? new = d.parent?
  children : ∀ x, grown.children x =
    if d.parent? = some x then m.children x ++ [new] else m.children x
  walk_top : d.parent? = none → grown.walk = m.walk ++ [new]
  /-- Inside a container the new element follows the container and what was below it. -/
  walk_inside : ∀ p, d.parent? = some p → PutBehind (m.subtree p) new m.walk grown.walk
  element : ∀ x, x < new → grown.element? x = m.element? x
  parent : ∀ x, x < new → grown.parent? x = m.parent? x
  ancestors : ∀ x, x < new → grown.ancestors x = m.ancestors x
  pool : ∀ x, x < new → grown.poolOf? x = m.poolOf? x
  scope : ∀ x, x < new → grown.scopeOf x = m.scopeOf x
  descendants : ∀ x, x < new → (∀ p, d.parent? = some p → x ∉ m.lineage p) →
    grown.descendants x = m.descendants x

section

variable {m : Model} {d : Declaration} {e : Element} {error : ModelError} {h p : Handle}

/-! ## Refusals -/

theorem exists_referenceTo (hn : m.isNode h = true) : ∃ r, m.referenceTo h = .ok r := by
  obtain ⟨n, hn⟩ := Option.isSome_iff_exists.mp hn
  exact ⟨_, by rw [referenceTo, hn]⟩

theorem referenceTo_of_not_isNode (hn : m.isNode h = false) :
    m.referenceTo h = .error (.notANode h) := by
  rw [isNode, Option.isSome_eq_false_iff, Option.isNone_iff_eq_none] at hn
  rw [referenceTo, hn]

theorem add_of_unfit (hp : e.parent? = some p) (hunfit : m.Unfit p error) :
    m.add e = .error error := by
  rw [add]
  split
  next hnone =>
    rw [hp] at hnone
    cases hnone
  next q hq =>
    obtain rfl := Option.some.inj (hp.symm.trans hq)
    cases hunfit with
    | unknown hsize =>
      have hnone : m.element? p = none := Array.getElem?_eq_none hsize
      simp [hnone]
    | leaf hleaf =>
      have hc := isContainer_eq_false_of_isLeaf hleaf
      cases he : m.element? p with
      | none =>
        rw [isLeaf_eq_false_of_none he] at hleaf
        cases hleaf
      | some _ => simp [hc]

theorem unfit_of_add (ha : m.add e = .error error) :
    ∃ p, e.parent? = some p ∧ m.Unfit p error := by
  rw [add] at ha
  split at ha
  next => cases ha
  next p hp =>
    refine ⟨p, hp, ?_⟩
    split at ha
    next hnone =>
      obtain rfl := Except.error.inj ha
      exact .unknown (Array.getElem?_eq_none_iff.mp hnone)
    next he =>
      split at ha
      next => cases ha
      next hc =>
        obtain rfl := Except.error.inj ha
        exact .leaf (by rw [isLeaf_eq_not_isContainer he]; simpa using hc)

/-! ## Elements asked for -/

theorem isNode_of_referenceTo_eq_ok {r : Reference} (hr : m.referenceTo h = .ok r) :
    m.isNode h = true := by
  by_contra hn
  rw [referenceTo_of_not_isNode (Bool.eq_false_iff.mpr hn)] at hr
  cases hr

theorem parent?_of_element (he : d.element m = .ok e) : e.parent? = d.parent? := by
  cases d with
  | pool | node | connection =>
    obtain rfl := Except.ok.inj he
    rfl
  | lane name parent =>
    cases parent with
    | none => cases he
    | some parent =>
      obtain rfl := Except.ok.inj he
      rfl
  | connect source connector target parent =>
    obtain ⟨s, t, -, -, rfl⟩ := Declaration.eq_of_element_connect he
    rfl

theorem joinsNodes_of_element (he : d.element m = .ok e) : d.JoinsNodes m := by
  cases d with
  | pool | lane | node | connection => trivial
  | connect source connector target parent =>
    obtain ⟨s, t, hs, ht, -⟩ := Declaration.eq_of_element_connect he
    exact ⟨isNode_of_referenceTo_eq_ok hs, isNode_of_referenceTo_eq_ok ht⟩

theorem exists_element (hd : d.JoinsNodes m) (hp : d.parent? = some p) :
    ∃ e, d.element m = .ok e := by
  cases d with
  | pool | node | connection => exact ⟨_, rfl⟩
  | lane name parent =>
    cases parent with
    | none => cases hp
    | some parent => exact ⟨_, rfl⟩
  | connect source connector target parent =>
    obtain ⟨s, hs⟩ := exists_referenceTo hd.1
    obtain ⟨t, ht⟩ := exists_referenceTo hd.2
    exact ⟨_, by rw [Declaration.element, hs, ht]; rfl⟩

theorem refused_of_element (he : d.element m = .error error) : m.Refused d error := by
  cases d with
  | pool | node | connection => cases he
  | lane name parent =>
    cases parent with
    | none =>
      obtain rfl := Except.error.inj he
      exact .topLevelLane name
    | some parent => cases he
  | connect source connector target parent =>
    cases hs : m.isNode source with
    | false =>
      rw [Declaration.element, referenceTo_of_not_isNode hs] at he
      obtain rfl := Except.error.inj he
      exact .source hs
    | true =>
      obtain ⟨s, hsource⟩ := exists_referenceTo hs
      cases ht : m.isNode target with
      | false =>
        rw [Declaration.element, hsource, referenceTo_of_not_isNode ht] at he
        obtain rfl := Except.error.inj he
        exact .target hs ht
      | true =>
        obtain ⟨t, htarget⟩ := exists_referenceTo ht
        rw [Declaration.element, hsource, htarget] at he
        cases he

theorem declare_of_refused (hr : m.Refused d error) : m.declare d = .error error := by
  cases hr with
  | topLevelLane => rfl
  | source hs =>
    rw [declare, referenceTo_of_not_isNode hs]
    rfl
  | target hs ht =>
    obtain ⟨s, hsource⟩ := exists_referenceTo hs
    rw [declare, hsource, referenceTo_of_not_isNode ht]
    rfl
  | parent hd hp hunfit =>
    obtain ⟨e, he⟩ := exists_element hd hp
    rw [declare_eq, he]
    exact add_of_unfit ((parent?_of_element he).trans hp) hunfit

theorem declare_eq_error_iff : m.declare d = .error error ↔ m.Refused d error := by
  refine ⟨fun hd => ?_, declare_of_refused⟩
  rw [declare_eq] at hd
  cases he : d.element m with
  | error =>
    rw [he] at hd
    obtain rfl := Except.error.inj hd
    exact refused_of_element he
  | ok e =>
    rw [he] at hd
    obtain ⟨p, hp, hunfit⟩ := unfit_of_add hd
    exact .parent (joinsNodes_of_element he) ((parent?_of_element he).symm.trans hp) hunfit

theorem grows_of_declare {new : Handle} {grown : Model} (hd : m.declare d = .ok (new, grown)) :
    m.Grows d new grown := by
  obtain ⟨e, fits, he, rfl, rfl⟩ := declare_eq_ok hd
  have hself : (m.push e fits).element? ⟨m.size⟩ = some e := by rw [element?_push, if_pos rfl]
  have hparent := parent?_of_element he
  refine
    { handle := rfl
      size := size_push fits
      added := ⟨e, he, hself⟩
      parent_new := ?_
      children := fun x => ?_
      walk_top := fun htop => walk_push_of_root fits (hparent.trans htop)
      walk_inside := fun p hp => putBehind_walk fits (hparent.trans hp)
      element := fun x hx => element?_push_of_lt fits hx
      parent := fun x hx => parent?_push_of_lt fits hx
      ancestors := fun x hx => ancestors_push_of_lt fits hx
      pool := fun x hx => poolOf?_push_of_lt fits hx
      scope := fun x hx => scopeOf_push_of_lt fits hx
      descendants := fun x _ hx => ?_ }
  · rw [Arena.parent?, hself, Option.bind_some, hparent]
  · rw [children_push, hparent]
  · rw [← hparent] at hx
    exact descendants_push_of_not_mem fits hx

end

/-- A declaration is refused just for the reasons there are, and then the model and what it answers
next are as before.  Otherwise the model grows by one element behind what is in its parent. -/
theorem declare_refuses_or_grows (m : Model) (d : Declaration) :
    (∀ error, m.declare d = .error error ↔ m.Refused d error) ∧
    (∀ error, m.Refused d error → m.edit (.declare d) = m ∧
      ∀ next, (m.edit (.declare d)).declare next = m.declare next) ∧
    ∀ new grown, m.declare d = .ok (new, grown) →
      m.edit (.declare d) = grown ∧ m.Grows d new grown := by
  refine ⟨fun error => declare_eq_error_iff, fun error hr => ?_, fun new grown hd => ?_⟩
  · have hsame : m.edit (.declare d) = m := by rw [edit, declare_of_refused hr]
    exact ⟨hsame, fun next => by rw [hsame]⟩
  · exact ⟨by rw [edit, hd], grows_of_declare hd⟩

end Model
end Bpmn
