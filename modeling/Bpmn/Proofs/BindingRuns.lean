import Bpmn.History
import Bpmn.Proofs.Partition
import Bpmn.Proofs.Rebinding
import Mathlib.Data.List.Induction

/-!
# Bindings one after another

A request to bind an end is judged by what the model holds and not by what is bound in it, so each
request of a run is granted or refused as it would be at the start.  One that is granted changes
what its own end is bound to and nothing else.  So nothing that finds its way through a model can
tell how many requests there were, requests about different ends may change places, and of those
about one end the last one granted counts (`bindings_independent`).
-/

namespace Bpmn

/-- A request to bind one end of a connection. -/
structure Binding where
  connection : Handle
  endpoint : Endpoint
  node : Handle
deriving DecidableEq, Repr

/-- The end that a request is about. -/
def Binding.place (b : Binding) : Handle × Endpoint := (b.connection, b.endpoint)

namespace Model

def bindAt (m : Model) (b : Binding) : Except ModelError Model :=
  m.bind b.connection b.endpoint b.node

/-- The model after a request.  One that is refused changes nothing. -/
def bindOne (m : Model) (b : Binding) : Model := m.edit (.bind b.connection b.endpoint b.node)

/-- The model after some requests, one after another. -/
def bindAll (m : Model) (bindings : List Binding) : Model := bindings.foldl bindOne m

/-- Why a request is refused.  A later reason counts only where no earlier one does. -/
inductive Unbindable (m : Model) (b : Binding) : ModelError → Prop
  | node (hn : m.isNode b.node = false) : Unbindable m b (.notANode b.node)
  | unknown (hn : m.isNode b.node = true) (hc : m.size ≤ b.connection.index) :
    Unbindable m b (.unknownElement b.connection)
  | other (hn : m.isNode b.node = true) (hlt : b.connection.index < m.size)
    (hc : m.isConnection b.connection = false) : Unbindable m b (.notAConnection b.connection)

/-- Whether a request is granted. -/
def canBind (m : Model) (b : Binding) : Bool := m.isNode b.node && m.isConnection b.connection

/-- Whether a request binds this end. -/
def settles (m : Model) (place : Handle × Endpoint) (b : Binding) : Bool :=
  m.canBind b && b.place == place

/-- The second model is the first with one end bound and all else as it was. -/
structure Binds (m : Model) (b : Binding) (bound : Model) : Prop extends Rebound m bound where
  binding? : ∀ h endpoint, bound.binding? h endpoint =
    if b.place = (h, endpoint) then some b.node else m.binding? h endpoint

namespace Rebound

variable {m n : Model} (hr : Rebound m n)
include hr

/-! ## Processes -/

theorem isFlow : n.isFlow = m.isFlow :=
  funext (hr.any_connection? fun c => by rw [c.isMessageFlow_unbound])

theorem isMessageFlow : n.isMessageFlow = m.isMessageFlow :=
  funext (hr.any_connection? Connection.isMessageFlow_unbound)

theorem busyPools : n.busyPools = m.busyPools := by
  rw [Model.busyPools, pools, hr.roots, hr.isPool, hr.children, Model.busyPools, pools]

theorem partition : Partition.ofModel n = Partition.ofModel m := by
  have houtside : Partition.outside n = Partition.outside m := by
    rw [Partition.outside_eq, hr.roots, hr.isNode, hr.isFlow, Partition.outside_eq]
  have hpool : Partition.ofPool n = Partition.ofPool m := by
    funext p
    rw [Partition.ofPool, hr.nodesIn, hr.descendants, hr.isFlow, Partition.ofPool]
  have hpooled : Partition.pooled n = Partition.pooled m := by
    rw [Partition.pooled_eq, hr.busyPools, hpool, Partition.pooled_eq]
  have hmessages : (Partition.ofModel n).messageFlows = (Partition.ofModel m).messageFlows := by
    rw [Partition.messageFlows_eq, hr.walk, hr.isMessageFlow, Partition.messageFlows_eq]
  have hprocesses : (Partition.ofModel n).processes = (Partition.ofModel m).processes := by
    rw [Partition.ofModel, houtside, hpooled, Partition.ofModel]
  exact congrArg₂ Partition.mk hprocesses hmessages

/-! ## Requests -/

theorem canBind (b : Binding) : n.canBind b = m.canBind b := by
  rw [Model.canBind, hr.isNode, hr.isConnection, Model.canBind]

theorem unbindable {b : Binding} {error : ModelError} (hb : m.Unbindable b error) :
    n.Unbindable b error := by
  cases hb with
  | node hn => exact .node (by rwa [hr.isNode])
  | unknown hn hc => exact .unknown (by rwa [hr.isNode]) (by rwa [hr.size])
  | other hn hlt hc =>
    exact .other (by rwa [hr.isNode]) (by rwa [hr.size]) (by rwa [hr.isConnection])

theorem unbindable_iff {b : Binding} {error : ModelError} :
    n.Unbindable b error ↔ m.Unbindable b error := ⟨hr.symm.unbindable, hr.unbindable⟩

end Rebound

section

variable {m : Model} {b : Binding}

/-! ## One request -/

theorem bindAt_of_canBind (hb : m.canBind b = true) :
    m.bindAt b = .ok (m.setBinding b.connection b.endpoint b.node) := by
  obtain ⟨hn, hc⟩ := Bool.and_eq_true_iff.mp hb
  obtain ⟨c, parent, he⟩ := isConnection_iff.mp hc
  rw [bindAt, Model.bind, if_pos hn, he]

theorem bindAt_of_unbindable {error : ModelError} (hb : m.Unbindable b error) :
    m.bindAt b = .error error := by
  cases hb with
  | node hn => simp [bindAt, Model.bind, hn]
  | unknown hn hc =>
    have hnone : m.element? b.connection = none := Array.getElem?_eq_none hc
    simp [bindAt, Model.bind, hn, hnone]
  | other hn hlt hc =>
    have he : m.element? b.connection = some m.elements[b.connection.index] :=
      Array.getElem?_eq_getElem hlt
    rw [isConnection, connection?, he, Option.bind_some] at hc
    rw [bindAt, Model.bind, if_pos hn, he]
    cases hsort : m.elements[b.connection.index] with
    | connection => simp [hsort, Element.connection?] at hc
    | pool | lane | node => rfl

theorem exists_unbindable (hb : m.canBind b = false) : ∃ error, m.Unbindable b error := by
  cases hn : m.isNode b.node with
  | false => exact ⟨_, .node hn⟩
  | true =>
    rw [canBind, hn, Bool.true_and] at hb
    rcases Nat.lt_or_ge b.connection.index m.size with hlt | hc
    · exact ⟨_, .other hn hlt hb⟩
    · exact ⟨_, .unknown hn hc⟩

theorem bindAt_eq_error_iff {error : ModelError} :
    m.bindAt b = .error error ↔ m.Unbindable b error := by
  refine ⟨fun herror => ?_, bindAt_of_unbindable⟩
  cases hb : m.canBind b with
  | true =>
    rw [bindAt_of_canBind hb] at herror
    cases herror
  | false =>
    obtain ⟨other, hother⟩ := exists_unbindable hb
    rw [bindAt_of_unbindable hother] at herror
    exact Except.error.inj herror ▸ hother

theorem canBind_of_bindAt {bound : Model} (hb : m.bindAt b = .ok bound) : m.canBind b = true := by
  by_contra hnot
  obtain ⟨error, herror⟩ := exists_unbindable (Bool.eq_false_iff.mpr hnot)
  rw [bindAt_of_unbindable herror] at hb
  cases hb

theorem Binds.setBinding (hb : m.canBind b = true) :
    m.Binds b (m.setBinding b.connection b.endpoint b.node) where
  toRebound := .setBinding m b.connection b.endpoint b.node
  binding? h endpoint := by
    have hc : m.isConnection b.connection = true := (Bool.and_eq_true_iff.mp hb).2
    simp only [binding?_setBinding, hc, Binding.place, Prod.mk.injEq, and_true]

theorem binds_of_bindAt {bound : Model} (hb : m.bindAt b = .ok bound) : m.Binds b bound := by
  have hcan := canBind_of_bindAt hb
  rw [bindAt_of_canBind hcan] at hb
  exact Except.ok.inj hb ▸ .setBinding hcan

theorem bindOne_of_ok {bound : Model} (hb : m.bindAt b = .ok bound) : m.bindOne b = bound := by
  rw [bindOne, edit, ← bindAt, hb]

theorem bindOne_of_error {error : ModelError} (hb : m.bindAt b = .error error) :
    m.bindOne b = m := by
  rw [bindOne, edit, ← bindAt, hb]

theorem Rebound.bindOne (m : Model) (b : Binding) : Rebound m (m.bindOne b) := by
  cases hb : m.bindAt b with
  | ok bound =>
    rw [bindOne_of_ok hb]
    exact (binds_of_bindAt hb).toRebound
  | error error =>
    rw [bindOne_of_error hb]
    exact .refl m

theorem binding?_bindOne (m : Model) (b : Binding) (h : Handle) (endpoint : Endpoint) :
    (m.bindOne b).binding? h endpoint =
      if m.settles (h, endpoint) b then some b.node else m.binding? h endpoint := by
  cases hb : m.bindAt b with
  | ok bound =>
    rw [bindOne_of_ok hb, (binds_of_bindAt hb).binding?, settles, canBind_of_bindAt hb,
      Bool.true_and]
    simp only [beq_iff_eq]
  | error error =>
    have hcan : m.canBind b = false := by
      refine Bool.eq_false_iff.mpr fun hcan => ?_
      rw [bindAt_of_canBind hcan] at hb
      cases hb
    rw [bindOne_of_error hb, settles, hcan, Bool.false_and, if_neg Bool.false_ne_true]

/-! ## Runs -/

theorem bindAll_concat (m : Model) (bindings : List Binding) (b : Binding) :
    m.bindAll (bindings ++ [b]) = (m.bindAll bindings).bindOne b :=
  List.foldl_concat bindOne m b bindings

theorem Rebound.bindAll (m : Model) (bindings : List Binding) : Rebound m (m.bindAll bindings) := by
  induction bindings using List.reverseRecOn with
  | nil => exact .refl m
  | append_singleton bindings b ih =>
    rw [bindAll_concat]
    exact ih.trans (.bindOne _ b)

/-- What an end is bound to is told by the last request about it that was granted. -/
theorem binding?_bindAll (m : Model) (bindings : List Binding) (h : Handle) (endpoint : Endpoint) :
    (m.bindAll bindings).binding? h endpoint =
      ((bindings.filter (m.settles (h, endpoint))).getLast?.map Binding.node).or
        (m.binding? h endpoint) := by
  induction bindings using List.reverseRecOn with
  | nil => rfl
  | append_singleton bindings b ih =>
    have hsettles : (m.bindAll bindings).settles (h, endpoint) b = m.settles (h, endpoint) b := by
      rw [settles, (Rebound.bindAll m bindings).canBind, settles]
    rw [bindAll_concat, binding?_bindOne, hsettles, List.filter_append, ih]
    split
    next hb => rw [List.filter_cons_of_pos hb, List.filter_nil, List.getLast?_concat]; rfl
    next hb => rw [List.filter_cons_of_neg hb, List.filter_nil, List.append_nil]

/-! ## Two requests -/

section

variable {a : Binding} {t u both : Model}

/-- A request that was granted is granted after another one too. -/
theorem exists_bindAt (ha : m.bindAt a = .ok t) (hb : m.bindAt b = .ok u) :
    ∃ both, t.bindAt b = .ok both ∧ t.Binds b both := by
  have hcan : t.canBind b = true := by
    rw [(binds_of_bindAt ha).toRebound.canBind, canBind_of_bindAt hb]
  have hboth := bindAt_of_canBind hcan
  exact ⟨_, hboth, binds_of_bindAt hboth⟩

/-- Requests about different ends may change places. -/
theorem Binds.comm {other : Model} (ha : m.Binds a t) (hb : m.Binds b u) (hboth : t.Binds b both)
    (hother : u.Binds a other) (hne : a.place ≠ b.place) : both = other := by
  have hfirst := ha.toRebound.trans hboth.toRebound
  have hsecond := hb.toRebound.trans hother.toRebound
  refine (hsecond.symm.trans hfirst).eq_of_binding? fun h endpoint => ?_
  rw [hboth.binding?, ha.binding?, hother.binding?, hb.binding?]
  by_cases hplace : b.place = (h, endpoint)
  · rw [if_pos hplace, if_pos hplace, if_neg (hplace ▸ hne)]
  · rw [if_neg hplace, if_neg hplace]

/-- Of two requests about one end the second counts. -/
theorem Binds.last (ha : m.Binds a t) (hb : m.Binds b u) (hboth : t.Binds b both)
    (hplace : a.place = b.place) : both = u := by
  have hrun := ha.toRebound.trans hboth.toRebound
  refine (hb.toRebound.symm.trans hrun).eq_of_binding? fun h endpoint => ?_
  rw [hboth.binding?, ha.binding?, hb.binding?, hplace]
  split <;> rfl

end

end

/-- After any requests, a further one is refused for the reasons that there were at the start and
then changes nothing.  Otherwise it binds its own end and leaves all else as it was, so that the
tree, the names, the processes and what connections see stay the same however many requests there
were.  What an end is bound to is told by the last request about it that was granted.  Two requests
of which each could be granted may be made in either order if they are about different ends, and
only the second counts if they are about one. -/
theorem bindings_independent (m : Model) (bindings : List Binding) :
    (∀ b error, (m.bindAll bindings).bindAt b = .error error ↔ m.Unbindable b error) ∧
    (∀ b error, (m.bindAll bindings).bindAt b = .error error →
      m.bindAll (bindings ++ [b]) = m.bindAll bindings) ∧
    (∀ b bound, (m.bindAll bindings).bindAt b = .ok bound →
      m.bindAll (bindings ++ [b]) = bound ∧ (m.bindAll bindings).Binds b bound) ∧
    ((m.bindAll bindings).walk = m.walk ∧ (m.bindAll bindings).parent? = m.parent? ∧
      (m.bindAll bindings).name? = m.name? ∧ (m.bindAll bindings).scopeOf = m.scopeOf ∧
      Partition.ofModel (m.bindAll bindings) = Partition.ofModel m ∧
      (∀ mode h, (m.bindAll bindings).candidates mode h = m.candidates mode h) ∧
      ∀ mode h endpoint, (m.bindAll bindings).resolve mode h endpoint =
        m.resolve mode h endpoint) ∧
    (∀ h endpoint, (m.bindAll bindings).binding? h endpoint =
      ((bindings.filter (m.settles (h, endpoint))).getLast?.map Binding.node).or
        (m.binding? h endpoint)) ∧
    ∀ a b t u, (m.bindAll bindings).bindAt a = .ok t → (m.bindAll bindings).bindAt b = .ok u →
      if a.place = b.place then t.bindAt b = .ok u ∧ u.bindAt a = .ok t
      else ∃ both, t.bindAt b = .ok both ∧ u.bindAt a = .ok both := by
  have hr := Rebound.bindAll m bindings
  refine ⟨fun b error => bindAt_eq_error_iff.trans hr.unbindable_iff, fun b error hb => ?_,
    fun b bound hb => ⟨?_, binds_of_bindAt hb⟩,
    ⟨hr.walk, hr.parent?, hr.name?, hr.scopeOf, hr.partition, hr.candidates, hr.resolve⟩,
    binding?_bindAll m bindings, fun a b t u ha hb => ?_⟩
  · rw [bindAll_concat, bindOne_of_error hb]
  · rw [bindAll_concat, bindOne_of_ok hb]
  · obtain ⟨both, hboth, hb'⟩ := exists_bindAt ha hb
    obtain ⟨other, hother, ha'⟩ := exists_bindAt hb ha
    have ha := binds_of_bindAt ha
    have hb := binds_of_bindAt hb
    split
    next hplace =>
      rw [hboth, hother, ha.last hb hb' hplace, hb.last ha ha' hplace.symm]
      exact ⟨rfl, rfl⟩
    next hplace => exact ⟨both, hboth, by rw [hother, ha.comm hb hb' ha' hplace]⟩

end Model
end Bpmn
