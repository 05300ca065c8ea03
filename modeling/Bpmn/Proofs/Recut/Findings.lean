import Bpmn.Proofs.Check.Verdict
import Bpmn.Proofs.Recut.Basic

/-!
# Findings on connections under other handles

What is found on a connection depends on the names of its ends and of the pools around them.  Where
a renaming keeps these, it takes the findings of one model to those of the other
(`connectionFindings_rename`).  The labels of what is found point at the connection, at its ends and
at their pools.
-/

namespace Bpmn
namespace Check

open Model

/-- Under other handles the element has the same name, and the same pool around it. -/
structure Kept (e : Handle → Handle) (m n : Model) (h : Handle) : Prop where
  name? : n.name? (e h) = m.name? h
  poolOf? : n.poolOf? (e h) = (m.poolOf? h).map e

theorem kept_of_mem_nonLanes {e : Handle → Handle} {m n : Model} (hr : Reshapes e m n) {h : Handle}
    (hh : h ∈ m.nonLanes) : Kept e m n h :=
  ⟨hr.name? h hh.2, hr.poolOf? hh⟩

section

variable {e : Handle → Handle} {m n : Model} {h : Handle} {c : Connection} {s t : Handle}

/-! ## Single findings -/

theorem unresolved_rename (e : Handle → Handle) (h : Handle) (c : Connection)
    (endpoint : Endpoint) :
    unresolved (e h) (c.rename e) endpoint = (unresolved h c endpoint).rename e := by
  simp only [unresolved, Connection.text_rename, Connection.connector_rename]
  rfl

theorem endOutsidePools_rename (hs : Kept e m n s) (h : Handle) (endpoint : Endpoint) :
    endOutsidePools n (e h) endpoint (e s) = (endOutsidePools m h endpoint s).rename e := by
  simp only [endOutsidePools, nameOrMark, hs.name?]
  rfl

theorem withinOnePool_rename (hs : n.name? (e s) = m.name? s) (h : Handle) :
    withinOnePool n (e h) (e s) = (withinOnePool m h s).rename e := by
  simp only [withinOnePool, nameOrMark, hs]
  rfl

theorem crossesPools_rename (hs : n.name? (e s) = m.name? s) (ht : n.name? (e t) = m.name? t)
    (h : Handle) (c : Connection) :
    crossesPools n (e h) (c.rename e) (e s) (e t) = (crossesPools m h c s t).rename e := by
  simp only [crossesPools, nameOrMark, hs, ht]
  rfl

theorem mixesPooling_rename (hs : Kept e m n s) (ht : Kept e m n t) (h : Handle)
    (c : Connection) :
    mixesPooling n (e h) (c.rename e) (e s) (e t) = (mixesPooling m h c s t).rename e := by
  simp only [mixesPooling, nameOrMark, hs.name?, ht.name?]
  rfl

theorem selfLoop_rename (hs : Kept e m n s) (h : Handle) (c : Connection) :
    selfLoop n (e h) (c.rename e) (e s) = (selfLoop m h c s).rename e := by
  simp only [selfLoop, nameOrMark, hs.name?]
  rfl

/-! ## All findings on a connection -/

theorem bindingFindings_rename (e : Handle → Handle) (h : Handle) (c : Connection) :
    bindingFindings (e h) (c.rename e) = (bindingFindings h c).map (Diagnostic.rename e) := by
  rw [bindingFindings, bindingFindings, List.map_map]
  have hopen : ∀ endpoint, ((c.rename e).reference endpoint).bound.isNone =
      (c.reference endpoint).bound.isNone := by
    intro endpoint
    rw [Connection.bound_rename, Option.isNone_map]
  simp only [hopen]
  exact List.map_congr_left fun endpoint _ => unresolved_rename e h c endpoint

variable (hr : Reshapes e m n)
include hr

theorem name?_of_poolOf? {p : Handle} (hp : m.poolOf? s = some p) :
    n.name? (e p) = m.name? p :=
  hr.name? p (not_isLane_of_isPool (poolOf?_eq_some_iff.mp hp).2)

theorem placement?_rename (hs : Kept e m n s) (ht : Kept e m n t) :
    placement? n (e h) (c.rename e) (e s) (e t) =
      (placement? m h c s t).map (Diagnostic.rename e) := by
  rw [placement?, placement?, hs.poolOf?, ht.poolOf?, Connection.isMessageFlow_rename]
  cases hp : m.poolOf? s with
  | none =>
    cases hq : m.poolOf? t with
    | none =>
      simp only [Option.map_none, endOutsidePools_rename hs]
      split <;> rfl
    | some q =>
      simp only [Option.map_none, Option.map_some, endOutsidePools_rename hs,
        mixesPooling_rename ht hs]
      split <;> rfl
  | some p =>
    have hpname := name?_of_poolOf? hr hp
    cases hq : m.poolOf? t with
    | none =>
      simp only [Option.map_none, Option.map_some, endOutsidePools_rename ht,
        mixesPooling_rename hs ht]
      split <;> rfl
    | some q =>
      have hqname := name?_of_poolOf? hr hq
      simp only [Option.map_some, hr.injective.eq_iff, withinOnePool_rename hpname,
        crossesPools_rename hpname hqname]
      split <;> split <;> rfl

theorem placementFindings_rename
    (hends : ∀ endpoint, ∀ b ∈ (c.reference endpoint).bound, Kept e m n b) :
    placementFindings n (e h) (c.rename e) =
      (placementFindings m h c).map (Diagnostic.rename e) := by
  have hsource := hends .source
  have htarget := hends .target
  have hbs := c.bound_rename e .source
  have hbt := c.bound_rename e .target
  simp only [Connection.reference] at hsource htarget hbs hbt
  rw [placementFindings, placementFindings, hbs, hbt]
  cases hs : c.source.bound with
  | none => rfl
  | some s =>
    cases ht : c.target.bound with
    | none => rfl
    | some t =>
      have hskept := hsource s hs
      have htkept := htarget t ht
      simp only [Option.map_some, placement?_rename hr hskept htkept, hr.injective.eq_iff,
        selfLoop_rename hskept, List.map_append, Option.toList_map]
      split <;> rfl

/-- Where the ends of a connection keep their names and pools, the same is found on it. -/
theorem connectionFindings_rename
    (hends : ∀ endpoint, ∀ b ∈ m.binding? h endpoint, Kept e m n b) :
    connectionFindings n (e h) = (connectionFindings m h).map (Diagnostic.rename e) := by
  rw [connectionFindings, connectionFindings, hr.connection?]
  cases hc : m.connection? h with
  | none => rfl
  | some c =>
    simp only [Model.binding?, hc, Option.bind_some] at hends
    simp only [Option.map_some, bindingFindings_rename, placementFindings_rename hr hends,
      List.map_append]

end

/-! ## Where the labels point -/

section

variable {m : Model} {h s t : Handle} {c : Connection} {d : Diagnostic} {l : Label}

theorem mem_labels_endOutsidePools {endpoint : Endpoint}
    (hl : l ∈ (endOutsidePools m h endpoint s).labels) : l.element = h ∨ l.element = s := by
  simp only [endOutsidePools, List.mem_cons, List.not_mem_nil, or_false] at hl
  rcases hl with rfl | rfl
  · exact .inl rfl
  · exact .inr rfl

theorem mem_labels_mixesPooling (hl : l ∈ (mixesPooling m h c s t).labels) :
    l.element = h ∨ l.element = t := by
  simp only [mixesPooling, List.mem_cons, List.not_mem_nil, or_false] at hl
  rcases hl with rfl | rfl
  · exact .inl rfl
  · exact .inr rfl

theorem mem_labels_withinOnePool (hl : l ∈ (withinOnePool m h s).labels) :
    l.element = h ∨ l.element = s := by
  simp only [withinOnePool, List.mem_cons, List.not_mem_nil, or_false] at hl
  rcases hl with rfl | rfl
  · exact .inl rfl
  · exact .inr rfl

theorem mem_labels_placement? (hd : placement? m h c s t = some d) (hl : l ∈ d.labels) :
    l.element = h ∨ l.element = s ∨ l.element = t ∨ m.isPool l.element = true := by
  cases misplaced_of_placement? hd with
  | source => exact (mem_labels_endOutsidePools hl).imp_right .inl
  | target => exact (mem_labels_endOutsidePools hl).imp_right fun ht => .inr (.inl ht)
  | within _ hs _ =>
    refine (mem_labels_withinOnePool hl).imp_right fun heq => ?_
    rw [heq]
    exact .inr (.inr (poolOf?_eq_some_iff.mp hs).2)
  | crosses => exact .inl (congrArg Label.element (List.mem_singleton.mp hl))
  | leaves => exact (mem_labels_mixesPooling hl).imp_right fun ht => .inr (.inl ht)
  | enters => exact (mem_labels_mixesPooling hl).imp_right .inl

theorem mem_of_connectionFindings {A : Set Handle} (hm : m.BoundWithin A) (hA : m.nonLanes ⊆ A)
    (hd : d ∈ connectionFindings m h) (hl : l ∈ d.labels) : l.element ∈ A := by
  rw [connectionFindings] at hd
  cases hc : m.connection? h with
  | none =>
    rw [hc] at hd
    cases hd
  | some c =>
    have hself : h ∈ A := hA (mem_nonLanes_of_isConnection (by rw [isConnection, hc]; rfl))
    rw [hc] at hd
    rcases List.mem_append.mp hd with hd | hd
    · obtain ⟨endpoint, -, rfl⟩ := mem_bindingFindings.mp hd
      obtain rfl := List.mem_singleton.mp hl
      exact hself
    · obtain ⟨s, t, hs, ht, hd | ⟨rfl, rfl⟩⟩ := mem_placementFindings.mp hd
      · rcases mem_labels_placement? hd hl with heq | heq | heq | hpool
        · rwa [heq]
        · have hbound : s ∈ (c.reference .source).bound := hs
          rw [heq]
          exact hm.bound_mem hc hbound
        · have hbound : t ∈ (c.reference .target).bound := ht
          rw [heq]
          exact hm.bound_mem hc hbound
        · exact hA (mem_nonLanes_of_isPool hpool)
      · obtain rfl := List.mem_singleton.mp hl
        exact hself

end
end Check
end Bpmn
