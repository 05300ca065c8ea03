import Bpmn.Proofs.Linking
import Bpmn.Proofs.Partition
import Bpmn.Proofs.Renaming.Records
import Mathlib.Data.Set.Function

/-!
# Models alike but for handles

Two models are alike on some of their elements if a renaming takes these elements of one onto
those of the other and keeps everything but their places (`Alike`).  A renaming says nothing about
handles of other elements, and what it makes of those is of no account.  So it may be taken to send
them beyond all handles of the second model (`Alike.exists_carries`).  It is injective then, and
equations between the two models hold at every handle.
-/

namespace Bpmn

/-- The renaming on `A`, and anywhere else a handle from `k` on. -/
noncomputable def Handle.spread (s : Handle → Handle) (A : Set Handle) (k : Nat) (h : Handle) :
    Handle := by
  classical exact if h ∈ A then s h else ⟨k + h.index⟩

namespace Handle

variable {s : Handle → Handle} {A : Set Handle} {k : Nat} {h : Handle}

theorem spread_of_mem (hh : h ∈ A) : spread s A k h = s h := if_pos hh

theorem spread_of_not_mem (hh : h ∉ A) : spread s A k h = ⟨k + h.index⟩ := if_neg hh

theorem spread_injective (hs : Set.InjOn s A) (hk : ∀ h ∈ A, (s h).index < k) :
    Function.Injective (spread s A k) := by
  have apart : ∀ {a b : Handle}, a ∈ A → b ∉ A → spread s A k a ≠ spread s A k b := by
    intro a b ha hb hab
    rw [spread_of_mem ha, spread_of_not_mem hb] at hab
    have hlt := hk a ha
    rw [hab] at hlt
    exact absurd hlt (Nat.not_lt.mpr (Nat.le_add_right k b.index))
  intro a b hab
  by_cases ha : a ∈ A
  · by_cases hb : b ∈ A
    · rw [spread_of_mem ha, spread_of_mem hb] at hab
      exact hs ha hb hab
    · exact absurd hab (apart ha hb)
  · by_cases hb : b ∈ A
    · exact absurd hab.symm (apart hb ha)
    · rw [spread_of_not_mem ha, spread_of_not_mem hb] at hab
      exact eq_iff.mpr (Nat.add_left_cancel (congrArg index hab))

end Handle

namespace Model

/-- The handles of all elements. -/
def extant (m : Model) : Set Handle := {h | h.index < m.size}

/-- The handles of all elements but lanes. -/
def nonLanes (m : Model) : Set Handle := {h | h.index < m.size ∧ m.isLane h = false}

instance (m : Model) (h : Handle) : Decidable (h ∈ m.extant) :=
  inferInstanceAs (Decidable (h.index < m.size))

instance (m : Model) (h : Handle) : Decidable (h ∈ m.nonLanes) :=
  inferInstanceAs (Decidable (h.index < m.size ∧ m.isLane h = false))

/-- Ends are bound, if at all, to elements in `A`. -/
def BoundWithin (m : Model) (A : Set Handle) : Prop :=
  ∀ h endpoint, ∀ b ∈ m.binding? h endpoint, b ∈ A

/-- The elements of `m` behind `A` are those of `n` behind `B` under other handles, apart from
where they stand. -/
structure Alike (s : Handle → Handle) (A B : Set Handle) (m n : Model) : Prop where
  bijOn : Set.BijOn s A B
  isPool : ∀ h ∈ A, n.isPool (s h) = m.isPool h
  name? : ∀ h ∈ A, n.name? (s h) = m.name? h
  node? : ∀ h ∈ A, n.node? (s h) = m.node? h
  connection? : ∀ h ∈ A, n.connection? (s h) = (m.connection? h).map (Connection.rename s)

/-- A renaming of all handles that takes pools, nodes and connections to the same in the second
model, and nothing else to any of these. -/
structure Carries (e : Handle → Handle) (m n : Model) : Prop where
  injective : Function.Injective e
  isPool : ∀ h, n.isPool (e h) = m.isPool h
  node? : ∀ h, n.node? (e h) = m.node? h
  connection? : ∀ h, n.connection? (e h) = (m.connection? h).map (Connection.rename e)

section

variable {m n : Model} {h : Handle}

theorem element?_eq_none_iff : m.element? h = none ↔ h ∉ m.extant := by
  rw [Arena.element?, Array.getElem?_eq_none_iff]
  exact Nat.not_lt.symm

theorem nonLanes_subset_extant : m.nonLanes ⊆ m.extant := fun _ hh => hh.1

theorem mem_handles_of_mem_nonLanes (hh : h ∈ m.nonLanes) : h ∈ m.handles := mem_handles.mpr hh.1

theorem mem_extant_of_isPool (hp : m.isPool h = true) : h ∈ m.extant := by
  obtain ⟨_, he⟩ := isPool_iff.mp hp
  exact Arena.lt_size he

theorem mem_nonLanes_of_isPool (hp : m.isPool h = true) : h ∈ m.nonLanes :=
  ⟨mem_extant_of_isPool hp, not_isLane_of_isPool hp⟩

theorem mem_nonLanes_of_isNode (hn : m.isNode h = true) : h ∈ m.nonLanes := by
  obtain ⟨node, parent, he⟩ := isNode_iff.mp hn
  exact ⟨Arena.lt_size he, by rw [isLane, he]; rfl⟩

theorem mem_nonLanes_of_isConnection (hc : m.isConnection h = true) : h ∈ m.nonLanes := by
  obtain ⟨c, parent, he⟩ := isConnection_iff.mp hc
  exact ⟨Arena.lt_size he, by rw [isLane, he]; rfl⟩

theorem mem_nonLanes_of_root (hr : h ∈ m.roots) : h ∈ m.nonLanes := by
  obtain ⟨hlt, hroot⟩ := mem_roots.mp hr
  refine ⟨hlt, Bool.eq_false_iff.mpr fun hl => ?_⟩
  obtain ⟨p, hp⟩ := exists_parent_of_isLane hl
  rw [hroot] at hp
  cases hp

theorem boundWithin_iff {A : Set Handle} :
    m.BoundWithin A ↔ ∀ place ∈ m.endpoints, ∀ b ∈ m.binding? place.1 place.2, b ∈ A := by
  constructor
  · intro hm place _
    exact hm place.1 place.2
  · intro hm h endpoint b hb
    cases hc : m.isConnection h with
    | true => exact hm (h, endpoint) (mem_endpoints.mpr hc) b hb
    | false =>
      rw [binding?_eq_none hc] at hb
      cases hb

theorem BoundWithin.bound_mem {A : Set Handle} (hm : m.BoundWithin A) {c : Connection}
    (hc : m.connection? h = some c) {endpoint : Endpoint} {b : Handle}
    (hb : b ∈ (c.reference endpoint).bound) : b ∈ A :=
  hm h endpoint b ((binding?_of_connection? hc endpoint).trans hb)

namespace Alike

variable {s e : Handle → Handle} {A B : Set Handle}

/-- Of a renaming only what it makes of the elements matters. -/
theorem congr (hr : Alike s A B m n) (he : Set.EqOn e s A) (hm : m.BoundWithin A) :
    Alike e A B m n where
  bijOn := hr.bijOn.congr he.symm
  isPool h hh := by rw [he hh, hr.isPool h hh]
  name? h hh := by rw [he hh, hr.name? h hh]
  node? h hh := by rw [he hh, hr.node? h hh]
  connection? h hh := by
    rw [he hh, hr.connection? h hh]
    refine Option.map_congr fun c hc => Connection.rename_congr fun endpoint b hb => ?_
    exact (he (hm.bound_mem hc hb)).symm

/-- A renaming of some elements, among them all but lanes, is part of one of all handles that makes
of any other one a handle that stands for nothing. -/
theorem exists_carries (hr : Alike s A B m n) (hA : m.nonLanes ⊆ A) (hB : B ⊆ n.extant)
    (hm : m.BoundWithin A) :
    ∃ e, Carries e m n ∧ Set.EqOn e s A ∧ ∀ h, h ∉ A → n.element? (e h) = none := by
  have hk : ∀ h ∈ A, (s h).index < n.size := fun h hh => hB (hr.bijOn.mapsTo hh)
  have heq : Set.EqOn (Handle.spread s A n.size) s A := fun h hh => Handle.spread_of_mem hh
  have ha := hr.congr heq hm
  have hout : ∀ h, h ∉ A → n.element? (Handle.spread s A n.size h) = none := by
    intro h hh
    rw [element?_eq_none_iff, Handle.spread_of_not_mem hh]
    exact Nat.not_lt.mpr (Nat.le_add_right n.size h.index)
  refine ⟨Handle.spread s A n.size, ⟨?_, fun h => ?_, fun h => ?_, fun h => ?_⟩, heq, hout⟩
  · exact Handle.spread_injective hr.bijOn.injOn hk
  · by_cases hh : h ∈ A
    · exact ha.isPool h hh
    · have hnone : m.isPool h = false :=
        Bool.eq_false_iff.mpr fun hp => hh (hA (mem_nonLanes_of_isPool hp))
      rw [hnone, Model.isPool, hout h hh]
      rfl
  · by_cases hh : h ∈ A
    · exact ha.node? h hh
    · have hnone : m.node? h = none :=
        Option.not_isSome_iff_eq_none.mp fun hn => hh (hA (mem_nonLanes_of_isNode hn))
      rw [hnone, Model.node?, hout h hh]
      rfl
  · by_cases hh : h ∈ A
    · exact ha.connection? h hh
    · have hnone : m.connection? h = none :=
        Option.not_isSome_iff_eq_none.mp fun hc => hh (hA (mem_nonLanes_of_isConnection hc))
      rw [hnone, Model.connection?, hout h hh]
      rfl

/-- How references are bound matters to connections alone. -/
theorem rebound (hr : Alike s A B m n) {m' n' : Model} (hm : Rebound m m') (hn : Rebound n n')
    (hc : ∀ h ∈ A, n'.connection? (s h) = (m'.connection? h).map (Connection.rename s)) :
    Alike s A B m' n' where
  bijOn := hr.bijOn
  isPool := by simpa only [hm.isPool, hn.isPool] using hr.isPool
  name? := by simpa only [hm.name?, hn.name?] using hr.name?
  node? := by simpa only [hm.node?, hn.node?] using hr.node?
  connection? := hc

end Alike

namespace Carries

variable {e : Handle → Handle} (hr : Carries e m n)
include hr

theorem isNode (h : Handle) : n.isNode (e h) = m.isNode h := by
  rw [Model.isNode, hr.node?, Model.isNode]

theorem isConnection (h : Handle) : n.isConnection (e h) = m.isConnection h := by
  rw [Model.isConnection, hr.connection?, Option.isSome_map, Model.isConnection]

theorem isMessageFlow (h : Handle) : n.isMessageFlow (e h) = m.isMessageFlow h := by
  rw [Model.isMessageFlow, hr.connection?, Option.any_map, Model.isMessageFlow]
  rfl

theorem isFlow (h : Handle) : n.isFlow (e h) = m.isFlow h := by
  rw [Model.isFlow, hr.connection?, Option.any_map, Model.isFlow]
  rfl

theorem isLeaf (h : Handle) : n.isLeaf (e h) = m.isLeaf h := by
  rw [Model.isLeaf, hr.isNode, hr.isConnection, Model.isLeaf]

theorem binding? (h : Handle) (endpoint : Endpoint) :
    n.binding? (e h) endpoint = (m.binding? h endpoint).map e := by
  rw [Model.binding?, hr.connection?, Model.binding?]
  cases m.connection? h with
  | none => rfl
  | some c => exact c.bound_rename e endpoint

end Carries

theorem Rebound.extant (hr : Rebound m n) : n.extant = m.extant := by
  ext h
  rw [← not_iff_not, ← element?_eq_none_iff, ← element?_eq_none_iff,
    ← Option.map_eq_none_iff (f := Element.unbound), hr.elements, Option.map_eq_none_iff]

theorem Rebound.nonLanes (hr : Rebound m n) : n.nonLanes = m.nonLanes := by
  have hsplit : ∀ k : Model, k.nonLanes = k.extant ∩ {h | k.isLane h = false} := fun _ => rfl
  rw [hsplit, hsplit, hr.extant, hr.isLane]

/-- Linking binds ends to nodes. -/
theorem BoundWithin.link {A : Set Handle} (hm : m.BoundWithin A) (hA : m.nonLanes ⊆ A)
    {mode : Visibility} (hbound : ∀ h endpoint, n.binding? h endpoint =
      (m.binding? h endpoint).or (m.resolve mode h endpoint)) : n.BoundWithin A := by
  intro h endpoint b hb
  rw [hbound, Option.mem_def, Option.or_eq_some_iff] at hb
  rcases hb with hb | ⟨-, hb⟩
  · exact hm h endpoint b hb
  · exact hA (mem_nonLanes_of_isNode (isNode_of_resolve hb))

end
end Model
end Bpmn
