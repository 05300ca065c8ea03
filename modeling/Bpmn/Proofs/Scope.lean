import Bpmn.Proofs.Sorts
import Bpmn.Reference.Scope

/-!
# Scopes by what is around

Candidates are gathered by going down from a container, while the rule for what a connection sees
is told by going up: `Sees` compares what is around the connection with what is around the node.
The two agree, and candidates keep the order of the walk, so a name means the first node in the
walk that the connection sees by that name.
-/

namespace Bpmn
namespace Model

/-- Whether the connection behind `h` may name the node `n`, told by what is around the two. -/
inductive Sees (m : Model) (mode : Visibility) (h n : Handle) : Prop
  /-- A message flow sees whatever is in a pool, unless lanes hide it. -/
  | message {c : Connection} (hc : m.connection? h = some c) (hm : c.isMessageFlow = true)
    (wide : mode = .poolWide) (pooled : (m.poolOf? n).isSome)
  /-- At the top level, what else stands there. -/
  | top {c : Connection} (hc : m.connection? h = some c) (hm : c.isMessageFlow = false)
    (root : m.parent? h = none) (beside : m.parent? n = none)
  /-- In a pool, or in a lane that hides nothing, what is in the same pool. -/
  | pool {c : Connection} {p q : Handle} (hc : m.connection? h = some c)
    (hm : c.isMessageFlow = false) (parent : m.parent? h = some p)
    (wide : m.isPool p = true ∨ m.isLane p = true ∧ mode = .poolWide)
    (inPool : m.poolOf? n = some q) (same : m.poolOf? h = some q)
  /-- In a lane that hides the rest, what is in this lane. -/
  | lane {c : Connection} {p : Handle} (hc : m.connection? h = some c)
    (hm : c.isMessageFlow = false) (parent : m.parent? h = some p) (lane : m.isLane p = true)
    (narrow : mode = .laneLocal) (inLane : p ∈ m.ancestors n)

section

variable {m : Model}

theorem nodesIn_sublist_walk (h : Handle) : (m.nodesIn h).Sublist m.walk :=
  List.filter_sublist.trans (descendants_sublist_walk h)

theorem pools_nodesIn_sublist_walk : (m.pools.flatMap m.nodesIn).Sublist m.walk := by
  rw [walk_eq, pools]
  refine (List.filter_sublist.flatMap m.nodesIn).trans (List.Sublist.flatMap_right _ ?_)
  intro r _
  exact List.filter_sublist.trans (List.sublist_cons_self r _)

theorem localScope_sublist_walk (mode : Visibility) (h : Handle) :
    (m.localScope mode h).Sublist m.walk := by
  unfold localScope
  split
  · exact List.filter_sublist.trans roots_sublist_walk
  · split
    · cases m.poolOf? _ with
      | none => exact List.nil_sublist _
      | some p => exact nodesIn_sublist_walk p
    · exact nodesIn_sublist_walk _

theorem candidates_sublist_walk (mode : Visibility) (h : Handle) :
    (m.candidates mode h).Sublist m.walk := by
  unfold candidates
  split
  · exact List.nil_sublist _
  · split
    · cases mode with
      | poolWide => exact pools_nodesIn_sublist_walk
      | laneLocal => exact List.nil_sublist _
    · exact localScope_sublist_walk mode h

theorem mem_messageScope {mode : Visibility} {n : Handle} :
    n ∈ m.messageScope mode ↔
      m.isNode n = true ∧ mode = .poolWide ∧ (m.poolOf? n).isSome := by
  cases mode with
  | laneLocal => simp [messageScope]
  | poolWide =>
    simp only [messageScope, List.mem_flatMap, mem_pools, mem_nodesIn, Option.isSome_iff_exists,
      poolOf?_eq_some_iff, true_and]
    constructor
    · rintro ⟨p, hpool, ha, hn⟩
      exact ⟨hn, p, ha, hpool⟩
    · rintro ⟨hn, p, ha, hpool⟩
      exact ⟨p, hpool, ha, hn⟩

theorem mem_nodesIn_pool {p n : Handle} (hp : m.isPool p = true) :
    n ∈ m.nodesIn p ↔ m.isNode n = true ∧ m.poolOf? n = some p := by
  rw [mem_nodesIn, poolOf?_eq_some_iff, and_iff_left hp, and_comm]

theorem mem_roots_filter_isNode {n : Handle} :
    n ∈ m.roots.filter m.isNode ↔ m.isNode n = true ∧ m.parent? n = none := by
  rw [List.mem_filter, mem_roots]
  constructor
  · rintro ⟨⟨_, hroot⟩, hn⟩
    exact ⟨hn, hroot⟩
  · rintro ⟨hn, hroot⟩
    obtain ⟨node, parent, he⟩ := isNode_iff.mp hn
    exact ⟨⟨Arena.lt_size he, hroot⟩, hn⟩

/-! ## What a connection sees, by where it stands -/

section Sees

variable {mode : Visibility} {h n : Handle} {c : Connection}

theorem sees_iff_of_message (hc : m.connection? h = some c) (hm : c.isMessageFlow = true) :
    Sees m mode h n ↔ mode = .poolWide ∧ (m.poolOf? n).isSome := by
  constructor
  · intro hs
    cases hs with
    | message _ _ wide pooled => exact ⟨wide, pooled⟩
    | top hc' hm' | pool hc' hm' | lane hc' hm' =>
      cases hc.symm.trans hc'
      rw [hm] at hm'
      cases hm'
  · rintro ⟨wide, pooled⟩
    exact .message hc hm wide pooled

theorem sees_iff_of_root (hc : m.connection? h = some c) (hm : c.isMessageFlow = false)
    (hp : m.parent? h = none) : Sees m mode h n ↔ m.parent? n = none := by
  constructor
  · intro hs
    cases hs with
    | message hc' hm' =>
      cases hc.symm.trans hc'
      rw [hm] at hm'
      cases hm'
    | top _ _ _ beside => exact beside
    | pool _ _ parent | lane _ _ parent =>
      rw [hp] at parent
      cases parent
  · exact .top hc hm hp

theorem sees_iff_of_parent {p : Handle} (hc : m.connection? h = some c)
    (hm : c.isMessageFlow = false) (hp : m.parent? h = some p) :
    Sees m mode h n ↔
      if m.isLane p = true ∧ mode = .laneLocal then p ∈ m.ancestors n
      else ∃ q, m.poolOf? n = some q ∧ m.poolOf? h = some q := by
  constructor
  · intro hs
    cases hs with
    | message hc' hm' =>
      cases hc.symm.trans hc'
      rw [hm] at hm'
      cases hm'
    | top _ _ root =>
      rw [hp] at root
      cases root
    | pool _ _ parent wide inPool same =>
      cases hp.symm.trans parent
      have hnot : ¬ (m.isLane p = true ∧ mode = .laneLocal) := by
        rintro ⟨hl, hmode⟩
        rcases wide with hpool | ⟨_, hwide⟩
        · rw [not_isLane_of_isPool hpool] at hl
          cases hl
        · rw [hmode] at hwide
          cases hwide
      rw [if_neg hnot]
      exact ⟨_, inPool, same⟩
    | lane _ _ parent lane narrow inLane =>
      cases hp.symm.trans parent
      rwa [if_pos ⟨lane, narrow⟩]
  · intro hs
    split at hs
    next hl => exact .lane hc hm hp hl.1 hl.2 hs
    next hl =>
      obtain ⟨q, inPool, same⟩ := hs
      refine .pool hc hm hp ?_ inPool same
      have hcontainer := parent_isContainer hp
      rw [isContainer_eq, Bool.or_eq_true] at hcontainer
      refine hcontainer.imp_right fun hlane => ⟨hlane, ?_⟩
      cases mode with
      | poolWide => rfl
      | laneLocal => exact absurd ⟨hlane, rfl⟩ hl

theorem mem_localScope (hc : m.connection? h = some c) (hm : c.isMessageFlow = false) :
    n ∈ m.localScope mode h ↔ m.isNode n = true ∧ Sees m mode h n := by
  rw [localScope, containerOf?_eq]
  cases hp : m.parent? h with
  | none => rw [sees_iff_of_root hc hm hp, mem_roots_filter_isNode]
  | some p =>
    rw [sees_iff_of_parent hc hm hp]
    cases hpool : m.isPool p with
    | true =>
      have hl := not_isLane_of_isPool hpool
      simp [hl, mem_nodesIn_pool hpool, poolOf?_of_pool hp hpool]
    | false =>
      have hl : m.isLane p = true := by
        have hcontainer := parent_isContainer hp
        rwa [isContainer_eq, hpool, Bool.false_or] at hcontainer
      cases mode with
      | laneLocal => simp [hl, mem_nodesIn, and_comm]
      | poolWide =>
        rw [poolOf?_of_lane hp hpool]
        cases hq : m.poolOf? p with
        | none => simp [hl, hq]
        | some q =>
          have hqpool := (poolOf?_eq_some_iff.mp hq).2
          simp [hl, hq, mem_nodesIn_pool hqpool]

theorem mem_candidates :
    n ∈ m.candidates mode h ↔ m.isNode n = true ∧ Sees m mode h n := by
  unfold candidates
  cases hc : m.connection? h with
  | none =>
    refine iff_of_false List.not_mem_nil ?_
    rintro ⟨_, hs⟩
    cases hs <;> simp_all
  | some c =>
    show (n ∈ if c.isMessageFlow = true then m.messageScope mode else m.localScope mode h) ↔ _
    cases hm : c.isMessageFlow with
    | true => rw [if_pos rfl, mem_messageScope, sees_iff_of_message hc hm]
    | false => rw [if_neg Bool.false_ne_true, mem_localScope hc hm]

/-- A connection sees with lanes that hide nothing whatever it sees with lanes that do. -/
theorem Sees.widen (hs : Sees m .laneLocal h n) : Sees m .poolWide h n := by
  cases hs with
  | message _ _ wide _ => cases wide
  | top hc hm root beside => exact .top hc hm root beside
  | pool hc hm parent wide inPool same =>
    refine .pool hc hm parent ?_ inPool same
    exact wide.imp_right fun hlane => ⟨hlane.1, rfl⟩
  | @lane c p hc hm parent lane _ inLane =>
    obtain ⟨_, hlane⟩ := exists_parent_of_isLane lane
    have hnot := isPool_eq_false_of_parent hlane
    obtain ⟨q, hq⟩ : ∃ q, m.poolOf? p = some q := by
      refine Option.ne_none_iff_exists'.mp fun hnone => ?_
      rw [poolOf?_eq_none_iff.mp hnone] at hlane
      cases hlane
    refine .pool (q := q) hc hm parent (.inr ⟨lane, rfl⟩) ?_ ?_
    · rw [poolOf?_of_mem_ancestors inLane hnot, hq]
    · rw [poolOf?_of_lane parent hnot, hq]

/-- What a connection sees stands all at the top level or all in pools. -/
theorem Sees.parent?_eq_none_iff (hs : Sees m mode h n) :
    m.parent? n = none ↔
      ∃ c, m.connection? h = some c ∧ c.isMessageFlow = false ∧ m.parent? h = none := by
  rw [← poolOf?_eq_none_iff]
  cases hs with
  | message hc hm _ pooled =>
    have hnot : m.poolOf? n ≠ none := Option.isSome_iff_ne_none.mp pooled
    simp [hc, hm, hnot]
  | top hc hm root beside => simp [hc, hm, root, poolOf?_eq_none_iff, beside]
  | pool hc hm parent _ inPool _ => simp [inPool, parent]
  | lane hc hm parent lane _ inLane =>
    obtain ⟨_, hlane⟩ := exists_parent_of_isLane lane
    rw [poolOf?_of_mem_ancestors inLane (isPool_eq_false_of_parent hlane), poolOf?_eq_none_iff,
      hlane, parent]
    simp

end Sees

/-! ## What a name means -/

/-- Whether `n` has the name that an end of the connection behind `h` is written with. -/
def Named (m : Model) (h : Handle) (endpoint : Endpoint) (n : Handle) : Prop :=
  ∃ c, m.connection? h = some c ∧ m.name? n = some (c.reference endpoint).text

theorem resolve_eq_some_iff {mode : Visibility} {h n : Handle} {endpoint : Endpoint} :
    m.resolve mode h endpoint = some n ↔
      ∃ before after, m.candidates mode h = before ++ n :: after ∧ m.Named h endpoint n ∧
        ∀ x ∈ before, ¬ m.Named h endpoint x := by
  unfold resolve
  cases hc : m.connection? h with
  | none => simp [Named, hc]
  | some c =>
    have hnamed : ∀ x, m.Named h endpoint x ↔ m.name? x = some (c.reference endpoint).text := by
      intro x
      simp [Named, hc]
    simp only [hnamed, List.find?_eq_some_iff_append, beq_iff_eq, Bool.not_eq_true',
      beq_eq_false_iff_ne]
    constructor
    · rintro ⟨hn, before, after, hsplit, hbefore⟩
      exact ⟨before, after, hsplit, hn, hbefore⟩
    · rintro ⟨before, after, hsplit, hn, hbefore⟩
      exact ⟨hn, before, after, hsplit, hbefore⟩

theorem resolve_eq_none_iff {mode : Visibility} {h : Handle} {endpoint : Endpoint} :
    m.resolve mode h endpoint = none ↔
      ∀ n ∈ m.candidates mode h, ¬ m.Named h endpoint n := by
  unfold resolve
  cases hc : m.connection? h with
  | none => simp [Named, hc]
  | some c => simp [Named, hc, List.find?_eq_none]

/-- Candidates are the nodes of the walk that the rule lets a connection see, in the order of the
walk, and an end is resolved to the first of them that has its name. -/
theorem candidates_by_rule (m : Model) (mode : Visibility) (h : Handle) :
    (m.candidates mode h).Sublist m.walk ∧ m.walk.Nodup ∧
      (∀ n, n ∈ m.candidates mode h ↔ m.isNode n = true ∧ m.Sees mode h n) ∧
      (m.isConnection h = true ∨ m.candidates mode h = []) ∧
      ∀ endpoint,
        (∀ n, m.resolve mode h endpoint = some n ↔
          ∃ before after, m.candidates mode h = before ++ n :: after ∧ m.Named h endpoint n ∧
            ∀ x ∈ before, ¬ m.Named h endpoint x) ∧
        (m.resolve mode h endpoint = none ↔
          ¬ ∃ n, m.isNode n = true ∧ m.Sees mode h n ∧ m.Named h endpoint n) := by
  refine ⟨candidates_sublist_walk mode h, walk_nodup, fun _ => mem_candidates, ?_, ?_⟩
  · rw [isConnection, candidates]
    cases m.connection? h with
    | none => exact Or.inr rfl
    | some c => exact Or.inl rfl
  · intro endpoint
    refine ⟨fun _ => resolve_eq_some_iff, ?_⟩
    rw [resolve_eq_none_iff]
    constructor
    · rintro hnone ⟨n, hn, hs, hnamed⟩
      exact hnone n (mem_candidates.mpr ⟨hn, hs⟩) hnamed
    · intro hnone n hc hnamed
      obtain ⟨hn, hs⟩ := mem_candidates.mp hc
      exact hnone ⟨n, hn, hs, hnamed⟩

end
end Model
end Bpmn
