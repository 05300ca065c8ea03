import Bpmn.History
import Bpmn.Proofs.Linking

/-!
# Lanes that hide and lanes that do not

With lanes that hide the rest, a connection sees some of the nodes that it sees with lanes that hide
nothing, in the same order, and only from inside a lane does it see less.  So whatever linking
leaves open where lanes hide nothing it leaves open where they do.  An end that is bound either way
may be bound to two nodes, as a lane may hide the first node of a name: then it is the earlier one
that was hidden.
-/

namespace Bpmn
namespace Model

section

variable {m : Model} {mode : Visibility} {h a b : Handle} {endpoint : Endpoint} {c : Connection}

/-! ## What is seen -/

theorem candidates_eq_filter (mode : Visibility) (h : Handle) :
    m.candidates mode h = m.walk.filter fun n => decide (n ∈ m.candidates mode h) :=
  eq_filter_of_sublist (candidates_sublist_walk mode h) walk_nodup fun _ _ => decide_eq_true_iff

theorem candidates_laneLocal_sublist (h : Handle) :
    (m.candidates .laneLocal h).Sublist (m.candidates .poolWide h) := by
  rw [candidates_eq_filter .laneLocal, candidates_eq_filter .poolWide]
  refine List.monotone_filter_right _ fun n hn => ?_
  rw [decide_eq_true_iff, mem_candidates] at hn ⊢
  exact ⟨hn.1, hn.2.widen⟩

theorem candidates_laneLocal_of_message (hc : m.connection? h = some c)
    (hm : c.isMessageFlow = true) : m.candidates .laneLocal h = [] := by
  rw [candidates, hc]
  show (if c.isMessageFlow = true then m.messageScope .laneLocal else _) = []
  rw [if_pos hm, messageScope]

/-- Lanes make no difference to a connection that stands in none. -/
theorem candidates_eq_of_not_isLane (hc : m.connection? h = some c) (hm : c.isMessageFlow = false)
    (hp : ∀ p, m.parent? h = some p → m.isLane p = false) (mode : Visibility) :
    m.candidates mode h = m.candidates .poolWide h := by
  have hlocal : m.localScope mode h = m.localScope .poolWide h := by
    rw [localScope, localScope, containerOf?_eq]
    cases hparent : m.parent? h with
    | none => rfl
    | some p => simp [hp p hparent]
  simp [candidates, hc, hm, hlocal]

/-! ## What names mean -/

theorem Named.name?_eq (ha : m.Named h endpoint a) (hb : m.Named h endpoint b) :
    m.name? a = m.name? b := by
  obtain ⟨c, hc, ha⟩ := ha
  obtain ⟨d, hd, hb⟩ := hb
  obtain rfl := Option.some.inj (hc.symm.trans hd)
  rw [ha, hb]

/-- Where lanes hide nothing, a name means the first of all nodes that it may mean otherwise, or one
before them. -/
theorem exists_resolve_poolWide (hb : m.resolve .laneLocal h endpoint = some b) :
    ∃ a, m.resolve .poolWide h endpoint = some a ∧ (a = b ∨ m.Precedes a b) ∧
      m.name? a = m.name? b := by
  obtain ⟨-, -, -, hbnamed, -⟩ := resolve_eq_some_iff.mp hb
  have hwide := (candidates_laneLocal_sublist h).subset (mem_candidates_of_resolve hb)
  cases hres : m.resolve .poolWide h endpoint with
  | none => exact absurd hbnamed (resolve_eq_none_iff.mp hres b hwide)
  | some a =>
    obtain ⟨before, after, hsplit, hanamed, hfirst⟩ := resolve_eq_some_iff.mp hres
    refine ⟨a, rfl, ?_, hanamed.name?_eq hbnamed⟩
    rw [hsplit, List.mem_append, List.mem_cons] at hwide
    rcases hwide with hbefore | rfl | hafter
    · exact absurd hbnamed (hfirst b hbefore)
    · exact .inl rfl
    · refine .inr (precedes_of_sublist ?_)
      have hpair : [a, b].Sublist (before ++ a :: after) :=
        (List.singleton_sublist.mpr hafter).cons_cons a |>.trans (List.sublist_append_right _ _)
      rw [← hsplit] at hpair
      exact hpair.trans (candidates_sublist_walk .poolWide h)

theorem resolves_poolWide {place : Handle × Endpoint} (hr : m.resolves .laneLocal place = true) :
    m.resolves .poolWide place = true := by
  obtain ⟨b, hb⟩ := Option.isSome_iff_exists.mp hr
  obtain ⟨a, ha, -⟩ := exists_resolve_poolWide hb
  rw [resolves, ha, Option.isSome_some]

end

/-- Lanes that hide the rest leave a connection a part of what it sees otherwise, the whole of it
outside lanes, and message flows nothing.  Linking then leaves open all that it leaves open
otherwise, and an end that is bound both ways has its name from both nodes, the one that is bound
where lanes hide nothing being no later. -/
theorem laneLocal_refines_poolWide (m : Model) :
    (∀ h, (m.candidates .laneLocal h).Sublist (m.candidates .poolWide h) ∧
      ∀ c, m.connection? h = some c →
        (c.isMessageFlow = true → m.candidates .laneLocal h = []) ∧
        (c.isMessageFlow = false →
          (m.parent? h = none ∨ ∃ p, m.parent? h = some p ∧ m.isPool p = true) →
          m.candidates .laneLocal h = m.candidates .poolWide h)) ∧
    ∃ wide wideReport narrow narrowReport,
      m.link .poolWide = .ok (wide, wideReport) ∧
      m.link .laneLocal = .ok (narrow, narrowReport) ∧
      wideReport.unresolved.Sublist narrowReport.unresolved ∧
      (∀ h endpoint, wide.binding? h endpoint = none → narrow.binding? h endpoint = none) ∧
      ∀ h endpoint a b, wide.binding? h endpoint = some a → narrow.binding? h endpoint = some b →
        (a = b ∨ m.Precedes a b) ∧ m.name? a = m.name? b := by
  refine ⟨fun h => ⟨candidates_laneLocal_sublist h, fun c hc =>
    ⟨candidates_laneLocal_of_message hc, fun hm hplace => ?_⟩⟩, ?_⟩
  · refine candidates_eq_of_not_isLane hc hm (fun p hp => ?_) .laneLocal
    rcases hplace with hnone | ⟨q, hq, hpool⟩
    · rw [hnone] at hp
      cases hp
    · obtain rfl := Option.some.inj (hp.symm.trans hq)
      exact not_isLane_of_isPool hpool
  · obtain ⟨wide, hwide, -, hwbound⟩ := link_eq m .poolWide
    obtain ⟨narrow, hnarrow, -, hnbound⟩ := link_eq m .laneLocal
    refine ⟨wide, _, narrow, _, hwide, hnarrow, ?_, fun h endpoint hnone => ?_, ?_⟩
    · refine List.monotone_filter_right _ fun place hopen => ?_
      rw [Bool.not_eq_true'] at hopen ⊢
      exact Bool.eq_false_iff.mpr fun hr => by simp [resolves_poolWide hr] at hopen
    · rw [hwbound, Option.or_eq_none_iff] at hnone
      rw [hnbound, hnone.1, Option.none_or]
      by_contra hsome
      obtain ⟨b, hb⟩ := Option.ne_none_iff_exists'.mp hsome
      obtain ⟨a, ha, -⟩ := exists_resolve_poolWide hb
      rw [hnone.2] at ha
      cases ha
    · intro h endpoint a b ha hb
      rw [hwbound] at ha
      rw [hnbound] at hb
      -- An end that was bound before linking keeps its node either way.
      cases hbound : m.binding? h endpoint with
      | some node =>
        rw [hbound, Option.some_or] at ha hb
        obtain rfl := Option.some.inj (ha.symm.trans hb)
        exact ⟨.inl rfl, rfl⟩
      | none =>
        rw [hbound, Option.none_or] at ha hb
        obtain ⟨first, hfirst, hearlier⟩ := exists_resolve_poolWide hb
        obtain rfl := Option.some.inj (hfirst.symm.trans ha)
        exact hearlier

/-- A lane that hides the first of two nodes of one name from a connection. -/
def shadowed : Model :=
  ofEdits
    [.declare (.pool "P"), .declare (.node ⟨"A", .task none⟩ (some ⟨0⟩)),
      .declare (.lane "L" (some ⟨0⟩)), .declare (.node ⟨"A", .task none⟩ (some ⟨2⟩)),
      .declare (.connection ⟨⟨"A", none⟩, .sequence, ⟨"A", none⟩, none⟩ (some ⟨2⟩))]

example : shadowed.resolve .poolWide ⟨4⟩ .source = some ⟨1⟩ ∧
    shadowed.resolve .laneLocal ⟨4⟩ .source = some ⟨3⟩ := by
  decide +kernel

end Model
end Bpmn
