import Bpmn.Proofs.Rebinding
import Bpmn.Proofs.Scope

/-!
# What linking does

Linking resolves each end against a model in which earlier ends are bound by then.  As bindings do
not shape a model, this is resolving all ends in the model it began with (`link_eq`): an end that
was bound stays as it was, any other one is bound to what it is resolved to, and the report counts
the ends of one sort and lists those of the other.
-/

namespace Bpmn
namespace Model

/-- The ends that are still to be bound, in tree order. -/
def unboundEnds (m : Model) : List (Handle × Endpoint) :=
  m.endpoints.filter fun place => m.isUnbound place.1 place.2

section

variable {m s : Model} {mode : Visibility} {h : Handle} {endpoint : Endpoint}

/-! ## Ends -/

theorem isUnbound_iff :
    m.isUnbound h endpoint = true ↔ m.isConnection h = true ∧ m.binding? h endpoint = none := by
  rw [isUnbound, isConnection, binding?]
  cases m.connection? h with
  | none => simp
  | some c => simp

theorem mem_endpoints : (h, endpoint) ∈ m.endpoints ↔ m.isConnection h = true := by
  have hboth : endpoint ∈ Endpoint.both := by cases endpoint <;> simp [Endpoint.both]
  have hwalk : m.isConnection h = true → h ∈ m.walk := by
    intro hc
    obtain ⟨c, parent, he⟩ := isConnection_iff.mp hc
    exact mem_walk.mpr (Arena.lt_size he)
  simp only [endpoints, connections, List.mem_flatMap, List.mem_filter, List.mem_map,
    Prod.mk.injEq]
  constructor
  · rintro ⟨x, ⟨_, hc⟩, _, _, rfl, _⟩
    exact hc
  · intro hc
    exact ⟨h, ⟨hwalk hc, hc⟩, endpoint, hboth, rfl, rfl⟩

/-- The unbound ends of the connections in tree order, of each the source before the target. -/
theorem unboundEnds_eq (m : Model) : m.unboundEnds =
    (m.walk.filter m.isConnection).flatMap fun h =>
      (if m.binding? h .source = none then [(h, .source)] else []) ++
        if m.binding? h .target = none then [(h, .target)] else [] := by
  rw [unboundEnds, endpoints, connections, List.filter_flatMap]
  refine List.flatMap_congr fun h hh => ?_
  have hopen : ∀ endpoint, m.isUnbound h endpoint = decide (m.binding? h endpoint = none) := by
    intro endpoint
    rw [Bool.eq_iff_iff, isUnbound_iff, decide_eq_true_iff, (List.mem_filter.mp hh).2]
    exact and_iff_right rfl
  cases hsource : m.binding? h .source <;> cases htarget : m.binding? h .target <;>
    simp [Endpoint.both, hopen, hsource, htarget]

theorem endpoints_nodup : m.endpoints.Nodup := by
  have hconnections : m.connections.Nodup := m.walk_nodup.filter _
  refine List.nodup_flatMap.mpr ⟨?_, hconnections.imp ?_⟩
  · intro x _
    simp [Endpoint.both]
  · intro x y hne place hx hy
    obtain ⟨_, _, rfl⟩ := List.mem_map.mp hx
    obtain ⟨_, _, heq⟩ := List.mem_map.mp hy
    exact hne (congrArg Prod.fst heq).symm

theorem mem_candidates_of_resolve {n : Handle} (hn : m.resolve mode h endpoint = some n) :
    n ∈ m.candidates mode h := by
  obtain ⟨before, after, hsplit, _⟩ := resolve_eq_some_iff.mp hn
  rw [hsplit]
  exact List.mem_append_right _ List.mem_cons_self

theorem isNode_of_resolve {n : Handle} (hn : m.resolve mode h endpoint = some n) :
    m.isNode n = true :=
  (mem_candidates.mp (mem_candidates_of_resolve hn)).1

theorem isConnection_of_resolve {n : Handle} (hn : m.resolve mode h endpoint = some n) :
    m.isConnection h = true := by
  rw [resolve] at hn
  rw [isConnection]
  cases hc : m.connection? h with
  | none => simp [hc] at hn
  | some c => rfl

/-- What a name is resolved to can be bound. -/
theorem bind_of_resolve {n : Handle} (hr : Rebound m s)
    (hn : m.resolve mode h endpoint = some n) :
    s.bind h endpoint n = .ok (s.setBinding h endpoint n) := by
  have hnode : s.isNode n = true := by
    rw [hr.isNode]
    exact isNode_of_resolve hn
  have hconnection : s.isConnection h = true := by
    rw [hr.isConnection]
    exact isConnection_of_resolve hn
  obtain ⟨c, parent, he⟩ := isConnection_iff.mp hconnection
  simp [Model.bind, hnode, he]

/-! ## One end after another -/

/-- Whether linking would bind an end of `m`, if it is not bound yet. -/
def resolves (m : Model) (mode : Visibility) (place : Handle × Endpoint) : Bool :=
  (m.resolve mode place.1 place.2).isSome

variable (mode) in
/-- One step, told by the model that linking began with. -/
theorem linkEndpoint_eq (hr : Rebound m s) (report : Linkage) (place : Handle × Endpoint) :
    ∃ t, linkEndpoint mode (s, report) place = .ok (t,
        if s.isUnbound place.1 place.2 then
          if m.resolves mode place then { report with bound := report.bound + 1 }
          else { report with unresolved := report.unresolved ++ [place] }
        else report) ∧
      Rebound m t ∧
      ∀ x other, t.binding? x other =
        if (x, other) = place then (s.binding? x other).or (m.resolve mode x other)
        else s.binding? x other := by
  obtain ⟨h, endpoint⟩ := place
  have hkeep : ((s.binding? h endpoint).or (m.resolve mode h endpoint) = s.binding? h endpoint) →
      ∀ x other, s.binding? x other =
        if (x, other) = (h, endpoint) then (s.binding? x other).or (m.resolve mode x other)
        else s.binding? x other := by
    intro hsame x other
    split
    next heq =>
      obtain ⟨rfl, rfl⟩ := Prod.mk.inj heq
      exact hsame.symm
    next => rfl
  cases hu : s.isUnbound h endpoint with
  | false =>
    refine ⟨s, by simp [linkEndpoint, hu], hr, hkeep ?_⟩
    cases hb : s.binding? h endpoint with
    | some n => rfl
    | none =>
      -- An end without a binding that is not to be bound is no end of a connection.
      cases hn : m.resolve mode h endpoint with
      | none => rfl
      | some n =>
        have hc := isConnection_of_resolve hn
        rw [← hr.isConnection] at hc
        rw [isUnbound_iff.mpr ⟨hc, hb⟩] at hu
        cases hu
  | true =>
    obtain ⟨hc, hb⟩ := isUnbound_iff.mp hu
    cases hn : m.resolve mode h endpoint with
    | none =>
      refine ⟨s, ?_, hr, hkeep (by rw [hb, hn]; rfl)⟩
      simp [linkEndpoint, resolves, hr.resolve, hu, hn]
    | some n =>
      refine ⟨s.setBinding h endpoint n, ?_, hr.trans (.setBinding s h endpoint n), ?_⟩
      · simp [linkEndpoint, resolves, hr.resolve, hu, hn, bind_of_resolve hr hn]
      · intro x other
        rw [binding?_setBinding]
        by_cases heq : (x, other) = (h, endpoint)
        · obtain ⟨rfl, rfl⟩ := Prod.mk.inj heq
          simp [hc, hb, hn]
        · have hne : ¬ (h = x ∧ endpoint = other ∧ s.isConnection h = true) := by
            rintro ⟨rfl, rfl, _⟩
            exact heq rfl
          rw [if_neg hne, if_neg heq]

variable (mode) in
/-- A run over some ends binds those of them that were unbound and are resolved to a node. -/
theorem foldlM_linkEndpoint {places : List (Handle × Endpoint)} (hp : places.Nodup)
    (hr : Rebound m s) (report : Linkage) :
    ∃ t, places.foldlM (linkEndpoint mode) (s, report) = .ok (t,
        { bound := report.bound +
            ((places.filter fun p => s.isUnbound p.1 p.2).filter (m.resolves mode)).length
          unresolved := report.unresolved ++
            (places.filter fun p => s.isUnbound p.1 p.2).filter fun p => !m.resolves mode p }) ∧
      Rebound m t ∧
      ∀ x other, t.binding? x other =
        if (x, other) ∈ places then (s.binding? x other).or (m.resolve mode x other)
        else s.binding? x other := by
  induction places generalizing s report with
  | nil => exact ⟨s, by simp; rfl, hr, by simp⟩
  | cons place rest ih =>
    obtain ⟨hnot, hrest⟩ := List.nodup_cons.mp hp
    obtain ⟨next, hstep, hnext, hbound⟩ := linkEndpoint_eq mode hr report place
    obtain ⟨t, hrun, ht, hall⟩ := ih hrest hnext (if s.isUnbound place.1 place.2 then
      if m.resolves mode place then { report with bound := report.bound + 1 }
      else { report with unresolved := report.unresolved ++ [place] } else report)
    -- The step leaves the other ends as they were, so the rest of the run finds them unbound or
    -- bound as it would have at the start.
    have hother : ∀ p ∈ rest, next.isUnbound p.1 p.2 = s.isUnbound p.1 p.2 := by
      intro p hmem
      have hne : p ≠ place := fun h => hnot (h ▸ hmem)
      rw [Bool.eq_iff_iff, isUnbound_iff, isUnbound_iff, hnext.isConnection, hr.isConnection,
        hbound, if_neg hne]
    refine ⟨t, ?_, ht, ?_⟩
    · rw [List.foldlM_cons, hstep]
      refine hrun.trans ?_
      rw [List.filter_congr hother]
      cases hu : s.isUnbound place.1 place.2 with
      | false => simp [hu]
      | true =>
        cases hn : m.resolves mode place with
        | false => simp [hu, hn]
        | true =>
          simp [hu, hn]
          omega
    · intro x other
      rw [hall, hbound]
      by_cases heq : (x, other) = place
      · subst heq
        simp [hnot]
      · simp [heq]

theorem binding?_eq_none (hc : m.isConnection h = false) : m.binding? h endpoint = none := by
  rw [isConnection, Option.isSome_eq_false_iff, Option.isNone_iff_eq_none] at hc
  rw [binding?, hc, Option.bind_none]

theorem resolve_eq_none (hc : m.isConnection h = false) : m.resolve mode h endpoint = none := by
  rw [isConnection, Option.isSome_eq_false_iff, Option.isNone_iff_eq_none] at hc
  rw [resolve, hc]

/-- Linking binds the unbound ends of a model to what they are resolved to in it. -/
theorem link_eq (m : Model) (mode : Visibility) :
    ∃ linked, m.link mode = .ok (linked,
        { bound := (m.unboundEnds.filter (m.resolves mode)).length
          unresolved := m.unboundEnds.filter fun p => !m.resolves mode p }) ∧
      Rebound m linked ∧
      ∀ h endpoint, linked.binding? h endpoint =
        (m.binding? h endpoint).or (m.resolve mode h endpoint) := by
  obtain ⟨linked, hrun, hr, hbound⟩ :=
    foldlM_linkEndpoint mode m.endpoints_nodup (.refl m) {}
  refine ⟨linked, ?_, hr, ?_⟩
  · rw [link, hrun]
    simp [unboundEnds]
  · intro h endpoint
    rw [hbound]
    split
    next => rfl
    next hnot =>
      have hc : m.isConnection h = false := by simpa [mem_endpoints] using hnot
      rw [binding?_eq_none hc, resolve_eq_none hc]
      rfl

/-! ## The whole pass -/

theorem unboundEnds_linked {linked : Model} (hr : Rebound m linked)
    (hbound : ∀ h endpoint, linked.binding? h endpoint =
      (m.binding? h endpoint).or (m.resolve mode h endpoint)) :
    linked.unboundEnds = m.unboundEnds.filter fun p => !m.resolves mode p := by
  rw [unboundEnds, hr.endpoints, unboundEnds, List.filter_filter]
  refine List.filter_congr fun p _ => ?_
  rw [Bool.eq_iff_iff, Bool.and_eq_true, isUnbound_iff, isUnbound_iff, hr.isConnection, hbound,
    Option.or_eq_none_iff, resolves, Bool.not_eq_true', Option.isSome_eq_false_iff,
    Option.isNone_iff_eq_none]
  constructor
  · rintro ⟨hc, hb, hn⟩
    exact ⟨hn, hc, hb⟩
  · rintro ⟨hn, hc, hb⟩
    exact ⟨hc, hb, hn⟩

/-- Linking succeeds, keeps what was bound, and binds any other end to what it is resolved to in
the model as it was.  The report accounts for every unbound end and lists those left in tree order,
the source of a connection before its target.  A second pass changes nothing more. -/
theorem link_binds_resolved (m : Model) (mode : Visibility) :
    ∃ linked report, m.link mode = .ok (linked, report) ∧
      Rebound m linked ∧
      (∀ h endpoint n, m.binding? h endpoint = some n →
        linked.binding? h endpoint = some n) ∧
      (∀ h endpoint, m.binding? h endpoint = none →
        linked.binding? h endpoint = m.resolve mode h endpoint) ∧
      report.bound + report.unresolved.length = m.unboundEnds.length ∧
      report.unresolved = linked.unboundEnds ∧
      (report.unresolved = (linked.walk.filter linked.isConnection).flatMap fun h =>
        (if linked.binding? h .source = none then [(h, .source)] else []) ++
          if linked.binding? h .target = none then [(h, .target)] else []) ∧
      linked.link mode = .ok (linked, { bound := 0, unresolved := report.unresolved }) := by
  obtain ⟨linked, hlink, hr, hbound⟩ := link_eq m mode
  have hleft := unboundEnds_linked hr hbound
  refine ⟨linked, _, hlink, hr, ?_, ?_, ?_, hleft.symm, hleft.symm.trans linked.unboundEnds_eq, ?_⟩
  · intro h endpoint n hn
    rw [hbound, hn, Option.some_or]
  · intro h endpoint hn
    rw [hbound, hn, Option.none_or]
  · have hsplit := List.length_eq_length_filter_add (l := m.unboundEnds) (m.resolves mode)
    exact hsplit.symm
  · obtain ⟨again, hagain, hr', hbound'⟩ := link_eq linked mode
    have hresolves : linked.resolves mode = m.resolves mode := by
      funext p
      rw [resolves, hr.resolve, resolves]
    have hsame : again = linked := by
      refine hr'.eq_of_binding? fun h endpoint => ?_
      rw [hbound', hr.resolve, hbound]
      cases m.binding? h endpoint with
      | some n => rfl
      | none => simp
    have hfound : linked.unboundEnds.filter (linked.resolves mode) = [] := by
      rw [hresolves, hleft, List.filter_filter, List.filter_eq_nil_iff]
      intro p _
      simp
    have hrest : (linked.unboundEnds.filter fun p => !linked.resolves mode p) =
        m.unboundEnds.filter fun p => !m.resolves mode p := by
      rw [hresolves, hleft, List.filter_filter]
      simp
    rw [hagain, hsame, hfound, hrest]
    rfl

end
end Model
end Bpmn
