import Bpmn.Proofs.Bindings
import Bpmn.Proofs.Check.Verdict

/-!
# What linking cannot cause

Candidates are gathered downward from a container, and the checks compare pools found upward.  A
connection that is no message flow sees nodes of its own pool only, or of none if it has none, and
a message flow sees pooled nodes only.  So whatever passes of linking bind, in whatever modes, the
checks never find an end on the wrong side of the border of a pool.
-/

namespace Bpmn
namespace Model

/-- Every end is bound, if at all, to a node that its connection sees in some mode. -/
def BoundInSight (m : Model) : Prop :=
  ∀ h endpoint n, m.binding? h endpoint = some n → ∃ mode, n ∈ m.candidates mode h

/-- Passes of linking one after another. -/
def linkAll (m : Model) (modes : List Visibility) : Except ModelError Model :=
  modes.foldlM (fun m mode => Prod.fst <$> m.link mode) m

section

variable {m : Model} {h n : Handle} {c : Connection} {mode : Visibility}

/-! ## Sight and pools -/

theorem poolOf?_eq_of_mem_candidates (hn : n ∈ m.candidates mode h)
    (hc : m.connection? h = some c) (hm : c.isMessageFlow = false) :
    m.poolOf? n = m.poolOf? h := by
  cases (mem_candidates.mp hn).2 with
  | message hc' hm' =>
    cases hc.symm.trans hc'
    rw [hm] at hm'
    cases hm'
  | top _ _ root beside => rw [poolOf?_eq_none_iff.mpr root, poolOf?_eq_none_iff.mpr beside]
  | pool _ _ _ _ inPool same => rw [inPool, same]
  | lane _ _ parent lane _ inLane =>
    obtain ⟨_, hlane⟩ := exists_parent_of_isLane lane
    have hnot := isPool_eq_false_of_parent hlane
    rw [poolOf?_of_mem_ancestors inLane hnot, poolOf?_of_lane parent hnot]

theorem poolOf?_isSome_of_mem_candidates (hn : n ∈ m.candidates mode h)
    (hc : m.connection? h = some c) (hm : c.isMessageFlow = true) : (m.poolOf? n).isSome :=
  ((sees_iff_of_message hc hm).mp (mem_candidates.mp hn).2).2

/-! ## Passes keep bindings in sight -/

theorem Unbound.boundInSight (hm : m.Unbound) : m.BoundInSight := by
  intro h endpoint n hn
  rw [hm] at hn
  cases hn

theorem BoundInSight.link (hm : m.BoundInSight) (mode : Visibility) :
    ∃ linked, Prod.fst <$> m.link mode = .ok linked ∧ Rebound m linked ∧
      linked.BoundInSight := by
  obtain ⟨linked, hlink, hr, hbound⟩ := link_eq m mode
  refine ⟨linked, by rw [hlink]; rfl, hr, fun h endpoint n hn => ?_⟩
  rw [hbound, Option.or_eq_some_iff] at hn
  rcases hn with hn | ⟨-, hn⟩
  · obtain ⟨earlier, hs⟩ := hm h endpoint n hn
    exact ⟨earlier, by rwa [hr.candidates]⟩
  · refine ⟨mode, ?_⟩
    rw [hr.candidates]
    exact mem_candidates_of_resolve hn

theorem BoundInSight.linkAll (hm : m.BoundInSight) (modes : List Visibility) :
    ∃ linked, m.linkAll modes = .ok linked ∧ Rebound m linked ∧ linked.BoundInSight := by
  induction modes generalizing m with
  | nil => exact ⟨m, rfl, .refl m, hm⟩
  | cons mode rest ih =>
    obtain ⟨next, hlink, hr, hnext⟩ := hm.link mode
    obtain ⟨linked, hrest, hr', hlinked⟩ := ih hnext
    refine ⟨linked, ?_, hr.trans hr', hlinked⟩
    rw [Model.linkAll, List.foldlM_cons, hlink]
    exact hrest

/-! ## What the checks find then -/

section

variable (hm : m.BoundInSight) (hc : m.connection? h = some c)
include hm hc

theorem BoundInSight.poolOf?_eq (endpoint : Endpoint) (hflow : c.isMessageFlow = false)
    (hn : (c.reference endpoint).bound = some n) : m.poolOf? n = m.poolOf? h := by
  obtain ⟨mode, hcandidate⟩ := hm h endpoint n ((binding?_of_connection? hc endpoint).trans hn)
  exact poolOf?_eq_of_mem_candidates hcandidate hc hflow

theorem BoundInSight.poolOf?_isSome (endpoint : Endpoint) (hflow : c.isMessageFlow = true)
    (hn : (c.reference endpoint).bound = some n) : (m.poolOf? n).isSome := by
  obtain ⟨mode, hcandidate⟩ := hm h endpoint n ((binding?_of_connection? hc endpoint).trans hn)
  exact poolOf?_isSome_of_mem_candidates hcandidate hc hflow

theorem BoundInSight.mem_placementFindings {d : Diagnostic}
    (hd : d ∈ Check.placementFindings m h c) :
    d.severity = .error ∧ d.code = some .withinOnePool ∨
      d.severity = .warning ∧ d.code = some .selfLoop := by
  obtain ⟨s, t, hs, ht, hd | ⟨-, rfl⟩⟩ := Check.mem_placementFindings.mp hd
  · obtain ⟨hseverity, hcode⟩ := Check.placement?_eq_some hd
    rcases hcode with hcode | ⟨-, hflow, hnone⟩ | ⟨-, hflow, hne⟩
    · exact .inl ⟨hseverity, hcode⟩
    · have hsource := hm.poolOf?_isSome hc .source hflow hs
      have htarget := hm.poolOf?_isSome hc .target hflow ht
      rcases hnone with hnone | hnone
      · simp [hnone] at hsource
      · simp [hnone] at htarget
    · have hsource := hm.poolOf?_eq hc .source hflow hs
      have htarget := hm.poolOf?_eq hc .target hflow ht
      exact absurd (hsource.trans htarget.symm) hne
  · exact .inr ⟨rfl, rfl⟩

end

theorem BoundInSight.mem_diagnostics (hm : m.BoundInSight) {d : Diagnostic}
    (hd : d ∈ m.diagnostics) :
    d.severity = .error ∧
        d.code ∈ [some .unresolvedReference, some .withinOnePool, some .duplicateName] ∨
      d.severity = .warning ∧
        d.code ∈ [some .selfLoop, some .nameReused, some .emptyPool, some .emptyLane] := by
  rcases Model.mem_diagnostics.mp hd with ⟨h, c, hc, hd | hd⟩ | ⟨h, -, hd⟩ | ⟨h, -, hd⟩
  · obtain ⟨endpoint, -, rfl⟩ := Check.mem_bindingFindings.mp hd
    exact .inl ⟨rfl, List.mem_cons_self⟩
  · rcases hm.mem_placementFindings hc hd with ⟨hseverity, hcode⟩ | ⟨hseverity, hcode⟩
    · exact .inl ⟨hseverity, by simp [hcode]⟩
    · exact .inr ⟨hseverity, by simp [hcode]⟩
  · rcases Check.mem_nameFindings_code hd with ⟨hseverity, hcode⟩ | ⟨hseverity, hcode⟩
    · exact .inl ⟨hseverity, by simp [hcode]⟩
    · exact .inr ⟨hseverity, by simp [hcode]⟩
  · obtain ⟨hseverity, hcode | hcode⟩ := Check.code_of_mem_emptinessFindings hd
    · exact .inr ⟨hseverity, by simp [hcode]⟩
    · exact .inr ⟨hseverity, by simp [hcode]⟩

/-- Passes of linking, in whatever modes, never bind an end across the border of a pool.  Of the
errors that the checks know, an open end, a message flow within one pool and a name used twice are
left. -/
theorem linkAll_keeps_pools (m : Model) (hm : m.Unbound) (modes : List Visibility) :
    ∃ linked, m.linkAll modes = .ok linked ∧ Rebound m linked ∧
      (∀ h c s t, linked.connection? h = some c → c.isMessageFlow = false →
        c.source.bound = some s → c.target.bound = some t →
        linked.poolOf? s = linked.poolOf? t) ∧
      (∀ h c endpoint n, linked.connection? h = some c → c.isMessageFlow = true →
        (c.reference endpoint).bound = some n → (linked.poolOf? n).isSome) ∧
      (∀ d ∈ linked.diagnostics, d.code ≠ some .crossesPools ∧ d.code ≠ some .mixesPooling ∧
        d.code ≠ some .endOutsidePools) ∧
      (∀ rejection, linked.validate = .error rejection → ∀ d ∈ rejection.errors,
        d.code ∈ [some .unresolvedReference, some .withinOnePool, some .duplicateName]) := by
  obtain ⟨linked, hlink, hr, hsight⟩ := hm.boundInSight.linkAll modes
  refine ⟨linked, hlink, hr, ?_, ?_, ?_, ?_⟩
  · intro h c s t hc hflow hs ht
    have hsource := hsight.poolOf?_eq hc .source hflow hs
    have htarget := hsight.poolOf?_eq hc .target hflow ht
    rw [hsource, htarget]
  · intro h c endpoint n hc hflow hn
    exact hsight.poolOf?_isSome hc endpoint hflow hn
  · intro d hd
    rcases hsight.mem_diagnostics hd with ⟨-, hcode⟩ | ⟨-, hcode⟩
    · refine ⟨?_, ?_, ?_⟩ <;> rintro heq <;> simp [heq] at hcode
    · refine ⟨?_, ?_, ?_⟩ <;> rintro heq <;> simp [heq] at hcode
  · intro rejection hrejected d hd
    obtain ⟨hmem, herror⟩ := List.mem_filter.mp hd
    rw [validate_eq_error hrejected] at hmem
    rcases hsight.mem_diagnostics hmem with ⟨-, hcode⟩ | ⟨hseverity, -⟩
    · exact hcode
    · rw [hseverity] at herror
      cases herror

end

/-- A flow from inside a lane to a node beside it, and a message flow to another pool. -/
def laneAndPools : List Declaration :=
  [.pool "P", .lane "L" (some ⟨0⟩), .node ⟨"A", .task none⟩ (some ⟨1⟩),
    .node ⟨"B", .task none⟩ (some ⟨0⟩),
    .connection ⟨⟨"A", none⟩, .sequence, ⟨"B", none⟩, none⟩ (some ⟨1⟩),
    .pool "Q", .node ⟨"C", .task none⟩ (some ⟨5⟩),
    .connection ⟨⟨"A", none⟩, .message, ⟨"C", none⟩, none⟩ none]

theorem laneAndPools_keeps_pools : (ofEdits (laneAndPools.map .declare)).Unbound ∧
    ∃ linked, (ofEdits (laneAndPools.map .declare)).linkAll [.laneLocal, .poolWide] = .ok linked ∧
      ∀ d ∈ linked.diagnostics, d.code ≠ some .crossesPools ∧ d.code ≠ some .mixesPooling ∧
        d.code ≠ some .endOutsidePools := by
  have hopen : (ofEdits (laneAndPools.map .declare)).Unbound := unbound_of_declarations (by decide)
  obtain ⟨linked, hlink, -, -, -, hcodes, -⟩ :=
    linkAll_keeps_pools _ hopen [.laneLocal, .poolWide]
  exact ⟨hopen, linked, hlink, hcodes⟩

end Model
end Bpmn
