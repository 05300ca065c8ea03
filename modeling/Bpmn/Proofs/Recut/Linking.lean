import Bpmn.Proofs.Recut.Basic
import Mathlib.Data.List.Find

/-!
# Linking where pools are cut in another way

With lanes that hide nothing, a connection sees what is in its pool, or what stands at the top
level if it has none.  So candidates do not depend on how pools are cut, and neither does what an
end is resolved to.  Where what ends are resolved to is the same, in whatever mode, linking makes
the same of both models (`Reshapes.link`).
-/

namespace Bpmn
namespace Model

section

variable {m : Model}

/-- What a connection sees that lanes hide nothing from. -/
theorem localScope_poolWide (h : Handle) : m.localScope .poolWide h =
    match m.poolOf? h with
    | none => m.roots.filter m.isNode
    | some p => m.nodesIn p := by
  rw [localScope, containerOf?_eq]
  cases hp : m.parent? h with
  | none => rw [poolOf?_of_root hp]
  | some p =>
    cases hpool : m.isPool p with
    | true =>
      have hl := not_isLane_of_isPool hpool
      simp [hl, poolOf?_of_pool hp hpool]
    | false =>
      have hl : m.isLane p = true := by
        have hcontainer := parent_isContainer hp
        rwa [isContainer_eq, hpool, Bool.false_or] at hcontainer
      have hin : m.poolOf? h ≠ none := by
        rw [Ne, poolOf?_eq_none_iff, hp]
        exact Option.some_ne_none p
      obtain ⟨q, hq⟩ := Option.ne_none_iff_exists'.mp hin
      rw [poolOf?_of_lane hp hpool] at hq ⊢
      simp [hl, hq]

end

/-- A connection that is the same under other handles stays so if its ends are bound to the same. -/
theorem Rebound.connection?_rename {m n m' n' : Model} (hm : Rebound m m') (hn : Rebound n n')
    {e : Handle → Handle} {h g : Handle}
    (hc : n.connection? g = (m.connection? h).map (Connection.rename e))
    (hb : ∀ endpoint, n'.binding? g endpoint = (m'.binding? h endpoint).map e) :
    n'.connection? g = (m'.connection? h).map (Connection.rename e) := by
  cases hmc : m.connection? h with
  | none =>
    rw [hmc, Option.map_none] at hc
    rw [hm.connection?_eq_none hmc, hn.connection?_eq_none hc, Option.map_none]
  | some c =>
    rw [hmc, Option.map_some] at hc
    obtain ⟨d, hd, hdc⟩ := hm.connection?_eq_some hmc
    obtain ⟨d', hd', hdc'⟩ := hn.connection?_eq_some hc
    rw [hd, hd', Option.map_some, Option.some_inj]
    refine Connection.eq_of_unbound ?_ fun endpoint => ?_
    · rw [hdc', Connection.unbound_rename, Connection.unbound_rename, hdc]
    · have hsame := hb endpoint
      rw [binding?, binding?, hd, hd', Option.bind_some, Option.bind_some] at hsame
      rw [hsame, Connection.bound_rename]

namespace Reshapes

section

variable {e : Handle → Handle} {m n : Model} (hr : Reshapes e m n)
include hr

/-! ## Scopes that lanes do not narrow -/

theorem localScope {h : Handle} (hh : h ∈ m.nonLanes) :
    n.localScope .poolWide (e h) = (m.localScope .poolWide h).map e := by
  rw [localScope_poolWide, localScope_poolWide, hr.poolOf? hh]
  cases hp : m.poolOf? h with
  | none => rw [Option.map_none, hr.roots, filter_map_eq hr.isNode]
  | some p => exact hr.nodesIn (poolOf?_eq_some_iff.mp hp).2

theorem messageScope : n.messageScope .poolWide = (m.messageScope .poolWide).map e := by
  rw [Model.messageScope, Model.messageScope, hr.pools, List.flatMap_map, List.map_flatMap]
  exact List.flatMap_congr fun p hp => hr.nodesIn (mem_pools.mp hp)

theorem candidates (h : Handle) :
    n.candidates .poolWide (e h) = (m.candidates .poolWide h).map e := by
  rw [Model.candidates, Model.candidates, hr.connection?]
  cases hc : m.connection? h with
  | none => rfl
  | some c =>
    have hh : h ∈ m.nonLanes := mem_nonLanes_of_isConnection (by rw [Model.isConnection, hc]; rfl)
    simp only [Option.map_some, Connection.isMessageFlow_rename]
    rw [apply_ite (List.map e), hr.messageScope, hr.localScope hh]
    rfl

/-! ## What names mean -/

theorem name?_of_isNode {h : Handle} (hn : m.isNode h = true) : n.name? (e h) = m.name? h :=
  hr.name? h (mem_nonLanes_of_isNode hn).2

/-- Where candidates are the same, so is what an end is resolved to. -/
theorem resolve_of_candidates {mode : Visibility} {h : Handle}
    (hc : n.candidates mode (e h) = (m.candidates mode h).map e) (endpoint : Endpoint) :
    n.resolve mode (e h) endpoint = (m.resolve mode h endpoint).map e := by
  rw [Model.resolve, Model.resolve, hr.connection?]
  cases m.connection? h with
  | none => rfl
  | some c =>
    simp only [Option.map_some, Connection.text_rename]
    rw [hc, List.find?_map]
    congr 1
    refine List.find?_congr fun x hx => ?_
    rw [Function.comp_apply, hr.name?_of_isNode (mem_candidates.mp hx).1]

/-! ## The whole pass -/

theorem endpoints : n.endpoints = m.endpoints.map (Prod.map e id) := by
  rw [Model.endpoints, hr.connections, List.flatMap_map, Model.endpoints, List.map_flatMap]
  refine List.flatMap_congr fun h _ => ?_
  rw [List.map_map]
  rfl

theorem isUnbound (h : Handle) (endpoint : Endpoint) :
    n.isUnbound (e h) endpoint = m.isUnbound h endpoint := by
  rw [Bool.eq_iff_iff, isUnbound_iff, isUnbound_iff, hr.isConnection, hr.binding?,
    Option.map_eq_none_iff]

theorem unboundEnds : n.unboundEnds = m.unboundEnds.map (Prod.map e id) := by
  rw [Model.unboundEnds, hr.endpoints, filter_map_eq (fun p => hr.isUnbound p.1 p.2),
    Model.unboundEnds]

/-- Where ends are resolved to the same, linking reports the same and binds the same. -/
theorem link {mode : Visibility}
    (hres : ∀ h endpoint, n.resolve mode (e h) endpoint = (m.resolve mode h endpoint).map e) :
    ∃ m' n' report, m.link mode = .ok (m', report) ∧ n.link mode = .ok (n', report.rename e) ∧
      Rebound m m' ∧ Rebound n n' ∧
      (∀ h, n'.connection? (e h) = (m'.connection? h).map (Connection.rename e)) ∧
      (∀ h endpoint, m'.binding? h endpoint =
        (m.binding? h endpoint).or (m.resolve mode h endpoint)) ∧
      ∀ place ∈ report.unresolved, m.isConnection place.1 = true := by
  obtain ⟨m', hm, hrm, hmbound⟩ := link_eq m mode
  obtain ⟨n', hn, hrn, hnbound⟩ := link_eq n mode
  have hresolves : ∀ p, n.resolves mode (Prod.map e id p) = m.resolves mode p := by
    intro p
    rw [Model.resolves, Model.resolves, Prod.map, hres, Option.isSome_map]
    rfl
  refine ⟨m', n', _, hm, ?_, hrm, hrn, fun h => ?_, hmbound, fun place hp => ?_⟩
  · rw [hn, hr.unboundEnds, filter_map_eq hresolves, List.length_map,
      filter_map_eq (q := fun p => !n.resolves mode p) fun p => congrArg not (hresolves p)]
    rfl
  · refine hrm.connection?_rename hrn (hr.connection? h) fun endpoint => ?_
    rw [hnbound, hr.binding?, hres, hmbound, Option.map_or]
  · exact mem_endpoints.mp (List.mem_filter.mp (List.mem_filter.mp hp).1).1

/-- The same for a renaming of some elements, among them all but lanes.  Linked models are alike on
these again. -/
theorem link_alike {s : Handle → Handle} {A B : Set Handle} (ha : Alike s A B m n)
    (he : Set.EqOn e s A) (hA : m.nonLanes ⊆ A) (hm : m.BoundWithin A) {mode : Visibility}
    (hres : ∀ h endpoint, n.resolve mode (e h) endpoint = (m.resolve mode h endpoint).map e) :
    ∃ m' n' report, m.link mode = .ok (m', report) ∧ n.link mode = .ok (n', report.rename s) ∧
      Rebound m m' ∧ Rebound n n' ∧ Alike s A B m' n' ∧ m'.BoundWithin A := by
  obtain ⟨m', n', report, hlinkm, hlinkn, hrm, hrn, hconnection, hbound, hreport⟩ := hr.link hres
  have hwithin : m'.BoundWithin A := hm.link hA hbound
  have hrename : report.rename e = report.rename s := Linkage.rename_congr fun place hp =>
    he (hA (mem_nonLanes_of_isConnection (hreport place hp)))
  have halike : Alike e A B m' n' := (ha.congr he hm).rebound hrm hrn fun h _ => hconnection h
  exact ⟨m', n', report, hlinkm, hrename ▸ hlinkn, hrm, hrn, halike.congr he.symm hwithin, hwithin⟩

end
end Reshapes
end Model
end Bpmn
