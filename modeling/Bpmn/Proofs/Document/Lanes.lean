import Bpmn.Document.Assembly
import Bpmn.Document.Listing
import Bpmn.Proofs.Lists
import Bpmn.Proofs.Naming.Entities

/-!
# Lanes of a document

A pool's lanes are assembled along its branches.  Listed with all lanes inside them they are the
lanes below the pool in tree order (`flattenAll_laneAt`), each a record of the lane it was made
from (`Records`).
-/

namespace Bpmn
namespace Lane

theorem flatten_eq (l : Lane) : l.flatten = l :: flattenAll l.lanes := by
  cases l with
  | whole => rfl
  | divided => rfl

theorem flattenAll_eq_flatMap (lanes : List Lane) : flattenAll lanes = lanes.flatMap flatten := by
  induction lanes with
  | nil => rfl
  | cons lane rest ih => rw [flattenAll, ih, List.flatMap_cons]

end Lane

namespace Assembly

open Model Naming

/-- The record of a lane, none for anything else. -/
def laneAt (m : Model) (names : Names) (h : Handle) : Option Lane := lane? m names (m.branch h)

/-- What a lane of a document says about a lane of the model. -/
structure Records (m : Model) (names : Names) (h : Handle) (l : Lane) : Prop where
  id : l.id = names.id (.element h)
  name : l.name = (m.name? h).getD ""
  refs : l.flowNodeRefs = (m.nodesIn h).filterMap (names.visibleFrom? h)
  lanes : l.lanes = (m.children h).filterMap (laneAt m names)
  laneSet : l.laneSetId?.toList = (laneSetEntities m h).map names.id

section

variable {m : Model} {names : Names}

theorem lanes_eq_flatMap (branches : List Branch) :
    lanes m names branches = branches.flatMap fun b => (lane? m names b).toList := by
  induction branches with
  | nil => rfl
  | cons b rest ih => rw [lanes, ih, List.flatMap_cons]

theorem lanes_branch (h : Handle) :
    lanes m names ((m.children h).map m.branch) = (m.children h).filterMap (laneAt m names) := by
  rw [lanes_eq_flatMap, List.flatMap_map, List.filterMap_eq_flatMap_toList]
  rfl

theorem laneAt_eq_none_iff {h : Handle} : laneAt m names h = none ↔ m.isLane h = false := by
  rw [laneAt, branch_eq, lane?]
  cases hl : m.isLane h with
  | true =>
    rw [if_pos rfl]
    dsimp only
    split <;> simp
  | false => simp

theorem isLane_of_laneAt {h : Handle} {l : Lane} (hl : laneAt m names h = some l) :
    m.isLane h = true := by
  cases hlane : m.isLane h with
  | true => rfl
  | false =>
    rw [laneAt_eq_none_iff.mpr hlane] at hl
    cases hl

theorem exists_laneAt (names : Names) {h : Handle} (hl : m.isLane h = true) :
    ∃ l, laneAt m names h = some l := by
  refine Option.ne_none_iff_exists'.mp fun hnone => ?_
  rw [laneAt_eq_none_iff.mp hnone] at hl
  cases hl

/-- Whatever is no lane has no record anyway. -/
theorem filterMap_laneAt (hs : List Handle) :
    (hs.filter m.isLane).filterMap (laneAt m names) = hs.filterMap (laneAt m names) := by
  rw [List.filterMap_filter]
  refine List.filterMap_congr fun c _ => ?_
  cases hl : m.isLane c with
  | true => rfl
  | false => exact (laneAt_eq_none_iff.mpr hl).symm

theorem forall₂_laneAt {R : Handle → Lane → Prop} {hs : List Handle}
    (hR : ∀ c ∈ hs, ∀ l, laneAt m names c = some l → R c l) :
    List.Forall₂ R (hs.filter m.isLane) (hs.filterMap (laneAt m names)) := by
  rw [← filterMap_laneAt]
  refine forall₂_filterMap fun c hc => ?_
  obtain ⟨hc, hlane⟩ := List.mem_filter.mp hc
  obtain ⟨l, hl⟩ := exists_laneAt names hlane
  exact ⟨l, hl, hR c hc l hl⟩

theorem laneSetEntities_of_nil {h : Handle}
    (hnil : (m.children h).filterMap (laneAt m names) = []) : laneSetEntities m h = [] := by
  rw [laneSetEntities, if_neg]
  rw [Bool.not_eq_true, List.any_eq_false]
  intro c hc
  rw [Bool.not_eq_true]
  exact laneAt_eq_none_iff.mp (List.filterMap_eq_nil_iff.mp hnil c hc)

theorem laneSetEntities_of_cons {h : Handle} {first : Lane} {rest : List Lane}
    (hcons : (m.children h).filterMap (laneAt m names) = first :: rest) :
    laneSetEntities m h = [.laneSet h] := by
  have hmem : first ∈ (m.children h).filterMap (laneAt m names) := by
    rw [hcons]
    exact List.mem_cons_self
  obtain ⟨c, hc, hlane⟩ := List.mem_filterMap.mp hmem
  rw [laneSetEntities, if_pos]
  exact List.any_eq_true.mpr ⟨c, hc, isLane_of_laneAt hlane⟩

theorem records_laneAt {h : Handle} {l : Lane} (hl : laneAt m names h = some l) :
    Records m names h l := by
  rw [laneAt, branch_eq, lane?, lanes_branch] at hl
  split at hl
  next =>
    dsimp only at hl
    split at hl
    next hnil =>
      obtain rfl := Option.some.inj hl
      refine ⟨rfl, rfl, rfl, hnil.symm, ?_⟩
      rw [laneSetEntities_of_nil hnil]
      rfl
    next first rest hcons =>
      obtain rfl := Option.some.inj hl
      refine ⟨rfl, rfl, rfl, hcons.symm, ?_⟩
      rw [laneSetEntities_of_cons hcons]
      rfl
  next => cases hl

/-- The lanes in a container, listed with all lanes inside them. -/
theorem flattenAll_laneAt (h : Handle) :
    Lane.flattenAll ((m.children h).filterMap (laneAt m names)) =
      (m.descendants h).filterMap (laneAt m names) := by
  induction h using inward (m := m) with
  | step h ih =>
    rw [Lane.flattenAll_eq_flatMap, descendants_eq, List.filterMap_flatMap,
      List.filterMap_eq_flatMap_toList, List.flatMap_assoc]
    refine List.flatMap_congr fun c hc => ?_
    cases hl : laneAt m names c with
    | none =>
      -- What stands in a container and is no lane has nothing below it.
      have hcontainer : m.isContainer c = false := by
        rw [isContainer_eq, laneAt_eq_none_iff.mp hl, Bool.or_false]
        exact isPool_eq_false_of_parent (mem_children.mp hc)
      rw [subtree, descendants_eq_nil hcontainer, List.filterMap_cons_none hl]
      rfl
    | some l =>
      rw [subtree, List.filterMap_cons_some hl, ← ih c hc, ← (records_laneAt hl).lanes,
        ← Lane.flatten_eq]
      exact List.append_nil _

theorem flattenAll_lanesIn (h : Handle) :
    Lane.flattenAll ((m.children h).filterMap (laneAt m names)) =
      (m.lanesIn h).filterMap (laneAt m names) := by
  rw [flattenAll_laneAt, lanesIn, filterMap_laneAt]

/-- There is a lane set in a container just if there are lanes directly in it. -/
theorem isSome_of_laneSetEntities {id : Option String} {h : Handle}
    (hid : id.toList = (laneSetEntities m h).map names.id) :
    id.isSome = (m.children h).any m.isLane := by
  rw [Bool.eq_iff_iff, ← Option.length_toList_eq_one_iff, hid, List.length_map, laneSetEntities]
  split
  next hany => exact iff_of_true rfl hany
  next hnone => exact iff_of_false Nat.zero_ne_one hnone

theorem exists_records (names : Names) {h c : Handle} (hc : c ∈ m.lanesIn h) :
    ∃ l, laneAt m names c = some l ∧ Records m names c l := by
  obtain ⟨l, hl⟩ := exists_laneAt names (List.mem_filter.mp hc).2
  exact ⟨l, hl, records_laneAt hl⟩

theorem Records.ids {h : Handle} {l : Lane} (hl : Records m names h l) :
    l.ids = (laneEntities m h).map names.id := by
  rw [Lane.ids, hl.id, hl.laneSet]
  rfl

/-! ## The lane set of a pool -/

theorem lanes_children (h : Handle) :
    lanes m names (m.branch h).children = (m.children h).filterMap (laneAt m names) := by
  rw [branch_eq, Branch.children, lanes_branch]

theorem ids_laneSet? (pool : Handle) :
    ((laneSet? m names pool).map LaneSet.id).toList = (laneSetEntities m pool).map names.id := by
  rw [laneSet?, lanes_children]
  split
  next hnil =>
    rw [laneSetEntities_of_nil hnil]
    rfl
  next first rest hcons =>
    rw [laneSetEntities_of_cons hcons]
    rfl

theorem laneSet?_isSome (pool : Handle) :
    (laneSet? m names pool).isSome = (m.children pool).any m.isLane := by
  rw [← Option.isSome_map (f := LaneSet.id), isSome_of_laneSetEntities (ids_laneSet? pool)]

theorem lanes_of_laneSet? {pool : Handle} {s : LaneSet} (hs : laneSet? m names pool = some s) :
    s.lanes = (m.children pool).filterMap (laneAt m names) := by
  rw [laneSet?, lanes_children] at hs
  split at hs
  next => cases hs
  next first rest hcons =>
    obtain rfl := Option.some.inj hs
    exact hcons.symm

theorem lanes_laneSet? (pool : Handle) :
    ((laneSet? m names pool).toList.flatMap fun s => Lane.flattenAll s.lanes) =
      (m.lanesIn pool).filterMap (laneAt m names) := by
  rw [← flattenAll_lanesIn, laneSet?, lanes_children]
  split
  next hnil =>
    rw [hnil]
    rfl
  next first rest hcons =>
    rw [hcons]
    exact List.append_nil _

end
end Assembly
end Bpmn
