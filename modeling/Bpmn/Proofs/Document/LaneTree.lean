import Bpmn.Proofs.Document.Aim

/-!
# The lanes of a document as a tree

The lanes of a document are nested as those of its model and stand in the same order
(`lanes_mirror_tree`).  A lane refers to all nodes below it.  What is below it is looked for going
down from the lane, and as going down and going up are dual, it comes to the nodes that have the
lane above them.  A lane inside another one is above fewer nodes, so it refers to no more than the
outer one does.
-/

namespace Bpmn

open Model Naming Assembly

namespace Document

/-- The record of a lane, with the records of the lanes directly in it. -/
inductive Mirrors (m : Model) : Handle → Lane → Prop where
  | lane {h : Handle} {a : Lane} (isLane : m.isLane h = true) (id : a.id = elementId m h)
      (name : m.name? h = some a.name)
      (refs : a.flowNodeRefs =
        ((m.walk.filter m.isNode).filter fun n => decide (h ∈ m.ancestors n)).map (elementId m))
      (laneSet : a.laneSetId?.isSome = (m.children h).any m.isLane)
      (lanes : List.Forall₂ (Mirrors m) ((m.children h).filter m.isLane) a.lanes) : Mirrors m h a

/-- A process with a lane set just if there are lanes directly in its pool, and with records of
these lanes. -/
structure DividedAs (m : Model) (q : ProcessOutline) (p : Process) : Prop where
  laneSet : p.laneSet.isSome = q.pool.any fun pool => (m.children pool).any m.isLane
  lanes : ∀ pool s, q.pool = some pool → p.laneSet = some s →
    List.Forall₂ (Mirrors m) ((m.children pool).filter m.isLane) s.lanes

section

variable {m : Model} {placement : Placement} {h : Handle} {a : Lane}

/-! ## One lane -/

/-- A lane gets its name after all nodes, so it refers to each of those below it. -/
theorem refs_laneAt (ha : laneAt m (Names.ofModel m) h = some a) :
    a.flowNodeRefs = (m.nodesIn h).map (elementId m) := by
  rw [(records_laneAt ha).refs, ← List.filterMap_eq_map']
  refine List.filterMap_congr fun n hn => ?_
  exact Names.visibleFrom?_of_isNode (isNode_of_isLane (isLane_of_laneAt ha)) (mem_nodesIn.mp hn).2

theorem count_refs_laneAt (ha : laneAt m (Names.ofModel m) h = some a) {n : Handle}
    (hn : m.isNode n = true) :
    a.flowNodeRefs.count (elementId m n) = if h ∈ m.ancestors n then 1 else 0 := by
  have hnodes : (m.nodesIn h).Nodup := walk_nodup.sublist (nodesIn_sublist_walk h)
  have hinj : ∀ x ∈ m.nodesIn h, elementId m x = elementId m n → x = n :=
    fun x hx => elementId_inj_of_isNode (mem_nodesIn.mp hx).2 hn
  rw [refs_laneAt ha, count_map_eq hnodes hinj]
  simp only [mem_nodesIn, hn, and_true]

/-! ## Lanes in lanes -/

theorem mirrors_laneAt (ha : laneAt m (Names.ofModel m) h = some a) : Mirrors m h a := by
  induction h using inward (m := m) generalizing a with
  | step h ih =>
    have hl := isLane_of_laneAt ha
    have hrecords := records_laneAt ha
    refine .lane hl hrecords.id ?_ ?_ (isSome_of_laneSetEntities hrecords.laneSet) ?_
    · obtain ⟨name, hname⟩ := Option.isSome_iff_exists.mp (name?_isSome_of_isLane hl)
      rw [hrecords.name, hname, Option.getD_some]
    · rw [refs_laneAt ha, nodesIn_eq]
    · rw [hrecords.lanes]
      exact forall₂_laneAt fun c hc b hb => ih c hc hb

/-- A lane anywhere inside another one is recorded of an element below. -/
theorem exists_laneAt_of_mem {b : Lane} (ha : laneAt m (Names.ofModel m) h = some a)
    (hb : b ∈ Lane.flattenAll a.lanes) :
    ∃ k, h ∈ m.ancestors k ∧ laneAt m (Names.ofModel m) k = some b := by
  rw [(records_laneAt ha).lanes, flattenAll_laneAt] at hb
  obtain ⟨k, hk, hb⟩ := List.mem_filterMap.mp hb
  exact ⟨k, mem_descendants.mp hk, hb⟩

theorem refs_sublist {b : Lane} (ha : laneAt m (Names.ofModel m) h = some a)
    (hb : b ∈ Lane.flattenAll a.lanes) : b.flowNodeRefs.Sublist a.flowNodeRefs := by
  obtain ⟨k, hk, hb⟩ := exists_laneAt_of_mem ha hb
  rw [refs_laneAt ha, refs_laneAt hb]
  exact (nodesIn_sublist hk).map _

/-! ## All lanes -/

theorem dividedAs_process (q : ProcessOutline) :
    DividedAs m q (process m (Names.ofModel m) q) where
  laneSet := by
    rw [process]
    cases q.pool with
    | none => rfl
    | some pool => exact laneSet?_isSome pool
  lanes pool s hpool hs := by
    rw [process, hpool] at hs
    rw [lanes_of_laneSet? hs]
    exact forall₂_laneAt fun c _ a ha => mirrors_laneAt ha

theorem allLanes_eq : (ofModel m placement).allLanes =
    m.walk.filterMap (laneAt m (Names.ofModel m)) := by
  rw [allLanes_ofModel, laneHandles_eq, filterMap_laneAt]

theorem ids_allLanes_nodup : ((ofModel m placement).allLanes.map Lane.id).Nodup := by
  have hids : (ofModel m placement).allLanes.map Lane.id =
      (m.walk.filter m.isLane).map (elementId m) := by
    rw [allLanes_ofModel, laneHandles_eq]
    refine map_filterMap_eq fun x hx => ?_
    obtain ⟨a, ha⟩ := exists_laneAt (Names.ofModel m) (List.mem_filter.mp hx).2
    exact ⟨a, ha, (records_laneAt ha).id⟩
  have hnamed : ∀ x ∈ m.walk.filter m.isLane, x ∈ namedHandles m :=
    fun x hx => mem_namedHandles_of_isLane (List.mem_filter.mp hx).2
  rw [hids]
  exact (walk_nodup.filter _).map_on fun x hx y hy hid =>
    elementId_inj (hnamed x hx) (hnamed y hy) hid

end

/-- The lanes of a document are those of its model, each once.  Directly in a pool or in a lane
stand the same lanes as there, in the same order, and a lane refers once to each node that it is
above and to nothing else, in tree order.  So no lane refers to a node that a lane around it does
not refer to. -/
theorem lanes_mirror_tree (m : Model) (placement : Placement) :
    List.Forall₂ (DividedAs m) (Partition.ofModel m).processes (ofModel m placement).processes ∧
      List.Forall₂
        (fun l a => Mirrors m l a ∧ ∀ n, m.isNode n = true →
          a.flowNodeRefs.count (elementId m n) = if l ∈ m.ancestors n then 1 else 0)
        (m.walk.filter m.isLane) (ofModel m placement).allLanes ∧
      ((ofModel m placement).allLanes.map Lane.id).Nodup ∧
      ∀ a ∈ (ofModel m placement).allLanes, ∀ b ∈ Lane.flattenAll a.lanes,
        b.flowNodeRefs.Sublist a.flowNodeRefs := by
  refine ⟨?_, ?_, ids_allLanes_nodup, ?_⟩
  · rw [processes_ofModel, List.forall₂_map_right_iff, List.forall₂_same]
    exact fun q _ => dividedAs_process q
  · rw [allLanes_eq]
    exact forall₂_laneAt fun l _ a ha => ⟨mirrors_laneAt ha, fun n hn => count_refs_laneAt ha hn⟩
  · intro a ha b hb
    rw [allLanes_eq] at ha
    obtain ⟨l, -, hl⟩ := List.mem_filterMap.mp ha
    exact refs_sublist hl hb

end Document
end Bpmn
