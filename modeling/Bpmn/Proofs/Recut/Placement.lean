import Bpmn.Proofs.Recut.Basic

/-!
# Processes and boxes where pools are cut in another way

A process holds what is left below its pool without lanes, so the processes of a model do not
depend on how its pools are cut (`Reshapes.partition`).  A row of boxes depends on the kinds of the
nodes in it and not on their handles.
-/

namespace Bpmn

namespace Layout

variable {e : Handle → Handle} {m n : Model}

theorem kinds_map (hnode : ∀ h, n.node? (e h) = m.node? h) (hs : List Handle) :
    kinds n (hs.map e) = (kinds m hs).map (Prod.map e id) := by
  rw [kinds, List.filterMap_map, kinds, List.map_filterMap]
  refine List.filterMap_congr fun h _ => ?_
  rw [Function.comp_apply, hnode, Option.map_map]
  rfl

theorem cells_map (hnode : ∀ h, n.node? (e h) = m.node? h) (placement : Placement) (index : Nat)
    (hs : List Handle) :
    cells n placement index (hs.map e) = (cells m placement index hs).map (Prod.map e id) := by
  rw [cells, kinds_map hnode, cells, List.mapIdx_eq_zipIdx_map, List.zipIdx_map, List.map_map,
    List.mapIdx_eq_zipIdx_map, List.map_map]
  rfl

/-- A row for the same nodes under other handles has the same boxes. -/
theorem row_rename (he : Function.Injective e) (hnode : ∀ h, n.node? (e h) = m.node? h)
    (placement : Placement) (index : Nat) (p : ProcessOutline) :
    row n placement index (p.rename e) = (row m placement index p).rename e := by
  have hboxes : (row n placement index (p.rename e)).boxes =
      (row m placement index p).boxes.rename e := by
    show Table.insertAll [] (cells n placement index (p.nodes.map e)) =
      (Table.insertAll [] (cells m placement index p.nodes)).map (Prod.map e id)
    rw [cells_map hnode, Table.map_insertAll he, List.map_nil]
  have hbounds : (row n placement index (p.rename e)).boxes.map Prod.snd =
      (row m placement index p).boxes.map Prod.snd := by
    rw [hboxes, Boxes.rename, List.map_map]
    rfl
  have hpool : (row n placement index (p.rename e)).poolBounds =
      (row m placement index p).poolBounds := by
    show ((p.rename e).pool.bind fun _ => enclose placement.poolPadding
      ((row n placement index (p.rename e)).boxes.map Prod.snd)) = _
    rw [hbounds, ProcessOutline.rename, Option.bind_map]
    rfl
  rw [Row.rename, ← hboxes, ← hpool]

/-- The box of a pool, if it has a row with nodes in it. -/
def poolBounds? (p : Partition) (l : Layout) (pool : Handle) : Option Bounds :=
  ((p.processes.zip l.rows).find? fun x => x.1.pool == some pool).bind fun x => x.2.poolBounds

theorem poolBounds?_rename (he : Function.Injective e) (p : Partition) (l : Layout)
    (pool : Handle) :
    poolBounds? (p.rename e) (l.rename e) (e pool) = poolBounds? p l pool := by
  have hpool : ((fun x : ProcessOutline × Row => x.1.pool == some (e pool)) ∘
      Prod.map (ProcessOutline.rename e) (Row.rename e)) = fun x => x.1.pool == some pool := by
    funext x
    rw [Function.comp_apply, Bool.eq_iff_iff, beq_iff_eq, beq_iff_eq]
    exact (Option.map_injective he).eq_iff (b := some pool)
  rw [poolBounds?, zip_rename, List.find?_map, hpool, Option.bind_map, poolBounds?]
  rfl

theorem ofPartition_rename (he : Function.Injective e) (hnode : ∀ h, n.node? (e h) = m.node? h)
    (placement : Placement) (p : Partition) :
    ofPartition n (p.rename e) placement = (ofPartition m p placement).rename e := by
  have hrows : (p.processes.map (ProcessOutline.rename e)).mapIdx (row n placement) =
      (p.processes.mapIdx (row m placement)).map (Row.rename e) := by
    rw [List.mapIdx_eq_zipIdx_map, List.mapIdx_eq_zipIdx_map, List.zipIdx_map, List.map_map,
      List.map_map]
    exact List.map_congr_left fun x _ => row_rename he hnode placement x.2 x.1
  rw [ofPartition, Partition.rename, hrows, rename, ofPartition]

end Layout

namespace Model.Reshapes

variable {e : Handle → Handle} {m n : Model} (hr : Reshapes e m n)
include hr

/-! ## Processes -/

theorem busyPools : n.busyPools = m.busyPools.map e := by
  rw [Model.busyPools, hr.pools, List.filter_map, Model.busyPools]
  congr 1
  refine List.filter_congr fun p hp => ?_
  rw [Function.comp_apply, Bool.eq_iff_iff, Bool.not_eq_true', Bool.not_eq_true',
    List.isEmpty_eq_false_iff, List.isEmpty_eq_false_iff, Ne, Ne,
    hr.children_eq_nil_iff p (mem_pools.mp hp)]

theorem outside : Partition.outside n = (Partition.outside m).rename e := by
  rw [Partition.outside_eq, Partition.outside_eq, hr.roots, filter_map_eq hr.isNode,
    filter_map_eq hr.isFlow]
  rfl

theorem ofPool {p : Handle} (hp : m.isPool p = true) :
    Partition.ofPool n (e p) = (Partition.ofPool m p).rename e := by
  have hflows := hr.descendants_filter hr.isFlow
    (fun _ hf => isLeaf_of_isConnection (isConnection_of_isFlow hf))
    (fun _ hf => isLeaf_of_isConnection (isConnection_of_isFlow hf)) hp
  rw [Partition.ofPool, hr.nodesIn hp, hflows]
  rfl

theorem pooled : Partition.pooled n = (Partition.pooled m).map (ProcessOutline.rename e) := by
  rw [Partition.pooled_eq, Partition.pooled_eq, hr.busyPools, List.map_map, List.map_map]
  refine List.map_congr_left fun p hp => ?_
  exact hr.ofPool (mem_pools.mp (List.mem_filter.mp hp).1)

theorem partition : Partition.ofModel n = (Partition.ofModel m).rename e := by
  have hflows : (Partition.ofModel n).messageFlows = (Partition.ofModel m).messageFlows.map e := by
    rw [Partition.messageFlows_eq, Partition.messageFlows_eq]
    exact hr.walk_filter hr.isMessageFlow
      (fun _ hf => isLeaf_of_isConnection (isConnection_of_isMessageFlow hf))
      fun _ hf => isLeaf_of_isConnection (isConnection_of_isMessageFlow hf)
  have hprocesses : (Partition.ofModel n).processes =
      (Partition.ofModel m).processes.map (ProcessOutline.rename e) := by
    simp only [Partition.ofModel, hr.outside, hr.pooled, ProcessOutline.isEmpty_rename,
      List.isEmpty_map]
    rw [apply_ite (List.map (ProcessOutline.rename e))]
    rfl
  rw [Partition.rename, ← hflows, ← hprocesses]

theorem layout (placement : Placement) :
    Layout.ofPartition n (Partition.ofModel n) placement =
      (Layout.ofPartition m (Partition.ofModel m) placement).rename e := by
  rw [hr.partition, Layout.ofPartition_rename hr.injective hr.node?]

end Model.Reshapes
end Bpmn
