import Bpmn.Proofs.Naming.Entities

/-!
# Each entity once

The entities of a model in the order of a document, which is not the order of naming.  A document
asks for each of them once (`entities_nodup`): sorted by kinds, the entities are one list of
handles for each kind, and no element of a model is in two processes or in one process twice.
-/

namespace Bpmn
namespace Naming

open Model

section

variable {m : Model}

/-! ## Handles with names -/

def laneHandles (m : Model) : List Handle := m.busyPools.flatMap m.lanesIn

/-- Lanes stand in busy pools only, and pool by pool they stand in tree order. -/
theorem laneHandles_eq : laneHandles m = m.walk.filter m.isLane := by
  have hroot : ∀ r ∈ m.roots, m.lanesIn r = (m.subtree r).filter m.isLane := by
    intro r hr
    have hnot : ¬ m.isLane r = true := fun hl => by
      obtain ⟨p, hp⟩ := exists_parent_of_isLane hl
      rw [(mem_roots.mp hr).2] at hp
      cases hp
    rw [lanesIn, subtree, List.filter_cons_of_neg hnot]
  have hpool : ∀ r ∈ m.roots, m.isPool r = false → m.lanesIn r = [] := by
    intro r hr hp
    have hsubtree := subtree_of_root (mem_roots.mp hr).2 hp
    rw [lanesIn, (List.cons.inj hsubtree).2, List.filter_nil]
  have hbusy : ∀ p ∈ m.roots.filter m.isPool, (!(m.children p).isEmpty) = false →
      m.lanesIn p = [] := by
    intro p _ hkids
    rw [Bool.not_eq_false', List.isEmpty_iff] at hkids
    rw [lanesIn, descendants_eq, hkids, List.flatMap_nil, List.filter_nil]
  rw [laneHandles, busyPools, pools, flatMap_filter_eq hbusy, flatMap_filter_eq hpool,
    List.flatMap_congr hroot, walk_eq, List.filter_flatMap]

/-- All handles that name entities of their own. -/
def namedHandles (m : Model) : List Handle :=
  (Partition.ofModel m).nodes ++ (laneHandles m ++ ((Partition.ofModel m).flows ++
    ((Partition.ofModel m).messageFlows ++ m.busyPools)))

section

variable {h : Handle}

theorem mem_namedHandles_of_isNode (hn : m.isNode h = true) : h ∈ namedHandles m :=
  List.mem_append_left _ (Partition.mem_nodes.mpr hn)

theorem mem_namedHandles_of_isLane (hl : m.isLane h = true) : h ∈ namedHandles m := by
  have hw : h ∈ m.walk := by
    obtain ⟨name, parent, he⟩ := isLane_iff.mp hl
    exact mem_walk.mpr (Arena.lt_size he)
  rw [namedHandles, laneHandles_eq]
  exact List.mem_append_right _ (List.mem_append_left _ (List.mem_filter.mpr ⟨hw, hl⟩))

theorem mem_namedHandles_of_isConnection (hc : m.isConnection h = true) : h ∈ namedHandles m := by
  rcases List.mem_append.mp (Partition.mem_connections.mpr hc) with hflow | hmessage
  · simp [namedHandles, hflow]
  · simp [namedHandles, hmessage]

theorem mem_namedHandles_of_mem_busyPools (hp : h ∈ m.busyPools) : h ∈ namedHandles m := by
  simp [namedHandles, hp]

end

theorem busyPools_sublist : m.busyPools.Sublist (m.walk.filter m.isPool) := by
  have hroots : m.busyPools.Sublist m.roots := by
    rw [busyPools, pools]
    exact List.filter_sublist.trans List.filter_sublist
  have h := (hroots.trans roots_sublist_walk).filter m.isPool
  rwa [List.filter_eq_self.mpr fun p hp => isPool_of_mem_busyPools hp] at h

/-- No handle names two entities. -/
theorem namedHandles_nodup : (namedHandles m).Nodup := by
  have hsorts := nodup_flatMap_filter m.walk_nodup (sorts_exclusive (m := m))
  simp only [List.flatMap_cons, List.flatMap_nil, List.append_nil] at hsorts
  have hperm : (namedHandles m).Perm (m.walk.filter m.isNode ++ (m.walk.filter m.isLane ++
      (m.walk.filter m.isFlow ++ (m.walk.filter m.isMessageFlow ++ m.busyPools)))) := by
    rw [namedHandles, laneHandles_eq, Partition.messageFlows_eq]
    exact Partition.nodes_perm.append ((Partition.flows_perm.append_right _).append_left _)
  refine hperm.nodup_iff.mpr (hsorts.sublist ?_)
  exact (((busyPools_sublist.append_left _).append_left _).append_left _).append_left _

/-! ## In the order of a document -/

def nodeEntities (m : Model) (node : Handle) : List Entity :=
  .element node :: eventEntities m node

/-- A process and all that it holds. -/
def heldEntities (m : Model) (p : ProcessOutline) : List Entity :=
  .process p.pool :: (p.pool.toList.flatMap (poolEntities m) ++
    p.nodes.flatMap (nodeEntities m) ++ p.flows.map .element)

def sharedEntities (m : Model) : List Entity :=
  .collaboration :: (m.busyPools.map .element ++ (Partition.ofModel m).messageFlows.map .element)

def entities (m : Model) : List Entity :=
  .document :: ((Partition.ofModel m).processes.flatMap (heldEntities m) ++ sharedEntities m ++
    [.diagram, .plane])

/-- A plan names what is in the document and nothing else. -/
theorem mem_keys_plan {e : Entity} :
    e ∈ (plan m (Partition.ofModel m)).map Prod.fst ↔ e ∈ entities m := by
  rw [keys_plan, entities]
  simp only [Partition.nodes, processEntities, heldEntities, sharedEntities, nodeEntities,
    List.mem_append, List.mem_cons, List.mem_map, List.mem_flatMap, List.not_mem_nil]
  grind

/-! ## Sorted by kinds -/

theorem poolEntities_perm :
    (m.busyPools.flatMap (poolEntities m)).Perm
      ((m.busyPools ++ laneHandles m).flatMap (laneSetEntities m) ++
        (laneHandles m).map .element) := by
  have hlanes : (m.busyPools.flatMap fun p => (m.lanesIn p).flatMap (laneEntities m)).Perm
      ((laneHandles m).flatMap (laneSetEntities m) ++ (laneHandles m).map .element) := by
    rw [← List.flatMap_assoc]
    exact (flatMap_cons_perm _ _ _).trans List.perm_append_comm
  rw [List.flatMap_append, List.append_assoc]
  exact (List.flatMap_append_perm m.busyPools _ _).symm.trans (hlanes.append_left _)

theorem heldEntities_perm :
    ((Partition.ofModel m).processes.flatMap (heldEntities m)).Perm
      ((Partition.ofModel m).processes.map (fun p => .process p.pool) ++
        (m.busyPools.flatMap (poolEntities m) ++
          ((Partition.ofModel m).nodes.map .element ++
            (Partition.ofModel m).nodes.flatMap (eventEntities m)) ++
          (Partition.ofModel m).flows.map .element)) := by
  refine (flatMap_cons_perm _ _ _).trans (List.Perm.append_left _ ?_)
  refine (List.flatMap_append_perm _ _ _).symm.trans (List.Perm.append ?_ ?_)
  · refine (List.flatMap_append_perm _ _ _).symm.trans (List.Perm.append ?_ ?_)
    · rw [← Partition.pools_eq, Partition.pools, List.flatMap_assoc]
    · rw [← List.flatMap_assoc]
      exact flatMap_cons_perm _ _ _
  · rw [Partition.flows, List.map_flatMap]

/-- The entities of a model, those of one kind after those of another. -/
def sortedEntities (m : Model) : List Entity :=
  [.document, .collaboration, .diagram, .plane] ++
    ((Partition.ofModel m).processes.map (fun p => .process p.pool) ++
      ((m.busyPools ++ laneHandles m).flatMap (laneSetEntities m) ++
        ((Partition.ofModel m).nodes.flatMap (eventEntities m) ++
          (namedHandles m).map .element)))

theorem entities_perm : (entities m).Perm (sortedEntities m) := by
  refine List.perm_iff_count.mpr fun e => ?_
  have hheld := (heldEntities_perm (m := m)).count_eq e
  have hpools := (poolEntities_perm (m := m)).count_eq e
  simp only [entities, sharedEntities, sortedEntities, namedHandles, List.cons_append,
    List.nil_append, List.count_cons, List.count_nil, List.count_append, List.map_append]
    at hheld hpools ⊢
  omega

/-! ## Nothing twice -/

theorem laneSetEntities_sublist (h : Handle) :
    (laneSetEntities m h).Sublist [.laneSet h] := by
  unfold laneSetEntities
  split
  · exact List.Sublist.refl _
  · exact List.nil_sublist _

theorem eventEntities_sublist (h : Handle) :
    (eventEntities m h).Sublist [.eventDefinition h] := by
  unfold eventEntities
  cases (m.node? h).bind fun n => n.kind.trigger? with
  | none => exact List.nil_sublist _
  | some t => exact List.Sublist.refl _

theorem map_process_nodup :
    ((Partition.ofModel m).processes.map fun p => Entity.process p.pool).Nodup := by
  have hpools : m.busyPools.Nodup :=
    (m.walk_nodup.filter m.isPool).sublist busyPools_sublist
  have hall : (none :: m.busyPools.map some).Nodup :=
    List.nodup_cons.mpr ⟨by simp, hpools.map fun _ _ => Option.some.inj⟩
  have h := (hall.sublist Partition.map_pool_sublist).map (f := Entity.process)
    fun _ _ => Entity.process.inj
  rwa [List.map_map] at h

theorem containers_nodup : (m.busyPools ++ laneHandles m).Nodup := by
  refine List.perm_append_comm.nodup_iff.mpr ((namedHandles_nodup (m := m)).sublist ?_)
  unfold namedHandles
  refine List.Sublist.trans ?_ (List.sublist_append_right _ _)
  refine List.Sublist.append_left ?_ _
  exact (List.sublist_append_right _ _).trans (List.sublist_append_right _ _)

/-- Each entity stands in a document once. -/
theorem entities_nodup : (entities m).Nodup := by
  -- As if every container had a lane set and every node an event definition.
  have hkinds : ([Entity.document, .collaboration, .diagram, .plane] ++
      ((Partition.ofModel m).processes.map (fun p => Entity.process p.pool) ++
        ((m.busyPools ++ laneHandles m).map Entity.laneSet ++
          ((Partition.ofModel m).nodes.map Entity.eventDefinition ++
            (namedHandles m).map Entity.element)))).Nodup := by
    have hsets := (containers_nodup (m := m)).map (f := Entity.laneSet)
      fun _ _ => Entity.laneSet.inj
    have hnodes : (Partition.ofModel m).nodes.Nodup :=
      namedHandles_nodup.sublist (List.sublist_append_left _ _)
    have hevents := hnodes.map (f := Entity.eventDefinition)
      fun _ _ => Entity.eventDefinition.inj
    have helements := (namedHandles_nodup (m := m)).map (f := Entity.element)
      fun _ _ => Entity.element.inj
    refine List.Nodup.append (by decide) (map_process_nodup.append (hsets.append
      (hevents.append helements ?_) ?_) ?_) ?_
    all_goals
      simp only [List.disjoint_left, List.mem_map, List.mem_append]
      grind
  have hsets : ((m.busyPools ++ laneHandles m).flatMap (laneSetEntities m)).Sublist
      ((m.busyPools ++ laneHandles m).map .laneSet) :=
    flatMap_sublist_map laneSetEntities_sublist _
  have hevents : ((Partition.ofModel m).nodes.flatMap (eventEntities m)).Sublist
      ((Partition.ofModel m).nodes.map .eventDefinition) :=
    flatMap_sublist_map eventEntities_sublist _
  refine entities_perm.nodup_iff.mpr (hkinds.sublist ?_)
  apply List.Sublist.append_left
  apply List.Sublist.append_left
  exact hsets.append (hevents.append (List.Sublist.refl _))

/-- An element has a name exactly if it is among the named ones. -/
theorem element_mem_entities {h : Handle} : .element h ∈ entities m ↔ h ∈ namedHandles m := by
  have hsets : ∀ container, .element h ∉ laneSetEntities m container := by
    intro container hmem
    have hsingle := (laneSetEntities_sublist container).subset hmem
    simp at hsingle
  have hevents : ∀ node, .element h ∉ eventEntities m node := by
    intro node hmem
    have hsingle := (eventEntities_sublist node).subset hmem
    simp at hsingle
  rw [entities_perm.mem_iff, sortedEntities]
  simp [hsets, hevents]

end
end Naming
end Bpmn
