import Bpmn.Proofs.Document.Drawing
import Bpmn.Proofs.Naming.Names
import Mathlib.Data.List.Perm.Subperm

/-!
# No identifier twice

A document carries the names of its entities, each once, and for what is drawn the name with a
mark behind it.  Names of different entities are different and end in a number, which a marked
name does not, so all identifiers of a document are different (`ids_distinct`).
-/

namespace Bpmn

open Model Naming

section

variable {m : Model}

namespace Assembly

/-! ## What is drawn -/

/-- Nothing is drawn twice or without a name of its own. -/
theorem drawnHandles_subperm : (drawnHandles m).Subperm (namedHandles m) := by
  have hboxed : ((Partition.ofModel m).processes.flatMap boxed).Perm
      ((Partition.ofModel m).processes.flatMap boxedPool ++ (Partition.ofModel m).nodes) :=
    (List.flatMap_append_perm _ _ _).symm
  have hpools : ((Partition.ofModel m).processes.flatMap boxedPool).Sublist m.busyPools := by
    rw [← Partition.pools_eq, Partition.pools]
    refine List.Sublist.flatMap_right _ fun p _ => ?_
    rw [boxedPool]
    split
    · exact List.nil_sublist _
    · exact List.Sublist.refl _
  refine List.subperm_ext_iff.mpr fun h _ => ?_
  have hboxed := hboxed.count_eq h
  have hpools := hpools.count_le h
  simp only [drawnHandles, namedHandles, List.count_append] at hboxed ⊢
  omega

theorem drawnHandles_nodup : (drawnHandles m).Nodup := by
  obtain ⟨list, hperm, hsub⟩ := drawnHandles_subperm (m := m)
  exact hperm.nodup_iff.mp (namedHandles_nodup.sublist hsub)

end Assembly

open Assembly

namespace Document

variable {placement : Placement}

def drawnId (m : Model) (h : Handle) : String :=
  Identifier.drawn ((Names.ofModel m).id (.element h))

theorem processes_ofModel : (ofModel m placement).processes =
    (Partition.ofModel m).processes.map (process m (Names.ofModel m)) := rfl

theorem collaboration_ofModel : (ofModel m placement).collaboration =
    collaboration? m (Names.ofModel m) (Partition.ofModel m)
      ((Partition.ofModel m).processes.map (process m (Names.ofModel m))) := rfl

theorem ids_processes : (ofModel m placement).processes.flatMap Process.ids =
    ((Partition.ofModel m).processes.flatMap (heldEntities m)).map (Names.ofModel m).id := by
  rw [processes_ofModel, List.flatMap_map, List.map_flatMap]
  exact List.flatMap_congr fun p hp => ids_process (wellFormed hp)

theorem ids_collaboration_sublist :
    ((ofModel m placement).collaboration.toList.flatMap Collaboration.ids).Sublist
      ((sharedEntities m).map (Names.ofModel m).id) := by
  cases hc : (ofModel m placement).collaboration with
  | none => exact List.nil_sublist _
  | some c =>
    rw [Option.toList_some, List.flatMap_singleton, ids_collaboration? hc]
    exact List.Sublist.refl _

theorem ids_diagram_sublist :
    ((ofModel m placement).diagram.toList.flatMap Diagram.ids).Sublist
      ([.diagram, .plane].map (Names.ofModel m).id ++ (drawnHandles m).map (drawnId m)) := by
  cases hd : (ofModel m placement).diagram with
  | none => exact List.nil_sublist _
  | some d =>
    obtain ⟨planeElement, _, hd⟩ := Option.bind_eq_some_iff.mp hd
    rw [Option.toList_some, List.flatMap_singleton, ids_diagram? hd]
    rfl

theorem names_nodup :
    ((entities m).map (Names.ofModel m).id ++ (drawnHandles m).map (drawnId m)).Nodup := by
  have hnamed : ∀ {h}, h ∈ drawnHandles m → .element h ∈ entities m := fun hh =>
    element_mem_entities.mpr (drawnHandles_subperm.subset hh)
  refine List.Nodup.append ?_ ?_ ?_
  · exact entities_nodup.map_on fun a ha b hb h => Names.id_inj ha hb h
  · refine drawnHandles_nodup.map_on fun a ha b hb h => ?_
    exact Entity.element.inj (Names.id_inj (hnamed ha) (hnamed hb) (Identifier.drawn_inj.mp h))
  · rw [List.disjoint_left]
    intro id hid hdrawn
    obtain ⟨e, he, rfl⟩ := List.mem_map.mp hid
    obtain ⟨h, _, hh⟩ := List.mem_map.mp hdrawn
    obtain ⟨base, n, hnumbered⟩ := Names.exists_numbered he
    exact Identifier.numbered_ne_drawn base _ n (hnumbered.symm.trans hh.symm)

theorem ids_sublist : (ofModel m placement).ids.Sublist
    ((entities m).map (Names.ofModel m).id ++ (drawnHandles m).map (drawnId m)) := by
  have hid : (ofModel m placement).id = (Names.ofModel m).id .document := by
    simp only [ofModel, assemble, Names.ofModel]
  rw [ids, hid, ids_processes, entities, List.map_cons, List.map_append, List.map_append,
    List.cons_append, List.append_assoc _ _ (List.map _ _)]
  rw [List.cons_sublist_cons]
  exact ((List.Sublist.refl _).append ids_collaboration_sublist).append ids_diagram_sublist

/-- All identifiers of a document are different. -/
theorem ids_distinct (m : Model) (placement : Placement) : (ofModel m placement).ids.Nodup :=
  List.Nodup.sublist ids_sublist names_nodup

end Document

end
end Bpmn
