import Bpmn.Proofs.Document.Records

/-!
# Identifiers of nodes

Nodes are named before everything but the document, so their identifiers depend on nothing but their
names in the order of the partition (`nodeIds_by_names`).  What is named later, from lanes and pools
to flows, takes no identifier from a node, though it may have the same base.
-/

namespace Bpmn

open Model Naming Identifier

namespace Names

/-- The names of all nodes in the order of the partition. -/
def nodeBases (m : Model) : List String := (Partition.ofModel m).nodes.filterMap m.name?

theorem id_of_mem {names : Names} (hkeys : (names.map Prod.fst).Nodup) {e : Entity} {id : String}
    (h : (e, id) ∈ names) : names.id e = id := by
  have hid := mem_id (List.mem_map.mpr ⟨_, h, rfl⟩)
  exact congrArg Prod.snd (List.inj_on_of_nodup_map hkeys hid h rfl)

section

variable {m : Model}

/-- Every node has a name, so the names stand as the nodes do. -/
theorem map_nodeBases : (nodeBases m).map some = (Partition.ofModel m).nodes.map m.name? := by
  refine map_filterMap_eq fun n hn => ?_
  obtain ⟨name, hname⟩ := Option.isSome_iff_exists.mp
    (name?_isSome_of_isNode (Partition.mem_nodes.mp hn))
  exact ⟨name, hname, hname.symm⟩

theorem length_nodeBases : (nodeBases m).length = (Partition.ofModel m).nodes.length := by
  have hnames := congrArg List.length (map_nodeBases (m := m))
  rwa [List.length_map, List.length_map] at hnames

/-! ## What is named first -/

theorem keys_nodesFirst :
    (nodesFirst m).map Prod.fst = .document :: (Partition.ofModel m).nodes.map .element := by
  rw [nodesFirst, List.map_append, keys_nodes]
  rfl

theorem bases_nodesFirst : (nodesFirst m).map Prod.snd = "Definitions" :: nodeBases m := by
  have hnode : ∀ n, (named m n).map Prod.snd = (m.name? n).toList := by
    intro n
    rw [named, List.map_map]
    exact List.map_id' _
  rw [nodesFirst, List.map_append, List.map_flatMap, nodeBases, Partition.nodes,
    List.filterMap_eq_flatMap_toList, List.flatMap_assoc]
  refine congrArg (List.cons _) (List.flatMap_congr fun q _ => ?_)
  rw [List.map_flatMap]
  exact List.flatMap_congr fun n _ => hnode n

theorem nodup_keys_nodesFirst : ((nodesFirst m).map Prod.fst).Nodup := by
  rw [keys_nodesFirst]
  refine List.nodup_cons.mpr ⟨by simp, ?_⟩
  exact Partition.nodes_nodup.map fun _ _ => Entity.element.inj

/-- The nodes with what is issued for their names once the document has its own. -/
def nodeIds (m : Model) : Names :=
  ((Partition.ofModel m).nodes.map Entity.element).zip
    (Registry.issued ["Definitions"] (nodeBases m))

theorem assigned_nodesFirst :
    ∃ id, (Registry.empty.assignAll (nodesFirst m)).assigned = (.document, id) :: nodeIds m := by
  have hbase : sanitize "Definitions" = "Definitions" := by decide +kernel
  rw [Registry.assigned_assignAll_empty nodup_keys_nodesFirst, keys_nodesFirst, bases_nodesFirst,
    Registry.issued, hbase]
  exact ⟨_, rfl⟩

theorem id_of_mem_nodeIds {e : Entity} {id : String} (h : (e, id) ∈ nodeIds m) :
    (ofModel m).id e = id := by
  refine id_of_mem sound.keys_nodup (names_nodesFirst_isPrefix.subset ?_)
  obtain ⟨first, hfirst⟩ := assigned_nodesFirst (m := m)
  rw [hfirst]
  exact List.mem_cons_of_mem _ h

theorem ids_nodes : (Partition.ofModel m).nodes.map (fun n => (ofModel m).id (.element n)) =
    Registry.issued ["Definitions"] (nodeBases m) := by
  have hlength : ((Partition.ofModel m).nodes.map Entity.element).length =
      (Registry.issued ["Definitions"] (nodeBases m)).length := by
    rw [List.length_map, Registry.length_issued, length_nodeBases]
  calc (Partition.ofModel m).nodes.map (fun n => (ofModel m).id (.element n))
      = ((Partition.ofModel m).nodes.map Entity.element).map (ofModel m).id := by
        rw [List.map_map]
        rfl
    _ = (nodeIds m).map fun pair => (ofModel m).id pair.1 := by
        rw [← List.map_fst_zip hlength.le, List.map_map]
        rfl
    _ = (nodeIds m).map Prod.snd := List.map_congr_left fun _ hpair => id_of_mem_nodeIds hpair
    _ = Registry.issued ["Definitions"] (nodeBases m) := List.map_snd_zip hlength.ge

/-- How many of the first names look like some base. -/
theorem count_nodeBases (j : Nat) (base : String) :
    (((nodeBases m).map sanitize).take j).count base =
      ((Partition.ofModel m).nodes.take j).countP fun i =>
        (m.name? i).map sanitize = some base := by
  calc (((nodeBases m).map sanitize).take j).count base
      = ((nodeBases m).take j).countP fun name => sanitize name = base := by
        rw [← List.map_take, List.count, List.countP_map]
        exact List.countP_congr fun name _ => by simp
    _ = (((nodeBases m).map some).take j).countP fun name => name.map sanitize = some base := by
        rw [← List.map_take, List.countP_map]
        exact List.countP_congr fun name _ => by simp
    _ = ((Partition.ofModel m).nodes.take j).countP fun i =>
          (m.name? i).map sanitize = some base := by
        rw [map_nodeBases, ← List.map_take, List.countP_map]
        rfl

end
end Names

namespace Document

open Names

section

variable {m : Model} {placement : Placement}

theorem ids_allNodes_eq : (ofModel m placement).allNodes.map FlowNode.id =
    Registry.issued ["Definitions"] (nodeBases m) := ids_allNodes.trans ids_nodes

/-- The identifier of a record by the names of the nodes before it. -/
theorem id_allNodes {j : Nat} {a : FlowNode} (ha : (ofModel m placement).allNodes[j]? = some a)
    {name : String} (hname : (nodeBases m)[j]? = some name) :
    a.id = sanitize name ++ "_" ++ toString (1 + (if sanitize name = "Definitions" then 1 else 0) +
      ((Partition.ofModel m).nodes.take j).countP fun i =>
        (m.name? i).map sanitize = some (sanitize name)) := by
  have hspent : ["Definitions"].count (sanitize name) =
      if sanitize name = "Definitions" then 1 else 0 := by
    by_cases hbase : sanitize name = "Definitions"
    · simp [hbase]
    · simp [hbase, Ne.symm hbase]
  have hids : ((ofModel m placement).allNodes.map FlowNode.id)[j]? =
      (Registry.issued ["Definitions"] (nodeBases m))[j]? := by rw [ids_allNodes_eq]
  simp only [List.getElem?_map, ha, Registry.getElem?_issued, hname, Option.map_some,
    Option.some.injEq] at hids
  rw [hids, hspent, count_nodeBases, numbered]

end

/-- The identifiers of nodes can be told from the names of the nodes in the order of the partition.
Each is the name as it looks in identifiers, with a number that counts how often this was used by
then, for a node or for the document. -/
theorem nodeIds_by_names (m : Model) (placement : Placement) :
    (ofModel m placement).allNodes.length = (Partition.ofModel m).nodes.length ∧
    (∀ j n, (Partition.ofModel m).nodes[j]? = some n →
      ∃ a, (ofModel m placement).allNodes[j]? = some a ∧ m.node? n = some ⟨a.name, a.kind⟩ ∧
        a.id = sanitize a.name ++ "_" ++
          toString (1 + (if sanitize a.name = "Definitions" then 1 else 0) +
            ((Partition.ofModel m).nodes.take j).countP fun i =>
              (m.name? i).map sanitize = some (sanitize a.name))) ∧
    ∀ (other : Model) (otherPlacement : Placement),
      (Partition.ofModel m).nodes.map m.name? = (Partition.ofModel other).nodes.map other.name? →
      (ofModel m placement).allNodes.map FlowNode.id =
        (ofModel other otherPlacement).allNodes.map FlowNode.id := by
  have hrecords : List.Forall₂ _ (Partition.ofModel m).nodes (ofModel m placement).allNodes :=
    forall₂_allNodes
  refine ⟨hrecords.length_eq.symm, fun j n hn => ?_, fun other otherPlacement hnames => ?_⟩
  · obtain ⟨a, ha, -, hnode⟩ := exists_getElem?_of_forall₂ hrecords hn
    refine ⟨a, ha, hnode, id_allNodes ha ?_⟩
    have hname := congrArg (·[j]?) (map_nodeBases (m := m))
    simpa [hn, name?_eq_of_node? hnode] using hname
  · rw [← map_nodeBases, ← map_nodeBases] at hnames
    have hbases : nodeBases m = nodeBases other :=
      List.map_injective_iff.mpr (fun _ _ => Option.some.inj) hnames
    rw [ids_allNodes_eq, ids_allNodes_eq, hbases]

end Document
end Bpmn
