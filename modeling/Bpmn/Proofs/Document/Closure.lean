import Bpmn.Proofs.Document.Uniqueness

/-!
# No reference into nothing

Whatever a reference is bound to, a document refers to it only if it has a name, and everything
with a name is in the document (`references_subset`).  So a reference of a document is the
identifier of a process, of the collaboration, or of something in them.
-/

namespace Bpmn

open Model Naming Assembly

namespace Document

section

variable {m : Model} {placement : Placement}

def namedIds (m : Model) : List String :=
  (namedHandles m).map fun h => (Names.ofModel m).id (.element h)

theorem mem_namedIds {h : Handle} (hh : h ∈ namedHandles m) :
    (Names.ofModel m).id (.element h) ∈ namedIds m := List.mem_map.mpr ⟨h, hh, rfl⟩

/-! ## What there is -/

theorem elementIds_of_mem {p : ProcessOutline} (hp : p ∈ (Partition.ofModel m).processes) :
    (process m (Names.ofModel m) p).elementIds = (Names.ofModel m).id (.process p.pool) ::
      (elements m p).map fun h => (Names.ofModel m).id (.element h) :=
  elementIds_process (wellFormed hp)

theorem mem_elementIds_of_process {p : ProcessOutline}
    (hp : p ∈ (Partition.ofModel m).processes) {id : String}
    (hid : id ∈ (process m (Names.ofModel m) p).elementIds) :
    id ∈ (ofModel m placement).elementIds := by
  apply List.mem_append_left
  rw [processes_ofModel, List.flatMap_map]
  exact List.mem_flatMap.mpr ⟨p, hp, hid⟩

theorem process_mem_elementIds {p : ProcessOutline} (hp : p ∈ (Partition.ofModel m).processes) :
    (Names.ofModel m).id (.process p.pool) ∈ (ofModel m placement).elementIds := by
  apply mem_elementIds_of_process hp
  rw [elementIds_of_mem hp]
  exact List.mem_cons_self

theorem element_mem_elementIds {p : ProcessOutline} (hp : p ∈ (Partition.ofModel m).processes)
    {h : Handle} (hh : h ∈ elements m p) :
    (Names.ofModel m).id (.element h) ∈ (ofModel m placement).elementIds := by
  apply mem_elementIds_of_process hp
  rw [elementIds_of_mem hp]
  exact List.mem_cons_of_mem _ (List.mem_map.mpr ⟨h, hh, rfl⟩)

theorem collaboration_mem_elementIds {c : Collaboration}
    (hc : (ofModel m placement).collaboration = some c) {id : String} (hid : id ∈ c.ids) :
    id ∈ (ofModel m placement).elementIds := by
  refine List.mem_append_right _ ?_
  rw [hc, Option.toList_some, List.flatMap_singleton]
  exact hid

theorem shared_mem_elementIds {h : Handle}
    (hh : h ∈ m.busyPools ∨ h ∈ (Partition.ofModel m).messageFlows) :
    (Names.ofModel m).id (.element h) ∈ (ofModel m placement).elementIds := by
  cases hc : (ofModel m placement).collaboration with
  | none =>
    -- Without a collaboration there is no such element either.
    obtain ⟨hpools, hflows⟩ := collaboration?_eq_none_iff.mp hc
    rw [hpools, hflows] at hh
    simp at hh
  | some c =>
    refine collaboration_mem_elementIds hc ?_
    rw [ids_collaboration? hc]
    refine List.mem_map.mpr ⟨.element h, ?_, rfl⟩
    simpa [sharedEntities] using hh

/-- What has a name is in the document. -/
theorem namedIds_subset : namedIds m ⊆ (ofModel m placement).elementIds := by
  intro id hid
  obtain ⟨h, hh, rfl⟩ := List.mem_map.mp hid
  simp only [namedHandles, List.mem_append] at hh
  rcases hh with hnode | hlane | hflow | hmessage | hpool
  · obtain ⟨p, hp, hh⟩ := List.mem_flatMap.mp hnode
    exact element_mem_elementIds hp (List.mem_append_left _ (List.mem_append_right _ hh))
  · rw [laneHandles, ← Partition.pools_eq, Partition.pools, List.flatMap_assoc] at hlane
    obtain ⟨p, hp, hh⟩ := List.mem_flatMap.mp hlane
    exact element_mem_elementIds hp (List.mem_append_left _ (List.mem_append_left _ hh))
  · obtain ⟨p, hp, hh⟩ := List.mem_flatMap.mp hflow
    exact element_mem_elementIds hp (List.mem_append_right _ hh)
  · exact shared_mem_elementIds (.inr hmessage)
  · exact shared_mem_elementIds (.inl hpool)

/-! ## What is referred to -/

theorem flows_references_subset (hs : List Handle) :
    (flows m (Names.ofModel m) hs).flatMap Flow.references ⊆ namedIds m := by
  intro id hid
  obtain ⟨f, hf, hid⟩ := List.mem_flatMap.mp hid
  obtain ⟨h, _, hf⟩ := List.mem_filterMap.mp hf
  obtain ⟨c, _, rfl⟩ := Option.map_eq_some_iff.mp hf
  have hseen : ∀ reference : Reference,
      id ∈ (reference.bound.bind ((Names.ofModel m).visibleFrom? h)).toList → id ∈ namedIds m := by
    intro reference hr
    obtain ⟨target, _, hv⟩ := Option.bind_eq_some_iff.mp (Option.mem_toList.mp hr)
    obtain ⟨hkey, rfl⟩ := Names.visibleFrom?_eq_some hv
    exact mem_namedIds (element_mem_entities.mp (Names.mem_keys.mp hkey))
  rcases List.mem_append.mp hid with hid | hid
  · exact hseen c.source hid
  · exact hseen c.target hid

theorem lanes_references_subset {p : ProcessOutline} :
    (process m (Names.ofModel m) p).lanes.flatMap Lane.flowNodeRefs ⊆ namedIds m := by
  intro id hid
  obtain ⟨l, hl, hid⟩ := List.mem_flatMap.mp hid
  rw [lanes_process] at hl
  obtain ⟨c, _, hl⟩ := List.mem_filterMap.mp hl
  rw [(records_laneAt hl).refs] at hid
  obtain ⟨n, hn, hid⟩ := List.mem_filterMap.mp hid
  rw [← (Names.visibleFrom?_eq_some hid).2]
  exact mem_namedIds (mem_namedHandles_of_isNode (List.mem_filter.mp hn).2)

theorem meeting_subset {p : ProcessOutline} (hp : p ∈ (Partition.ofModel m).processes)
    (endpoint : Endpoint) (node : Handle) :
    meeting m (Names.ofModel m) p.flows endpoint node ⊆ namedIds m := by
  intro id hid
  obtain ⟨f, hf, rfl⟩ := List.mem_map.mp hid
  have hflow := Partition.isFlow_of_mem_flows hp (List.mem_filter.mp hf).1
  exact mem_namedIds (mem_namedHandles_of_isConnection (isConnection_of_isFlow hflow))

theorem nodes_references_subset {p : ProcessOutline}
    (hp : p ∈ (Partition.ofModel m).processes) :
    (process m (Names.ofModel m) p).nodes.flatMap FlowNode.references ⊆ namedIds m := by
  intro id hid
  obtain ⟨node, hnode, hid⟩ := List.mem_flatMap.mp hid
  rw [nodes_process (wellFormed hp)] at hnode
  obtain ⟨h, _, hnode⟩ := List.mem_filterMap.mp hnode
  obtain ⟨n, _, rfl⟩ := Option.map_eq_some_iff.mp hnode
  rcases List.mem_append.mp hid with hid | hid
  · exact meeting_subset hp .target h hid
  · exact meeting_subset hp .source h hid

theorem process_references_subset {p : ProcessOutline}
    (hp : p ∈ (Partition.ofModel m).processes) :
    (process m (Names.ofModel m) p).references ⊆ namedIds m := by
  unfold Process.references
  exact List.append_subset.mpr ⟨List.append_subset.mpr
    ⟨lanes_references_subset, nodes_references_subset hp⟩, flows_references_subset p.flows⟩

theorem collaboration_references_subset {c : Collaboration}
    (hc : (ofModel m placement).collaboration = some c) :
    c.references ⊆ (ofModel m placement).elementIds := by
  have hparticipants : c.participants.map Participant.processRef =
      m.busyPools.map fun pool => (Names.ofModel m).id (.process (some pool)) := by
    rw [eq_of_collaboration? hc]
    exact processRef_participants
  have hflows : c.messageFlows.flatMap Flow.references ⊆ (ofModel m placement).elementIds := by
    rw [eq_of_collaboration? hc]
    exact List.Subset.trans (flows_references_subset _) namedIds_subset
  rw [Collaboration.references, hparticipants]
  refine List.append_subset.mpr ⟨fun id hid => ?_, hflows⟩
  obtain ⟨pool, hpool, rfl⟩ := List.mem_map.mp hid
  rw [← Partition.pools_eq] at hpool
  obtain ⟨p, hp, hpool⟩ := List.mem_flatMap.mp hpool
  rw [← Option.mem_toList.mp hpool]
  exact process_mem_elementIds hp

/-- A diagram is on the collaboration or on a process of the document. -/
theorem planeElement_mem_elementIds {planeElement : String}
    (h : ((ofModel m placement).collaboration.map Collaboration.id).or
      ((ofModel m placement).processes.head?.map Process.id) = some planeElement) :
    planeElement ∈ (ofModel m placement).elementIds := by
  cases hc : (ofModel m placement).collaboration with
  | some c =>
    rw [hc, Option.map_some, Option.some_or] at h
    obtain rfl := Option.some.inj h
    exact collaboration_mem_elementIds hc List.mem_cons_self
  | none =>
    rw [hc, Option.map_none, Option.none_or] at h
    obtain ⟨process, hprocess, rfl⟩ := Option.map_eq_some_iff.mp h
    refine List.mem_append_left _ (List.mem_flatMap.mpr ⟨process, ?_, List.mem_cons_self⟩)
    exact List.mem_of_head? hprocess

theorem diagram_references_subset {d : Diagram} (hd : (ofModel m placement).diagram = some d) :
    d.references ⊆ (ofModel m placement).elementIds := by
  obtain ⟨planeElement, hplane, hd⟩ := Option.bind_eq_some_iff.mp hd
  rw [references_diagram? hd]
  refine List.cons_subset.mpr ⟨planeElement_mem_elementIds hplane, fun id hid => ?_⟩
  obtain ⟨h, hh, rfl⟩ := List.mem_map.mp hid
  exact namedIds_subset (mem_namedIds (drawnHandles_subperm.subset hh))

/-- Every reference of a document is the identifier of an element in it. -/
theorem references_subset (m : Model) (placement : Placement) :
    (ofModel m placement).references ⊆ (ofModel m placement).elementIds := by
  refine List.append_subset.mpr ⟨List.append_subset.mpr ⟨?_, ?_⟩, ?_⟩
  · intro id hid
    obtain ⟨record, hrecord, hid⟩ := List.mem_flatMap.mp hid
    obtain ⟨p, hp, rfl⟩ := List.mem_map.mp hrecord
    exact namedIds_subset (process_references_subset hp hid)
  · intro id hid
    obtain ⟨c, hc, hid⟩ := List.mem_flatMap.mp hid
    exact collaboration_references_subset (Option.mem_toList.mp hc) hid
  · intro id hid
    obtain ⟨d, hd, hid⟩ := List.mem_flatMap.mp hid
    exact diagram_references_subset (Option.mem_toList.mp hd) hid

end
end Document
end Bpmn
