import Bpmn.Proofs.Document.Messages
import Bpmn.Proofs.Document.Records

/-!
# Participants and their processes

Each process of a partition is made into one of the document, and they stand in the same order.  A
participant refers to the process at the place of the one that the partition has for its pool, so
no two participants share a process and none has the process outside pools
(`collaboration_fits_processes`).
-/

namespace Bpmn

open Model Naming Assembly

namespace Document

/-- A process with the nodes and the flows of an outline. -/
structure MadeOf (m : Model) (q : ProcessOutline) (p : Process) : Prop where
  nodes : p.nodes.map FlowNode.id = q.nodes.map (elementId m)
  flows : p.flows.map Flow.id = q.flows.map (elementId m)

/-- The participant for a pool.  Its process stands where the partition has the one of the pool. -/
structure TakesPart (m : Model) (d : Document) (pool : Handle) (a : Participant) : Prop where
  id : a.id = elementId m pool
  name : m.name? pool = some a.name
  process : ∃ q p, (q, p) ∈ (Partition.ofModel m).processes.zip d.processes ∧
    q.pool = some pool ∧ a.processRef = p.id

/-- A collaboration of the pools in which anything stands, in the order of declaration, with the
message flows of a model in tree order. -/
structure Gathers (m : Model) (d : Document) (c : Collaboration) : Prop where
  participants : List.Forall₂ (TakesPart m d)
    (m.handles.filter fun h => m.isPool h && !(m.children h).isEmpty) c.participants
  processRefs : (c.participants.map Participant.processRef).Nodup
  /-- The process outside pools has no participant. -/
  pooled : ∀ q p, (q, p) ∈ (Partition.ofModel m).processes.zip d.processes → q.pool = none →
    ∀ a ∈ c.participants, a.processRef ≠ p.id
  messageFlows : List.Forall₂ (RecordsFlow m) (m.walk.filter m.isMessageFlow) c.messageFlows

section

variable {m : Model} {placement : Placement} {q : ProcessOutline}

/-! ## Processes -/

theorem madeOf_process (hq : q ∈ (Partition.ofModel m).processes) :
    MadeOf m q (process m (Names.ofModel m) q) where
  nodes := nodes_id (wellFormed hq)
  flows := ids_flows (wellFormed hq).isConnection

theorem processIds_ofModel : (ofModel m placement).processes.map Process.id =
    (Partition.ofModel m).processes.map fun q => (Names.ofModel m).id (.process q.pool) := by
  rw [processes_ofModel, List.map_map]
  exact List.map_congr_left fun q _ => process_id

theorem eq_of_processId_eq {r : ProcessOutline} (hq : q ∈ (Partition.ofModel m).processes)
    (hr : r ∈ (Partition.ofModel m).processes)
    (hid : (Names.ofModel m).id (.process q.pool) = (Names.ofModel m).id (.process r.pool)) :
    q.pool = r.pool :=
  Entity.process.inj (Names.id_inj (process_mem_entities hq) (process_mem_entities hr) hid)

theorem processIds_nodup : ((ofModel m placement).processes.map Process.id).Nodup := by
  rw [processIds_ofModel, ← Function.comp_def (Names.id (Names.ofModel m)), ← List.map_map]
  refine map_process_nodup.map_on fun a ha b hb hid => ?_
  obtain ⟨q, hq, rfl⟩ := List.mem_map.mp ha
  obtain ⟨r, hr, rfl⟩ := List.mem_map.mp hb
  exact congrArg Entity.process (eq_of_processId_eq hq hr hid)

/-! ## Participants -/

theorem forall₂_takesPart : List.Forall₂ (TakesPart m (ofModel m placement)) m.busyPools
    ((Partition.ofModel m).processes.filterMap (participant? m (Names.ofModel m))) := by
  rw [← Partition.pools_eq, Partition.pools, List.filterMap_eq_flatMap_toList]
  refine forall₂_flatMap fun q hq => ?_
  cases hpool : q.pool with
  | none =>
    rw [participant?, hpool]
    exact .nil
  | some pool =>
    obtain ⟨name, hname, hparticipant⟩ := participant?_of_pool (Names.ofModel m) hq hpool
    rw [hparticipant]
    refine .cons ⟨?_, hname, q, _, mem_zip_processes.mpr ⟨hq, rfl⟩, hpool, ?_⟩ .nil
    · rw [elementId]
    · rw [process_id, hpool]

variable (placement) in
theorem processRefs_sublist :
    (((Partition.ofModel m).processes.filterMap (participant? m (Names.ofModel m))).map
      Participant.processRef).Sublist ((ofModel m placement).processes.map Process.id) := by
  rw [processIds_ofModel, List.filterMap_eq_flatMap_toList, List.map_flatMap]
  refine flatMap_sublist_map (fun q => ?_) _
  cases ha : participant? m (Names.ofModel m) q with
  | none => exact List.nil_sublist _
  | some a =>
    rw [Option.toList_some, List.map_singleton, (processRef_participant? ha).2]

/-! ## The collaboration -/

theorem collaboration_eq_none_iff : (ofModel m placement).collaboration = none ↔
    m.busyPools = [] ∧ (Partition.ofModel m).messageFlows = [] := by
  rw [collaboration_ofModel, collaboration?_eq_none_iff]

theorem collaboration_isSome_iff : (ofModel m placement).collaboration.isSome = true ↔
    (∃ p, m.isPool p = true ∧ m.children p ≠ []) ∨ ∃ h, m.isMessageFlow h = true := by
  rw [← Option.ne_none_iff_isSome, Ne, collaboration_eq_none_iff, not_and_or,
    List.eq_nil_iff_forall_not_mem, List.eq_nil_iff_forall_not_mem, not_forall_not, not_forall_not]
  exact or_congr (exists_congr fun p => mem_busyPools)
    (exists_congr fun h => Partition.mem_messageFlows)

theorem gathers {c : Collaboration} (hc : (ofModel m placement).collaboration = some c) :
    Gathers m (ofModel m placement) c := by
  rw [collaboration_ofModel] at hc
  rw [eq_of_collaboration? hc]
  refine ⟨?_, processIds_nodup.sublist (processRefs_sublist placement),
    fun q p hzip hq a ha hid => ?_, ?_⟩
  · rw [← busyPools_eq]
    exact forall₂_takesPart
  · obtain ⟨hmem, rfl⟩ := mem_zip_processes.mp hzip
    obtain ⟨r, hr, ha⟩ := List.mem_filterMap.mp ha
    obtain ⟨hpool, href⟩ := processRef_participant? ha
    rw [process_id] at hid
    rw [eq_of_processId_eq hr hmem (href.symm.trans hid), hq] at hpool
    cases hpool
  · rw [← Partition.messageFlows_eq]
    refine (forall₂_flows fun h hh => isConnection_of_mem_messageFlows hh).imp ?_
    rintro h f ⟨c, hc, rfl⟩
    exact recordsFlow_flow hc

/-! ## The plane -/

theorem planeElement_eq {g : Diagram} (hg : (ofModel m placement).diagram = some g) :
    ((ofModel m placement).collaboration.map Collaboration.id).or
      ((ofModel m placement).processes.head?.map Process.id) = some g.planeElement := by
  obtain ⟨planeElement, hplane, hg⟩ := Option.bind_eq_some_iff.mp hg
  rw [eq_of_diagram? hg]
  exact hplane

end

/-- The processes of a document are those of the partition of its model.  There is a collaboration
if something stands in a pool or there is a message flow.  Its participants are the pools in which
anything stands, each with the process made for that pool, and it is what the diagram is on.
Without a collaboration the diagram is on the first process. -/
theorem collaboration_fits_processes (m : Model) (placement : Placement) :
    let d := ofModel m placement
    List.Forall₂ (MadeOf m) (Partition.ofModel m).processes d.processes ∧
      (d.processes.map Process.id).Nodup ∧
      (d.collaboration.isSome = true ↔
        (∃ p, m.isPool p = true ∧ m.children p ≠ []) ∨ ∃ h, m.isMessageFlow h = true) ∧
      (∀ c, d.collaboration = some c → Gathers m d c) ∧
      ∀ g, d.diagram = some g →
        (∀ c, d.collaboration = some c → g.planeElement = c.id) ∧
        (d.collaboration = none → ∃ p, d.processes.head? = some p ∧ g.planeElement = p.id) := by
  refine ⟨?_, processIds_nodup, collaboration_isSome_iff, fun c hc => gathers hc, fun g hg => ?_⟩
  · rw [processes_ofModel, List.forall₂_map_right_iff, List.forall₂_same]
    exact fun q hq => madeOf_process hq
  · have hplane := planeElement_eq hg
    constructor
    · intro c hc
      rw [hc, Option.map_some, Option.some_or] at hplane
      exact (Option.some.inj hplane).symm
    · intro hnone
      rw [hnone, Option.map_none, Option.none_or] at hplane
      obtain ⟨p, hp, hid⟩ := Option.map_eq_some_iff.mp hplane
      exact ⟨p, hp, hid.symm⟩

end Document
end Bpmn
