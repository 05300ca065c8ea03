import Bpmn.Proofs.Document.Lanes
import Bpmn.Proofs.Document.Nodes

/-!
# Processes and collaboration of a document

The identifiers of a process are the names of what it holds, one after the other (`ids_process`),
and the collaboration, if there is one, has those of the participants and message flows
(`ids_collaboration?`).
-/

namespace Bpmn
namespace Assembly

open Model Naming

section

variable {m : Model} {names : Names} {p : ProcessOutline}

/-! ## Flows and nodes -/

theorem ids_flows {hs : List Handle} (hc : ∀ h ∈ hs, m.isConnection h = true) :
    (flows m names hs).map Flow.id = hs.map fun h => names.id (.element h) := by
  refine map_filterMap_eq fun h hh => ?_
  obtain ⟨c, hc⟩ := Option.isSome_iff_exists.mp (hc h hh)
  exact ⟨flow names h c, by rw [hc, Option.map_some], rfl⟩

theorem exists_node {h : Handle} (hn : m.isNode h = true) :
    ∃ n, m.node? h = some n := Option.isSome_iff_exists.mp hn

theorem ids_flowNode {h : Handle} {n : Node} (hn : m.node? h = some n) :
    (flowNode m names p h n).ids = (nodeEntities m h).map names.id := by
  rw [nodeEntities, eventEntities, hn, Option.bind_some, FlowNode.ids, flowNode]
  cases n.kind.trigger? with
  | none => rfl
  | some t => rfl

theorem ids_nodes (hp : WellFormed m names p) :
    (process m names p).nodes.flatMap FlowNode.ids =
      (p.nodes.flatMap (nodeEntities m)).map names.id := by
  rw [nodes_process hp, List.map_flatMap]
  refine flatMap_filterMap_eq fun h hh => ?_
  obtain ⟨n, hn⟩ := exists_node (hp.isNode h hh)
  exact ⟨flowNode m names p h n, by rw [hn, Option.map_some], ids_flowNode hn⟩

theorem nodes_id (hp : WellFormed m names p) :
    (process m names p).nodes.map FlowNode.id = p.nodes.map fun h => names.id (.element h) := by
  rw [nodes_process hp]
  refine map_filterMap_eq fun h hh => ?_
  obtain ⟨n, hn⟩ := exists_node (hp.isNode h hh)
  exact ⟨flowNode m names p h n, by rw [hn, Option.map_some], rfl⟩

/-! ## Processes -/

theorem process_id : (process m names p).id = names.id (.process p.pool) := rfl

theorem lanes_process : (process m names p).lanes =
    (p.pool.toList.flatMap m.lanesIn).filterMap (laneAt m names) := by
  rw [Process.lanes, process]
  cases p.pool with
  | none => rfl
  | some pool =>
    rw [Option.bind_some, lanes_laneSet?, Option.toList_some, List.flatMap_singleton]

theorem laneSet_process : ((process m names p).laneSet.map LaneSet.id).toList =
    (p.pool.toList.flatMap (laneSetEntities m)).map names.id := by
  unfold process
  cases p.pool with
  | none => rfl
  | some pool => rw [Option.bind_some, ids_laneSet?, Option.toList_some, List.flatMap_singleton]

theorem exists_records_process (names : Names) {c : Handle}
    (hc : c ∈ p.pool.toList.flatMap m.lanesIn) :
    ∃ l, laneAt m names c = some l ∧ Records m names c l := by
  obtain ⟨pool, _, hc⟩ := List.mem_flatMap.mp hc
  exact exists_records names hc

theorem ids_lanes : (process m names p).lanes.flatMap Lane.ids =
    ((p.pool.toList.flatMap m.lanesIn).flatMap (laneEntities m)).map names.id := by
  rw [lanes_process, List.map_flatMap]
  refine flatMap_filterMap_eq fun c hc => ?_
  obtain ⟨l, hl, hrecords⟩ := exists_records_process names hc
  exact ⟨l, hl, hrecords.ids⟩

/-- A process carries the names of what it holds. -/
theorem ids_process (hp : WellFormed m names p) :
    (process m names p).ids = (heldEntities m p).map names.id := by
  have hpool : p.pool.toList.flatMap (poolEntities m) =
      p.pool.toList.flatMap (laneSetEntities m) ++
        (p.pool.toList.flatMap m.lanesIn).flatMap (laneEntities m) := by
    cases p.pool with
    | none => rfl
    | some pool => simp only [Option.toList_some, List.flatMap_singleton, poolEntities]
  have hflows : (process m names p).flows.map Flow.id =
      (p.flows.map Entity.element).map names.id := by
    rw [List.map_map]
    exact ids_flows hp.isConnection
  rw [Process.ids, laneSet_process, ids_lanes, ids_nodes hp, hflows, heldEntities, hpool,
    List.map_cons, List.map_append, List.map_append, List.map_append]
  rfl

def elements (m : Model) (p : ProcessOutline) : List Handle :=
  p.pool.toList.flatMap m.lanesIn ++ p.nodes ++ p.flows

theorem elementIds_process (hp : WellFormed m names p) :
    (process m names p).elementIds =
      names.id (.process p.pool) :: (elements m p).map fun h => names.id (.element h) := by
  have hlanes : (process m names p).lanes.map Lane.id =
      (p.pool.toList.flatMap m.lanesIn).map fun h => names.id (.element h) := by
    rw [lanes_process]
    refine map_filterMap_eq fun c hc => ?_
    obtain ⟨l, hl, hrecords⟩ := exists_records_process names hc
    exact ⟨l, hl, hrecords.id⟩
  have hflows : (process m names p).flows.map Flow.id =
      p.flows.map fun h => names.id (.element h) := ids_flows hp.isConnection
  rw [Process.elementIds, hlanes, nodes_id hp, hflows, elements, List.map_append, List.map_append]
  rfl

/-! ## Collaboration -/

/-- The participant for the process of a pool. -/
def participant? (m : Model) (names : Names) (p : ProcessOutline) : Option Participant :=
  p.pool.bind fun pool => (m.name? pool).map fun name =>
    ⟨names.id (.element pool), name, names.id (.process (some pool))⟩

/-- Processes stand where their outlines do, so participants get the processes of their pools. -/
theorem participants_eq (p : Partition) :
    participants m names p (p.processes.map (process m names)) =
      p.processes.filterMap (participant? m names) := by
  rw [participants, ← List.map_prod_left_eq_zip, List.filterMap_map]
  refine List.filterMap_congr fun q _ => ?_
  rw [Function.comp_apply, participant?, process]
  cases hpool : q.pool with
  | none => simp only [hpool, Option.bind_eq_bind, Option.bind_none]
  | some pool => simp only [hpool, Option.bind_eq_bind, Option.bind_some, Option.map_eq_bind]; rfl

variable (names) in
/-- A process with a pool has a participant, as pools have names. -/
theorem participant?_of_pool (hp : p ∈ (Partition.ofModel m).processes) {pool : Handle}
    (hpool : p.pool = some pool) : ∃ name, m.name? pool = some name ∧
      participant? m names p =
        some ⟨names.id (.element pool), name, names.id (.process (some pool))⟩ := by
  have hcontainer : m.isContainer pool = true := by
    have hbusy := Partition.pool_mem_busyPools hp hpool
    rw [isContainer_eq, isPool_of_mem_busyPools hbusy, Bool.true_or]
  obtain ⟨name, hname⟩ := Option.isSome_iff_exists.mp (name?_isSome_of_isContainer hcontainer)
  exact ⟨name, hname, by rw [participant?, hpool, Option.bind_some, hname, Option.map_some]⟩

theorem processRef_participant? {a : Participant} (ha : participant? m names p = some a) :
    p.pool.isSome ∧ a.processRef = names.id (.process p.pool) := by
  obtain ⟨pool, hpool, ha⟩ := Option.bind_eq_some_iff.mp ha
  obtain ⟨name, -, rfl⟩ := Option.map_eq_some_iff.mp ha
  rw [hpool]
  exact ⟨rfl, rfl⟩

theorem participants_map {β : Type} {f : Participant → β} {k : Handle → β}
    (hf : ∀ pool name,
      f ⟨names.id (.element pool), name, names.id (.process (some pool))⟩ = k pool) :
    ((Partition.ofModel m).processes.filterMap (participant? m names)).map f =
      m.busyPools.map k := by
  rw [← Partition.pools_eq, Partition.pools, List.filterMap_eq_flatMap_toList,
    List.map_flatMap, List.map_flatMap]
  refine List.flatMap_congr fun process hprocess => ?_
  cases hpool : process.pool with
  | none => simp [participant?, hpool]
  | some pool =>
    obtain ⟨name, -, hparticipant⟩ := participant?_of_pool names hprocess hpool
    simp [hparticipant, hf]

theorem ids_participants :
    ((Partition.ofModel m).processes.filterMap (participant? m names)).map Participant.id =
      m.busyPools.map fun h => names.id (.element h) :=
  participants_map fun _ _ => rfl

theorem processRef_participants :
    ((Partition.ofModel m).processes.filterMap (participant? m names)).map
      Participant.processRef = m.busyPools.map fun pool => names.id (.process (some pool)) :=
  participants_map fun _ _ => rfl

theorem ids_messageFlows :
    (flows m names (Partition.ofModel m).messageFlows).map Flow.id =
      (Partition.ofModel m).messageFlows.map fun h => names.id (.element h) :=
  ids_flows fun _ hh => isConnection_of_mem_messageFlows hh

/-- There is no collaboration where there is nothing to hold in it. -/
theorem collaboration?_eq_none_iff :
    collaboration? m names (Partition.ofModel m)
        ((Partition.ofModel m).processes.map (process m names)) = none ↔
      m.busyPools = [] ∧ (Partition.ofModel m).messageFlows = [] := by
  have hparticipants :
      ((Partition.ofModel m).processes.filterMap (participant? m names)).isEmpty =
        m.busyPools.isEmpty := by
    rw [← List.isEmpty_map (f := Participant.id), ids_participants, List.isEmpty_map]
  have hflows : (flows m names (Partition.ofModel m).messageFlows).isEmpty =
      (Partition.ofModel m).messageFlows.isEmpty := by
    rw [← List.isEmpty_map (f := Flow.id), ids_messageFlows, List.isEmpty_map]
  unfold collaboration?
  simp only [participants_eq, hparticipants, hflows, ite_eq_left_iff, reduceCtorEq, imp_false,
    not_not, Bool.and_eq_true, List.isEmpty_iff]

theorem eq_of_collaboration? {p : Partition} {c : Collaboration}
    (hc : collaboration? m names p (p.processes.map (process m names)) = some c) :
    c = ⟨names.id .collaboration, p.processes.filterMap (participant? m names),
      flows m names p.messageFlows⟩ := by
  rw [collaboration?, participants_eq] at hc
  split at hc
  next => cases hc
  next => exact (Option.some.inj hc).symm

theorem ids_collaboration? {c : Collaboration}
    (hc : collaboration? m names (Partition.ofModel m)
      ((Partition.ofModel m).processes.map (process m names)) = some c) :
    c.ids = (sharedEntities m).map names.id := by
  rw [eq_of_collaboration? hc, Collaboration.ids, ids_participants, ids_messageFlows,
    sharedEntities, List.map_cons, List.map_append, List.map_map, List.map_map]
  rfl

end
end Assembly
end Bpmn
