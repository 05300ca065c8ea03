import Bpmn.Naming.Plan
import Bpmn.Proofs.Partition

/-!
# Who is named

The naming plan in terms of the tree.  A plan is laid out along branches and partitions; read by
its keys it lists, process by process, lane sets with lanes below pools, event definitions and
flows, and before them all nodes (`keys_plan`).
-/

namespace Bpmn
namespace Model

/-- The lanes below an element in tree order. -/
def lanesIn (m : Model) (h : Handle) : List Handle := (m.descendants h).filter m.isLane

end Model

namespace Naming

open Model

/-- The lane set of a container with lanes directly in it. -/
def laneSetEntities (m : Model) (container : Handle) : List Entity :=
  if (m.children container).any m.isLane then [.laneSet container] else []

def laneEntities (m : Model) (lane : Handle) : List Entity :=
  .element lane :: laneSetEntities m lane

def poolEntities (m : Model) (pool : Handle) : List Entity :=
  laneSetEntities m pool ++ (m.lanesIn pool).flatMap (laneEntities m)

def eventEntities (m : Model) (node : Handle) : List Entity :=
  ((m.node? node).bind fun n => n.kind.trigger?).toList.map fun _ => .eventDefinition node

section

variable {m : Model}

/-! ## The parts of a plan -/

theorem keys_named {h : Handle} (hn : (m.name? h).isSome) :
    (named m h).map Prod.fst = [.element h] := by
  obtain ⟨name, hname⟩ := Option.isSome_iff_exists.mp hn
  rw [named, hname]
  rfl

theorem keys_ofFlow {h : Handle} (hc : m.isConnection h = true) :
    (ofFlow m h).map Prod.fst = [.element h] := by
  obtain ⟨c, hc⟩ := Option.isSome_iff_exists.mp hc
  rw [ofFlow, hc]
  rfl

theorem keys_ofEvent (h : Handle) : (ofEvent m h).map Prod.fst = eventEntities m h := by
  rw [ofEvent, eventEntities, List.map_map]
  rfl

theorem name?_isSome_of_isNode {h : Handle} (hn : m.isNode h = true) : (m.name? h).isSome := by
  obtain ⟨n, parent, he⟩ := isNode_iff.mp hn
  rw [name?, he]
  rfl

theorem name?_isSome_of_isContainer {h : Handle} (hc : m.isContainer h = true) :
    (m.name? h).isSome := by
  obtain ⟨e, he, hc⟩ := (Option.any_eq_true _ _).mp hc
  rw [name?, he]
  cases e with
  | pool | lane => rfl
  | node | connection => cases hc

theorem name?_isSome_of_isLane {h : Handle} (hl : m.isLane h = true) : (m.name? h).isSome :=
  name?_isSome_of_isContainer (by rw [isContainer_eq, hl, Bool.or_true])

theorem keys_ofLaneSet (h : Handle) :
    (ofLaneSet m h ((m.children h).map m.branch)).map Prod.fst = laneSetEntities m h := by
  have hany : (((m.children h).map m.branch).any fun b => m.isLane b.handle) =
      (m.children h).any m.isLane := by
    rw [List.any_map]
    exact congrArg (m.children h).any (funext fun c => by rw [Function.comp_apply, handle_branch])
  rw [ofLaneSet, laneSetEntities, hany]
  split <;> rfl

theorem ofLanes_eq_flatMap (branches : List Branch) :
    ofLanes m branches = branches.flatMap (ofLane m) := by
  induction branches with
  | nil => rfl
  | cons b rest ih => rw [ofLanes, ih, List.flatMap_cons]

theorem keys_ofLanes (h : Handle)
    (hc : ∀ c ∈ m.children h, (ofLane m (m.branch c)).map Prod.fst =
      ((m.subtree c).filter m.isLane).flatMap (laneEntities m)) :
    (ofLanes m ((m.children h).map m.branch)).map Prod.fst =
      (m.lanesIn h).flatMap (laneEntities m) := by
  rw [ofLanes_eq_flatMap, List.flatMap_map, List.map_flatMap, lanesIn, descendants_eq,
    List.filter_flatMap, List.flatMap_assoc]
  exact List.flatMap_congr hc

/-- A branch that is not a pool names its lanes in tree order, each with its lane set. -/
theorem keys_ofLane {h : Handle} (hp : m.isPool h = false) :
    (ofLane m (m.branch h)).map Prod.fst =
      ((m.subtree h).filter m.isLane).flatMap (laneEntities m) := by
  induction h using inward (m := m) with
  | step h ih =>
    have inside := keys_ofLanes h fun c hc =>
      ih c hc (isPool_eq_false_of_parent (mem_children.mp hc))
    rw [branch_eq, ofLane]
    cases hl : m.isLane h with
    | true =>
      rw [if_pos rfl, List.map_append, List.map_append, keys_named (name?_isSome_of_isLane hl),
        keys_ofLaneSet, inside, subtree, List.filter_cons_of_pos hl, List.flatMap_cons]
      rfl
    | false =>
      have hc : m.isContainer h = false := by rw [isContainer_eq, hp, hl, Bool.or_false]
      rw [if_neg Bool.false_ne_true, subtree, descendants_eq_nil hc,
        List.filter_cons_of_neg (by simp [hl])]
      rfl

theorem keys_ofPoolLanes (p : Handle) : (ofPoolLanes m p).map Prod.fst = poolEntities m p := by
  rw [ofPoolLanes, branch_eq, Branch.children, List.map_append, keys_ofLaneSet,
    keys_ofLanes p fun c hc => keys_ofLane (isPool_eq_false_of_parent (mem_children.mp hc)),
    poolEntities]

/-! ## The whole plan -/

/-- What a process names once the nodes have their names. -/
def processEntities (m : Model) (p : ProcessOutline) : List Entity :=
  .process p.pool :: (p.pool.toList.flatMap (poolEntities m) ++
    (p.nodes.flatMap (eventEntities m) ++ p.flows.map .element))

theorem keys_named_nodes {p : ProcessOutline} (hn : ∀ h ∈ p.nodes, m.isNode h = true) :
    (p.nodes.flatMap (named m)).map Prod.fst = p.nodes.map .element := by
  rw [List.map_flatMap]
  exact flatMap_eq_map fun h hh => keys_named (name?_isSome_of_isNode (hn h hh))

theorem keys_nodes :
    ((Partition.ofModel m).processes.flatMap fun p => p.nodes.flatMap (named m)).map Prod.fst =
      (Partition.ofModel m).nodes.map .element := by
  rw [Partition.nodes, List.map_flatMap, List.map_flatMap]
  exact List.flatMap_congr fun p hp =>
    keys_named_nodes fun h hh => Partition.isNode_of_mem_nodes hp hh

theorem keys_flows {list : List Handle} (hc : ∀ h ∈ list, m.isConnection h = true) :
    (list.flatMap (ofFlow m)).map Prod.fst = list.map .element := by
  rw [List.map_flatMap]
  exact flatMap_eq_map fun h hh => keys_ofFlow (hc h hh)

theorem keys_ofProcess {p : ProcessOutline} (hf : ∀ h ∈ p.flows, m.isConnection h = true) :
    (ofProcess m p).map Prod.fst = processEntities m p := by
  rw [ofProcess, processEntities, List.map_cons, List.map_append, List.map_append,
    List.append_assoc, keys_flows hf, List.map_flatMap, List.map_flatMap]
  congr 2
  · exact List.flatMap_congr fun h _ => keys_ofPoolLanes h
  · congr 1
    exact List.flatMap_congr fun h _ => keys_ofEvent h

theorem isConnection_of_mem_messageFlows {h : Handle}
    (hh : h ∈ (Partition.ofModel m).messageFlows) : m.isConnection h = true :=
  isConnection_of_isMessageFlow (Partition.mem_messageFlows.mp hh)

theorem isPool_of_mem_busyPools {p : Handle} (hp : p ∈ m.busyPools) : m.isPool p = true :=
  (mem_busyPools.mp hp).1

/-- The entities of a plan in the order of naming. -/
theorem keys_plan :
    (plan m (Partition.ofModel m)).map Prod.fst =
      [.document] ++
        (Partition.ofModel m).nodes.map .element ++
        (Partition.ofModel m).processes.flatMap (processEntities m) ++
        (Partition.ofModel m).messageFlows.map .element ++
        m.busyPools.map .element ++ [.collaboration, .diagram, .plane] := by
  have hprocesses : ((Partition.ofModel m).processes.flatMap (ofProcess m)).map Prod.fst =
      (Partition.ofModel m).processes.flatMap (processEntities m) := by
    rw [List.map_flatMap]
    exact List.flatMap_congr fun p hp =>
      keys_ofProcess fun h hh => isConnection_of_isFlow (Partition.isFlow_of_mem_flows hp hh)
  have hpools : ((Partition.ofModel m).processes.flatMap fun p =>
      p.pool.toList.flatMap (named m)).map Prod.fst = m.busyPools.map .element := by
    rw [← List.flatMap_assoc, ← Partition.pools, Partition.pools_eq, List.map_flatMap]
    refine flatMap_eq_map fun p hp => keys_named (name?_isSome_of_isContainer ?_)
    rw [isContainer_eq, isPool_of_mem_busyPools hp, Bool.true_or]
  unfold plan
  simp only [List.map_append, keys_nodes, hprocesses, hpools,
    keys_flows fun h hh => isConnection_of_mem_messageFlows (m := m) hh]
  rfl

end
end Naming
end Bpmn
