import Bpmn.Partition
import Bpmn.Proofs.Lists
import Bpmn.Proofs.Sorts

/-!
# What a partition holds

A partition is collected along the trees of a model, lanes looked through.  Told by the walk, the
process of a pool holds what is below the pool, the process outside pools holds what stands at the
top level, and message flows are taken from the whole walk.  So nothing is lost and nothing is
held twice, in whatever order the processes stand (`perm_walk_filter`, `partition_complete`).
-/

namespace Bpmn
namespace Model

section

variable {m : Model}

/-- Nodes and connections, which end the branches of a model. -/
def isLeaf (m : Model) (h : Handle) : Bool := m.isNode h || m.isConnection h

theorem isLeaf_eq_not_isContainer {h : Handle} {e : Element} (he : m.element? h = some e) :
    m.isLeaf h = !m.isContainer h := by
  rw [isLeaf, isNode, isConnection, node?, connection?, Arena.isContainer, he]
  cases e <;> rfl

theorem isLeaf_eq_false_of_none {h : Handle} (he : m.element? h = none) : m.isLeaf h = false := by
  rw [isLeaf, isNode, isConnection, node?, connection?, he]
  rfl

theorem isContainer_eq_false_of_isLeaf {h : Handle} (hl : m.isLeaf h = true) :
    m.isContainer h = false := by
  cases he : m.element? h with
  | none => rw [Arena.isContainer, he]; rfl
  | some e => rw [isLeaf_eq_not_isContainer he] at hl; simpa using hl

theorem mem_walk_of_isLeaf {h : Handle} (hl : m.isLeaf h = true) : h ∈ m.walk := by
  cases he : m.element? h with
  | none =>
    rw [isLeaf_eq_false_of_none he] at hl
    cases hl
  | some e => exact mem_walk.mpr (Arena.lt_size he)

theorem isPool_eq_false_of_isLeaf {h : Handle} (hl : m.isLeaf h = true) : m.isPool h = false := by
  have hc := isContainer_eq_false_of_isLeaf hl
  rw [isContainer_eq, Bool.or_eq_false_iff] at hc
  exact hc.1

/-! ## Collecting along branches -/

theorem leavesOf_children (h : Handle)
    (hc : ∀ c ∈ m.children h, m.leaves (m.branch c) = (m.subtree c).filter m.isLeaf) :
    m.leavesOf ((m.children h).map m.branch) = (m.descendants h).filter m.isLeaf := by
  rw [leavesOf_eq_flatMap, List.flatMap_map, descendants_eq, List.filter_flatMap]
  exact List.flatMap_congr hc

theorem leaves_branch {h : Handle} (hp : m.isPool h = false) :
    m.leaves (m.branch h) = (m.subtree h).filter m.isLeaf := by
  induction h using inward (m := m) with
  | step h ih =>
    have inside := leavesOf_children h fun c hc =>
      ih c hc (isPool_eq_false_of_parent (mem_children.mp hc))
    have alone : m.isLeaf h = true → [h] = (m.subtree h).filter m.isLeaf := by
      intro hl
      rw [subtree, descendants_eq_nil (isContainer_eq_false_of_isLeaf hl),
        List.filter_cons_of_pos hl, List.filter_nil]
    rw [branch_eq, leaves]
    cases he : m.element? h with
    | none =>
      have hl := isLeaf_eq_false_of_none he
      have hc : m.isContainer h = false := by rw [Arena.isContainer, he]; rfl
      simp [subtree, hl, descendants_eq_nil hc]
    | some e =>
      have hl := isLeaf_eq_not_isContainer he
      rw [Arena.isContainer, he] at hl
      cases e with
      | pool name => simp [isPool, he, Element.isPool] at hp
      | lane name parent =>
        show m.leavesOf ((m.children h).map m.branch) = _
        rw [inside, subtree, List.filter_cons_of_neg (by simp [hl, Element.isContainer])]
      | node n parent => exact alone (by simp [hl, Element.isContainer])
      | connection c parent => exact alone (by simp [hl, Element.isContainer])

theorem leavesOf_branch (h : Handle) :
    m.leavesOf (m.branch h).children = (m.descendants h).filter m.isLeaf := by
  rw [branch_eq, Branch.children]
  exact leavesOf_children h fun c hc =>
    leaves_branch (isPool_eq_false_of_parent (mem_children.mp hc))

theorem handle_branch (h : Handle) : (m.branch h).handle = h := by
  rw [branch_eq]
  rfl

theorem topLeaves_branch (h : Handle) :
    m.topLeaves (m.branch h) = (m.subtree h).filter m.isLeaf := by
  rw [topLeaves, handle_branch]
  split
  next hp =>
    have hl : ¬ m.isLeaf h = true := fun hl => by
      rw [isPool_eq_false_of_isLeaf hl] at hp
      cases hp
    rw [leavesOf_branch, subtree, List.filter_cons_of_neg hl]
  next hp => exact leaves_branch (Bool.eq_false_iff.mpr hp)

/-! ## The processes by the walk -/

theorem isLeaf_of_isNode {h : Handle} (hn : m.isNode h = true) : m.isLeaf h = true := by
  rw [isLeaf, hn, Bool.true_or]

theorem isConnection_of_isFlow {h : Handle} (hf : m.isFlow h = true) :
    m.isConnection h = true := by
  rw [isFlow, Option.any_eq_true] at hf
  obtain ⟨c, hc, _⟩ := hf
  rw [isConnection, hc, Option.isSome_some]

theorem isConnection_of_isMessageFlow {h : Handle} (hf : m.isMessageFlow h = true) :
    m.isConnection h = true := by
  rw [isMessageFlow, Option.any_eq_true] at hf
  obtain ⟨c, hc, _⟩ := hf
  rw [isConnection, hc, Option.isSome_some]

theorem isLeaf_of_isConnection {h : Handle} (hc : m.isConnection h = true) :
    m.isLeaf h = true := by
  rw [isLeaf, hc, Bool.or_true]

theorem subtree_of_root {r : Handle} (hr : m.parent? r = none) (hp : m.isPool r = false) :
    m.subtree r = [r] := by
  have hc : m.isContainer r = false :=
    Bool.eq_false_iff.mpr fun hc => by
      rw [isPool_of_root hr hc] at hp
      cases hp
  rw [subtree, descendants_eq_nil hc]

/-- A pool with something in it has a process of its own. -/
def busyPools (m : Model) : List Handle := m.pools.filter fun p => !(m.children p).isEmpty

theorem mem_busyPools {p : Handle} :
    p ∈ m.busyPools ↔ m.isPool p = true ∧ m.children p ≠ [] := by
  rw [busyPools, List.mem_filter, mem_pools, Bool.not_eq_true', List.isEmpty_eq_false_iff]

theorem busyPools_eq :
    m.busyPools = m.handles.filter fun h => m.isPool h && !(m.children h).isEmpty := by
  rw [busyPools, pools_eq_filter, List.filter_filter]
  exact List.filter_congr fun h _ => Bool.and_comm _ _

theorem forest_filter (p : Branch → Bool) :
    m.forest.filter p = (m.roots.filter fun r => p (m.branch r)).map m.branch := by
  rw [forest, List.filter_map]
  rfl

theorem forest_topLeaves : m.forest.flatMap m.topLeaves = m.walk.filter m.isLeaf := by
  rw [forest, List.flatMap_map, walk_eq, List.filter_flatMap]
  exact List.flatMap_congr fun r _ => topLeaves_branch r

theorem outside_leaves {p : Handle → Bool} (hl : ∀ h, p h = true → m.isLeaf h = true) :
    ((m.forest.filter fun b => !m.isPool b.handle).flatMap m.topLeaves).filter p =
      m.roots.filter p := by
  have hroot : ∀ r ∈ m.roots.filter fun r => !m.isPool r,
      m.topLeaves (m.branch r) = [r].filter m.isLeaf := by
    intro r hr
    obtain ⟨hr, hp⟩ := List.mem_filter.mp hr
    rw [topLeaves_branch, subtree_of_root (mem_roots.mp hr).2 (by simpa using hp)]
  have hpool : ∀ h, p h = true → (!m.isPool h) = true := by
    intro h hp
    rw [isPool_eq_false_of_isLeaf (hl h hp), Bool.not_false]
  rw [forest_filter, List.flatMap_map]
  simp only [handle_branch]
  rw [List.flatMap_congr hroot, ← List.filter_flatMap, List.flatMap_singleton',
    filter_of_imp hl, filter_of_imp hpool]

/-! ## Sorts do not overlap -/

theorem sorts_exclusive :
    [m.isNode, m.isLane, m.isFlow, m.isMessageFlow, m.isPool].Pairwise
      fun p q => ∀ h, p h = true → q h = false := by
  have apart : ∀ h : Handle,
      (m.isNode h = true → m.isLane h = false ∧ m.isFlow h = false ∧ m.isMessageFlow h = false ∧
        m.isPool h = false) ∧
      (m.isLane h = true → m.isFlow h = false ∧ m.isMessageFlow h = false ∧ m.isPool h = false) ∧
      (m.isFlow h = true → m.isMessageFlow h = false ∧ m.isPool h = false) ∧
      (m.isMessageFlow h = true → m.isPool h = false) := by
    intro h
    simp only [isNode, isLane, isFlow, isMessageFlow, isPool, node?, connection?]
    cases m.element? h with
    | none => simp
    | some e =>
      cases e <;> simp [Element.node?, Element.connection?, Element.isLane, Element.isPool]
  simp only [List.pairwise_cons, List.mem_cons, List.not_mem_nil, or_false, forall_eq_or_imp,
    forall_eq]
  grind

end
end Model

namespace Partition

open Model

def nodes (p : Partition) : List Handle := p.processes.flatMap ProcessOutline.nodes

def flows (p : Partition) : List Handle := p.processes.flatMap ProcessOutline.flows

/-- The pools that have a process. -/
def pools (p : Partition) : List Handle := p.processes.flatMap fun process => process.pool.toList

variable {m : Model}

theorem outside_eq :
    outside m = ⟨none, m.roots.filter m.isNode, m.roots.filter m.isFlow⟩ := by
  rw [outside, ProcessOutline.ofLeaves, outside_leaves fun _ => isLeaf_of_isNode,
    outside_leaves fun _ hf => isLeaf_of_isConnection (isConnection_of_isFlow hf)]

def ofPool (m : Model) (p : Handle) : ProcessOutline :=
  ⟨some p, m.nodesIn p, (m.descendants p).filter m.isFlow⟩

theorem pooled_eq : pooled m = m.busyPools.map (ofPool m) := by
  have hpool : ∀ r ∈ m.busyPools,
      ProcessOutline.ofLeaves m (some r) (m.topLeaves (m.branch r)) = ofPool m r := by
    intro r hr
    have hp := (List.mem_filter.mp (List.mem_filter.mp hr).1).2
    have htop : m.topLeaves (m.branch r) = (m.descendants r).filter m.isLeaf := by
      rw [topLeaves, handle_branch, if_pos hp, leavesOf_branch]
    rw [htop, ProcessOutline.ofLeaves, filter_of_imp fun _ => isLeaf_of_isNode,
      filter_of_imp fun _ hf => isLeaf_of_isConnection (isConnection_of_isFlow hf)]
    rfl
  have hbusy : (m.roots.filter fun r => m.isPool (m.branch r).handle &&
      !(m.branch r).children.isEmpty) = m.busyPools := by
    rw [busyPools, Model.pools, List.filter_filter]
    refine List.filter_congr fun r _ => ?_
    rw [handle_branch, branch_eq, Branch.children, List.isEmpty_map, Bool.and_comm]
  rw [pooled, forest_filter, List.map_map, hbusy]
  refine List.map_congr_left fun r hr => ?_
  rw [← hpool r hr, Function.comp_apply, handle_branch]

/-- Whatever is read off the processes is read off the one outside pools and those of the busy
pools, as the one outside is only left out when there is nothing in it. -/
theorem processes_flatMap {β : Type} {f : ProcessOutline → List β}
    (hf : (outside m).isEmpty = true → f (outside m) = []) :
    (ofModel m).processes.flatMap f =
      f (outside m) ++ m.busyPools.flatMap fun p => f (ofPool m p) := by
  rw [ofModel, pooled_eq]
  split
  next h =>
    rw [hf (Bool.and_eq_true_iff.mp h).1, List.flatMap_map, List.nil_append]
  next => rw [List.flatMap_cons, List.flatMap_map]

theorem perm_flatMap_subtree {p : Handle → Bool} (hp : ∀ h, p h = true → m.isPool h = false)
    {list : List Handle} (hlist : ∀ r ∈ list, m.parent? r = none) :
    (list.filter p ++ ((list.filter m.isPool).filter fun h => !(m.children h).isEmpty).flatMap
      fun h => (m.descendants h).filter p).Perm (list.flatMap fun r => (m.subtree r).filter p) := by
  induction list with
  | nil => exact List.Perm.nil
  | cons r rest ih =>
    have ih := ih fun x hx => hlist x (List.mem_cons_of_mem r hx)
    rw [List.flatMap_cons]
    cases hpool : m.isPool r with
    | true =>
      have hpr : ¬ p r = true := fun h => by
        rw [hp r h] at hpool
        cases hpool
      rw [List.filter_cons_of_neg hpr, List.filter_cons_of_pos hpool, subtree,
        List.filter_cons_of_neg hpr]
      cases hkids : (m.children r).isEmpty with
      | true =>
        rw [descendants_eq, List.isEmpty_iff.mp hkids, List.filter_cons_of_neg (by simp [hkids])]
        exact ih
      | false =>
        rw [List.filter_cons_of_pos (by simp [hkids]), List.flatMap_cons]
        exact (List.perm_append_comm_assoc _ _ _).trans (ih.append_left _)
    | false =>
      have hskip : (r :: rest).filter m.isPool = rest.filter m.isPool :=
        List.filter_cons_of_neg (by simp [hpool])
      rw [hskip, subtree_of_root (hlist r List.mem_cons_self) hpool]
      cases hpr : p r with
      | true =>
        rw [List.filter_cons_of_pos hpr, List.filter_cons_of_pos hpr]
        exact ih.cons r
      | false =>
        rw [List.filter_cons_of_neg (by simp [hpr]), List.filter_cons_of_neg (by simp [hpr])]
        exact ih

/-- Top-level elements of a sort and those below busy pools make up all of that sort, unless the
sort is that of pools. -/
theorem perm_walk_filter {p : Handle → Bool} (hp : ∀ h, p h = true → m.isPool h = false) :
    (m.roots.filter p ++ m.busyPools.flatMap fun h => (m.descendants h).filter p).Perm
      (m.walk.filter p) := by
  rw [walk_eq, List.filter_flatMap]
  exact perm_flatMap_subtree hp fun r hr => (mem_roots.mp hr).2

theorem nodes_perm : (ofModel m).nodes.Perm (m.walk.filter m.isNode) := by
  rw [nodes, processes_flatMap fun h => List.isEmpty_iff.mp (Bool.and_eq_true_iff.mp h).1,
    outside_eq]
  exact perm_walk_filter fun h hn => isPool_eq_false_of_isLeaf (isLeaf_of_isNode hn)

theorem flows_perm : (ofModel m).flows.Perm (m.walk.filter m.isFlow) := by
  rw [flows, processes_flatMap fun h => List.isEmpty_iff.mp (Bool.and_eq_true_iff.mp h).2,
    outside_eq]
  exact perm_walk_filter fun h hf =>
    isPool_eq_false_of_isLeaf (isLeaf_of_isConnection (isConnection_of_isFlow hf))

theorem nodes_nodup : (ofModel m).nodes.Nodup :=
  nodes_perm.nodup_iff.mpr (walk_nodup.filter m.isNode)

theorem flows_nodup : (ofModel m).flows.Nodup :=
  flows_perm.nodup_iff.mpr (walk_nodup.filter m.isFlow)

theorem nodes_nodup_of_mem {p : ProcessOutline} (hp : p ∈ (ofModel m).processes) :
    p.nodes.Nodup := (List.nodup_flatMap.mp nodes_nodup).1 p hp

theorem flows_nodup_of_mem {p : ProcessOutline} (hp : p ∈ (ofModel m).processes) :
    p.flows.Nodup := (List.nodup_flatMap.mp flows_nodup).1 p hp

theorem mem_nodes {h : Handle} : h ∈ (ofModel m).nodes ↔ m.isNode h = true := by
  rw [nodes_perm.mem_iff, List.mem_filter, and_iff_right_iff_imp]
  exact fun hn => mem_walk_of_isLeaf (isLeaf_of_isNode hn)

theorem mem_flows {h : Handle} : h ∈ (ofModel m).flows ↔ m.isFlow h = true := by
  rw [flows_perm.mem_iff, List.mem_filter, and_iff_right_iff_imp]
  exact fun hf => mem_walk_of_isLeaf (isLeaf_of_isConnection (isConnection_of_isFlow hf))

theorem isNode_of_mem_nodes {p : ProcessOutline} (hp : p ∈ (ofModel m).processes) {h : Handle}
    (hh : h ∈ p.nodes) : m.isNode h = true :=
  mem_nodes.mp (List.mem_flatMap.mpr ⟨p, hp, hh⟩)

theorem isFlow_of_mem_flows {p : ProcessOutline} (hp : p ∈ (ofModel m).processes) {h : Handle}
    (hh : h ∈ p.flows) : m.isFlow h = true :=
  mem_flows.mp (List.mem_flatMap.mpr ⟨p, hp, hh⟩)

theorem pools_eq : (ofModel m).pools = m.busyPools := by
  have hnone : (outside m).pool.toList = [] := by rw [outside_eq]; rfl
  rw [Partition.pools, processes_flatMap (f := fun p => p.pool.toList) fun _ => hnone, hnone]
  exact List.flatMap_singleton' m.busyPools

theorem pool_mem_busyPools {p : ProcessOutline} (hp : p ∈ (ofModel m).processes) {pool : Handle}
    (hpool : p.pool = some pool) : pool ∈ m.busyPools := by
  rw [← pools_eq]
  exact List.mem_flatMap.mpr ⟨p, hp, Option.mem_toList.mpr hpool⟩

theorem map_pool_sublist :
    ((ofModel m).processes.map ProcessOutline.pool).Sublist (none :: m.busyPools.map some) := by
  have hpooled : (pooled m).map ProcessOutline.pool = m.busyPools.map some := by
    rw [pooled_eq, List.map_map]
    rfl
  unfold ofModel
  split
  · rw [hpooled]
    exact List.sublist_cons_self _ _
  · rw [List.map_cons, hpooled, outside_eq]

theorem messageFlows_eq : (ofModel m).messageFlows = m.walk.filter m.isMessageFlow := by
  rw [ofModel, forest_topLeaves]
  exact filter_of_imp
    (fun _ hf => isLeaf_of_isConnection (isConnection_of_isMessageFlow hf)) m.walk

theorem mem_messageFlows {h : Handle} :
    h ∈ (ofModel m).messageFlows ↔ m.isMessageFlow h = true := by
  rw [messageFlows_eq, List.mem_filter, and_iff_right_iff_imp]
  exact fun hf => mem_walk_of_isLeaf (isLeaf_of_isConnection (isConnection_of_isMessageFlow hf))

/-! ## The whole partition -/

theorem processes_ne_nil : (ofModel m).processes ≠ [] := by
  rw [ofModel]
  split
  next h =>
    rw [Bool.and_eq_true, Bool.not_eq_true', List.isEmpty_eq_false_iff] at h
    exact h.2
  next => exact List.cons_ne_nil _ _

theorem outside_isEmpty_iff :
    (outside m).isEmpty = true ↔ ¬∃ r ∈ m.roots, m.isNode r = true ∨ m.isFlow r = true := by
  rw [outside_eq, ProcessOutline.isEmpty, Bool.and_eq_true, List.isEmpty_iff, List.isEmpty_iff,
    List.filter_eq_nil_iff, List.filter_eq_nil_iff]
  constructor
  · rintro ⟨hnode, hflow⟩ ⟨r, hr, hn | hf⟩
    · exact hnode r hr hn
    · exact hflow r hr hf
  · intro hnone
    exact ⟨fun r hr hn => hnone ⟨r, hr, .inl hn⟩, fun r hr hf => hnone ⟨r, hr, .inr hf⟩⟩

theorem pooled_isEmpty_iff :
    (pooled m).isEmpty = true ↔ ∀ p ∈ m.pools, m.children p = [] := by
  rw [pooled_eq, List.isEmpty_map, busyPools, List.isEmpty_iff, List.filter_eq_nil_iff]
  simp

/-- The process outside pools stands before the others if there is something in it, or if there
are no others. -/
theorem processes_eq : (ofModel m).processes =
    (if (∃ r ∈ m.roots, m.isNode r = true ∨ m.isFlow r = true) ∨ ∀ p ∈ m.pools, m.children p = []
      then [outside m] else []) ++ m.busyPools.map (ofPool m) := by
  have hkept : ((outside m).isEmpty && !(pooled m).isEmpty) = true ↔
      ¬((∃ r ∈ m.roots, m.isNode r = true ∨ m.isFlow r = true) ∨
        ∀ p ∈ m.pools, m.children p = []) := by
    rw [Bool.and_eq_true, outside_isEmpty_iff, Bool.not_eq_true', Bool.eq_false_iff, Ne,
      pooled_isEmpty_iff, not_or]
  rw [← pooled_eq, ofModel]
  split
  next hempty => rw [if_neg (hkept.mp hempty), List.nil_append]
  next hsome => rw [if_pos (not_not.mp fun hnot => hsome (hkept.mpr hnot)), List.singleton_append]

theorem count_walk_filter {p : Handle → Bool} (hp : ∀ h, p h = true → m.isLeaf h = true)
    (h : Handle) : (m.walk.filter p).count h = if p h then 1 else 0 := by
  split
  next hh =>
    refine List.count_eq_one_of_mem (walk_nodup.filter p) ?_
    exact List.mem_filter.mpr ⟨mem_walk_of_isLeaf (hp h hh), hh⟩
  next hh => exact List.count_eq_zero.mpr fun hmem => hh (List.mem_filter.mp hmem).2

/-- A connection is a message flow or a flow of one process. -/
theorem count_connections (h : Handle) :
    ((ofModel m).flows ++ (ofModel m).messageFlows).count h =
      if m.isConnection h then 1 else 0 := by
  rw [List.count_append, flows_perm.count_eq, messageFlows_eq,
    count_walk_filter fun _ hf => isLeaf_of_isConnection (isConnection_of_isFlow hf),
    count_walk_filter fun _ hf => isLeaf_of_isConnection (isConnection_of_isMessageFlow hf)]
  rw [isFlow, isMessageFlow, isConnection]
  cases m.connection? h with
  | none => rfl
  | some c => cases hc : c.isMessageFlow <;> simp [hc]

theorem mem_connections {h : Handle} :
    h ∈ (ofModel m).flows ++ (ofModel m).messageFlows ↔ m.isConnection h = true := by
  rw [← List.count_pos_iff, count_connections]
  cases m.isConnection h <;> simp

theorem connections_perm :
    ((ofModel m).flows ++ (ofModel m).messageFlows).Perm m.connections := by
  refine List.perm_iff_count.mpr fun h => ?_
  rw [count_connections, Model.connections, count_walk_filter fun _ => isLeaf_of_isConnection]

/-- Nodes and connections are all there once, nodes and flows sorted into processes. -/
theorem count_held (h : Handle) :
    ((ofModel m).nodes ++ (ofModel m).flows ++ (ofModel m).messageFlows).count h =
      if m.isNode h || m.isConnection h then 1 else 0 := by
  rw [List.append_assoc, List.count_append, count_connections, nodes_perm.count_eq,
    count_walk_filter fun _ => isLeaf_of_isNode, isNode, isConnection, node?, connection?]
  cases m.element? h with
  | none => rfl
  | some e => cases e <;> rfl

/-- The processes of a partition in order, each with what it holds in tree order.  Together with
the message flows they hold every node and every connection once and nothing else. -/
theorem partition_complete (m : Model) :
    (ofModel m).processes =
        (if (∃ r ∈ m.roots, m.isNode r = true ∨ m.isFlow r = true) ∨
            ∀ p ∈ m.pools, m.children p = [] then
          [ProcessOutline.mk none (m.roots.filter m.isNode) (m.roots.filter m.isFlow)]
        else []) ++
        ((m.pools.filter fun p => !(m.children p).isEmpty).map fun p =>
          .mk (some p) (m.nodesIn p) ((m.descendants p).filter m.isFlow)) ∧
      (ofModel m).processes ≠ [] ∧
      (ofModel m).messageFlows = m.walk.filter m.isMessageFlow ∧
      ∀ h, ((ofModel m).nodes ++ (ofModel m).flows ++ (ofModel m).messageFlows).count h =
        if m.isNode h || m.isConnection h then 1 else 0 := by
  refine ⟨?_, processes_ne_nil, messageFlows_eq, count_held⟩
  rw [processes_eq, outside_eq]
  rfl

end Partition
end Bpmn
