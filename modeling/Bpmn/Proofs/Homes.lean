import Bpmn.Proofs.Partition

/-!
# The process an element belongs to

Nodes and flows are sorted into processes by the pools around them, that is by where they were
declared.  What a connection joins has no say in this.
-/

namespace Bpmn
namespace Model

section

variable {m : Model} {h : Handle}

theorem mem_roots_iff_poolOf? (hw : h ∈ m.walk) : h ∈ m.roots ↔ m.poolOf? h = none := by
  rw [mem_roots, poolOf?_eq_none_iff, and_iff_right (mem_walk.mp hw)]

theorem mem_descendants_iff_poolOf? {p : Handle} (hp : m.isPool p = true) :
    h ∈ m.descendants p ↔ m.poolOf? h = some p := by
  rw [mem_descendants, poolOf?_eq_some_iff, and_iff_left hp]

end
end Model

namespace Partition

open Model

section

variable {m : Model} {q : ProcessOutline} {h : Handle}

theorem eq_of_mem_processes (hq : q ∈ (ofModel m).processes) :
    q = outside m ∨ ∃ p, m.isPool p = true ∧ q = ofPool m p := by
  have hpooled : q ∈ pooled m → ∃ p, m.isPool p = true ∧ q = ofPool m p := by
    intro hq
    rw [pooled_eq] at hq
    obtain ⟨p, hp, rfl⟩ := List.mem_map.mp hq
    exact ⟨p, mem_pools.mp (List.mem_filter.mp hp).1, rfl⟩
  rw [ofModel] at hq
  split at hq
  · exact .inr (hpooled hq)
  · exact (List.mem_cons.mp hq).imp_right hpooled

theorem mem_nodes_iff (hq : q ∈ (ofModel m).processes) :
    h ∈ q.nodes ↔ m.isNode h = true ∧ m.poolOf? h = q.pool := by
  rw [and_comm]
  rcases eq_of_mem_processes hq with rfl | ⟨p, hp, rfl⟩
  · rw [outside_eq, List.mem_filter]
    exact and_congr_left fun hn => mem_roots_iff_poolOf? (mem_walk_of_isLeaf (isLeaf_of_isNode hn))
  · rw [ofPool, nodesIn, List.mem_filter, mem_descendants_iff_poolOf? hp]

theorem mem_flows_iff (hq : q ∈ (ofModel m).processes) :
    h ∈ q.flows ↔ m.isFlow h = true ∧ m.poolOf? h = q.pool := by
  rw [and_comm]
  rcases eq_of_mem_processes hq with rfl | ⟨p, hp, rfl⟩
  · rw [outside_eq, List.mem_filter]
    exact and_congr_left fun hf => mem_roots_iff_poolOf?
      (mem_walk_of_isLeaf (isLeaf_of_isConnection (isConnection_of_isFlow hf)))
  · rw [ofPool, List.mem_filter, mem_descendants_iff_poolOf? hp]

theorem exists_process_of_isNode (hn : m.isNode h = true) :
    ∃ q ∈ (ofModel m).processes, h ∈ q.nodes := List.mem_flatMap.mp (mem_nodes.mpr hn)

theorem exists_process_of_isFlow (hf : m.isFlow h = true) :
    ∃ q ∈ (ofModel m).processes, h ∈ q.flows := List.mem_flatMap.mp (mem_flows.mpr hf)

end
end Partition
end Bpmn
