import Bpmn.Proofs.TreeOrder

/-!
# Sorts of elements

An element is a pool, a lane, a node or a connection, and never two of these.  Its sort says where
it may stand and whether anything stands in it: pools stand at the top level, lanes do not, and
nothing stands in nodes and connections.  So the line upward from an element runs through lanes to
a single pool.
-/

namespace Bpmn
namespace Model

section

variable {m : Model}

theorem isPool_iff {h : Handle} :
    m.isPool h = true ↔ ∃ name, m.element? h = some (.pool name) := by
  unfold isPool
  cases m.element? h with
  | none => simp
  | some e => cases e <;> simp [Element.isPool]

theorem isLane_iff {h : Handle} :
    m.isLane h = true ↔ ∃ name parent, m.element? h = some (.lane name parent) := by
  unfold isLane
  cases m.element? h with
  | none => simp
  | some e => cases e <;> simp [Element.isLane]

theorem isNode_iff {h : Handle} :
    m.isNode h = true ↔ ∃ n parent, m.element? h = some (.node n parent) := by
  rw [isNode, node?]
  cases m.element? h with
  | none => simp
  | some e => cases e <;> simp [Element.node?]

theorem isConnection_iff {h : Handle} :
    m.isConnection h = true ↔ ∃ c parent, m.element? h = some (.connection c parent) := by
  rw [isConnection, connection?]
  cases m.element? h with
  | none => simp
  | some e => cases e <;> simp [Element.connection?]

theorem isContainer_eq (h : Handle) : m.isContainer h = (m.isPool h || m.isLane h) := by
  rw [Arena.isContainer, isPool, isLane]
  cases m.element? h with
  | none => rfl
  | some e => cases e <;> rfl

theorem not_isLane_of_isPool {h : Handle} (hp : m.isPool h = true) : m.isLane h = false := by
  obtain ⟨name, he⟩ := isPool_iff.mp hp
  rw [isLane, he]
  rfl

theorem name?_eq_of_node? {h : Handle} {n : Node} (hn : m.node? h = some n) :
    m.name? h = some n.name := by
  obtain ⟨e, he, hnode⟩ := Option.bind_eq_some_iff.mp hn
  rw [name?, he, Option.bind_some]
  cases e with
  | node => rw [Element.name?, Option.some.inj hnode]
  | pool | lane | connection => cases hnode

/-! ## Where elements stand -/

theorem parent?_of_isPool {h : Handle} (hp : m.isPool h = true) : m.parent? h = none := by
  obtain ⟨name, he⟩ := isPool_iff.mp hp
  rw [Arena.parent?, he, Option.bind_some, Element.parent?]

theorem exists_parent_of_isLane {h : Handle} (hl : m.isLane h = true) :
    ∃ p, m.parent? h = some p := by
  obtain ⟨name, parent, he⟩ := isLane_iff.mp hl
  exact ⟨parent, by rw [Arena.parent?, he, Option.bind_some, Element.parent?]⟩

theorem isPool_of_root {h : Handle} (hp : m.parent? h = none) (hc : m.isContainer h = true) :
    m.isPool h = true := by
  rw [isContainer_eq, Bool.or_eq_true] at hc
  refine hc.resolve_right fun hl => ?_
  obtain ⟨p, hp'⟩ := exists_parent_of_isLane hl
  rw [hp] at hp'
  cases hp'

theorem isPool_eq_false_of_parent {h p : Handle} (hp : m.parent? h = some p) :
    m.isPool h = false := by
  refine Bool.eq_false_iff.mpr fun hpool => ?_
  rw [parent?_of_isPool hpool] at hp
  cases hp

theorem children_eq_nil {h : Handle} (hc : m.isContainer h = false) : m.children h = [] := by
  refine List.eq_nil_iff_forall_not_mem.mpr fun c hm => ?_
  rw [parent_isContainer (mem_children.mp hm)] at hc
  cases hc

theorem descendants_eq_nil {h : Handle} (hc : m.isContainer h = false) :
    m.descendants h = [] := by
  rw [descendants_eq, children_eq_nil hc, List.flatMap_nil]

/-! ## The nearest container and pool -/

/-- The nearest container around an element is its parent. -/
theorem containerOf?_eq (h : Handle) : m.containerOf? h = m.parent? h := by
  unfold containerOf?
  cases hp : m.parent? h with
  | none => rw [ancestors_of_root hp, List.find?_nil]
  | some p =>
    rw [ancestors_of_parent hp, lineage, List.find?_cons_of_pos (parent_isContainer hp)]

theorem poolOf?_of_root {h : Handle} (hp : m.parent? h = none) : m.poolOf? h = none := by
  rw [poolOf?, ancestors_of_root hp, List.find?_nil]

theorem poolOf?_of_pool {h p : Handle} (hp : m.parent? h = some p) (hpool : m.isPool p = true) :
    m.poolOf? h = some p := by
  rw [poolOf?, ancestors_of_parent hp, lineage, List.find?_cons_of_pos hpool]

theorem poolOf?_of_lane {h p : Handle} (hp : m.parent? h = some p) (hl : m.isPool p = false) :
    m.poolOf? h = m.poolOf? p := by
  rw [poolOf?, ancestors_of_parent hp, lineage, List.find?_cons_of_neg (by simp [hl]), poolOf?]

/-- There is at most one pool around an element, as nothing is around a pool. -/
theorem poolOf?_eq_some_iff {h p : Handle} :
    m.poolOf? h = some p ↔ p ∈ m.ancestors h ∧ m.isPool p = true := by
  induction h using outward (m := m) with
  | root h hp => simp [poolOf?_of_root hp, ancestors_of_root hp]
  | step h q hp ih =>
    rw [ancestors_of_parent hp, lineage, List.mem_cons]
    cases hq : m.isPool q with
    | true =>
      rw [poolOf?_of_pool hp hq, ancestors_of_root (parent?_of_isPool hq)]
      constructor
      · rintro h
        exact Option.some.inj h ▸ ⟨Or.inl rfl, hq⟩
      · rintro ⟨rfl | hnil, _⟩
        · rfl
        · cases hnil
    | false =>
      rw [poolOf?_of_lane hp hq, ih]
      constructor
      · rintro ⟨ha, hpool⟩
        exact ⟨Or.inr ha, hpool⟩
      · rintro ⟨rfl | ha, hpool⟩
        · rw [hq] at hpool
          cases hpool
        · exact ⟨ha, hpool⟩

/-- Whatever does not stand at the top level is in a pool. -/
theorem poolOf?_eq_none_iff {h : Handle} : m.poolOf? h = none ↔ m.parent? h = none := by
  induction h using outward (m := m) with
  | root h hp => exact iff_of_true (poolOf?_of_root hp) hp
  | step h p hp ih =>
    refine iff_of_false ?_ (by simp [hp])
    cases hpool : m.isPool p with
    | true => simp [poolOf?_of_pool hp hpool]
    | false =>
      rw [poolOf?_of_lane hp hpool, ih]
      intro hroot
      rw [isPool_of_root hroot (parent_isContainer hp)] at hpool
      cases hpool

/-- Inside a lane the pool is that of the lane. -/
theorem poolOf?_of_mem_ancestors {n p : Handle} (ha : p ∈ m.ancestors n)
    (hp : m.isPool p = false) : m.poolOf? n = m.poolOf? p := by
  induction n using outward (m := m) with
  | root n hn =>
    rw [ancestors_of_root hn] at ha
    cases ha
  | step n q hq ih =>
    rw [ancestors_of_parent hq] at ha
    rcases List.mem_cons.mp ha with rfl | ha
    · exact poolOf?_of_lane hq hp
    · -- Nothing is around a pool, so `q` is none.
      have hinner : m.isPool q = false := by
        cases hpool : m.isPool q with
        | false => rfl
        | true =>
          rw [ancestors_of_root (parent?_of_isPool hpool)] at ha
          cases ha
      rw [poolOf?_of_lane hq hinner, ih ha]

theorem mem_pools {p : Handle} : p ∈ m.pools ↔ m.isPool p = true := by
  rw [pools, List.mem_filter, and_iff_right_iff_imp]
  intro hp
  obtain ⟨name, he⟩ := isPool_iff.mp hp
  exact mem_roots.mpr ⟨Arena.lt_size he, parent?_of_isPool hp⟩

/-- The pools in the order of the top level stand in that of all elements. -/
theorem pools_eq_filter : m.pools = m.handles.filter m.isPool := by
  have hmem : ∀ h, h ∈ m.pools ↔ h ∈ m.handles.filter m.isPool := by
    intro h
    rw [mem_pools, List.mem_filter, and_iff_right_of_imp]
    intro hp
    obtain ⟨name, he⟩ := isPool_iff.mp hp
    exact mem_handles.mpr (Arena.lt_size he)
  have hperm :=
    (List.perm_ext_iff_of_nodup (roots_nodup.filter _) (handles_nodup.filter _)).mpr hmem
  exact hperm.eq_of_pairwise (fun a b _ _ hab hba => (Nat.lt_asymm hab hba).elim)
    (m.coherent.roots_sorted.filter _) (handles_sorted.filter _)

/-- The nodes below an element are those that have it above them, in the order of the walk. -/
theorem nodesIn_eq (h : Handle) : m.nodesIn h =
    (m.walk.filter m.isNode).filter fun n => decide (h ∈ m.ancestors n) := by
  rw [nodesIn, descendants_eq_filter, List.filter_comm]

/-- Further in there are fewer nodes. -/
theorem nodesIn_sublist {h k : Handle} (hk : h ∈ m.ancestors k) :
    (m.nodesIn k).Sublist (m.nodesIn h) := by
  rw [nodesIn_eq, nodesIn_eq]
  refine List.monotone_filter_right _ fun n hn => ?_
  rw [decide_eq_true_iff] at hn ⊢
  exact mem_ancestors_trans hk hn

theorem mem_nodesIn {h n : Handle} :
    n ∈ m.nodesIn h ↔ h ∈ m.ancestors n ∧ m.isNode n = true := by
  rw [nodesIn, List.mem_filter, mem_descendants]

end
end Model
end Bpmn
