import Bpmn.History
import Bpmn.Proofs.Document.Drawing
import Bpmn.Proofs.Recut.Findings
import Bpmn.Proofs.Recut.Linking
import Bpmn.Proofs.Recut.Placement

/-!
# Lanes are transparent

How the pools of a model are cut into lanes makes no difference to what connections see where
lanes hide nothing, to what is found on connections, to processes or to where boxes stand
(`lanes_transparent`).
-/

namespace Bpmn
namespace Model

open Check

section

variable {m : Model}

theorem Rebound.leavesIn {n : Model} (hr : Rebound m n) : n.leavesIn = m.leavesIn := by
  have hleaf : n.isLeaf = m.isLeaf := by
    funext h
    rw [isLeaf, hr.isNode, hr.isConnection, isLeaf]
  funext h
  rw [Model.leavesIn, hr.descendants, hleaf, Model.leavesIn]

/-- Processes hold nodes and connections and belong to pools. -/
theorem partition_handles {h : Handle} (hh : h ∈ (Partition.ofModel m).handles) :
    h ∈ m.nonLanes := by
  rcases List.mem_append.mp hh with hh | hh
  · obtain ⟨p, hp, hh⟩ := List.mem_flatMap.mp hh
    simp only [ProcessOutline.handles, List.mem_append] at hh
    rcases hh with (hpool | hnode) | hflow
    · have hbusy := Partition.pool_mem_busyPools hp (Option.mem_toList.mp hpool)
      exact mem_nonLanes_of_isPool (mem_busyPools.mp hbusy).1
    · exact mem_nonLanes_of_isNode (Partition.isNode_of_mem_nodes hp hnode)
    · exact mem_nonLanes_of_isConnection
        (isConnection_of_isFlow (Partition.isFlow_of_mem_flows hp hflow))
  · exact mem_nonLanes_of_isConnection (Naming.isConnection_of_mem_messageFlows hh)

theorem layout_handles {placement : Placement} {row : Row}
    (hrow : row ∈ (Layout.ofPartition m (Partition.ofModel m) placement).rows) {h : Handle}
    (hh : h ∈ row.boxes.map Prod.fst) : h ∈ m.nonLanes := by
  obtain ⟨i, hi, rfl⟩ := List.mem_mapIdx.mp hrow
  have hq := List.getElem_mem hi
  rw [Layout.boxes_row hq] at hh
  exact mem_nonLanes_of_isNode (Partition.isNode_of_mem_nodes hq hh)

end

section

variable {s : Handle → Handle} {m n : Model}

/-- Linking leaves a recut model recut. -/
theorem Recut.rebound (hr : Recut s m n) {m' n' : Model} (hm : Rebound m m') (hn : Rebound n n')
    (ha : Alike s m.nonLanes n.nonLanes m' n') : Recut s m' n' where
  toAlike := by rwa [hm.nonLanes, hn.nonLanes]
  roots := by rw [hm.roots, hn.roots, hr.roots]
  leavesIn := by simpa only [hm.leavesIn, hn.leavesIn, hm.isPool] using hr.leavesIn
  children_eq_nil_iff := by
    simpa only [hm.children, hn.children, hm.isPool] using hr.children_eq_nil_iff

namespace Recut

variable (hr : Recut s m n) (hm : m.BoundWithin m.nonLanes)
include hr hm

theorem candidates {h : Handle} (hh : h ∈ m.nonLanes) :
    n.candidates .poolWide (s h) = (m.candidates .poolWide h).map s := by
  obtain ⟨e, he, hre⟩ := hr.exists_reshapes hm
  rw [← he hh, hre.candidates]
  exact List.map_congr_left fun x hx => he (mem_nonLanes_of_isNode (mem_candidates.mp hx).1)

theorem resolve {h : Handle} (hh : h ∈ m.nonLanes) (endpoint : Endpoint) :
    n.resolve .poolWide (s h) endpoint = (m.resolve .poolWide h endpoint).map s := by
  obtain ⟨e, he, hre⟩ := hr.exists_reshapes hm
  rw [← he hh, hre.resolve_of_candidates (hre.candidates h)]
  exact Option.map_congr fun x hx => he (mem_nonLanes_of_isNode (isNode_of_resolve hx))

theorem connection {h : Handle} (hh : h ∈ m.nonLanes) :
    (Check.connection n (s h) .empty).diagnostics =
      (Check.connection m h .empty).diagnostics.map (Diagnostic.rename s) := by
  obtain ⟨e, he, hre⟩ := hr.exists_reshapes hm
  have hfound := connectionFindings_rename (h := h) hre fun endpoint b hb =>
    kept_of_mem_nonLanes hre (hm h endpoint b hb)
  rw [connection_eq, connection_eq, Report.diagnostics_extend_empty,
    Report.diagnostics_extend_empty, ← he hh, hfound]
  refine List.map_congr_left fun d hd => Diagnostic.rename_congr fun l hl => ?_
  exact he (mem_of_connectionFindings hm subset_rfl hd hl)

theorem link : ∃ m' n' report, m.link .poolWide = .ok (m', report) ∧
    n.link .poolWide = .ok (n', report.rename s) ∧ Recut s m' n' ∧ m'.BoundWithin m'.nonLanes := by
  obtain ⟨e, he, hre⟩ := hr.exists_reshapes hm
  obtain ⟨m', n', report, hlinkm, hlinkn, hrm, hrn, halike, hwithin⟩ :=
    hre.link_alike hr.toAlike he subset_rfl hm fun h =>
      hre.resolve_of_candidates (hre.candidates h)
  exact ⟨m', n', report, hlinkm, hlinkn, hr.rebound hrm hrn halike, by rwa [hrm.nonLanes]⟩

theorem partition : Partition.ofModel n = (Partition.ofModel m).rename s := by
  obtain ⟨e, he, hre⟩ := hr.exists_reshapes hm
  rw [hre.partition]
  exact Partition.rename_congr fun x hx => he (partition_handles hx)

theorem layout (placement : Placement) :
    Layout.ofPartition n (Partition.ofModel n) placement =
      (Layout.ofPartition m (Partition.ofModel m) placement).rename s := by
  obtain ⟨e, he, hre⟩ := hr.exists_reshapes hm
  rw [hre.layout]
  exact Layout.rename_congr fun row hrow x hx => he (layout_handles hrow hx)

theorem box {h : Handle} (hh : h ∈ m.nonLanes) (placement : Placement) :
    List.lookup (s h) (Layout.ofPartition n (Partition.ofModel n) placement).boxes =
      List.lookup h (Layout.ofPartition m (Partition.ofModel m) placement).boxes := by
  obtain ⟨e, he, hre⟩ := hr.exists_reshapes hm
  rw [hre.layout, Layout.boxes_rename hre.injective, ← he hh]
  exact lookup_map_key hre.injective _ h

theorem poolBounds? {p : Handle} (hp : p ∈ m.nonLanes) (placement : Placement) :
    (Layout.ofPartition n (Partition.ofModel n) placement).poolBounds?
        (Partition.ofModel n) (s p) =
      (Layout.ofPartition m (Partition.ofModel m) placement).poolBounds?
        (Partition.ofModel m) p := by
  obtain ⟨e, he, hre⟩ := hr.exists_reshapes hm
  rw [hre.layout, hre.partition, ← he hp]
  exact Layout.poolBounds?_rename hre.injective _ _ p

end Recut

/-- Two models that differ only in how their pools are cut into lanes have the same candidates,
the same meanings of names, the same link report and the same findings on connections where lanes
hide nothing, and the same processes, boxes and bounds of pools. -/
theorem lanes_transparent (hr : Recut s m n) (hm : m.BoundWithin m.nonLanes) :
    (∀ h ∈ m.nonLanes,
      n.candidates .poolWide (s h) = (m.candidates .poolWide h).map s ∧
      (∀ endpoint,
        n.resolve .poolWide (s h) endpoint = (m.resolve .poolWide h endpoint).map s) ∧
      (Check.connection n (s h) .empty).diagnostics =
        (Check.connection m h .empty).diagnostics.map (Diagnostic.rename s)) ∧
    (∃ m' n' report, m.link .poolWide = .ok (m', report) ∧
      n.link .poolWide = .ok (n', report.rename s) ∧ Recut s m' n' ∧
      m'.BoundWithin m'.nonLanes) ∧
    Partition.ofModel n = (Partition.ofModel m).rename s ∧
    ∀ placement,
      Layout.ofPartition n (Partition.ofModel n) placement =
        (Layout.ofPartition m (Partition.ofModel m) placement).rename s ∧
      (∀ h ∈ m.nonLanes,
        List.lookup (s h) (Layout.ofPartition n (Partition.ofModel n) placement).boxes =
          List.lookup h (Layout.ofPartition m (Partition.ofModel m) placement).boxes) ∧
      ∀ p ∈ m.nonLanes,
        (Layout.ofPartition n (Partition.ofModel n) placement).poolBounds?
            (Partition.ofModel n) (s p) =
          (Layout.ofPartition m (Partition.ofModel m) placement).poolBounds?
            (Partition.ofModel m) p := by
  refine ⟨fun h hh => ⟨hr.candidates hm hh, hr.resolve hm hh, hr.connection hm hh⟩, hr.link hm,
    hr.partition hm, fun placement => ?_⟩
  exact ⟨hr.layout hm placement, fun h hh => hr.box hm hh placement,
    fun p hp => hr.poolBounds? hm hp placement⟩

end

/-- A pool with two tasks and a flow between them, one end of it bound. -/
def uncut : Model :=
  ofEdits
    [.declare (.pool "P"), .declare (.node ⟨"A", .task none⟩ (some ⟨0⟩)),
      .declare (.node ⟨"B", .task none⟩ (some ⟨0⟩)),
      .declare (.connection ⟨⟨"A", some ⟨1⟩⟩, .sequence, ⟨"B", none⟩, none⟩ (some ⟨0⟩))]

/-- The same with the first task in a lane inside a lane. -/
def cutTwice : Model :=
  ofEdits
    [.declare (.pool "P"), .declare (.lane "L" (some ⟨0⟩)), .declare (.lane "K" (some ⟨1⟩)),
      .declare (.node ⟨"A", .task none⟩ (some ⟨2⟩)), .declare (.node ⟨"B", .task none⟩ (some ⟨1⟩)),
      .declare (.connection ⟨⟨"A", some ⟨3⟩⟩, .sequence, ⟨"B", none⟩, none⟩ (some ⟨0⟩))]

/-- Where the elements of the one are in the other. -/
def cut (h : Handle) : Handle := ⟨[0, 3, 4, 5].getD h.index 0⟩

def uncutAgain (h : Handle) : Handle := ⟨[0, 0, 0, 1, 2, 3].getD h.index 0⟩

theorem recut_cutTwice : Recut cut uncut cutTwice := by
  have hthere : ∀ h ∈ uncut.handles, h ∈ uncut.nonLanes →
      cut h ∈ cutTwice.nonLanes ∧ uncutAgain (cut h) = h := by
    decide +kernel
  have hback : ∀ h ∈ cutTwice.handles, h ∈ cutTwice.nonLanes →
      uncutAgain h ∈ uncut.nonLanes ∧ cut (uncutAgain h) = h := by
    decide +kernel
  have hkept : ∀ h ∈ uncut.handles, cutTwice.isPool (cut h) = uncut.isPool h ∧
      cutTwice.name? (cut h) = uncut.name? h ∧ cutTwice.node? (cut h) = uncut.node? h ∧
      cutTwice.connection? (cut h) = (uncut.connection? h).map (Connection.rename cut) := by
    decide +kernel
  have hpools : ∀ h ∈ uncut.pools, cutTwice.leavesIn (cut h) = (uncut.leavesIn h).map cut ∧
      (cutTwice.children (cut h) = [] ↔ uncut.children h = []) := by
    decide +kernel
  have hinverse : Set.InvOn uncutAgain cut uncut.nonLanes cutTwice.nonLanes :=
    ⟨fun h hh => (hthere h (mem_handles_of_mem_nonLanes hh) hh).2,
      fun h hh => (hback h (mem_handles_of_mem_nonLanes hh) hh).2⟩
  exact {
    bijOn := hinverse.bijOn
      (fun h hh => (hthere h (mem_handles_of_mem_nonLanes hh) hh).1)
      fun h hh => (hback h (mem_handles_of_mem_nonLanes hh) hh).1
    isPool := fun h hh => (hkept h (mem_handles_of_mem_nonLanes hh)).1
    name? := fun h hh => (hkept h (mem_handles_of_mem_nonLanes hh)).2.1
    node? := fun h hh => (hkept h (mem_handles_of_mem_nonLanes hh)).2.2.1
    connection? := fun h hh => (hkept h (mem_handles_of_mem_nonLanes hh)).2.2.2
    roots := by decide +kernel
    leavesIn := fun p hp => (hpools p (mem_pools.mpr hp)).1
    children_eq_nil_iff := fun p hp => (hpools p (mem_pools.mpr hp)).2 }

theorem cutTwice_same : Recut cut uncut cutTwice ∧ uncut.BoundWithin uncut.nonLanes ∧
    cutTwice.candidates .poolWide ⟨5⟩ = [⟨3⟩, ⟨4⟩] ∧
    Partition.ofModel cutTwice = ⟨[⟨some ⟨0⟩, [⟨3⟩, ⟨4⟩], [⟨5⟩]⟩], []⟩ := by
  have hbound : uncut.BoundWithin uncut.nonLanes := boundWithin_iff.mpr (by decide +kernel)
  obtain ⟨hconnections, -, hpartition, -⟩ := lanes_transparent recut_cutTwice hbound
  have hflow := (hconnections ⟨3⟩ ⟨by decide, by decide⟩).1
  refine ⟨recut_cutTwice, hbound, hflow.trans ?_, hpartition.trans ?_⟩
  · decide +kernel
  · decide +kernel

end Model
end Bpmn
