import Bpmn.Diagram.Layout
import Bpmn.Proofs.Partition
import Bpmn.Proofs.Tables

/-!
# Rows of boxes

Every process is a row, and the node at some rank of the process stands in the cell of that rank
(`placed_by_rank`).  Boxes are entered in tables by node, where a second box for a node would take
the place of the first.  As no node is in two processes or in one process twice, that never
happens: a row has the cells of its nodes one after the other, and the table of all boxes has the
rows one after the other.
-/

namespace Bpmn
namespace Layout

open Model

/-- A box with its corner at the column `k` of the row `i`, as wide and as high as what it is
for. -/
structure IsCell (placement : Placement) (i k : Nat) (kind : NodeKind) (b : Bounds) : Prop where
  minX : b.minX = placement.originX + Binary32.ofCount k * placement.nodeSpacing
  minY : b.minY = placement.originY + Binary32.ofCount i * placement.rowSpacing
  maxX : b.maxX = b.minX +
    match kind with
    | .event .. => 36
    | .gateway _ => 50
    | .task _ => 100
  maxY : b.maxY = b.minY +
    match kind with
    | .event .. => 36
    | .gateway _ => 50
    | .task _ => 80

/-- A row with the nodes of a process in their order, each in the cell of its rank, and with the
pool around them all. -/
structure IsRowOf (m : Model) (placement : Placement) (i : Nat) (q : ProcessOutline) (row : Row) :
    Prop where
  keys : row.boxes.map Prod.fst = q.nodes
  nodup : q.nodes.Nodup
  placed : ∀ k n, q.nodes[k]? = some n → ∃ node b, m.node? n = some node ∧
    row.boxes[k]? = some (n, b) ∧ IsCell placement i k node.kind b
  bounded : row.poolBounds.isSome = (q.pool.isSome && !q.nodes.isEmpty)
  around : q.pool.isSome → ∀ first rest, row.boxes.map Prod.snd = first :: rest →
    row.poolBounds = some
      { minX := (rest.foldl Bounds.merge first).minX - placement.poolPadding
        minY := (rest.foldl Bounds.merge first).minY - placement.poolPadding
        maxX := (rest.foldl Bounds.merge first).maxX + placement.poolPadding
        maxY := (rest.foldl Bounds.merge first).maxY + placement.poolPadding }

section

variable {m : Model} {placement : Placement} {q : ProcessOutline} {i : Nat} {nodes : List Handle}

/-! ## Cells -/

theorem isCell_cell (i k : Nat) (kind : NodeKind) :
    IsCell placement i k kind (cell placement i k kind) := by
  cases kind <;> exact ⟨rfl, rfl, rfl, rfl⟩

section

variable (hnodes : ∀ h ∈ nodes, m.isNode h = true)
include hnodes

theorem keys_kinds : (kinds m nodes).map Prod.fst = nodes := by
  have hkeys : (kinds m nodes).map Prod.fst = nodes.map fun h => h := by
    refine map_filterMap_eq fun h hh => ?_
    obtain ⟨n, hn⟩ := Option.isSome_iff_exists.mp (hnodes h hh)
    exact ⟨(h, n.kind), by rw [hn, Option.map_some], rfl⟩
  rw [hkeys, List.map_id']

theorem keys_cells : (cells m placement i nodes).map Prod.fst = nodes := by
  refine Eq.trans (map_mapIdx_eq ?_ _) (keys_kinds hnodes)
  intro column kind
  rfl

/-- Nothing is left out before a node, so its rank among the nodes is its column. -/
theorem getElem?_cells {k : Nat} {n : Handle} (hk : nodes[k]? = some n) :
    ∃ node, m.node? n = some node ∧
      (cells m placement i nodes)[k]? = some (n, cell placement i k node.kind) := by
  rw [← keys_kinds hnodes, List.getElem?_map, Option.map_eq_some_iff] at hk
  obtain ⟨⟨_, kind⟩, hkind, rfl⟩ := hk
  obtain ⟨h, -, hh⟩ := List.mem_filterMap.mp (List.mem_of_getElem? hkind)
  obtain ⟨node, hnode, heq⟩ := Option.map_eq_some_iff.mp hh
  obtain ⟨rfl, rfl⟩ := Prod.mk.inj heq
  refine ⟨node, hnode, ?_⟩
  rw [cells, List.getElem?_mapIdx, hkind, Option.map_some]

end

/-! ## Rows -/

theorem enclose_isSome (room : Float32) (bounds : List Bounds) :
    (enclose room bounds).isSome = !bounds.isEmpty := by
  cases bounds with
  | nil => rfl
  | cons => rfl

theorem poolBounds_eq : (row m placement i q).poolBounds =
    q.pool.bind fun _ => enclose placement.poolPadding
      ((row m placement i q).boxes.map Prod.snd) := rfl

section

variable (hq : q ∈ (Partition.ofModel m).processes)
include hq

/-- No box in a row takes the place of another. -/
theorem boxes_row_eq_cells : (row m placement i q).boxes = cells m placement i q.nodes := by
  refine Table.insertAll_eq_append (t := []) ?_
  rw [List.nil_append, keys_cells fun _ => Partition.isNode_of_mem_nodes hq]
  exact Partition.nodes_nodup_of_mem hq

/-- A row has a box for each node of its process. -/
theorem boxes_row : (row m placement i q).boxes.map Prod.fst = q.nodes := by
  rw [boxes_row_eq_cells hq, keys_cells fun _ => Partition.isNode_of_mem_nodes hq]

theorem boxes_row_isEmpty :
    ((row m placement i q).boxes.map Prod.snd).isEmpty = q.nodes.isEmpty := by
  rw [List.isEmpty_map, ← List.isEmpty_map (f := Prod.fst), boxes_row hq]

/-- A row has a box for its pool exactly if there is a node to draw it around. -/
theorem poolBounds_row :
    (row m placement i q).poolBounds.isSome = (q.pool.isSome && !q.nodes.isEmpty) := by
  rw [poolBounds_eq]
  cases q.pool with
  | none => rfl
  | some pool =>
    rw [Option.bind_some, enclose_isSome, boxes_row_isEmpty hq, Option.isSome_some, Bool.true_and]

theorem isRowOf : IsRowOf m placement i q (row m placement i q) where
  keys := boxes_row hq
  nodup := Partition.nodes_nodup_of_mem hq
  placed k n hk := by
    obtain ⟨node, hnode, hcell⟩ :=
      getElem?_cells (fun _ => Partition.isNode_of_mem_nodes hq) hk
    rw [boxes_row_eq_cells hq]
    exact ⟨node, _, hnode, hcell, isCell_cell i k node.kind⟩
  bounded := poolBounds_row hq
  around hpool first rest hbounds := by
    obtain ⟨pool, hpool⟩ := Option.isSome_iff_exists.mp hpool
    rw [poolBounds_eq, hpool, Option.bind_some, hbounds]
    rfl

end

/-! ## All rows together -/

theorem keys_rows : ((ofPartition m (Partition.ofModel m) placement).rows.flatMap
    Row.boxes).map Prod.fst = (Partition.ofModel m).nodes := by
  rw [List.map_flatMap, Partition.nodes, ofPartition]
  exact flatMap_mapIdx_eq fun i q hq => boxes_row hq

/-- No row takes the place of a box in another. -/
theorem boxes_eq : (ofPartition m (Partition.ofModel m) placement).boxes =
    (ofPartition m (Partition.ofModel m) placement).rows.flatMap Row.boxes := by
  refine Table.insertAll_eq_append (t := []) ?_
  rw [List.nil_append, keys_rows]
  exact Partition.nodes_nodup

/-- All rows together have a box for each node. -/
theorem keys_boxes : (ofPartition m (Partition.ofModel m) placement).boxes.map Prod.fst =
    (Partition.ofModel m).nodes := by
  rw [boxes_eq, keys_rows]

theorem keys_boxes_nodup :
    ((ofPartition m (Partition.ofModel m) placement).boxes.map Prod.fst).Nodup := by
  rw [keys_boxes]
  exact Partition.nodes_nodup

/-- Among all boxes a node has the one of its row. -/
theorem lookup_boxes {row : Row} (hrow : row ∈ (ofPartition m (Partition.ofModel m) placement).rows)
    {n : Handle} {bounds : Bounds} (hbox : (n, bounds) ∈ row.boxes) :
    (ofPartition m (Partition.ofModel m) placement).boxes.lookup n = some bounds := by
  refine Table.lookup_of_mem keys_boxes_nodup ?_
  rw [boxes_eq]
  exact List.mem_flatMap.mpr ⟨row, hrow, hbox⟩

end

/-- Each process has its row, and the node of a rank in a process stands in the column of that rank.
No box takes the place of another, so the table of all boxes is the rows one after the other and
shows each node where its row has it. -/
theorem placed_by_rank (m : Model) (placement : Placement) :
    let l := ofPartition m (Partition.ofModel m) placement
    l.rows.length = (Partition.ofModel m).processes.length ∧
      (∀ i q, (Partition.ofModel m).processes[i]? = some q →
        ∃ row, l.rows[i]? = some row ∧ IsRowOf m placement i q row) ∧
      l.boxes = l.rows.flatMap Row.boxes ∧ (l.boxes.map Prod.fst).Nodup ∧
      (∀ n, n ∈ l.boxes.map Prod.fst ↔ m.isNode n = true) ∧
      ∀ row ∈ l.rows, ∀ n bounds, (n, bounds) ∈ row.boxes → l.boxes.lookup n = some bounds := by
  intro l
  refine ⟨List.length_mapIdx, fun i q hq => ?_, boxes_eq, keys_boxes_nodup, fun n => ?_,
    fun row hrow n bounds hbox => lookup_boxes hrow hbox⟩
  · refine ⟨row m placement i q, ?_, isRowOf (List.mem_of_getElem? hq)⟩
    exact List.getElem?_mapIdx.trans (congrArg (Option.map _) hq)
  · rw [keys_boxes, Partition.mem_nodes]

end Layout
end Bpmn
