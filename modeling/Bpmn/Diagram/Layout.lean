import Bpmn.Options.Basic
import Bpmn.Diagram.Geometry
import Bpmn.Partition
import Bpmn.Table

/-!
# Placement

Every process is one row of boxes, its nodes from left to right in tree order at equal distances.
Rows stand one below the other in the order of the processes.  A pool is drawn around the boxes of
its row, with some room on each side.
-/

namespace Bpmn

def NodeKind.boxSize : NodeKind → Size
  | .event .. => ⟨36, 36⟩
  | .gateway _ => ⟨50, 50⟩
  | .task _ => ⟨100, 80⟩

/-- Boxes by node, in the order of placement. -/
abbrev Boxes := Table Bounds

structure Route where
  start : Point
  finish : Point
deriving DecidableEq

/-- From the middle of one box to the middle of another.  A line with an end that has no box
shrinks to the origin. -/
def Boxes.route (boxes : Boxes) (source target : Option Handle) : Route :=
  let box (h : Handle) : Option Bounds := List.lookup h boxes
  match source.bind box, target.bind box with
  | some a, some b => ⟨a.center.round, b.center.round⟩
  | _, _ => ⟨.origin, .origin⟩

structure Row where
  boxes : Boxes
  /-- The box of the pool, for a pool with nodes. -/
  poolBounds : Option Bounds
deriving DecidableEq

structure Layout where
  rows : List Row
deriving DecidableEq

namespace Layout

def cell (placement : Placement) (row column : Nat) (kind : NodeKind) : Bounds :=
  .ofTopLeft
    ⟨placement.originX + Binary32.ofCount column * placement.nodeSpacing,
      placement.originY + Binary32.ofCount row * placement.rowSpacing⟩
    kind.boxSize

/-- The smallest box around some boxes, with room on each side. -/
def enclose (room : Float32) : List Bounds → Option Bounds
  | [] => none
  | first :: rest => some ((rest.foldl Bounds.merge first).pad (.uniform room))

/-- Nodes with what they are.  Anything but a node is left out. -/
def kinds (m : Model) (nodes : List Handle) : List (Handle × NodeKind) :=
  nodes.filterMap fun h => (m.node? h).map fun n => (h, n.kind)

/-- Nodes from left to right, each with its cell in a row. -/
def cells (m : Model) (placement : Placement) (index : Nat) (nodes : List Handle) :
    List (Handle × Bounds) :=
  (kinds m nodes).mapIdx fun column (h, kind) => (h, cell placement index column kind)

def row (m : Model) (placement : Placement) (index : Nat) (process : ProcessOutline) : Row :=
  let boxes : Boxes := Table.insertAll [] (cells m placement index process.nodes)
  { boxes
    poolBounds := process.pool.bind fun _ => enclose placement.poolPadding (boxes.map Prod.snd) }

def ofPartition (m : Model) (p : Partition) (placement : Placement) : Layout where
  rows := p.processes.mapIdx (row m placement)

/-- The boxes of all rows in one table, entered row by row. -/
def boxes (l : Layout) : Boxes := Table.insertAll [] (l.rows.flatMap Row.boxes)

end Layout
end Bpmn
