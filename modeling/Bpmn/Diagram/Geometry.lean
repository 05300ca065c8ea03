import Bpmn.Number.Binary32

/-!
# Plane geometry of the diagram

Points, sizes, bounding boxes and insets, in the coordinates of the diagram interchange format:
the origin is the top left corner, x grows rightward and y downward.  Every coordinate is single
precision and every operation rounds once.
-/

namespace Bpmn

structure Point where
  x : Float32
  y : Float32
deriving DecidableEq

structure Size where
  width : Float32
  height : Float32
deriving DecidableEq

structure Insets where
  top : Float32
  right : Float32
  bottom : Float32
  left : Float32
deriving DecidableEq

/-- A box by its extreme coordinates. -/
structure Bounds where
  minX : Float32
  minY : Float32
  maxX : Float32
  maxY : Float32
deriving DecidableEq

namespace Point

def origin : Point := ⟨0, 0⟩

/-- Both coordinates are zero of either sign. -/
def isZero (p : Point) : Bool := p.x == 0 && p.y == 0

def add (p q : Point) : Point := ⟨p.x + q.x, p.y + q.y⟩

instance : Add Point := ⟨add⟩

/-- The nearest point with integer coordinates, halves away from zero. -/
def round (p : Point) : Point := ⟨Binary32.round p.x, Binary32.round p.y⟩

end Point

namespace Size

def zero : Size := ⟨0, 0⟩

def isZero (s : Size) : Bool := s.width == 0 && s.height == 0

end Size

namespace Insets

def zero : Insets := ⟨0, 0, 0, 0⟩

def uniform (room : Float32) : Insets := ⟨room, room, room, room⟩

end Insets

namespace Bounds

def zero : Bounds := ⟨0, 0, 0, 0⟩

def ofTopLeft (corner : Point) (size : Size) : Bounds :=
  ⟨corner.x, corner.y, corner.x + size.width, corner.y + size.height⟩

def width (b : Bounds) : Float32 := b.maxX - b.minX

def height (b : Bounds) : Float32 := b.maxY - b.minY

def topLeft (b : Bounds) : Point := ⟨b.minX, b.minY⟩

def size (b : Bounds) : Size := ⟨b.width, b.height⟩

def center (b : Bounds) : Point := ⟨(b.minX + b.maxX) / 2, (b.minY + b.maxY) / 2⟩

/-- The smallest box around two boxes.  A coordinate that is not a number gives way to the other
box's. -/
def merge (a b : Bounds) : Bounds where
  minX := Binary32.minNum a.minX b.minX
  minY := Binary32.minNum a.minY b.minY
  maxX := Binary32.maxNum a.maxX b.maxX
  maxY := Binary32.maxNum a.maxY b.maxY

def pad (b : Bounds) (room : Insets) : Bounds :=
  ⟨b.minX - room.left, b.minY - room.top, b.maxX + room.right, b.maxY + room.bottom⟩

end Bounds
end Bpmn
