import Bpmn.Reference.Scope

/-!
# Options

How a diagram is placed, how references are looked up and how a document is written.
-/

namespace Bpmn

structure Placement where
  /-- Left edge of the first box of every row. -/
  originX : Float32 := 100
  /-- From the left edge of a box to the left edge of the next. -/
  nodeSpacing : Float32 := 180
  /-- Top edge of the first row. -/
  originY : Float32 := 80
  /-- From the top edge of a row to the top edge of the next. -/
  rowSpacing : Float32 := 220
  /-- Room between a pool's border and its boxes. -/
  poolPadding : Float32 := 40
deriving DecidableEq

structure Options where
  placement : Placement := {}
  mode : Visibility := .poolWide
  /-- Blanks for each level of nesting; with none the document is a single line. -/
  indent : Nat := 2
deriving DecidableEq

end Bpmn
