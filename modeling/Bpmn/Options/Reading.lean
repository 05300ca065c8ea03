import Bpmn.Options.Basic
import Bpmn.Options.Toml

/-!
# Reading options

Options come from the sections `layout`, `scope` and `export` of a TOML text.  A section is a
table, or an array with the values in the order of the fields; what is missing keeps its default.
Unknown keys are passed over, but their values have to be representable.  A date in place of a
section has nothing to say, so everything in that section keeps its default.  How a text is taken
apart into keys and values is left to a parser.
-/

namespace Bpmn

/-- Why options could not be read. -/
inductive OptionsError where
  /-- There is no file, or it is not text. -/
  | unreadable
  /-- The text is not TOML. -/
  | malformed
  /-- A section or a field has a value that it cannot have. -/
  | mismatched
deriving DecidableEq, Repr

namespace Options

open Toml (Value)

/-- The values given to the fields of a section, in the order of the fields. -/
def fieldValues (fields : List String) : Value → Option (List (Option Value))
  | .table entries =>
    let unknown := entries.filter fun entry => !fields.contains entry.1
    if Value.entriesRepresentable unknown then
      some (fields.map fun field => entries.lookup field)
    else none
  | .array items => some (fields.mapIdx fun i _ => items[i]?)
  | .dateTime _ => some (fields.map fun _ => none)
  | _ => none

def sectionValues (fields : List String) (given : Option Value) :
    Option (List (Option Value)) :=
  match given with
  | some v => fieldValues fields v
  | none => some (fields.map fun _ => none)

/-- Reads the value of one field, which keeps its default if it has none. -/
def readField {α : Type} (default : α) (read : Value → Option α) : Option Value → Option α
  | some v => read v
  | none => some default

/-- A coordinate, from any 64 bit integer or from a number in double precision. -/
def readNumber : Value → Option Float32
  | .integer n =>
    if 0 ≤ n then if n < 0x10000000000000000 then some n.toNat.toUInt64.toFloat32 else none
    else if -0x8000000000000000 ≤ n then some (-n.natAbs.toUInt64.toFloat32) else none
  | .real r => r.toFloat?.map Float.toFloat32
  | _ => none

def readCount : Value → Option Nat
  | .integer n => if 0 ≤ n && n < 0x10000000000000000 then some n.toNat else none
  | _ => none

/-- A word, or a table that holds nothing but the word with nothing in it. -/
def readMode : Value → Option Visibility
  | .string word => Vocabulary.read? word
  | .table [(word, .table [])] | .table [(word, .array [])] => Vocabulary.read? word
  | _ => none

def readPlacement (given : Option Value) : Option Placement := do
  let fields := ["origin_x", "node_spacing", "origin_y", "row_spacing", "pool_padding"]
  let usual : Placement := {}
  match ← sectionValues fields given with
  | [originX, nodeSpacing, originY, rowSpacing, poolPadding] =>
    return {
      originX := ← readField usual.originX readNumber originX
      nodeSpacing := ← readField usual.nodeSpacing readNumber nodeSpacing
      originY := ← readField usual.originY readNumber originY
      rowSpacing := ← readField usual.rowSpacing readNumber rowSpacing
      poolPadding := ← readField usual.poolPadding readNumber poolPadding }
  | _ => none

def readSingle {α : Type} (field : String) (default : α) (read : Value → Option α)
    (given : Option Value) : Option α := do
  match ← sectionValues [field] given with
  | [v] => readField default read v
  | _ => none

def sections : List String := ["layout", "scope", "export"]

def ofEntries? (entries : List (String × Value)) : Option Options := do
  let usual : Options := {}
  let unknown := entries.filter fun entry => !sections.contains entry.1
  guard (Value.entriesRepresentable unknown)
  return {
    placement := ← readPlacement (entries.lookup "layout")
    mode := ← readSingle "mode" usual.mode readMode (entries.lookup "scope")
    indent := ← readSingle "indent" usual.indent readCount (entries.lookup "export") }

def ofText (parse? : String → Option (List (String × Value))) (text : String) :
    Except OptionsError Options :=
  match parse? text with
  | none => .error .malformed
  | some entries =>
    match ofEntries? entries with
    | none => .error .mismatched
    | some options => .ok options

def ofFile (parse? : String → Option (List (String × Value))) (bytes : Option ByteArray) :
    Except OptionsError Options :=
  match bytes.bind String.fromUTF8? with
  | none => .error .unreadable
  | some text => ofText parse? text

end Options
end Bpmn
