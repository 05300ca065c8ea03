import Bpmn.Diagnostic.Code
import Bpmn.Model.Element

/-!
# Diagnostics

A diagnostic says what is wrong, points at elements of the model through labels, and may say what
to do about it.
-/

namespace Bpmn

/-- The part of an element that a label points at. -/
inductive Field where
  | name | source | target | elements
deriving DecidableEq, Repr

namespace Field

def word : Field → String
  | name => "name"
  | source => "source"
  | target => "target"
  | elements => "elements"

def ofEndpoint : Endpoint → Field
  | .source => source
  | .target => target

end Field

/-- A remark on one element.  Primary labels mark what is at fault, the others give context. -/
structure Label where
  element : Handle
  field : Option Field
  message : String
  isPrimary : Bool
deriving DecidableEq, Repr

namespace Label

def primary (element : Handle) (field : Option Field) (message : String) : Label :=
  ⟨element, field, message, true⟩

def secondary (element : Handle) (field : Option Field) (message : String) : Label :=
  ⟨element, field, message, false⟩

end Label

structure Diagnostic where
  severity : Severity
  code : Option Code := none
  message : String
  labels : List Label := []
  help : Option String := none
deriving DecidableEq, Repr

namespace Diagnostic

def primaryLabel? (d : Diagnostic) : Option Label := d.labels.find? Label.isPrimary

def text (d : Diagnostic) : String :=
  let code :=
    match d.code with
    | some code => "[" ++ code.tag ++ "]"
    | none => ""
  d.severity.word ++ code ++ ": " ++ d.message

end Diagnostic
end Bpmn
