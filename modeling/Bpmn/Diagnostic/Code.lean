/-!
# Codes of diagnostics

Each finding of the checks has a code, and each code a fixed severity.
-/

namespace Bpmn

inductive Severity where
  | error | warning
deriving DecidableEq, Repr

namespace Severity

def word : Severity → String
  | error => "error"
  | warning => "warning"

def isError (s : Severity) : Bool := s == error

end Severity

inductive Code where
  | unresolvedReference
  | crossesPools
  | mixesPooling
  | endOutsidePools
  | withinOnePool
  | duplicateName
  | selfLoop
  | nameReused
  | emptyPool
  | emptyLane
deriving DecidableEq, Repr

namespace Code

def all : List Code :=
  [unresolvedReference, crossesPools, mixesPooling, endOutsidePools, withinOnePool, duplicateName,
    selfLoop, nameReused, emptyPool, emptyLane]

/-- The code as it is printed: a letter for the severity and a number for the concern. -/
def tag : Code → String
  | unresolvedReference => "E100"
  | crossesPools => "E200"
  | mixesPooling => "E201"
  | endOutsidePools => "E202"
  | withinOnePool => "E203"
  | duplicateName => "E300"
  | selfLoop => "W001"
  | nameReused => "W002"
  | emptyPool => "W003"
  | emptyLane => "W004"

def summary : Code → String
  | unresolvedReference => "unresolved reference"
  | crossesPools => "connection crosses pool boundary"
  | mixesPooling => "connection mixes pooled and unpooled nodes"
  | endOutsidePools => "message flow endpoint outside of a pool"
  | withinOnePool => "message flow within a single pool"
  | duplicateName => "duplicate node name"
  | selfLoop => "self-loop"
  | nameReused => "name reused across containers"
  | emptyPool => "empty pool"
  | emptyLane => "empty lane"

def severity : Code → Severity
  | selfLoop | nameReused | emptyPool | emptyLane => .warning
  | _ => .error

def ofTag? (tag : String) : Option Code := all.find? fun code => code.tag == tag

end Code
end Bpmn
