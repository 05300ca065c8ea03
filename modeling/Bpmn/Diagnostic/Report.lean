import Bpmn.Diagnostic.Basic

/-!
# Reports

A report gathers diagnostics in the order in which they are found, and keeps in mind whether an
error was among them.  A report with an error in it becomes a rejection, which keeps the warnings
too.
-/

namespace Bpmn

structure Report where
  diagnostics : List Diagnostic := []
  /-- Set by the first error and never cleared. -/
  hasErrors : Bool := false
  hasErrors_eq : hasErrors = diagnostics.any fun d => d.severity.isError := by rfl
deriving DecidableEq, Repr

namespace Report

def empty : Report := {}

def emit (r : Report) (d : Diagnostic) : Report where
  diagnostics := r.diagnostics ++ [d]
  hasErrors := r.hasErrors || d.severity.isError
  hasErrors_eq := by simp [r.hasErrors_eq]

def size (r : Report) : Nat := r.diagnostics.length

end Report

structure Rejection where
  diagnostics : List Diagnostic
deriving DecidableEq, Repr

namespace Rejection

def errors (r : Rejection) : List Diagnostic := r.diagnostics.filter fun d => d.severity.isError

/-- The first error, and how many more there are. -/
def message (r : Rejection) : String :=
  match r.errors with
  | [] => ""
  | [error] => error.text
  | error :: more => s!"{error.text} (+{more.length} more)"

end Rejection

/-- The warnings of a report without errors. -/
def Report.accept (r : Report) : Except Rejection (List Diagnostic) :=
  if r.hasErrors then .error ⟨r.diagnostics⟩ else .ok r.diagnostics

end Bpmn
