import Bpmn.Check.Basic
import Bpmn.Document.Assembly
import Bpmn.Document.Export

/-!
# From models to documents

A document can be written for any model.  Compiling writes it only for a model without errors.
-/

namespace Bpmn

/-- Why a model was not compiled. -/
inductive CompileError where
  | validation (rejection : Rejection)
  | exporting (error : ExportError)

namespace Model

/-- The text of the document of a model, whatever the checks say about it. -/
def generate (m : Model) (w : Markup.Writer) (options : Options) : Except CompileError String :=
  ((Document.ofModel m options.placement).written w options.indent).mapError .exporting

/-- The text of the document of a model without errors. -/
def compile (m : Model) (w : Markup.Writer) (options : Options) : Except CompileError String := do
  let _ ← m.validate.mapError .validation
  m.generate w options

end Model
end Bpmn
