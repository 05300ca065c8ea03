import Bpmn.Reference.Linking

/-!
# How models come about

A model begins empty and changes by edits: declarations, bindings of single references and linking
passes.  An edit that is not possible changes nothing, and the next one goes on from there.
-/

namespace Bpmn

/-- A request to change a model. -/
inductive Edit where
  | declare (declaration : Declaration)
  | bind (connection : Handle) (endpoint : Endpoint) (node : Handle)
  | link (mode : Visibility)
deriving DecidableEq, Repr

namespace Model

def edit (m : Model) : Edit → Model
  | .declare declaration =>
    match m.declare declaration with
    | .ok (_, grown) => grown
    | .error _ => m
  | .bind connection endpoint node =>
    match m.bind connection endpoint node with
    | .ok bound => bound
    | .error _ => m
  | .link mode =>
    match m.link mode with
    | .ok (linked, _) => linked
    | .error _ => m

/-- The model that some edits make, one after another. -/
def ofEdits (edits : List Edit) : Model := edits.foldl edit empty

end Model
end Bpmn
