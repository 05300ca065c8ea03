import Bpmn.Model.Tree

/-!
# Visitors

A visitor threads a state through a model in tree order.  For a pool or lane it is handed the
walk over what stands inside, and decides when to take it, if at all; by default it takes it and
does nothing else.
-/

namespace Bpmn

structure Visitor (σ : Type) where
  node : Handle → Node → σ → σ := fun _ _ s => s
  connection : Handle → Connection → σ → σ := fun _ _ s => s
  pool : Handle → String → (inside : σ → σ) → σ → σ := fun _ _ inside => inside
  lane : Handle → String → (inside : σ → σ) → σ → σ := fun _ _ inside => inside

namespace Visitor

variable {σ : Type}

mutual

def visit (v : Visitor σ) (m : Model) : Branch → σ → σ
  | .mk h children, s =>
    match m.element? h with
    | some (.node n _) => v.node h n s
    | some (.connection c _) => v.connection h c s
    | some (.pool name) => v.pool h name (v.visitAll m children) s
    | some (.lane name _) => v.lane h name (v.visitAll m children) s
    | none => s

def visitAll (v : Visitor σ) (m : Model) : List Branch → σ → σ
  | [], s => s
  | b :: rest, s => v.visitAll m rest (v.visit m b s)

end

def visitModel (v : Visitor σ) (m : Model) (s : σ) : σ := v.visitAll m m.forest s

/-- Visits one element and whatever the visitor takes below it. -/
def visitElement (v : Visitor σ) (m : Model) (h : Handle) (s : σ) : σ := v.visit m (m.branch h) s

/-- Visits what stands directly in `h`, and whatever the visitor takes below. -/
def visitChildren (v : Visitor σ) (m : Model) (h : Handle) (s : σ) : σ :=
  v.visitAll m (m.branch h).children s

end Visitor
end Bpmn
