import Bpmn.Model.Visitor
import Bpmn.Proofs.Sorts

/-!
# Visits in tree order

A visitor goes down the branches of a model by itself and knows nothing of the walk.  If it does
its part at a container before it goes inside, it still does its part at one element after another
in the order of the walk (`visitModel_outsideIn`), and by default its part at a container is to do
nothing.
-/

namespace Bpmn

/-- What a visitor is handed for an element in which nothing stands. -/
inductive Call where
  | node (h : Handle) (n : Node)
  | connection (h : Handle) (c : Connection)
deriving DecidableEq, Repr

def Call.handle : Call → Handle
  | node h _ => h
  | connection h _ => h

/-- The call that an element asks for, if it is a node or a connection. -/
def Model.call? (m : Model) (h : Handle) : Option Call :=
  match m.element? h with
  | some (.node n _) => some (.node h n)
  | some (.connection c _) => some (.connection h c)
  | _ => none

namespace Visitor

open Model

variable {σ τ : Type}

def answer (v : Visitor σ) (s : σ) : Call → σ
  | .node h n => v.node h n s
  | .connection h c => v.connection h c s

/-- A visitor that does its part at a container before it goes inside. -/
def outsideIn (node : Handle → Node → σ → σ) (connection : Handle → Connection → σ → σ)
    (pool lane : Handle → String → σ → σ) : Visitor σ where
  node := node
  connection := connection
  pool h name inside s := inside (pool h name s)
  lane h name inside s := inside (lane h name s)

/-- A visitor that is left to what is done at containers by default. -/
def ofLeaves (node : Handle → Node → σ → σ) (connection : Handle → Connection → σ → σ) :
    Visitor σ where
  node := node
  connection := connection

/-- The part that is done at one element, apart from what stands inside. -/
def stepAt (m : Model) (node : Handle → Node → σ → σ) (connection : Handle → Connection → σ → σ)
    (pool lane : Handle → String → σ → σ) (s : σ) (h : Handle) : σ :=
  match m.element? h with
  | some (.node n _) => node h n s
  | some (.connection c _) => connection h c s
  | some (.pool name) => pool h name s
  | some (.lane name _) => lane h name s
  | none => s

section

variable {v : Visitor σ} {m : Model}

/-- Siblings are visited one after another.  What the visitor keeps of its state from one to the
next may be less than the whole state, which `load` then restores. -/
theorem visitAll_branches (load : τ → σ) {step : τ → Handle → τ} {list : List Handle}
    (hc : ∀ c ∈ list, ∀ t, v.visit m (m.branch c) (load t) = load ((m.subtree c).foldl step t))
    (t : τ) : v.visitAll m (list.map m.branch) (load t) =
      load ((list.flatMap m.subtree).foldl step t) := by
  induction list generalizing t with
  | nil => rfl
  | cons c rest ih =>
    rw [List.map_cons, visitAll, hc c List.mem_cons_self, List.flatMap_cons, List.foldl_append]
    exact ih (fun d hd => hc d (List.mem_cons_of_mem c hd)) _

end

section

variable {m : Model} {node : Handle → Node → σ → σ} {connection : Handle → Connection → σ → σ}
  {pool lane : Handle → String → σ → σ}

/-- A visitor does its part at an element and goes on with what stands directly in it. -/
theorem visit_outsideIn (h : Handle) (s : σ) :
    (outsideIn node connection pool lane).visit m (m.branch h) s =
      (outsideIn node connection pool lane).visitAll m ((m.children h).map m.branch)
        (stepAt m node connection pool lane s h) := by
  have hleaf : m.isContainer h = false → (m.children h).map m.branch = [] := by
    intro hc
    rw [children_eq_nil hc, List.map_nil]
  rw [branch_eq, visit, stepAt]
  cases he : m.element? h with
  | none =>
    rw [hleaf (by rw [Arena.isContainer, he]; rfl)]
    rfl
  | some e =>
    cases e with
    | pool | lane => rfl
    | node | connection =>
      rw [hleaf (by rw [Arena.isContainer, he]; rfl)]
      rfl

theorem visitElement_outsideIn (h : Handle) (s : σ) :
    (outsideIn node connection pool lane).visitElement m h s =
      (m.subtree h).foldl (stepAt m node connection pool lane) s := by
  rw [visitElement]
  induction h using inward (m := m) generalizing s with
  | step h ih =>
    rw [visit_outsideIn, visitAll_branches (fun t => t) ih, subtree, List.foldl_cons,
      descendants_eq]

/-- What a visitor does to a model is what it does at each element in tree order. -/
theorem visitModel_outsideIn (s : σ) :
    (outsideIn node connection pool lane).visitModel m s =
      m.walk.foldl (stepAt m node connection pool lane) s := by
  rw [visitModel, forest, walk_eq]
  exact visitAll_branches (fun t => t) (fun r _ => visitElement_outsideIn r) s

end

/-! ## Containers passed through -/

section

variable {m : Model} {node : Handle → Node → σ → σ} {connection : Handle → Connection → σ → σ}

/-- By default a visitor goes inside and does nothing else. -/
theorem ofLeaves_eq :
    ofLeaves node connection = outsideIn node connection (fun _ _ s => s) fun _ _ s => s := rfl

/-- Where nothing is done at containers, the calls for nodes and connections are left. -/
theorem foldl_stepAt (list : List Handle) (s : σ) :
    list.foldl (stepAt m node connection (fun _ _ s => s) fun _ _ s => s) s =
      (list.filterMap m.call?).foldl (ofLeaves node connection).answer s := by
  rw [List.foldl_filterMap]
  congr 1
  funext s h
  rw [stepAt, call?]
  cases m.element? h with
  | none => rfl
  | some e => cases e <;> rfl

theorem visitModel_ofLeaves (s : σ) : (ofLeaves node connection).visitModel m s =
    (m.walk.filterMap m.call?).foldl (ofLeaves node connection).answer s := by
  rw [← foldl_stepAt, ← visitModel_outsideIn, ofLeaves_eq]

theorem visitElement_ofLeaves (h : Handle) (s : σ) : (ofLeaves node connection).visitElement m h s =
    ((h :: m.descendants h).filterMap m.call?).foldl (ofLeaves node connection).answer s := by
  rw [← foldl_stepAt, ← subtree, ← visitElement_outsideIn, ofLeaves_eq]

end

end Visitor

namespace Model

variable {m : Model} {h : Handle}

theorem handle_of_call? {call : Call} (hc : m.call? h = some call) : call.handle = h := by
  rw [call?] at hc
  split at hc
  · exact Option.some.inj hc ▸ rfl
  · exact Option.some.inj hc ▸ rfl
  · cases hc

theorem isSome_call? (m : Model) (h : Handle) :
    (m.call? h).isSome = (m.isNode h || m.isConnection h) := by
  rw [call?, isNode, isConnection, node?, connection?]
  cases m.element? h with
  | none => rfl
  | some e => cases e <;> rfl

end Model
end Bpmn
