import Bpmn.Model.Tree

/-!
# Processes of a model

A document holds one process for each pool in which anything stands, and one for what stands
outside pools.  Lanes divide a process without splitting it.  Message flows belong to no process,
wherever they were declared.
-/

namespace Bpmn

/-- The nodes and flows of one process in tree order. -/
structure ProcessOutline where
  /-- The pool drawn around the process, none for what stands outside pools. -/
  pool : Option Handle
  nodes : List Handle
  /-- Sequence flows and associations. -/
  flows : List Handle
deriving DecidableEq, Repr

structure Partition where
  processes : List ProcessOutline
  messageFlows : List Handle
deriving DecidableEq, Repr

namespace Model

def isMessageFlow (m : Model) (h : Handle) : Bool :=
  (m.connection? h).any Connection.isMessageFlow

def isFlow (m : Model) (h : Handle) : Bool :=
  (m.connection? h).any fun c => !c.isMessageFlow

mutual

/-- The nodes and connections of a branch in tree order, lanes looked through. -/
def leaves (m : Model) : Branch → List Handle
  | .mk h children =>
    match m.element? h with
    | some (.node ..) | some (.connection ..) => [h]
    | some (.lane ..) => m.leavesOf children
    | some (.pool _) | none => []

def leavesOf (m : Model) : List Branch → List Handle
  | [] => []
  | b :: rest => m.leaves b ++ m.leavesOf rest

end

theorem leavesOf_eq_flatMap (m : Model) (branches : List Branch) :
    m.leavesOf branches = branches.flatMap m.leaves := by
  induction branches with
  | nil => rfl
  | cons b rest ih => rw [leavesOf, ih, List.flatMap_cons]

/-- The nodes and connections of a top-level branch, its pool looked through. -/
def topLeaves (m : Model) (b : Branch) : List Handle :=
  if m.isPool b.handle then m.leavesOf b.children else m.leaves b

end Model

namespace ProcessOutline

/-- Sorts nodes and connections into a process, leaving message flows out. -/
def ofLeaves (m : Model) (pool : Option Handle) (leaves : List Handle) : ProcessOutline :=
  ⟨pool, leaves.filter m.isNode, leaves.filter m.isFlow⟩

def isEmpty (p : ProcessOutline) : Bool := p.nodes.isEmpty && p.flows.isEmpty

end ProcessOutline

namespace Partition

def outside (m : Model) : ProcessOutline :=
  .ofLeaves m none ((m.forest.filter fun b => !m.isPool b.handle).flatMap m.topLeaves)

/-- The processes of the pools in which anything stands. -/
def pooled (m : Model) : List ProcessOutline :=
  (m.forest.filter fun b => m.isPool b.handle && !b.children.isEmpty).map fun b =>
    .ofLeaves m (some b.handle) (m.topLeaves b)

/-- The processes of a model.  The one outside pools comes first; it is left out if nothing is in
it, unless there would be no process then. -/
def ofModel (m : Model) : Partition where
  processes :=
    if (outside m).isEmpty && !(pooled m).isEmpty then pooled m else outside m :: pooled m
  messageFlows := (m.forest.flatMap m.topLeaves).filter m.isMessageFlow

end Partition
end Bpmn
