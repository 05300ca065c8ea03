import Bpmn.Model.Basic

/-!
# The containment forest

Upward, `ancestors` follows parents.  Downward, `Model.branch` lays out an element with everything
below it as a tree, and the other views are recursions on such trees.  Tree order is the order in
which elements would be read in a nested text: an element, then all that is below it, then its
next sibling.
-/

namespace Bpmn

/-- An element with what is below it, children in the order of declaration. -/
inductive Branch where
  | mk (handle : Handle) (children : List Branch)

namespace Branch

def handle : Branch → Handle
  | mk h _ => h

def children : Branch → List Branch
  | mk _ children => children

mutual

def preorder : Branch → List Handle
  | mk h children => h :: preorders children

def preorders : List Branch → List Handle
  | [] => []
  | b :: rest => b.preorder ++ preorders rest

end

theorem preorder_eq (b : Branch) : b.preorder = b.handle :: preorders b.children := by
  cases b
  rfl

theorem preorders_eq_flatMap (branches : List Branch) :
    preorders branches = branches.flatMap preorder := by
  induction branches with
  | nil => rfl
  | cons b rest ih => rw [preorders, ih, List.flatMap_cons]

end Branch

namespace Model

/-! ## Upward -/

/-- The containers around an element, nearest first. -/
def ancestors (m : Model) (h : Handle) : List Handle :=
  match _hp : m.parent? h with
  | none => []
  | some p => p :: m.ancestors p
termination_by h.index
decreasing_by exact parent_lt _hp

/-- The nearest pool or lane around an element. -/
def containerOf? (m : Model) (h : Handle) : Option Handle := (m.ancestors h).find? m.isContainer

/-- The nearest pool around an element, looked for through lanes. -/
def poolOf? (m : Model) (h : Handle) : Option Handle := (m.ancestors h).find? m.isPool

/-- Names the place of elements that stand in no pool. -/
def topScope : String := "global"

/-- Names joined by dots, or the name of the top level where there are none. -/
def scopeName (names : List String) : String :=
  if names.isEmpty then topScope else ".".intercalate names

def scopeOf (m : Model) (h : Handle) : String :=
  scopeName ((m.ancestors h).reverse.filterMap m.name?)

/-! ## Downward -/

/-- Every element in the order of declaration. -/
def handles (m : Model) : List Handle := (List.range m.size).map Handle.mk

theorem mem_handles {m : Model} {h : Handle} : h ∈ m.handles ↔ h.index < m.size := by
  simp only [handles, List.mem_map, List.mem_range]
  exact ⟨fun ⟨i, hi, e⟩ => e ▸ hi, fun hh => ⟨h.index, hh, rfl⟩⟩

/-- The element behind `h` with everything below it. -/
def branch (m : Model) (h : Handle) : Branch :=
  .mk h ((m.children h).attach.map fun c => m.branch c.1)
termination_by m.size - h.index
decreasing_by
  have := lt_of_mem_children c.2
  omega

theorem branch_eq (m : Model) (h : Handle) :
    m.branch h = .mk h ((m.children h).map m.branch) := by
  rw [branch, List.attach_map_val]

def forest (m : Model) : List Branch := m.roots.map m.branch

/-- Every element of the model in tree order. -/
def walk (m : Model) : List Handle := Branch.preorders m.forest

/-- Every element below `h` in tree order. -/
def descendants (m : Model) (h : Handle) : List Handle := Branch.preorders (m.branch h).children

def nodesIn (m : Model) (h : Handle) : List Handle := (m.descendants h).filter m.isNode

/-- The top-level pools in the order of declaration. -/
def pools (m : Model) : List Handle := m.roots.filter m.isPool

def connections (m : Model) : List Handle := m.walk.filter m.isConnection

end Model
end Bpmn
