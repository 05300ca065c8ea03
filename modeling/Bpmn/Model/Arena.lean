import Bpmn.Model.Element

/-!
# Containment tables

The elements of a model stand in an arena in the order of declaration, and what stands where is
kept in three places: each element names its parent, each element has the list of what stands
directly in it, and one list holds what stands at the top level.  Going up reads the first, going
down the other two.  `Arena.Coherent` says that they agree; adding an element and binding a
reference keep it so.
-/

namespace Bpmn

structure Arena where
  elements : Array Element
  /-- What stands directly in each element, in the order of declaration. -/
  contents : Array (List Handle)
  /-- What stands at the top level, in the order of declaration. -/
  roots : List Handle

namespace Arena

def empty : Arena := ⟨#[], #[], []⟩

def size (a : Arena) : Nat := a.elements.size

def element? (a : Arena) (h : Handle) : Option Element := a.elements[h.index]?

def parent? (a : Arena) (h : Handle) : Option Handle := (a.element? h).bind Element.parent?

def isContainer (a : Arena) (h : Handle) : Bool := (a.element? h).any Element.isContainer

def children (a : Arena) (h : Handle) : List Handle := (a.contents[h.index]?).getD []

/-- Adds an element after all others and enters it in the list that its parent asks for. -/
def push (a : Arena) (e : Element) : Arena :=
  let new : Handle := ⟨a.size⟩
  match e.parent? with
  | none =>
    { elements := a.elements.push e
      contents := a.contents.push []
      roots := a.roots ++ [new] }
  | some p =>
    { elements := a.elements.push e
      contents := (a.contents.modify p.index fun list => list ++ [new]).push []
      roots := a.roots }

/-- Binds one end of the connection behind `h`; any other element stays as it is. -/
def setBinding (a : Arena) (h : Handle) (endpoint : Endpoint) (bound : Handle) : Arena :=
  { a with elements := a.elements.modify h.index fun e => e.bind endpoint bound }

/-- The three accounts of what stands where agree, and parents are earlier pools or lanes. -/
structure Coherent (a : Arena) : Prop where
  contents_size : a.contents.size = a.size
  parent_lt : ∀ {h p : Handle}, a.parent? h = some p → p < h
  parent_isContainer : ∀ {h p : Handle}, a.parent? h = some p → a.isContainer p = true
  mem_children : ∀ {h c : Handle}, c ∈ a.children h ↔ a.parent? c = some h
  mem_roots : ∀ {h : Handle}, h ∈ a.roots ↔ h.index < a.size ∧ a.parent? h = none
  children_sorted : ∀ h : Handle, (a.children h).Pairwise (· < ·)
  roots_sorted : a.roots.Pairwise (· < ·)

theorem Coherent.empty : empty.Coherent where
  contents_size := rfl
  parent_lt hp := by simp [parent?, element?, Arena.empty] at hp
  parent_isContainer hp := by simp [parent?, element?, Arena.empty] at hp
  mem_children := by simp [children, parent?, element?, Arena.empty]
  mem_roots := by simp [Arena.empty, size]
  children_sorted h := by simp [children, Arena.empty]
  roots_sorted := List.Pairwise.nil

theorem lt_size {a : Arena} {h : Handle} {e : Element} (he : a.element? h = some e) :
    h.index < a.size := by
  obtain ⟨hlt, _⟩ := Array.getElem?_eq_some_iff.mp he
  exact hlt

theorem lt_size_of_parent {a : Arena} {h p : Handle} (hp : a.parent? h = some p) :
    h.index < a.size := by
  obtain ⟨e, he, _⟩ := Option.bind_eq_some_iff.mp hp
  exact lt_size he

theorem lt_size_of_isContainer {a : Arena} {h : Handle} (hc : a.isContainer h = true) :
    h.index < a.size := by
  obtain ⟨e, he, _⟩ := (Option.any_eq_true _ _).mp hc
  exact lt_size he

/-! ## Adding an element -/

section push

variable (a : Arena) (e : Element)

theorem elements_push : (a.push e).elements = a.elements.push e := by
  unfold push
  split <;> rfl

@[simp] theorem size_push : (a.push e).size = a.size + 1 := by
  rw [size, elements_push, Array.size_push, size]

/-- The new element stands after all others, which stay where they are. -/
theorem element?_push (h : Handle) :
    (a.push e).element? h = if h.index = a.size then some e else a.element? h := by
  rw [element?, elements_push]
  exact Array.getElem?_push

theorem parent?_push (h : Handle) :
    (a.push e).parent? h = if h.index = a.size then e.parent? else a.parent? h := by
  rw [parent?, element?_push]
  split <;> rfl

theorem roots_push :
    (a.push e).roots = if e.parent? = none then a.roots ++ [⟨a.size⟩] else a.roots := by
  unfold push
  split <;> simp [*]

/-- Only the list of the new element's parent grows. -/
theorem children_push (hsize : a.contents.size = a.size)
    (hlt : ∀ p, e.parent? = some p → p.index < a.size) (h : Handle) :
    (a.push e).children h =
      if e.parent? = some h then a.children h ++ [⟨a.size⟩] else a.children h := by
  have hend : a.contents[a.size]? = none := by simp [hsize]
  rw [push, children]
  split
  next he =>
    rw [Array.getElem?_push]
    by_cases hh : h.index = a.contents.size
    · simp [he, hh, children]
    · simp [he, hh, children]
  next p he =>
    have hp := hlt p he
    rw [Array.getElem?_push, Array.size_modify, Array.getElem?_modify, he]
    by_cases hh : p = h
    · subst hh
      have hne : p.index ≠ a.contents.size := by omega
      have hget : a.contents[p.index]? = some (a.children p) := by
        rw [children, Array.getElem?_eq_getElem (by omega), Option.getD_some]
      simp [hne, hget]
    · have hi : p.index ≠ h.index := fun hi => hh (Handle.eq_iff.mpr hi)
      by_cases hn : h.index = a.contents.size
      · simp [hh, hn, children]
      · simp [hh, hi, hn, children]

end push

/-- A handle above all others may end a list in the order of declaration. -/
theorem pairwise_append_next {list : List Handle} {n : Nat} (hl : list.Pairwise (· < ·))
    (hlt : ∀ x ∈ list, x.index < n) : (list ++ [Handle.mk n]).Pairwise (· < ·) := by
  refine List.pairwise_append.mpr ⟨hl, List.pairwise_singleton _ _, ?_⟩
  intro x hx y hy
  rw [List.mem_singleton.mp hy]
  exact hlt x hx

section Coherent

variable {a : Arena} {e : Element}

theorem Coherent.mem_children_push (ha : a.Coherent)
    (hlt : ∀ p, e.parent? = some p → p.index < a.size) {h c : Handle} :
    c ∈ (a.push e).children h ↔ (a.push e).parent? c = some h := by
  rw [children_push a e ha.contents_size hlt, parent?_push]
  by_cases hc : c.index = a.size
  · have hnew : c = ⟨a.size⟩ := Handle.eq_iff.mpr hc
    have hnot : (⟨a.size⟩ : Handle) ∉ a.children h := fun hm =>
      Nat.lt_irrefl _ (lt_size_of_parent (ha.mem_children.mp hm))
    by_cases he : e.parent? = some h <;> simp [he, hnot, hnew]
  · have hne : c ≠ ⟨a.size⟩ := fun h => hc (congrArg Handle.index h)
    by_cases he : e.parent? = some h <;> simp [he, hc, hne, ha.mem_children]

theorem Coherent.mem_roots_push (ha : a.Coherent) {h : Handle} :
    h ∈ (a.push e).roots ↔ h.index < (a.push e).size ∧ (a.push e).parent? h = none := by
  rw [roots_push, parent?_push, size_push]
  by_cases hh : h.index = a.size
  · have hnew : h = ⟨a.size⟩ := Handle.eq_iff.mpr hh
    have hnot : (⟨a.size⟩ : Handle) ∉ a.roots := fun hm =>
      Nat.lt_irrefl _ (ha.mem_roots.mp hm).1
    by_cases he : e.parent? = none <;> simp [he, hnot, hnew]
  · have hne : h ≠ ⟨a.size⟩ := fun h => hh (congrArg Handle.index h)
    have hsize : h.index < a.size + 1 ↔ h.index < a.size := by omega
    by_cases he : e.parent? = none <;> simp [he, hh, hne, ha.mem_roots, hsize]

/-- Adding an element keeps the tables in agreement if its parent, when it has one, is a pool or
lane that is there already. -/
theorem Coherent.push (ha : a.Coherent)
    (fits : ∀ p, e.parent? = some p → a.isContainer p = true) : (a.push e).Coherent := by
  have hlt : ∀ p, e.parent? = some p → p.index < a.size :=
    fun p hp => lt_size_of_isContainer (fits p hp)
  have hkeep : ∀ p : Handle, a.isContainer p = true → (a.push e).isContainer p = true := by
    intro p hp
    have hne : p.index ≠ a.size := Nat.ne_of_lt (lt_size_of_isContainer hp)
    rwa [isContainer, element?_push, if_neg hne]
  refine ⟨?_, ?_, ?_, ha.mem_children_push hlt, ha.mem_roots_push, ?_, ?_⟩
  · rw [size_push, Arena.push]
    split <;> simp [ha.contents_size]
  · intro h p hp
    rw [parent?_push] at hp
    split at hp
    next hh => exact Handle.lt_def.mpr (hh ▸ hlt p hp)
    next => exact ha.parent_lt hp
  · intro h p hp
    rw [parent?_push] at hp
    split at hp
    next => exact hkeep p (fits p hp)
    next => exact hkeep p (ha.parent_isContainer hp)
  · intro h
    rw [children_push a e ha.contents_size hlt]
    split
    · exact pairwise_append_next (ha.children_sorted h)
        fun c hc => lt_size_of_parent (ha.mem_children.mp hc)
    · exact ha.children_sorted h
  · rw [roots_push]
    split
    · exact pairwise_append_next ha.roots_sorted fun c hc => (ha.mem_roots.mp hc).1
    · exact ha.roots_sorted

end Coherent

/-! ## Binding a reference -/

section setBinding

variable (a : Arena) (h : Handle) (endpoint : Endpoint) (bound : Handle)

@[simp] theorem size_setBinding : (a.setBinding h endpoint bound).size = a.size := by
  simp [setBinding, size]

@[simp] theorem roots_setBinding : (a.setBinding h endpoint bound).roots = a.roots := rfl

@[simp] theorem children_setBinding (x : Handle) :
    (a.setBinding h endpoint bound).children x = a.children x := rfl

/-- Only the element behind `h` may differ. -/
theorem element?_setBinding (x : Handle) :
    (a.setBinding h endpoint bound).element? x =
      if h = x then (a.element? x).map fun e => e.bind endpoint bound else a.element? x := by
  simp only [setBinding, element?]
  rw [Array.getElem?_modify]
  by_cases hx : h = x
  · simp [hx]
  · have hi : h.index ≠ x.index := fun hi => hx (Handle.eq_iff.mpr hi)
    simp [hx, hi]

@[simp] theorem parent?_setBinding (x : Handle) :
    (a.setBinding h endpoint bound).parent? x = a.parent? x := by
  simp only [parent?, element?_setBinding]
  split
  · cases a.element? x <;> simp
  · rfl

@[simp] theorem isContainer_setBinding (x : Handle) :
    (a.setBinding h endpoint bound).isContainer x = a.isContainer x := by
  simp only [isContainer, element?_setBinding]
  split
  · cases a.element? x <;> simp
  · rfl

end setBinding

theorem Coherent.setBinding {a : Arena} (ha : a.Coherent) (h : Handle) (endpoint : Endpoint)
    (bound : Handle) : (a.setBinding h endpoint bound).Coherent where
  contents_size := by rw [size_setBinding]; exact ha.contents_size
  parent_lt hp := ha.parent_lt (by simpa using hp)
  parent_isContainer hp := by
    rw [isContainer_setBinding]
    exact ha.parent_isContainer (by simpa using hp)
  mem_children := by
    intro x c
    rw [children_setBinding, parent?_setBinding]
    exact ha.mem_children
  mem_roots := by
    intro x
    rw [roots_setBinding, size_setBinding, parent?_setBinding]
    exact ha.mem_roots
  children_sorted := ha.children_sorted
  roots_sorted := ha.roots_sorted

end Arena
end Bpmn
