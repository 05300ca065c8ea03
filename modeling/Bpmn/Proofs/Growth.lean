import Bpmn.Proofs.Sorts
import Mathlib.Data.List.Find

/-!
# What a new element moves

An element is added after all others and entered in one list, that of its parent or that of the top
level.  Going up from the others nothing has changed.  Going down, the new element comes right
behind its parent and whatever is below the parent: in what is below the elements around it, and so
in the walk (`putBehind_walk`).  What is below any other element stays as it was.
-/

namespace Bpmn
namespace Model

/-- The second list is the first with `new` put in right behind a block of it. -/
def PutBehind (block : List Handle) (new : Handle) (list grown : List Handle) : Prop :=
  ∃ before after, list = before ++ (block ++ after) ∧ grown = before ++ (block ++ new :: after)

theorem PutBehind.append {block list grown : List Handle} {new : Handle}
    (h : PutBehind block new list grown) (front back : List Handle) :
    PutBehind block new (front ++ (list ++ back)) (front ++ (grown ++ back)) := by
  obtain ⟨before, after, rfl, rfl⟩ := h
  exact ⟨front ++ before, after ++ back, by simp, by simp⟩

section

variable {m : Model} {e : Element} (fits : ∀ p, e.parent? = some p → m.isContainer p = true)
  {x p : Handle}

/-! ## Going up from the others -/

theorem size_push : (m.push e fits).size = m.size + 1 := Arena.size_push m.toArena e

theorem element?_push (x : Handle) :
    (m.push e fits).element? x = if x.index = m.size then some e else m.element? x :=
  Arena.element?_push m.toArena e x

theorem element?_push_of_lt (hx : x.index < m.size) :
    (m.push e fits).element? x = m.element? x := by
  rw [element?_push, if_neg (Nat.ne_of_lt hx)]

theorem parent?_push_of_lt (hx : x.index < m.size) :
    (m.push e fits).parent? x = m.parent? x := by
  rw [Arena.parent?, element?_push_of_lt fits hx, Arena.parent?]

theorem ancestors_push_of_lt (hx : x.index < m.size) :
    (m.push e fits).ancestors x = m.ancestors x := by
  induction x using outward (m := m) with
  | root x hp =>
    rw [ancestors_of_root hp, ancestors_of_root (by rw [parent?_push_of_lt fits hx, hp])]
  | step x p hp ih =>
    have hlt : p.index < x.index := parent_lt hp
    have hpush : (m.push e fits).parent? x = some p := by rw [parent?_push_of_lt fits hx, hp]
    rw [ancestors_of_parent hp, ancestors_of_parent hpush, lineage, lineage, ih (by omega)]

/-- Ancestors are earlier than an element, so the new one is none of them. -/
theorem element?_push_of_mem_ancestors (hx : x.index < m.size) {a : Handle}
    (ha : a ∈ m.ancestors x) : (m.push e fits).element? a = m.element? a := by
  have hlt : a.index < x.index := lt_of_mem_ancestors ha
  exact element?_push_of_lt fits (by omega)

theorem poolOf?_push_of_lt (hx : x.index < m.size) : (m.push e fits).poolOf? x = m.poolOf? x := by
  rw [poolOf?, ancestors_push_of_lt fits hx, poolOf?]
  refine List.find?_congr fun a ha => ?_
  rw [isPool, element?_push_of_mem_ancestors fits hx ha, isPool]

theorem scopeOf_push_of_lt (hx : x.index < m.size) : (m.push e fits).scopeOf x = m.scopeOf x := by
  rw [scopeOf, ancestors_push_of_lt fits hx, scopeOf]
  congr 1
  refine List.filterMap_congr fun a ha => ?_
  rw [name?, element?_push_of_mem_ancestors fits hx (List.mem_reverse.mp ha), name?]

/-! ## Going down -/

theorem roots_push :
    (m.push e fits).roots = if e.parent? = none then m.roots ++ [⟨m.size⟩] else m.roots :=
  Arena.roots_push m.toArena e

theorem children_push (x : Handle) : (m.push e fits).children x =
    if e.parent? = some x then m.children x ++ [⟨m.size⟩] else m.children x :=
  Arena.children_push m.toArena e m.coherent.contents_size
    (fun p hp => Arena.lt_size_of_isContainer (fits p hp)) x

/-- What is below an element stays, unless the new element stands somewhere below it. -/
theorem descendants_push_of_not_mem (hx : ∀ p, e.parent? = some p → x ∉ m.lineage p) :
    (m.push e fits).descendants x = m.descendants x := by
  induction x using inward (m := m) with
  | step x ih =>
    have hself : e.parent? ≠ some x := fun hp => hx x hp (mem_lineage_self x)
    rw [descendants_eq, children_push, if_neg hself, descendants_eq]
    refine List.flatMap_congr fun c hc => ?_
    rw [subtree, subtree, ih c hc]
    intro p hp hmem
    apply hx p hp
    apply (lineage_suffix hmem).subset
    rw [lineage_of_parent (mem_children.mp hc)]
    exact List.mem_cons_of_mem c (mem_lineage_self x)

theorem subtree_push_of_not_mem (hx : ∀ p, e.parent? = some p → x ∉ m.lineage p) :
    (m.push e fits).subtree x = m.subtree x := by
  rw [subtree, descendants_push_of_not_mem fits hx, subtree]

/-- Nothing is below the new element. -/
theorem subtree_push_self : (m.push e fits).subtree ⟨m.size⟩ = [⟨m.size⟩] := by
  have hnil : m.children ⟨m.size⟩ = [] := by
    refine List.eq_nil_iff_forall_not_mem.mpr fun c hc => ?_
    have hlt : m.size < c.index ∧ c.index < m.size := lt_of_mem_children hc
    omega
  rw [subtree_push_of_not_mem fits, subtree, descendants_eq, hnil, List.flatMap_nil]
  intro p hp hmem
  have hlt := Arena.lt_size_of_isContainer (fits p hp)
  rcases List.mem_cons.mp hmem with rfl | ha
  · exact Nat.lt_irrefl _ hlt
  · exact Nat.lt_asymm hlt (lt_of_mem_ancestors ha)

section

variable (hp : e.parent? = some p)
include hp

theorem descendants_push_parent :
    (m.push e fits).descendants p = m.descendants p ++ [⟨m.size⟩] := by
  have hkept : ∀ c ∈ m.children p, (m.push e fits).subtree c = m.subtree c := by
    intro c hc
    have hlt : p < c := (lt_of_mem_children hc).1
    refine subtree_push_of_not_mem fits fun q hq hmem => ?_
    obtain rfl := Option.some.inj (hp.symm.trans hq)
    rcases List.mem_cons.mp hmem with rfl | ha
    · exact Nat.lt_irrefl _ hlt
    · exact Nat.lt_asymm hlt (lt_of_mem_ancestors ha)
  rw [descendants_eq, children_push, if_pos hp, List.flatMap_append, List.flatMap_congr hkept,
    ← descendants_eq, List.flatMap_singleton, subtree_push_self]

/-- Among siblings the new element is found below one only, and below that in one place. -/
theorem putBehind_flatMap {list : List Handle} (hl : list.Nodup) {q : Option Handle}
    (hq : ∀ c ∈ list, m.parent? c = q) {c : Handle} (hc : c ∈ list) (hcp : c ∈ m.lineage p)
    (hput : PutBehind (m.subtree p) ⟨m.size⟩ (m.subtree c) ((m.push e fits).subtree c)) :
    PutBehind (m.subtree p) ⟨m.size⟩ (list.flatMap m.subtree)
      (list.flatMap (m.push e fits).subtree) := by
  obtain ⟨before, after, rfl⟩ := List.append_of_mem hc
  have hkept : ∀ d ∈ before ++ c :: after, d ≠ c →
      (m.push e fits).subtree d = m.subtree d := by
    intro d hd hne
    refine subtree_push_of_not_mem fits fun r hr hmem => hne ?_
    obtain rfl := Option.some.inj (hp.symm.trans hr)
    exact eq_of_siblings ((hq d hd).trans (hq c hc).symm) hmem hcp
  obtain ⟨-, htail, hapart⟩ := List.nodup_append.mp hl
  have hbefore : before.flatMap (m.push e fits).subtree = before.flatMap m.subtree :=
    List.flatMap_congr fun d hd =>
      hkept d (List.mem_append_left _ hd) (hapart d hd c List.mem_cons_self)
  have hafter : after.flatMap (m.push e fits).subtree = after.flatMap m.subtree := by
    refine List.flatMap_congr fun d hd => hkept d (by simp [hd]) ?_
    exact ne_of_mem_of_not_mem hd (List.nodup_cons.mp htail).1
  rw [List.flatMap_append, List.flatMap_cons, List.flatMap_append, List.flatMap_cons, hbefore,
    hafter]
  exact hput.append _ _

theorem putBehind_subtree (hx : x ∈ m.lineage p) :
    PutBehind (m.subtree p) ⟨m.size⟩ (m.subtree x) ((m.push e fits).subtree x) := by
  induction x using inward (m := m) with
  | step x ih =>
    rcases List.mem_cons.mp hx with rfl | ha
    · refine ⟨[], [], by simp, ?_⟩
      rw [subtree, descendants_push_parent fits hp, subtree]
      rfl
    · have hne : e.parent? ≠ some x := by
        intro heq
        obtain rfl := Option.some.inj (hp.symm.trans heq)
        exact not_mem_ancestors_self p ha
      -- The parent of the new element is below just one of the children.
      have hmem := mem_descendants.mpr ha
      rw [descendants_eq, List.mem_flatMap] at hmem
      obtain ⟨c, hc, hcp⟩ := hmem
      rw [mem_subtree] at hcp
      have hput := putBehind_flatMap fits hp (children_nodup x) (fun d hd => mem_children.mp hd) hc
        hcp (ih c hc hcp)
      have hgrown : (m.push e fits).descendants x =
          (m.children x).flatMap (m.push e fits).subtree := by
        rw [descendants_eq, children_push, if_neg hne]
      rw [← descendants_eq, ← hgrown] at hput
      simpa [subtree] using hput.append [x] []

/-- The new element comes into the walk right behind the block of its parent. -/
theorem putBehind_walk :
    PutBehind (m.subtree p) ⟨m.size⟩ m.walk (m.push e fits).walk := by
  obtain ⟨r, hr, hrp⟩ := exists_root (Arena.lt_size_of_isContainer (fits p hp))
  have hsome : e.parent? ≠ none := by simp [hp]
  rw [walk_eq, walk_eq, roots_push, if_neg hsome]
  exact putBehind_flatMap fits hp roots_nodup (fun d hd => (mem_roots.mp hd).2) hr hrp
    (putBehind_subtree fits hp hrp)

end

/-- At the top level the new element comes last. -/
theorem walk_push_of_root (hp : e.parent? = none) :
    (m.push e fits).walk = m.walk ++ [⟨m.size⟩] := by
  have hkept : ∀ r ∈ m.roots, (m.push e fits).subtree r = m.subtree r := by
    intro r _
    refine subtree_push_of_not_mem fits fun p hp' => ?_
    rw [hp] at hp'
    cases hp'
  rw [walk_eq, roots_push, if_pos hp, List.flatMap_append, List.flatMap_congr hkept, ← walk_eq,
    List.flatMap_singleton, subtree_push_self]

end
end Model
end Bpmn
