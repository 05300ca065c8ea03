import Bpmn.Model.Tree
import Bpmn.Proofs.Lists

/-!
# Tree order

Going up and going down are dual: `d` is below `a` exactly if `a` is above `d`.  So the subtrees of
distinct siblings are disjoint, the walk meets every element once, and what is below an element
stands in the walk as one piece, right behind it (`exists_walk_eq`).
-/

namespace Bpmn
namespace Model

/-- An element and everything below it in tree order. -/
def subtree (m : Model) (h : Handle) : List Handle := h :: m.descendants h

/-- An element and everything around it, nearest first. -/
def lineage (m : Model) (h : Handle) : List Handle := h :: m.ancestors h

section

variable {m : Model}

/-! ## One step up or down -/

theorem ancestors_of_root {h : Handle} (hp : m.parent? h = none) : m.ancestors h = [] := by
  rw [ancestors]
  split
  next => rfl
  next p hp' => rw [hp] at hp'; cases hp'

theorem ancestors_of_parent {h p : Handle} (hp : m.parent? h = some p) :
    m.ancestors h = m.lineage p := by
  rw [ancestors, lineage]
  split
  next hp' => rw [hp] at hp'; cases hp'
  next q hp' =>
    rw [hp] at hp'
    rw [Option.some.inj hp']

theorem lineage_of_root {h : Handle} (hp : m.parent? h = none) : m.lineage h = [h] := by
  rw [lineage, ancestors_of_root hp]

theorem lineage_of_parent {h p : Handle} (hp : m.parent? h = some p) :
    m.lineage h = h :: m.lineage p := by
  rw [lineage, ancestors_of_parent hp]

theorem mem_lineage_self (h : Handle) : h ∈ m.lineage h := List.mem_cons_self

theorem mem_subtree_self (h : Handle) : h ∈ m.subtree h := List.mem_cons_self

theorem preorder_branch (h : Handle) : (m.branch h).preorder = m.subtree h := by
  rw [Branch.preorder_eq, subtree, descendants, branch_eq, Branch.handle]

theorem walk_eq : m.walk = m.roots.flatMap m.subtree := by
  rw [walk, forest, Branch.preorders_eq_flatMap, List.flatMap_map]
  exact List.flatMap_congr fun h _ => preorder_branch h

theorem descendants_eq (h : Handle) : m.descendants h = (m.children h).flatMap m.subtree := by
  rw [descendants, branch_eq, Branch.children, Branch.preorders_eq_flatMap, List.flatMap_map]
  exact List.flatMap_congr fun h _ => preorder_branch h

/-- Induction from an element to what stands directly in it. -/
theorem inward {P : Handle → Prop} (step : ∀ h, (∀ c ∈ m.children h, P c) → P h) (h : Handle) :
    P h :=
  step h fun c _ => inward step c
termination_by m.size - h.index
decreasing_by
  have := lt_of_mem_children (h := h) (c := c) (by assumption)
  omega

/-- Induction from an element to its parent. -/
theorem outward {P : Handle → Prop} (root : ∀ h, m.parent? h = none → P h)
    (step : ∀ h p, m.parent? h = some p → P p → P h) (h : Handle) : P h :=
  match hp : m.parent? h with
  | none => root h hp
  | some p => step h p hp (outward root step p)
termination_by h.index
decreasing_by exact parent_lt hp

/-! ## Up and down are dual -/

theorem lt_of_mem_ancestors {a d : Handle} (ha : a ∈ m.ancestors d) : a < d := by
  induction d using outward (m := m) with
  | root d hp =>
    rw [ancestors_of_root hp] at ha
    cases ha
  | step d p hp ih =>
    rw [ancestors_of_parent hp] at ha
    have hlt : p < d := parent_lt hp
    rcases List.mem_cons.mp ha with rfl | ha
    · exact hlt
    · exact Nat.lt_trans (ih ha) hlt

theorem not_mem_ancestors_self (h : Handle) : h ∉ m.ancestors h :=
  fun hh => Nat.lt_irrefl _ (lt_of_mem_ancestors hh)

/-- The line upward from an ancestor ends the line upward from an element. -/
theorem lineage_suffix {a d : Handle} (ha : a ∈ m.lineage d) : m.lineage a <:+ m.lineage d := by
  induction d using outward (m := m) with
  | root d hp =>
    rw [lineage_of_root hp, List.mem_singleton] at ha
    subst ha
    exact List.suffix_rfl
  | step d p hp ih =>
    rw [lineage_of_parent hp] at ha
    rcases List.mem_cons.mp ha with rfl | ha
    · exact List.suffix_rfl
    · rw [lineage_of_parent hp]
      exact (ih ha).trans (List.suffix_cons d (m.lineage p))

theorem mem_ancestors_trans {a b d : Handle} (ha : a ∈ m.ancestors b) (hb : b ∈ m.ancestors d) :
    a ∈ m.ancestors d := by
  cases hp : m.parent? d with
  | none =>
    rw [ancestors_of_root hp] at hb
    cases hb
  | some p =>
    rw [ancestors_of_parent hp] at hb ⊢
    exact (lineage_suffix hb).subset (List.mem_cons_of_mem b ha)

theorem mem_descendants_of_parent {a d p : Handle} (hp : m.parent? d = some p)
    (ha : p ∈ m.subtree a) : d ∈ m.descendants a := by
  induction a using inward (m := m) with
  | step a ih =>
    rw [descendants_eq, List.mem_flatMap]
    rcases List.mem_cons.mp ha with rfl | ha
    · exact ⟨d, mem_children.mpr hp, mem_subtree_self d⟩
    · rw [descendants_eq, List.mem_flatMap] at ha
      obtain ⟨c, hc, ha⟩ := ha
      exact ⟨c, hc, List.mem_cons_of_mem c (ih c hc ha)⟩

theorem mem_subtree {a d : Handle} : d ∈ m.subtree a ↔ a ∈ m.lineage d := by
  constructor
  · intro hd
    induction a using inward (m := m) with
    | step a ih =>
      rcases List.mem_cons.mp hd with rfl | hd
      · exact mem_lineage_self d
      · rw [descendants_eq] at hd
        obtain ⟨c, hc, hd⟩ := List.mem_flatMap.mp hd
        refine (lineage_suffix (ih c hc hd)).subset ?_
        rw [lineage_of_parent (mem_children.mp hc)]
        exact List.mem_cons_of_mem c (mem_lineage_self a)
  · intro ha
    induction d using outward (m := m) with
    | root d hp =>
      rw [lineage_of_root hp, List.mem_singleton] at ha
      rw [ha]
      exact mem_subtree_self d
    | step d p hp ih =>
      rw [lineage_of_parent hp] at ha
      rcases List.mem_cons.mp ha with rfl | ha
      · exact mem_subtree_self a
      · exact List.mem_cons_of_mem a (mem_descendants_of_parent hp (ih ha))

theorem not_mem_descendants_self (h : Handle) : h ∉ m.descendants h := by
  intro hh
  rw [descendants_eq] at hh
  obtain ⟨c, hc, hh⟩ := List.mem_flatMap.mp hh
  have hlt : h < c := (lt_of_mem_children hc).1
  rcases List.mem_cons.mp (mem_subtree.mp hh) with rfl | hch
  · exact Nat.lt_irrefl _ hlt
  · exact Nat.lt_asymm hlt (lt_of_mem_ancestors hch)

/-- An element is below another exactly if the other is above it. -/
theorem mem_descendants {a d : Handle} : d ∈ m.descendants a ↔ a ∈ m.ancestors d := by
  by_cases hne : d = a
  · subst hne
    exact iff_of_false (not_mem_descendants_self d) (not_mem_ancestors_self d)
  · have h := mem_subtree (m := m) (a := a) (d := d)
    rwa [subtree, lineage, List.mem_cons, List.mem_cons, or_iff_right hne,
      or_iff_right (Ne.symm hne)] at h

/-! ## Every element once -/

/-- Only one of several siblings has a given element in its subtree. -/
theorem eq_of_siblings {c d x : Handle} (hcd : m.parent? c = m.parent? d)
    (hc : c ∈ m.lineage x) (hd : d ∈ m.lineage x) : c = d := by
  -- A sibling is never on the line upward from another one, which has only their parent's line.
  have apart : ∀ {a b : Handle}, m.parent? a = m.parent? b → a ∈ m.ancestors b → False := by
    intro a b hab ha
    cases hp : m.parent? b with
    | none => simp [ancestors_of_root hp] at ha
    | some p =>
      have hpa : p < a := parent_lt (hab.trans hp)
      rw [ancestors_of_parent hp] at ha
      rcases List.mem_cons.mp ha with rfl | ha
      · exact Nat.lt_irrefl _ hpa
      · exact Nat.lt_asymm hpa (lt_of_mem_ancestors ha)
  induction x using outward (m := m) with
  | root x hp =>
    rw [lineage_of_root hp, List.mem_singleton] at hc hd
    rw [hc, hd]
  | step x p hp ih =>
    rw [lineage_of_parent hp] at hc hd
    rcases List.mem_cons.mp hc with rfl | hc
    · rcases List.mem_cons.mp hd with rfl | hd
      · rfl
      · exact (apart hcd.symm (by rwa [ancestors_of_parent hp])).elim
    · rcases List.mem_cons.mp hd with rfl | hd
      · exact (apart hcd (by rwa [ancestors_of_parent hp])).elim
      · exact ih hc hd

theorem sorted_nodup {list : List Handle} (h : list.Pairwise (· < ·)) : list.Nodup := by
  refine h.imp ?_
  rintro a _ hlt rfl
  exact Nat.lt_irrefl a.index hlt

theorem roots_nodup : m.roots.Nodup := sorted_nodup m.coherent.roots_sorted

theorem children_nodup (h : Handle) : (m.children h).Nodup :=
  sorted_nodup (m.coherent.children_sorted h)

/-- Subtrees of distinct siblings share nothing. -/
theorem nodup_flatMap_subtree {list : List Handle} (hl : list.Nodup) {p : Option Handle}
    (hp : ∀ c ∈ list, m.parent? c = p) (hs : ∀ c ∈ list, (m.subtree c).Nodup) :
    (list.flatMap m.subtree).Nodup := by
  refine List.nodup_flatMap.mpr ⟨hs, hl.imp_of_mem ?_⟩
  intro c d hc hd hne x hxc hxd
  exact hne (eq_of_siblings ((hp c hc).trans (hp d hd).symm) (mem_subtree.mp hxc)
    (mem_subtree.mp hxd))

theorem subtree_nodup (h : Handle) : (m.subtree h).Nodup := by
  induction h using inward (m := m) with
  | step h ih =>
    refine List.nodup_cons.mpr ⟨not_mem_descendants_self h, ?_⟩
    rw [descendants_eq]
    exact nodup_flatMap_subtree (children_nodup h) (fun c hc => mem_children.mp hc) ih

theorem walk_nodup : m.walk.Nodup := by
  rw [walk_eq]
  exact nodup_flatMap_subtree roots_nodup (fun r hr => (mem_roots.mp hr).2)
    fun r _ => subtree_nodup r

/-- Going up from an element ends at the top level. -/
theorem exists_root {h : Handle} (hh : h.index < m.size) : ∃ r ∈ m.roots, r ∈ m.lineage h := by
  induction h using outward (m := m) with
  | root h hp => exact ⟨h, mem_roots.mpr ⟨hh, hp⟩, mem_lineage_self h⟩
  | step h p hp ih =>
    have hlt : p.index < h.index := parent_lt hp
    obtain ⟨r, hr, hrp⟩ := ih (by omega)
    exact ⟨r, hr, by rw [lineage_of_parent hp]; exact List.mem_cons_of_mem h hrp⟩

theorem lt_size_of_mem_ancestors {a d : Handle} (ha : a ∈ m.ancestors d) : d.index < m.size := by
  cases hp : m.parent? d with
  | none => simp [ancestors_of_root hp] at ha
  | some p => exact Arena.lt_size_of_parent hp

theorem mem_walk {h : Handle} : h ∈ m.walk ↔ h.index < m.size := by
  rw [walk_eq, List.mem_flatMap]
  constructor
  · rintro ⟨r, hr, hh⟩
    rcases List.mem_cons.mp (mem_subtree.mp hh) with rfl | hrh
    · exact (mem_roots.mp hr).1
    · exact lt_size_of_mem_ancestors hrh
  · intro hh
    obtain ⟨r, hr, hrh⟩ := exists_root hh
    exact ⟨r, hr, mem_subtree.mpr hrh⟩

theorem handles_nodup : m.handles.Nodup :=
  List.nodup_range.map fun _ _ h => congrArg Handle.index h

theorem handles_sorted : m.handles.Pairwise (· < ·) :=
  List.pairwise_map.mpr List.pairwise_lt_range

/-- The walk lists every handle that was given out, each once. -/
theorem walk_perm : m.walk.Perm m.handles :=
  (List.perm_ext_iff_of_nodup walk_nodup handles_nodup).mpr fun _ => mem_walk.trans mem_handles.symm

/-! ## Lists in tree order -/

/-- What is below an element stands right behind it in the walk. -/
theorem exists_walk_eq {h : Handle} (hh : h.index < m.size) :
    ∃ before after, m.walk = before ++ m.subtree h ++ after := by
  have cut : ∀ {list : List Handle} {c : Handle}, c ∈ list →
      ∃ before after, list.flatMap m.subtree = before ++ m.subtree c ++ after := by
    intro list c hc
    obtain ⟨before, after, rfl⟩ := List.append_of_mem hc
    exact ⟨before.flatMap m.subtree, after.flatMap m.subtree, by simp⟩
  induction h using outward (m := m) with
  | root h hp =>
    rw [walk_eq]
    exact cut (mem_roots.mpr ⟨hh, hp⟩)
  | step h p hp ih =>
    have hlt : p.index < h.index := parent_lt hp
    obtain ⟨before, after, hwalk⟩ := ih (by omega)
    obtain ⟨inner, outer, hkids⟩ := cut (mem_children.mpr hp)
    rw [← descendants_eq] at hkids
    exact ⟨before ++ p :: inner, outer ++ after, by simp [hwalk, subtree, hkids]⟩

theorem subtree_sublist_walk {h : Handle} (hh : h.index < m.size) :
    (m.subtree h).Sublist m.walk := by
  obtain ⟨before, after, hwalk⟩ := exists_walk_eq hh
  rw [hwalk, List.append_assoc]
  exact (List.sublist_append_left _ _).trans (List.sublist_append_right _ _)

theorem descendants_sublist_walk (h : Handle) : (m.descendants h).Sublist m.walk := by
  by_cases hh : h.index < m.size
  · exact (List.sublist_cons_self h _).trans (subtree_sublist_walk hh)
  · have hnil : m.descendants h = [] := by
      refine List.eq_nil_iff_forall_not_mem.mpr fun d hd => hh ?_
      have ha := mem_descendants.mp hd
      exact Nat.lt_trans (lt_of_mem_ancestors ha) (lt_size_of_mem_ancestors ha)
    rw [hnil]
    exact List.nil_sublist _

/-- What is below an element stands in the order of the walk. -/
theorem descendants_eq_filter (h : Handle) :
    m.descendants h = m.walk.filter fun d => decide (h ∈ m.ancestors d) := by
  refine eq_filter_of_sublist (descendants_sublist_walk h) walk_nodup fun d _ => ?_
  rw [decide_eq_true_iff, mem_descendants]

theorem roots_sublist_walk : m.roots.Sublist m.walk := by
  rw [walk_eq]
  have h := List.Sublist.flatMap_right (l := m.roots) (f := fun r => [r]) (g := m.subtree)
    fun r _ => List.singleton_sublist.mpr (mem_subtree_self r)
  rwa [List.flatMap_singleton'] at h

end

/-! ## Earlier and later -/

/-- Earlier in tree order. -/
def Precedes (m : Model) (a b : Handle) : Prop :=
  ∃ before after, m.walk = before ++ b :: after ∧ a ∈ before

section

variable {m : Model} {a b : Handle}

theorem Precedes.mem_walk (h : m.Precedes a b) : a ∈ m.walk ∧ b ∈ m.walk := by
  obtain ⟨before, after, hw, ha⟩ := h
  rw [hw]
  exact ⟨List.mem_append_left _ ha, List.mem_append_right _ List.mem_cons_self⟩

theorem Precedes.ne (h : m.Precedes a b) : a ≠ b := by
  obtain ⟨before, after, hw, ha⟩ := h
  have hnodup := m.walk_nodup
  rw [hw, List.nodup_append] at hnodup
  exact hnodup.2.2 a ha b List.mem_cons_self

theorem precedes_or_precedes (ha : a ∈ m.walk) (hb : b ∈ m.walk) (hne : a ≠ b) :
    m.Precedes a b ∨ m.Precedes b a := by
  obtain ⟨before, after, hw⟩ := List.append_of_mem hb
  rw [hw, List.mem_append, List.mem_cons] at ha
  rcases ha with ha | rfl | ha
  · exact .inl ⟨before, after, hw, ha⟩
  · exact absurd rfl hne
  · obtain ⟨between, rest, rfl⟩ := List.append_of_mem ha
    exact .inr ⟨before ++ b :: between, rest, by simp [hw], by simp⟩

theorem precedes_of_sublist (h : [a, b].Sublist m.walk) : m.Precedes a b := by
  obtain ⟨before, after, hw, ha, hb⟩ := List.cons_sublist_iff.mp h
  obtain ⟨between, rest, rfl⟩ := List.append_of_mem (List.singleton_sublist.mp hb)
  exact ⟨before ++ between, rest, by simp [hw], List.mem_append_left _ ha⟩

end
end Model
end Bpmn
