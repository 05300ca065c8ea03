import Mathlib.Data.List.Flatten
import Mathlib.Data.List.Nodup
import Mathlib.Data.List.Perm.Basic

/-!
# Lists

What the theory needs of lists beyond the library, none of it about models.
-/

namespace Bpmn

section

variable {α β γ : Type}

/-! ## Filters -/

theorem filter_of_imp {p q : α → Bool} (h : ∀ x, p x = true → q x = true)
    (list : List α) : (list.filter q).filter p = list.filter p := by
  rw [List.filter_filter]
  refine List.filter_congr fun x _ => ?_
  cases hp : p x with
  | false => rfl
  | true => rw [h x hp]; rfl

/-- Of images those are left whose originals are. -/
theorem filter_map_eq {f : α → β} {p : α → Bool} {q : β → Bool} (h : ∀ x, q (f x) = p x)
    (list : List α) : (list.map f).filter q = (list.filter p).map f := by
  rw [List.filter_map]
  congr 1
  exact List.filter_congr fun x _ => h x

/-- In a list that repeats nothing, some of the members in their order are told by what they are. -/
theorem eq_filter_of_sublist {part list : List α} (hpart : part.Sublist list) (hl : list.Nodup)
    {p : α → Bool} (hp : ∀ x ∈ list, p x = true ↔ x ∈ part) : part = list.filter p := by
  have hkept := hpart.filter p
  rw [List.filter_eq_self.mpr fun x hx => (hp x (hpart.subset hx)).mpr hx] at hkept
  refine hkept.eq_of_length_le (List.subperm_of_subset (hl.filter p) fun x hx => ?_).length_le
  obtain ⟨hx, hpx⟩ := List.mem_filter.mp hx
  exact (hp x hx).mp hpx

/-- Parts of a list picked by conditions that exclude each other repeat nothing. -/
theorem nodup_flatMap_filter {list : List α} (hl : list.Nodup)
    {conditions : List (α → Bool)}
    (hc : conditions.Pairwise fun p q => ∀ x, p x = true → q x = false) :
    (conditions.flatMap fun p => list.filter p).Nodup := by
  refine List.nodup_flatMap.mpr ⟨fun p _ => hl.filter p, hc.imp ?_⟩
  intro p q hpq x hx hy
  have hq := (List.mem_filter.mp hy).2
  rw [hpq x (List.mem_filter.mp hx).2] at hq
  cases hq

/-- Without the first of them, one less of the members of a list meets a condition. -/
theorem countP_other_than_first [DecidableEq α] {list : List α} (hl : list.Nodup) (p : α → Bool) :
    (list.countP fun x => list.find? p != some x && p x) = list.countP p - 1 := by
  rw [← List.countP_filter, ← List.head?_filter, List.countP_eq_length_filter (p := p)]
  have hkept := hl.filter p
  cases hlist : list.filter p with
  | nil => rfl
  | cons first rest =>
    rw [hlist] at hkept
    have hrest : ∀ x ∈ rest, (some first != some x) = true := by
      intro x hx
      have hne : first ≠ x := fun heq => (List.nodup_cons.mp hkept).1 (heq ▸ hx)
      simpa using hne
    rw [List.head?_cons, List.countP_cons, List.countP_eq_length.mpr hrest]
    simp

/-! ## Images -/

/-- In a list that repeats nothing, a member is there once among images that tell it from the
others. -/
theorem count_map_eq [DecidableEq α] [DecidableEq β] {list : List α} (hl : list.Nodup) {f : α → β}
    {x : α} (hf : ∀ y ∈ list, f y = f x → y = x) :
    (list.map f).count (f x) = if x ∈ list then 1 else 0 := by
  rw [List.count, List.countP_map, ← hl.count, List.count]
  refine List.countP_congr fun y hy => ?_
  rw [Function.comp_apply, beq_iff_eq, beq_iff_eq]
  exact ⟨hf y hy, congrArg f⟩

/-- If just the members that meet a condition have images, these stand as their originals do. -/
theorem forall₂_filter_filterMap {p : α → Bool} {f : α → Option β} {R : α → β → Prop}
    (hp : ∀ x, p x = (f x).isSome) (hR : ∀ x y, f x = some y → R x y) (list : List α) :
    List.Forall₂ R (list.filter p) (list.filterMap f) := by
  induction list with
  | nil => exact .nil
  | cons x rest ih =>
    cases hx : f x with
    | none =>
      rw [List.filter_cons_of_neg (by simp [hp, hx]), List.filterMap_cons_none hx]
      exact ih
    | some y =>
      rw [List.filter_cons_of_pos (by simp [hp, hx]), List.filterMap_cons_some hx]
      exact .cons (hR x y hx) ih

/-- If all members of a list have images, these stand as their originals do. -/
theorem forall₂_filterMap {f : α → Option β} {R : α → β → Prop} {list : List α}
    (h : ∀ x ∈ list, ∃ y, f x = some y ∧ R x y) : List.Forall₂ R list (list.filterMap f) := by
  induction list with
  | nil => exact .nil
  | cons x rest ih =>
    obtain ⟨y, hy, hR⟩ := h x List.mem_cons_self
    rw [List.filterMap_cons_some hy]
    exact .cons hR (ih fun x hx => h x (List.mem_cons_of_mem _ hx))

theorem forall₂_flatMap {f : α → List β} {g : α → List γ} {R : β → γ → Prop} {list : List α}
    (h : ∀ x ∈ list, List.Forall₂ R (f x) (g x)) :
    List.Forall₂ R (list.flatMap f) (list.flatMap g) := by
  induction list with
  | nil => exact .nil
  | cons x rest ih =>
    rw [List.flatMap_cons, List.flatMap_cons]
    exact List.rel_append (h x List.mem_cons_self) (ih fun y hy => h y (List.mem_cons_of_mem _ hy))

/-- Every member has a counterpart, and they belong together. -/
theorem exists_mem_zip_of_forall₂ {R : α → β → Prop} {as : List α} {bs : List β}
    (hl : List.Forall₂ R as bs) {x : α} (hx : x ∈ as) : ∃ y, (x, y) ∈ as.zip bs ∧ R x y := by
  rw [← List.map_fst_zip (Nat.le_of_eq hl.length_eq), List.mem_map] at hx
  obtain ⟨⟨x, y⟩, hzip, rfl⟩ := hx
  exact ⟨y, hzip, List.forall₂_zip hl hzip⟩

/-- A member has its counterpart at its own place. -/
theorem exists_getElem?_of_forall₂ {R : α → β → Prop} {as : List α} {bs : List β}
    (hl : List.Forall₂ R as bs) {j : Nat} {x : α} (hx : as[j]? = some x) :
    ∃ y, bs[j]? = some y ∧ R x y := by
  induction hl generalizing j with
  | nil => cases hx
  | @cons a b _ _ hab _ ih =>
    cases j with
    | zero =>
      obtain rfl := Option.some.inj hx
      exact ⟨b, rfl, hab⟩
    | succ j => exact ih hx

/-- What is read off the counterparts of some members is read off these members themselves. -/
theorem map_filter_zip_eq {R : α → β → Prop} {as : List α} {bs : List β} {g : β → γ} {k : α → γ}
    (hl : List.Forall₂ R as bs) (hR : ∀ x y, R x y → g y = k x) (p : α → Bool) :
    ((as.zip bs).filter fun x => p x.1).map (fun x => g x.2) = (as.filter p).map k := by
  induction hl with
  | nil => rfl
  | @cons x y _ _ hxy _ ih =>
    rw [List.zip_cons_cons, List.filter_cons, List.filter_cons]
    cases p x with
    | false => exact ih
    | true => exact congrArg₂ List.cons (hR x y hxy) ih

/-- Where everything in a list has an image, nothing is left out. -/
theorem map_filterMap_eq {list : List α} {f : α → Option β} {g : β → γ} {k : α → γ}
    (h : ∀ x ∈ list, ∃ y, f x = some y ∧ g y = k x) : (list.filterMap f).map g = list.map k := by
  have hcongr : ∀ x ∈ list, ((f x).map g) = some (k x) := by
    intro x hx
    obtain ⟨y, hy, hk⟩ := h x hx
    rw [hy, Option.map_some, hk]
  rw [List.map_filterMap, List.filterMap_congr hcongr, List.filterMap_eq_map']

theorem flatMap_filterMap_eq {list : List α} {f : α → Option β} {g : β → List γ}
    {k : α → List γ} (h : ∀ x ∈ list, ∃ y, f x = some y ∧ g y = k x) :
    (list.filterMap f).flatMap g = list.flatMap k := by
  rw [List.flatMap_def, map_filterMap_eq h, ← List.flatMap_def]

/-- What does not depend on positions is read off a list by positions as off the list. -/
theorem map_mapIdx_eq {f : Nat → α → β} {g : β → γ} {k : α → γ} (h : ∀ i x, g (f i x) = k x)
    (list : List α) : (list.mapIdx f).map g = list.map k := by
  induction list generalizing f with
  | nil => rfl
  | cons x rest ih =>
    rw [List.mapIdx_cons, List.map_cons, List.map_cons, h, ih fun i => h (i + 1)]

theorem flatMap_zip_mapIdx_eq {list : List α} {f : Nat → α → β} {g : α × β → List γ}
    {k : α → List γ} (h : ∀ i, ∀ x ∈ list, g (x, f i x) = k x) :
    (list.zip (list.mapIdx f)).flatMap g = list.flatMap k := by
  induction list generalizing f with
  | nil => rfl
  | cons x rest ih =>
    rw [List.mapIdx_cons, List.zip_cons_cons, List.flatMap_cons, List.flatMap_cons,
      h 0 x List.mem_cons_self, ih fun i y hy => h (i + 1) y (List.mem_cons_of_mem x hy)]

theorem flatMap_mapIdx_eq {list : List α} {f : Nat → α → β} {g : β → List γ}
    {k : α → List γ} (h : ∀ i, ∀ x ∈ list, g (f i x) = k x) :
    (list.mapIdx f).flatMap g = list.flatMap k := by
  induction list generalizing f with
  | nil => rfl
  | cons x rest ih =>
    rw [List.mapIdx_cons, List.flatMap_cons, List.flatMap_cons, h 0 x List.mem_cons_self,
      ih fun i y hy => h (i + 1) y (List.mem_cons_of_mem x hy)]

/-! ## Tables -/

theorem lookup_cons_ite [DecidableEq α] (key : α) (entry : α × γ) (rest : List (α × γ)) :
    (entry :: rest).lookup key = if key = entry.1 then some entry.2 else rest.lookup key := by
  rw [List.lookup_cons]
  cases hkey : key == entry.1 with
  | true => rw [if_pos (beq_iff_eq.mp hkey)]
  | false => rw [if_neg (beq_eq_false_iff_ne.mp hkey)]

/-- An entry at the end of a table is read where no other is. -/
theorem lookup_append_singleton [BEq α] (table : List (α × γ)) (key x : α) (v : γ) :
    (table ++ [(key, v)]).lookup x = (table.lookup x).or (if x == key then some v else none) := by
  rw [List.lookup_append, List.lookup_cons, List.lookup_nil]
  cases x == key <;> rfl

/-- Where no two keys become one, a table with other keys is read as before. -/
theorem lookup_map_key [DecidableEq α] [DecidableEq β] {f : α → β} (hf : Function.Injective f)
    (table : List (α × γ)) (key : α) :
    (table.map (Prod.map f id)).lookup (f key) = table.lookup key := by
  induction table with
  | nil => rfl
  | cons entry rest ih =>
    simp only [List.map_cons, lookup_cons_ite, ih, Prod.map_fst, Prod.map_snd, hf.eq_iff, id]

/-! ## Lists for each member -/

/-- Members that stand for nothing can be left out. -/
theorem flatMap_filter_eq {p : α → Bool} {f : α → List β} {list : List α}
    (h : ∀ x ∈ list, p x = false → f x = []) : (list.filter p).flatMap f = list.flatMap f := by
  induction list with
  | nil => rfl
  | cons x rest ih =>
    have ih := ih fun y hy => h y (List.mem_cons_of_mem x hy)
    cases hp : p x with
    | true => rw [List.filter_cons_of_pos hp, List.flatMap_cons, List.flatMap_cons, ih]
    | false =>
      rw [List.filter_cons_of_neg (by simp [hp]), List.flatMap_cons,
        h x List.mem_cons_self hp, List.nil_append, ih]

theorem flatMap_eq_map {f : α → List β} {g : α → β} {list : List α}
    (h : ∀ x ∈ list, f x = [g x]) : list.flatMap f = list.map g := by
  rw [List.flatMap_congr h, List.map_eq_flatMap]

/-- What is listed with each member of a list can be listed after all members. -/
theorem flatMap_cons_perm (list : List α) (f : α → β) (g : α → List β) :
    (list.flatMap fun x => f x :: g x).Perm (list.map f ++ list.flatMap g) := by
  rw [List.map_eq_flatMap]
  exact (List.flatMap_append_perm list (fun x => [f x]) g).symm

/-- Where each member of a list stands for one thing at most, the things stand as the members
do. -/
theorem flatMap_sublist_map {f : α → List β} {g : α → β}
    (h : ∀ x, (f x).Sublist [g x]) (list : List α) :
    (list.flatMap f).Sublist (list.map g) := by
  rw [List.map_eq_flatMap]
  exact List.Sublist.flatMap_right list fun x _ => h x

theorem mem_zip_mapIdx {list : List α} {f : Nat → α → β} {x : α} {y : β} :
    (x, y) ∈ list.zip (list.mapIdx f) ↔ ∃ i, list[i]? = some x ∧ f i x = y := by
  rw [List.mem_iff_getElem?]
  refine exists_congr fun i => ?_
  rw [List.getElem?_zip_eq_some, List.getElem?_mapIdx]
  refine and_congr_right fun hx => ?_
  rw [hx, Option.map_some, Option.some_inj]

end
end Bpmn
