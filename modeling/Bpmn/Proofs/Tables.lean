import Bpmn.Proofs.Lists
import Bpmn.Table

/-!
# What tables hold

Looked up, a table that was changed at one element is as before at all others.  Entries for
elements that a table does not have, each for another one, go to its end one after the other
(`insertAll_eq_append`), so nothing is overwritten where nothing is entered twice.
-/

namespace Bpmn
namespace Table

variable {β : Type}

theorem lookup_alter (h k : Handle) (value : Option β → β) (table : Table β) :
    (table.alter h value).lookup k =
      if k = h then some (value (table.lookup h)) else table.lookup k := by
  induction table with
  | nil => rw [alter, lookup_cons_ite, List.lookup_nil, List.lookup_nil]
  | cons entry rest ih =>
    rw [alter]
    by_cases hentry : entry.1 = h
    · rw [if_pos hentry, lookup_cons_ite, lookup_cons_ite, lookup_cons_ite, if_pos hentry.symm,
        hentry]
      split <;> rfl
    · rw [if_neg hentry, lookup_cons_ite, lookup_cons_ite, lookup_cons_ite, ih,
        if_neg (Ne.symm hentry)]
      by_cases hk : k = h
      · rw [if_pos hk, if_neg fun heq => hentry (heq.symm.trans hk), if_pos hk]
      · rw [if_neg hk, if_neg hk]

theorem lookup_insert (table : Table β) (h k : Handle) (value : β) :
    (table.insert h value).lookup k = if k = h then some value else table.lookup k :=
  lookup_alter h k _ table

theorem lookup_erase (h k : Handle) (table : Table β) :
    (table.erase h).lookup k = if k = h then none else table.lookup k := by
  induction table with
  | nil => rw [erase, List.filter_nil, List.lookup_nil, ite_self]
  | cons entry rest ih =>
    rw [erase, lookup_cons_ite]
    by_cases hentry : entry.1 = h
    · rw [List.filter_cons_of_neg (by simp [hentry]), ← erase, ih, hentry]
      split <;> rfl
    · rw [List.filter_cons_of_pos (by simp [hentry]), lookup_cons_ite, ← erase, ih]
      by_cases hk : k = h
      · rw [if_pos hk, if_neg fun heq => hentry (heq.symm.trans hk), if_pos hk]
      · rw [if_neg hk, if_neg hk]

/-! ## Values and their elements -/

section

variable {table : Table β} {h : Handle}

theorem exists_lookup (hh : h ∈ table.map Prod.fst) :
    ∃ value, (h, value) ∈ table ∧ table.lookup h = some value := by
  cases hlookup : table.lookup h with
  | none =>
    obtain ⟨entry, hentry, rfl⟩ := List.mem_map.mp hh
    have hne := List.lookup_eq_none_iff.mp hlookup entry hentry
    simp at hne
  | some value =>
    obtain ⟨before, after, rfl, -⟩ := List.lookup_eq_some_iff.mp hlookup
    exact ⟨value, List.mem_append_right before List.mem_cons_self, rfl⟩

theorem lookup_eq_none (hh : h ∉ table.map Prod.fst) : table.lookup h = none := by
  refine List.lookup_eq_none_iff.mpr fun entry hentry => ?_
  rw [bne_iff_ne]
  rintro rfl
  exact hh (List.mem_map_of_mem hentry)

/-- In a table of different elements, each element has the value that was entered for it. -/
theorem lookup_of_mem (hkeys : (table.map Prod.fst).Nodup) {value : β}
    (hmem : (h, value) ∈ table) : table.lookup h = some value := by
  obtain ⟨before, after, rfl⟩ := List.append_of_mem hmem
  refine List.lookup_eq_some_iff.mpr ⟨before, after, rfl, fun entry hentry => ?_⟩
  rw [List.map_append, List.map_cons, List.nodup_append] at hkeys
  rw [bne_iff_ne]
  exact (hkeys.2.2 _ (List.mem_map_of_mem hentry) _ List.mem_cons_self).symm

end

/-! ## Nothing entered twice -/

theorem insert_of_not_mem {table : Table β} {h : Handle} (hh : h ∉ table.map Prod.fst)
    (value : β) : table.insert h value = table ++ [(h, value)] := by
  induction table with
  | nil => rfl
  | cons entry rest ih =>
    rw [List.map_cons, List.mem_cons, not_or] at hh
    rw [insert, alter, if_neg (Ne.symm hh.1), ← insert, ih hh.2, List.cons_append]

/-- Entries for different elements, none of them in a table, follow what is there. -/
theorem insertAll_eq_append {t : Table β} {entries : List (Handle × β)}
    (hkeys : ((t ++ entries).map Prod.fst).Nodup) :
    t.insertAll entries = t ++ entries := by
  induction entries generalizing t with
  | nil => rw [insertAll, List.foldl_nil, List.append_nil]
  | cons entry rest ih =>
    have hnew : entry.1 ∉ t.map Prod.fst := by
      rw [List.map_append, List.map_cons, List.nodup_append] at hkeys
      exact fun hmem => hkeys.2.2 _ hmem _ List.mem_cons_self rfl
    rw [List.append_cons] at hkeys ⊢
    rw [insertAll, List.foldl_cons, insert_of_not_mem hnew]
    exact ih hkeys

/-! ## The same values for others -/

section

variable {f : Handle → Handle} (hf : Function.Injective f)
include hf

theorem map_insert (table : Table β) (h : Handle) (value : β) :
    (table.insert h value).map (Prod.map f id) =
      insert (table.map (Prod.map f id)) (f h) value := by
  induction table with
  | nil => rfl
  | cons entry rest ih =>
    rw [insert, alter, List.map_cons, insert, alter, Prod.map_fst]
    by_cases hentry : entry.1 = h
    · rw [if_pos hentry, if_pos (congrArg f hentry)]
      rfl
    · rw [if_neg hentry, if_neg fun heq => hentry (hf heq)]
      exact congrArg (Prod.map f id entry :: ·) ih

/-- Where no two elements become one, entering and renaming can be done in either order. -/
theorem map_insertAll (table : Table β) (entries : List (Handle × β)) :
    (table.insertAll entries).map (Prod.map f id) =
      insertAll (table.map (Prod.map f id)) (entries.map (Prod.map f id)) := by
  induction entries generalizing table with
  | nil => rfl
  | cons entry rest ih =>
    rw [insertAll, List.foldl_cons, ← insertAll, ih, map_insert hf]
    rfl

end
end Table
end Bpmn
