import Bpmn.Proofs.Naming.Numbering
import Mathlib.Data.List.Nodup

/-!
# What a registry has handed out

`Registry.Sound` is the invariant of a registry at work: everything named has one identifier, no
two things share one, and every identifier is numbered by a count that its base has reached.  The
last part is what carries the others, as the next identifier takes a number above it.
-/

namespace Bpmn
namespace Registry

section

variable {α : Type} {r : Registry α}

def keys (r : Registry α) : List α := r.assigned.map Prod.fst

def ids (r : Registry α) : List String := r.assigned.map Prod.snd

structure Sound (r : Registry α) : Prop where
  keys_nodup : r.keys.Nodup
  ids_nodup : r.ids.Nodup
  numbered : ∀ id ∈ r.ids, ∃ base n, id = Identifier.numbered base n ∧ n ≤ r.spent.count base

theorem Sound.empty : (empty : Registry α).Sound where
  keys_nodup := List.nodup_nil
  ids_nodup := List.nodup_nil
  numbered := by simp [ids, Registry.empty]

/-- A new identifier was not handed out before. -/
theorem Sound.fresh_not_mem (hr : r.Sound) (base : String) : (r.fresh base).1 ∉ r.ids := by
  intro hm
  obtain ⟨other, n, hid, hn⟩ := hr.numbered _ hm
  -- The base of a clash would have reached the number that it only gets now.
  obtain ⟨rfl, rfl⟩ := Identifier.numbered_inj.mp hid
  omega

end

variable {α : Type} [DecidableEq α] {r : Registry α}

theorem id?_eq_none_iff {a : α} : r.id? a = none ↔ a ∉ r.keys := by
  rw [id?, List.lookup_eq_none_iff, keys, List.mem_map]
  constructor
  · rintro hne ⟨pair, hm, rfl⟩
    simpa using hne pair hm
  · intro hnot pair hm
    exact bne_iff_ne.mpr fun heq => hnot ⟨pair, hm, heq.symm⟩

theorem mem_keys_iff {a : α} : a ∈ r.keys ↔ ∃ id, r.id? a = some id := by
  rw [← Option.ne_none_iff_exists', ne_eq, id?_eq_none_iff, not_not]

/-- Who has an identifier keeps it, and the registry stays as it is. -/
theorem assign_of_mem {a : α} (ha : a ∈ r.keys) (base : String) : (r.assign a base).2 = r := by
  cases hid : r.id? a with
  | none => exact absurd ha (id?_eq_none_iff.mp hid)
  | some id => rw [assign_of_id? hid]

theorem assign_of_not_mem {a : α} (ha : a ∉ r.keys) (base : String) :
    (r.assign a base).2 =
      { (r.fresh base).2 with assigned := r.assigned ++ [(a, (r.fresh base).1)] } := by
  rw [assign, id?_eq_none_iff.mpr ha]
  rfl

theorem Sound.assign (hr : r.Sound) (a : α) (base : String) : (r.assign a base).2.Sound := by
  by_cases ha : a ∈ r.keys
  · rw [assign_of_mem ha]
    exact hr
  · rw [assign_of_not_mem ha]
    refine ⟨?_, ?_, ?_⟩
    · rw [keys, List.map_append]
      exact hr.keys_nodup.append (List.nodup_singleton a) (by simpa using ha)
    · rw [ids, List.map_append]
      exact hr.ids_nodup.append (List.nodup_singleton _) (by simpa using hr.fresh_not_mem base)
    · intro id hm
      rw [ids, List.map_append, List.mem_append] at hm
      rcases hm with hm | hm
      · obtain ⟨other, n, hid, hn⟩ := hr.numbered id hm
        exact ⟨other, n, hid, Nat.le_trans hn List.count_le_count_cons⟩
      · exact ⟨_, _, List.mem_singleton.mp hm, by simp [fresh]⟩

theorem Sound.assignAll (hr : r.Sound) (requests : List (α × String)) :
    (r.assignAll requests).Sound := by
  induction requests generalizing r with
  | nil => exact hr
  | cons request rest ih => exact ih (hr.assign request.1 request.2)

theorem mem_keys_assign {a x : α} {base : String} :
    x ∈ (r.assign a base).2.keys ↔ x ∈ r.keys ∨ x = a := by
  by_cases ha : a ∈ r.keys
  · rw [assign_of_mem ha, or_iff_left_of_imp]
    rintro rfl
    exact ha
  · rw [assign_of_not_mem ha, keys, List.map_append, List.mem_append]
    exact or_congr Iff.rfl List.mem_singleton

/-- Exactly those are named that were named before or are asked for. -/
theorem mem_keys_assignAll {requests : List (α × String)} {x : α} :
    x ∈ (r.assignAll requests).keys ↔ x ∈ r.keys ∨ x ∈ requests.map Prod.fst := by
  induction requests generalizing r with
  | nil => simp [assignAll]
  | cons request rest ih =>
    have hstep : r.assignAll (request :: rest) =
        (r.assign request.1 request.2).2.assignAll rest := rfl
    rw [hstep, ih, mem_keys_assign, List.map_cons, List.mem_cons, or_assoc]

/-! ## What identifiers are made from -/

theorem mem_assigned_assign {a x : α} {base id : String}
    (hx : (x, id) ∈ (r.assign a base).2.assigned) : (x, id) ∈ r.assigned ∨
      x = a ∧ ∃ n, id = Identifier.numbered (Identifier.sanitize base) n := by
  by_cases ha : a ∈ r.keys
  · rw [assign_of_mem ha] at hx
    exact .inl hx
  · rw [assign_of_not_mem ha] at hx
    refine (List.mem_append.mp hx).imp_right fun hnew => ?_
    obtain ⟨rfl, rfl⟩ := Prod.mk.inj (List.mem_singleton.mp hnew)
    exact ⟨rfl, _, rfl⟩

/-- Whatever is handed out is made from the base of a request for it. -/
theorem mem_assigned_assignAll {requests : List (α × String)} {x : α} {id : String}
    (hx : (x, id) ∈ (r.assignAll requests).assigned) : (x, id) ∈ r.assigned ∨
      ∃ base n, (x, base) ∈ requests ∧
        id = Identifier.numbered (Identifier.sanitize base) n := by
  induction requests generalizing r with
  | nil => exact .inl hx
  | cons request rest ih =>
    rcases ih hx with hfirst | ⟨base, n, hrest, hid⟩
    · refine (mem_assigned_assign hfirst).imp_right fun ⟨hkey, n, hid⟩ => ?_
      exact ⟨request.2, n, hkey ▸ List.mem_cons_self, hid⟩
    · exact .inr ⟨base, n, List.mem_cons_of_mem _ hrest, hid⟩

/-! ## Nothing handed out is taken back -/

theorem assigned_prefix_assign (r : Registry α) (a : α) (base : String) :
    r.assigned <+: (r.assign a base).2.assigned := by
  by_cases ha : a ∈ r.keys
  · have hsame : (r.assign a base).2.assigned = r.assigned := by rw [assign_of_mem ha]
    exact ⟨[], by rw [hsame, List.append_nil]⟩
  · rw [assign_of_not_mem ha]
    exact List.prefix_append _ _

theorem assigned_prefix_assignAll (r : Registry α) (requests : List (α × String)) :
    r.assigned <+: (r.assignAll requests).assigned := by
  induction requests generalizing r with
  | nil => exact List.prefix_rfl
  | cons request rest ih => exact (r.assigned_prefix_assign request.1 request.2).trans (ih _)

/-! ## Requests for new things -/

/-- The identifiers that bases get one after another, where those in `spent` were used before. -/
def issued (spent : List String) : List String → List String
  | [] => []
  | base :: rest =>
    Identifier.numbered (Identifier.sanitize base) (spent.count (Identifier.sanitize base) + 1) ::
      issued (Identifier.sanitize base :: spent) rest

theorem length_issued (spent bases : List String) : (issued spent bases).length = bases.length := by
  induction bases generalizing spent with
  | nil => rfl
  | cons base rest ih => rw [issued, List.length_cons, ih, List.length_cons]

/-- The number in an identifier is one more than how often its base was used by then. -/
theorem getElem?_issued (spent bases : List String) (k : Nat) :
    (issued spent bases)[k]? = bases[k]?.map fun base =>
      Identifier.numbered (Identifier.sanitize base) (1 + spent.count (Identifier.sanitize base) +
        ((bases.map Identifier.sanitize).take k).count (Identifier.sanitize base)) := by
  induction bases generalizing spent k with
  | nil => rfl
  | cons first rest ih =>
    cases k with
    | zero =>
      show some (Identifier.numbered _ _) = some (Identifier.numbered _ _)
      rw [List.take_zero, List.count_nil, Nat.add_comm 1]
    | succ k =>
      rw [issued, List.getElem?_cons_succ, ih, List.getElem?_cons_succ]
      refine Option.map_congr fun base _ => ?_
      rw [List.map_cons, List.take_succ_cons, List.count_cons, List.count_cons]
      congr 1
      omega

-- Two names that look alike in identifiers, and one that looks like what was used before.
example : issued ["Definitions"] ["Pay now", "Definitions", "Pay-now"] =
    ["Pay_now_1", "Definitions_2", "Pay_now_2"] := by
  cbv

/-- Things that are all new get what is issued for their bases. -/
theorem assigned_assignAll {requests : List (α × String)}
    (hnew : (r.keys ++ requests.map Prod.fst).Nodup) :
    (r.assignAll requests).assigned =
      r.assigned ++ (requests.map Prod.fst).zip (issued r.spent (requests.map Prod.snd)) := by
  induction requests generalizing r with
  | nil => simp [assignAll]
  | cons request rest ih =>
    obtain ⟨a, base⟩ := request
    have hstep : r.assignAll ((a, base) :: rest) = (r.assign a base).2.assignAll rest := rfl
    have ha : a ∉ r.keys := by
      intro hmem
      exact (List.nodup_append.mp hnew).2.2 a hmem a List.mem_cons_self rfl
    have hkeys : ((r.assign a base).2.keys ++ rest.map Prod.fst).Nodup := by
      rw [assign_of_not_mem ha, keys, List.map_append, List.append_assoc]
      exact hnew
    rw [hstep, ih hkeys, assign_of_not_mem ha]
    simp [fresh, issued]

theorem assigned_assignAll_empty {requests : List (α × String)}
    (hnew : (requests.map Prod.fst).Nodup) : (empty.assignAll requests).assigned =
      (requests.map Prod.fst).zip (issued [] (requests.map Prod.snd)) :=
  assigned_assignAll (r := empty) hnew

end Registry
end Bpmn
