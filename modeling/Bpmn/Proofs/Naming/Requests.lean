import Bpmn.Proofs.Lists
import Bpmn.Proofs.Naming.Registry

/-!
# Registries over whole runs

A registry is asked for identifiers of things and for identifiers that belong to nothing, in any
order.  A request gets a new identifier unless it is for a thing asked for before, so which requests
do can be told from the requests alone, and so can every number.  What a registry holds after some
requests is what these conditions say (`count_spent_after`, `id?_after`), and every answer follows
from what it holds (`answers_from_empty`).
-/

namespace Bpmn
namespace Registry

/-- What a registry can be asked for. -/
inductive Request (α : Type) where
  /-- The identifier of a thing. -/
  | assign (a : α) (base : String)
  /-- A new identifier that belongs to nothing. -/
  | fresh (base : String)
deriving DecidableEq, Repr

namespace Request

variable {α : Type}

def base : Request α → String
  | assign _ base | fresh base => base

/-- The base as it looks in identifiers. -/
def stem (q : Request α) : String := Identifier.sanitize q.base

def thing? : Request α → Option α
  | assign a _ => some a
  | fresh _ => none

end Request

section

variable {α : Type} [DecidableEq α]

/-! ## Runs -/

def answer (r : Registry α) : Request α → String × Registry α
  | .assign a base => r.assign a base
  | .fresh base => r.fresh base

/-- The registry after some requests, one after another. -/
def after (r : Registry α) (requests : List (Request α)) : Registry α :=
  requests.foldl (fun r q => (r.answer q).2) r

def answers (r : Registry α) : List (Request α) → List String
  | [] => []
  | q :: rest => (r.answer q).1 :: answers (r.answer q).2 rest

/-- Whether a request gets a new identifier after some earlier ones. -/
def allocates (earlier : List (Request α)) : Request α → Bool
  | .assign a _ => earlier.all fun e => e.thing? != some a
  | .fresh _ => true

def allocatesAt (requests : List (Request α)) (k : Nat) : Bool :=
  requests[k]?.any (allocates (requests.take k))

/-- How many of the first `k` requests got new identifiers from bases that look like this. -/
def numberedBefore (requests : List (Request α)) (k : Nat) (stem : String) : Nat :=
  (List.range k).countP fun j =>
    allocatesAt requests j && requests[j]?.any fun q => q.stem == stem

variable {r : Registry α} {q : Request α} {requests : List (Request α)} {a : α} {k : Nat}

theorem after_append (r : Registry α) (p q : List (Request α)) :
    r.after (p ++ q) = (r.after p).after q := List.foldl_append

theorem answers_append (r : Registry α) (p q : List (Request α)) :
    r.answers (p ++ q) = r.answers p ++ (r.after p).answers q := by
  induction p generalizing r with
  | nil => rfl
  | cons first rest ih => exact congrArg (List.cons (r.answer first).1) (ih _)

/-- An answer is that of the registry as it is by then. -/
theorem getElem?_answers (r : Registry α) (requests : List (Request α)) (k : Nat) :
    (r.answers requests)[k]? =
      requests[k]?.map fun q => ((r.after (requests.take k)).answer q).1 := by
  induction requests generalizing r k with
  | nil => rfl
  | cons q rest ih =>
    cases k with
    | zero => rfl
    | succ k => exact ih (r.answer q).2 k

theorem after_take_succ (hq : requests[k]? = some q) :
    r.after (requests.take (k + 1)) = ((r.after (requests.take k)).answer q).2 := by
  rw [List.take_add_one, hq, after_append]
  rfl

/-! ## One request -/

theorem answer_of_id? {id : String} (hq : q.thing? = some a) (hid : r.id? a = some id) :
    r.answer q = (id, r) := by
  cases q with
  | assign b base =>
    obtain rfl := Option.some.inj hq
    exact assign_of_id? hid base
  | fresh base => cases hq

/-- A request for nothing, or for a thing not known yet, gets the next number of its base. -/
theorem answer_of_new (hnew : ∀ a, q.thing? = some a → a ∉ r.keys) :
    (r.answer q).1 = Identifier.numbered q.stem (r.spent.count q.stem + 1) ∧
      (r.answer q).2.spent = q.stem :: r.spent := by
  cases q with
  | assign a base =>
    have ha : r.id? a = none := id?_eq_none_iff.mpr (hnew a rfl)
    rw [answer, Registry.assign, ha]
    exact ⟨rfl, rfl⟩
  | fresh base => exact ⟨rfl, rfl⟩

theorem id?_assign (r : Registry α) (a : α) (base : String) (x : α) :
    (r.assign a base).2.id? x =
      (r.id? x).or (if x = a then some (r.assign a base).1 else none) := by
  rw [assign]
  cases hid : r.id? a with
  | some id =>
    dsimp only
    split
    next hx => rw [hx, hid, Option.some_or]
    next => rw [Option.or_none]
  | none =>
    simp only [id?, fresh, lookup_append_singleton, beq_iff_eq]

/-- A request makes a thing known that was not, and no other. -/
theorem id?_answer (r : Registry α) (q : Request α) (a : α) : (r.answer q).2.id? a =
    (r.id? a).or (if q.thing? = some a then some (r.answer q).1 else none) := by
  cases q with
  | assign b base =>
    rw [answer, id?_assign]
    simp only [Request.thing?, Option.some_inj, eq_comm (a := b)]
  | fresh base => exact Option.or_none.symm

theorem mem_keys_answer : a ∈ (r.answer q).2.keys ↔ a ∈ r.keys ∨ q.thing? = some a := by
  cases q with
  | assign b base => rw [answer, mem_keys_assign, Request.thing?, Option.some_inj, eq_comm]
  | fresh base => simp [answer, fresh, keys, Request.thing?]

/-! ## Some requests -/

/-- The things known are those asked for. -/
theorem mem_keys_after (requests : List (Request α)) :
    a ∈ (r.after requests).keys ↔ a ∈ r.keys ∨ ∃ q ∈ requests, q.thing? = some a := by
  induction requests generalizing r with
  | nil => simp [after]
  | cons q rest ih =>
    have hstep : r.after (q :: rest) = (r.answer q).2.after rest := rfl
    rw [hstep, ih, mem_keys_answer, or_assoc]
    simp only [List.mem_cons, exists_eq_or_imp]

theorem mem_keys_after_empty (requests : List (Request α)) :
    a ∈ (empty.after requests).keys ↔ ∃ q ∈ requests, q.thing? = some a := by
  rw [mem_keys_after]
  exact or_iff_right List.not_mem_nil

/-- A request gets a new identifier unless it is for a thing that has one. -/
theorem allocates_iff (earlier : List (Request α)) : allocates earlier q = true ↔
    ∀ a, q.thing? = some a → a ∉ (empty.after earlier).keys := by
  simp only [mem_keys_after_empty]
  cases q with
  | assign b base => simp [allocates, Request.thing?]
  | fresh base => simp [allocates, Request.thing?]

theorem allocatesAt_eq (hq : requests[k]? = some q) :
    allocatesAt requests k = allocates (requests.take k) q := by
  rw [allocatesAt, hq, Option.any_some]

/-- A request that gets no new identifier is for a thing that has one. -/
theorem exists_of_allocatesAt_eq_false (hq : requests[k]? = some q)
    (hk : allocatesAt requests k = false) :
    ∃ a id, q.thing? = some a ∧ (empty.after (requests.take k)).id? a = some id := by
  rw [allocatesAt_eq hq, ← Bool.not_eq_true, allocates_iff] at hk
  simp only [not_forall, not_not] at hk
  obtain ⟨a, ha, hknown⟩ := hk
  obtain ⟨id, hid⟩ := mem_keys_iff.mp hknown
  exact ⟨a, id, ha, hid⟩

/-! ## Numbers -/

theorem numberedBefore_succ (hq : requests[k]? = some q) (stem : String) :
    numberedBefore requests (k + 1) stem = numberedBefore requests k stem +
      if allocatesAt requests k = true ∧ q.stem = stem then 1 else 0 := by
  rw [numberedBefore, List.range_succ, List.countP_append, List.countP_singleton, hq,
    Option.any_some, ← numberedBefore]
  simp only [Bool.and_eq_true, beq_iff_eq]

/-- What the registry counted is how many requests got new identifiers. -/
theorem count_spent_after (hk : k ≤ requests.length) (stem : String) :
    (empty.after (requests.take k)).spent.count stem = numberedBefore requests k stem := by
  induction k with
  | zero => rfl
  | succ k ih =>
    have hq : requests[k]? = some requests[k] := List.getElem?_eq_getElem hk
    have ih := ih (Nat.le_of_lt hk)
    rw [after_take_succ hq, numberedBefore_succ hq, ← ih]
    cases hnew : allocatesAt requests k with
    | true =>
      rw [allocatesAt_eq hq] at hnew
      rw [(answer_of_new ((allocates_iff _).mp hnew)).2, List.count_cons]
      simp only [beq_iff_eq, true_and]
    | false =>
      obtain ⟨a, id, ha, hid⟩ := exists_of_allocatesAt_eq_false hq hnew
      rw [answer_of_id? ha hid]
      simp

theorem answer_of_allocatesAt (hq : requests[k]? = some q) (hk : allocatesAt requests k = true) :
    (empty.answers requests)[k]? =
      some (Identifier.numbered q.stem (1 + numberedBefore requests k q.stem)) := by
  have hle : k ≤ requests.length := Nat.le_of_lt (List.getElem?_eq_some_iff.mp hq).1
  have hnew := (allocates_iff _).mp (allocatesAt_eq hq ▸ hk)
  rw [getElem?_answers, hq, Option.map_some, (answer_of_new hnew).1, count_spent_after hle,
    Nat.add_comm 1]

theorem numberedBefore_mono {j : Nat} (hjk : j ≤ k) (stem : String) :
    numberedBefore requests j stem ≤ numberedBefore requests k stem :=
  (List.range_sublist.mpr hjk).countP_le

/-- Of two new identifiers of one base the later one has the greater number. -/
theorem answers_ne_of_lt {j : Nat} (hjk : j < k) (hj : allocatesAt requests j = true)
    (hk : allocatesAt requests k = true) :
    (empty.answers requests)[j]? ≠ (empty.answers requests)[k]? := by
  obtain ⟨p, hp, -⟩ := (Option.any_eq_true _ _).mp hj
  obtain ⟨q, hq, -⟩ := (Option.any_eq_true _ _).mp hk
  rw [answer_of_allocatesAt hp hj, answer_of_allocatesAt hq hk]
  intro heq
  obtain ⟨hstem, hnumber⟩ := Identifier.numbered_inj.mp (Option.some.inj heq)
  have hstep := numberedBefore_succ hp p.stem
  rw [if_pos ⟨hj, rfl⟩] at hstep
  have hmono : numberedBefore requests (j + 1) p.stem ≤ numberedBefore requests k p.stem :=
    numberedBefore_mono hjk p.stem
  rw [← hstem] at hnumber
  omega

/-! ## What is known when -/

theorem id?_after_of_id? {id : String} (hid : r.id? a = some id) (requests : List (Request α)) :
    (r.after requests).id? a = some id := by
  induction requests generalizing r with
  | nil => exact hid
  | cons q rest ih => exact ih (by rw [id?_answer, hid, Option.some_or])

/-- A thing is known from the first request for it on, by the answer to that. -/
theorem id?_after {j : Nat} (hj : requests[j]? = some q) (ha : q.thing? = some a)
    (hnew : allocatesAt requests j = true) (k : Nat) :
    (empty.after (requests.take k)).id? a =
      if j < k then (empty.answers requests)[j]? else none := by
  have hunknown : a ∉ (empty.after (requests.take j)).keys :=
    (allocates_iff _).mp (allocatesAt_eq hj ▸ hnew) a ha
  split
  next hjk =>
    have hfirst : (empty.after (requests.take (j + 1))).id? a =
        some ((empty.after (requests.take j)).answer q).1 := by
      rw [after_take_succ hj, id?_answer, id?_eq_none_iff.mpr hunknown, if_pos ha, Option.none_or]
    have hprefix : (requests.take k).take (j + 1) = requests.take (j + 1) := by
      rw [List.take_take, Nat.min_eq_left hjk]
    rw [← hprefix] at hfirst
    rw [← List.take_append_drop (j + 1) (requests.take k), after_append,
      id?_after_of_id? hfirst, getElem?_answers, hj, Option.map_some]
  next hkj =>
    refine id?_eq_none_iff.mpr fun hknown => hunknown ?_
    rw [mem_keys_after_empty] at hknown ⊢
    obtain ⟨p, hp, hpa⟩ := hknown
    exact ⟨p, List.take_subset_take_left _ (Nat.le_of_not_lt hkj) hp, hpa⟩

/-- Whatever is known was asked for a first time. -/
theorem exists_first_request (hknown : a ∈ (empty.after (requests.take k)).keys) :
    ∃ j first, j < k ∧ requests[j]? = some first ∧ first.thing? = some a ∧
      allocatesAt requests j = true := by
  induction k with
  | zero => cases hknown
  | succ k ih =>
    have hearlier : a ∈ (empty.after (requests.take k)).keys → ∃ j first, j < k + 1 ∧
        requests[j]? = some first ∧ first.thing? = some a ∧ allocatesAt requests j = true := by
      intro hmem
      obtain ⟨j, first, hjk, hfirst⟩ := ih hmem
      exact ⟨j, first, Nat.lt_succ_of_lt hjk, hfirst⟩
    cases hq : requests[k]? with
    | none =>
      rw [List.take_add_one, hq, Option.toList_none, List.append_nil] at hknown
      exact hearlier hknown
    | some q =>
      rw [after_take_succ hq, mem_keys_answer] at hknown
      rcases hknown with hmem | ha
      · exact hearlier hmem
      · cases hnew : allocatesAt requests k with
        | true => exact ⟨k, q, Nat.lt_succ_self k, hq, ha, hnew⟩
        | false =>
          obtain ⟨b, id, hb, hid⟩ := exists_of_allocatesAt_eq_false hq hnew
          obtain rfl := Option.some.inj (hb.symm.trans ha)
          exact hearlier (mem_keys_iff.mpr ⟨id, hid⟩)

/-! ## Requests for what is known -/

theorem answers_take (r : Registry α) (requests : List (Request α)) (k : Nat) :
    (r.answers requests).take k = r.answers (requests.take k) := by
  induction requests generalizing r k with
  | nil => simp [answers]
  | cons q rest ih =>
    cases k with
    | zero => rfl
    | succ k => exact congrArg (List.cons (r.answer q).1) (ih _ k)

theorem answers_drop (r : Registry α) (requests : List (Request α)) (k : Nat) :
    (r.answers requests).drop k = (r.after (requests.take k)).answers (requests.drop k) := by
  induction requests generalizing r k with
  | nil => simp [answers]
  | cons q rest ih =>
    cases k with
    | zero => rfl
    | succ k => exact ih _ k

section

variable (hq : requests[k]? = some q) (hk : allocatesAt requests k = false)
include hq hk

/-- A request that gets no new identifier changes nothing. -/
theorem after_of_known : empty.after (requests.take (k + 1)) = empty.after (requests.take k) := by
  obtain ⟨a, id, ha, hid⟩ := exists_of_allocatesAt_eq_false hq hk
  rw [after_take_succ hq, answer_of_id? ha hid]

/-- A request that gets no new identifier answers as the first one for its thing did. -/
theorem answer_of_known : ∃ j first, j < k ∧ requests[j]? = some first ∧
    allocatesAt requests j = true ∧ first.thing? = q.thing? ∧
      (empty.answers requests)[k]? = (empty.answers requests)[j]? := by
  obtain ⟨a, id, ha, hid⟩ := exists_of_allocatesAt_eq_false hq hk
  obtain ⟨j, first, hjk, hj, hthing, hnew⟩ := exists_first_request (mem_keys_iff.mpr ⟨id, hid⟩)
  refine ⟨j, first, hjk, hj, hnew, hthing.trans ha.symm, ?_⟩
  have hfirst := id?_after hj hthing hnew k
  rw [if_pos hjk, hid] at hfirst
  rw [getElem?_answers, hq, Option.map_some, answer_of_id? ha hid, hfirst]

/-- Without a request that gets no new identifier the rest of a run is the same. -/
theorem after_eraseIdx : empty.after (requests.eraseIdx k) = empty.after requests := by
  rw [List.eraseIdx_eq_take_drop_succ, after_append, ← after_of_known hq hk, ← after_append,
    List.take_append_drop]

theorem answers_eraseIdx :
    empty.answers (requests.eraseIdx k) = (empty.answers requests).eraseIdx k := by
  rw [List.eraseIdx_eq_take_drop_succ, List.eraseIdx_eq_take_drop_succ, answers_append,
    answers_take, answers_drop, after_of_known hq hk]

end

/-- Requests to an empty registry, one after another.  Each that gets a new identifier gets its
base, as that looks in identifiers, and one more than how often that was numbered before; no two get
the same.  Any other answers as the first request for its thing did, and the run without it is the
same.  A thing is known from the first request for it on, by the answer to that. -/
theorem answers_from_empty (requests : List (Request α)) :
    (∀ k q, requests[k]? = some q → allocatesAt requests k = true →
      (empty.answers requests)[k]? =
        some (Identifier.numbered q.stem (1 + numberedBefore requests k q.stem))) ∧
    (∀ j k, j ≠ k → allocatesAt requests j = true → allocatesAt requests k = true →
      (empty.answers requests)[j]? ≠ (empty.answers requests)[k]?) ∧
    (∀ k q, requests[k]? = some q → allocatesAt requests k = false →
      (∃ j first, j < k ∧ requests[j]? = some first ∧ allocatesAt requests j = true ∧
        first.thing? = q.thing? ∧
        (empty.answers requests)[k]? = (empty.answers requests)[j]?) ∧
      empty.after (requests.take (k + 1)) = empty.after (requests.take k) ∧
      empty.answers (requests.eraseIdx k) = (empty.answers requests).eraseIdx k ∧
      empty.after (requests.eraseIdx k) = empty.after requests) ∧
    (∀ j q a, requests[j]? = some q → q.thing? = some a → allocatesAt requests j = true → ∀ k,
      (empty.after (requests.take k)).id? a =
        if j < k then (empty.answers requests)[j]? else none) ∧
    ∀ a, (∀ q ∈ requests, q.thing? ≠ some a) → ∀ k,
      (empty.after (requests.take k)).id? a = none := by
  refine ⟨fun k q => answer_of_allocatesAt, fun j k hne hj hk => ?_, fun k q hq hk =>
    ⟨answer_of_known hq hk, after_of_known hq hk, answers_eraseIdx hq hk, after_eraseIdx hq hk⟩,
    fun j q a => id?_after, fun a hnever k => ?_⟩
  · rcases Nat.lt_or_gt_of_ne hne with hjk | hkj
    · exact answers_ne_of_lt hjk hj hk
    · exact (answers_ne_of_lt hkj hk hj).symm
  · rw [id?_eq_none_iff, mem_keys_after_empty]
    rintro ⟨q, hq, ha⟩
    exact hnever q (List.mem_of_mem_take hq) ha

-- A base that looks like the identifier of another one.
example : (empty : Registry Nat).answers
    [.assign 0 "A", .fresh "A_1", .assign 1 "A", .assign 0 "B", .fresh "A"] =
      ["A_1", "A_1_1", "A_2", "A_1", "A_3"] := by
  cbv

end
end Registry
end Bpmn
