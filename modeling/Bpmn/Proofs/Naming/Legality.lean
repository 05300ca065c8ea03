import Bpmn.Proofs.Naming.Names

/-!
# What identifiers look like

In a document an identifier is to begin with a letter or an underscore and to go on with letters,
digits and underscores.  A base is made to fit character by character, wherever in it they stand,
so an identifier is one of these unless its base begins with a digit (`isLegal_numbered`).  The
bases that are no names of elements begin with letters, which leaves the names (`isLegal_id`).
-/

namespace Bpmn
namespace Identifier

def isLeading (c : Char) : Bool := c.isAlpha || c == '_'

/-- Whether characters are one that leads and then plain ones. -/
def isWord : List Char → Bool
  | [] => false
  | first :: rest => isLeading first && rest.all isPlain

/-- Whether a document may have this as an identifier. -/
def isLegal (id : String) : Bool := isWord id.toList

def beginsWithDigit (base : String) : Bool := base.toList.head?.any Char.isDigit

/-! ## Characters -/

theorem isPlain_eq (c : Char) : isPlain c = (isLeading c || c.isDigit) := by
  rw [isPlain, isLeading, Char.isAlphanum, Bool.or_right_comm]

theorem isPlain_of_isDigit {c : Char} (hc : c.isDigit = true) : isPlain c = true := by
  rw [isPlain_eq, hc, Bool.or_true]

theorem isLeading_of_isDigit {c : Char} (hc : c.isDigit = true) : isLeading c = false := by
  have hrange := Char.isDigit_iff_toNat.mp hc
  have hmark : c ≠ '_' := by
    rintro rfl
    exact absurd hc (by decide)
  have hletters : isLeading c =
      (decide ('A'.val ≤ c.val ∧ c.val ≤ 'Z'.val) ||
        decide ('a'.val ≤ c.val) && decide (c.val ≤ 'z'.val) || c == '_') := rfl
  simp only [Char.reduceToNat] at hrange
  simp [hletters, hmark, UInt32.le_iff_toNat_le]
  omega

theorem isWord_append {a : List Char} (ha : a ≠ []) (b : List Char) :
    isWord (a ++ b) = (isWord a && b.all isPlain) := by
  cases a with
  | nil => exact absurd rfl ha
  | cons first rest => rw [List.cons_append, isWord, isWord, List.all_append, Bool.and_assoc]

/-- Every character of a base is made to fit. -/
theorem all_sanitize (base : String) : (sanitize base).toList.all isPlain = true := by
  rw [sanitize, String.toList_map, List.all_map, List.all_eq_true]
  intro c _
  rw [Function.comp_apply]
  split
  next hc => exact hc
  next => rfl

theorem isWord_sanitize (base : String) (hbase : base.toList ≠ []) :
    isWord (sanitize base).toList = !beginsWithDigit base := by
  have hall := all_sanitize base
  rw [sanitize, String.toList_map] at hall ⊢
  rw [beginsWithDigit]
  cases hlist : base.toList with
  | nil => exact absurd hlist hbase
  | cons c rest =>
    rw [hlist, List.map_cons, List.all_cons, Bool.and_eq_true] at hall
    rw [List.map_cons, isWord, hall.2, Bool.and_true, List.head?_cons, Option.any_some]
    cases hc : c.isDigit with
    | true => rw [if_pos (isPlain_of_isDigit hc), isLeading_of_isDigit hc, Bool.not_true]
    | false =>
      rw [isPlain_eq, hc, Bool.or_false]
      split
      next hlead => exact hlead
      next => rfl

/-! ## Identifiers -/

theorem all_digits (n : Nat) : (Nat.toDigits 10 n).all isPlain = true :=
  List.all_eq_true.mpr fun _ hc =>
    isPlain_of_isDigit (Nat.isDigit_of_mem_toDigits (by decide) (by decide) hc)

theorem all_numbered (base : String) (n : Nat) :
    (numbered (sanitize base) n).toList.all isPlain = true := by
  rw [toList_numbered, List.all_append, all_sanitize, List.all_cons, all_digits]
  rfl

theorem all_drawn {id : String} (hid : id.toList.all isPlain = true) :
    (drawn id).toList.all isPlain = true := by
  rw [toList_drawn, List.all_append, hid]
  rfl

theorem numbered_ne_empty (base : String) (n : Nat) : numbered base n ≠ "" := by
  intro hempty
  have hlist := congrArg String.toList hempty
  rw [toList_numbered] at hlist
  simp at hlist

theorem drawn_ne_empty (id : String) : drawn id ≠ "" := by
  intro hempty
  have hlist := congrArg String.toList hempty
  rw [toList_drawn] at hlist
  simp at hlist

/-- An identifier is legal unless its base begins with a digit. -/
theorem isLegal_numbered (base : String) (n : Nat) :
    isLegal (numbered (sanitize base) n) = !beginsWithDigit base := by
  have hend : ('_' :: Nat.toDigits 10 n).all isPlain = true := by
    rw [List.all_cons, all_digits]
    rfl
  rw [isLegal, toList_numbered]
  cases hlist : base.toList with
  | nil =>
    -- An empty base leaves the underscore before the number to lead.
    rw [sanitize, String.toList_map, beginsWithDigit, hlist]
    exact all_digits n
  | cons c rest =>
    have hbase : base.toList ≠ [] := by simp [hlist]
    have hsanitized : (sanitize base).toList ≠ [] := by
      simp [sanitize, String.toList_map, hbase]
    rw [isWord_append hsanitized, hend, Bool.and_true, isWord_sanitize base hbase]

theorem isLegal_drawn {id : String} (hid : id ≠ "") : isLegal (drawn id) = isLegal id := by
  have hlist : id.toList ≠ [] := by simpa using hid
  rw [isLegal, toList_drawn, isWord_append hlist, isLegal]
  exact Bool.and_true _

end Identifier

namespace Naming

open Identifier Model

/-- The name that an entity is named after, if it is an element with a name. -/
def ownName? (m : Model) : Entity → Option String
  | .element h => m.name? h
  | _ => none

/-- A request asks for the name of an element, or for a base that begins with no digit where there
is no such name. -/
def Fits (m : Model) (request : Entity × String) : Prop :=
  ownName? m request.1 = some request.2 ∨
    ownName? m request.1 = none ∧ beginsWithDigit request.2 = false

section

variable {m : Model} {request : Entity × String}

theorem fits_of_literal {e : Entity} {base : String} (he : ownName? m e = none)
    (hbase : beginsWithDigit base = false) : Fits m (e, base) := .inr ⟨he, hbase⟩

theorem fits_of_named {h : Handle} (hr : request ∈ named m h) : Fits m request := by
  obtain ⟨name, hname, rfl⟩ := List.mem_map.mp hr
  exact .inl (Option.mem_toList.mp hname)

theorem fits_of_flow {h : Handle} (hr : request ∈ ofFlow m h) : Fits m request := by
  obtain ⟨c, hc, rfl⟩ := List.mem_map.mp hr
  obtain ⟨e, he, hc⟩ := Option.bind_eq_some_iff.mp (Option.mem_toList.mp hc)
  refine fits_of_literal ?_ ?_
  · rw [ownName?, name?, he, Option.bind_some]
    cases e with
    | connection => rfl
    | pool | lane | node => cases hc
  · cases c.connector <;> decide

theorem fits_of_event {h : Handle} (hr : request ∈ ofEvent m h) : Fits m request := by
  obtain ⟨t, -, rfl⟩ := List.mem_map.mp hr
  exact fits_of_literal rfl (by cases t <;> decide)

theorem fits_of_laneSet {h : Handle} {children : List Branch}
    (hr : request ∈ ofLaneSet m h children) : Fits m request := by
  rw [ofLaneSet] at hr
  split at hr
  · rw [List.mem_singleton.mp hr]
    exact fits_of_literal rfl (by decide)
  · cases hr

mutual

theorem fits_of_lane (b : Branch) (hr : request ∈ ofLane m b) : Fits m request := by
  cases b with
  | mk h children =>
    rw [ofLane] at hr
    split at hr
    · simp only [List.mem_append] at hr
      rcases hr with hr | hr | hr
      · exact fits_of_named hr
      · exact fits_of_laneSet hr
      · exact fits_of_lanes children hr
    · cases hr

theorem fits_of_lanes (branches : List Branch) (hr : request ∈ ofLanes m branches) :
    Fits m request := by
  cases branches with
  | nil => cases hr
  | cons b rest =>
    rw [ofLanes, List.mem_append] at hr
    rcases hr with hr | hr
    · exact fits_of_lane b hr
    · exact fits_of_lanes rest hr

end

theorem fits_of_process {p : ProcessOutline} (hr : request ∈ ofProcess m p) : Fits m request := by
  simp only [ofProcess, List.mem_cons, List.mem_append, List.mem_flatMap] at hr
  rcases hr with rfl | (⟨pool, -, hr⟩ | ⟨h, -, hr⟩) | ⟨h, -, hr⟩
  · exact fits_of_literal rfl (by decide)
  · rcases List.mem_append.mp hr with hr | hr
    · exact fits_of_laneSet hr
    · exact fits_of_lanes _ hr
  · exact fits_of_event hr
  · exact fits_of_flow hr

/-- Every request of a plan fits. -/
theorem fits_of_plan {p : Partition} (hr : request ∈ plan m p) : Fits m request := by
  simp only [plan, List.mem_append, List.mem_flatMap, List.mem_cons, List.not_mem_nil,
    or_false] at hr
  rcases hr with ((((rfl | ⟨q, -, h, -, hr⟩) | ⟨q, -, hr⟩) | ⟨h, -, hr⟩) | ⟨q, -, h, -, hr⟩) |
    (rfl | rfl | rfl)
  · exact fits_of_literal rfl (by decide)
  · exact fits_of_named hr
  · exact fits_of_process hr
  · exact fits_of_flow hr
  · exact fits_of_named hr
  all_goals exact fits_of_literal rfl (by decide)

end
end Naming

namespace Names

open Identifier Naming

variable {m : Model} {e : Entity}

/-- An entity has a legal name unless it is named after an element whose name begins with a
digit. -/
theorem isLegal_id (he : e ∈ entities m) :
    isLegal ((ofModel m).id e) = !(ownName? m e).any beginsWithDigit := by
  obtain ⟨base, n, hr, hid⟩ := exists_base he
  rw [hid, isLegal_numbered]
  rcases fits_of_plan hr with hname | ⟨hnone, hbase⟩
  · rw [hname, Option.any_some]
  · rw [hnone, hbase]
    rfl

theorem all_id (he : e ∈ entities m) : ((ofModel m).id e).toList.all isPlain = true := by
  obtain ⟨base, n, -, hid⟩ := exists_base he
  rw [hid]
  exact all_numbered base n

theorem id_ne_empty (he : e ∈ entities m) : (ofModel m).id e ≠ "" := by
  obtain ⟨base, n, hid⟩ := exists_numbered he
  rw [hid]
  exact numbered_ne_empty base n

end Names
end Bpmn
