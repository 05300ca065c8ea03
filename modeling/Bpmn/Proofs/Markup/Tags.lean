import Bpmn.Markup
import Bpmn.Markup.Reading

/-!
# Reading one tag

An escaped text is read back as it was (`unescape?_escape`) and holds no bracket and no quote, so no
value of an attribute ends before its quote does.  A tag is read back with its name and with its
attributes in order (`tag?_tagText`), and what it does follows from the slash in front or at the
end.
-/

namespace Bpmn
namespace Reading

open Markup

/-! ## Escaped text -/

theorem toList_escape (s : String) :
    (escape s).toList = s.toList.flatMap fun c => (escapeChar c).toList := by
  rw [escape, String.toList_join, List.flatMap_map]

theorem unescape?_cons {c : Char} (hlt : c ≠ '<') (hamp : c ≠ '&') (rest : List Char) :
    unescape? (c :: rest) = (unescape? rest).map (c :: ·) := by
  rw [unescape?] <;> simp [hlt, hamp]

theorem unescape?_escapeChar (c : Char) (rest : List Char) :
    unescape? ((escapeChar c).toList ++ rest) = (unescape? rest).map (c :: ·) := by
  unfold escapeChar
  split
  case h_6 hlt _ hamp _ _ =>
    rw [Char.toString, String.toList_singleton, List.singleton_append, unescape?_cons hlt hamp]
  all_goals rfl

theorem unescape?_escape (s : String) : unescape? (escape s).toList = some s.toList := by
  rw [toList_escape]
  induction s.toList with
  | nil => rfl
  | cons c rest ih => rw [List.flatMap_cons, unescape?_escapeChar, ih, Option.map_some]

theorem not_mem_escapeChar (c : Char) :
    '<' ∉ (escapeChar c).toList ∧ '\x22' ∉ (escapeChar c).toList := by
  unfold escapeChar
  split
  case h_6 hlt _ _ _ hquot =>
    rw [Char.toString, String.toList_singleton, List.mem_singleton, List.mem_singleton]
    exact ⟨fun h => hlt h.symm, fun h => hquot h.symm⟩
  all_goals decide

/-- No escaped text starts a tag. -/
theorem bracket_not_mem_escape (s : String) : '<' ∉ (escape s).toList := by
  rw [toList_escape, List.mem_flatMap]
  rintro ⟨c, -, hc⟩
  exact (not_mem_escapeChar c).1 hc

/-- No escaped text ends the value it stands in. -/
theorem quote_not_mem_escape (s : String) : '\x22' ∉ (escape s).toList := by
  rw [toList_escape, List.mem_flatMap]
  rintro ⟨c, -, hc⟩
  exact (not_mem_escapeChar c).2 hc

/-- Escaping makes nothing blank of what is not. -/
theorem isBlank_escape (s : String) : isBlank (escape s).toList = isBlank s.toList := by
  have hchar : ∀ c, (escapeChar c).toList.all Char.isWhitespace = c.isWhitespace := by
    intro c
    unfold escapeChar
    split
    case h_6 =>
      rw [Char.toString, String.toList_singleton, List.all_cons, List.all_nil, Bool.and_true]
    all_goals rfl
  rw [toList_escape, isBlank, List.all_flatMap, isBlank]
  simp only [hchar]

/-! ## Names -/

section

variable {name : List Char}

theorem isNameChar_of_mem (h : isName name = true) {c : Char} (hc : c ∈ name) :
    isNameChar c = true :=
  List.all_eq_true.mp (Bool.and_eq_true_iff.mp h).2 c hc

theorem not_mem_of_isName (h : isName name = true) {mark : Char}
    (hmark : isNameChar mark = false) : mark ∉ name := by
  intro hmem
  rw [isNameChar_of_mem h hmem] at hmark
  cases hmark

theorem isWhitespace_eq_false {c : Char} (hc : isNameChar c = true) : c.isWhitespace = false := by
  rw [← Bool.not_eq_true]
  intro hblank
  simp only [Char.isWhitespace, Bool.or_eq_true, decide_eq_true_eq] at hblank
  rcases hblank with ((rfl | rfl) | rfl) | rfl <;> cases hc

end

/-! ## Attributes -/

/-- All attributes have names. -/
def Named (attributes : List (String × String)) : Prop :=
  ∀ a ∈ attributes, isName a.1.toList = true

section

variable {attributes : List (String × String)}

theorem named_of_names (names : List String) (hnames : attributes.map Prod.fst = names)
    (h : (names.all fun name => isName name.toList) = true) : Named attributes := by
  subst hnames
  exact fun a ha => List.all_eq_true.mp h a.1 (List.mem_map.mpr ⟨a, ha, rfl⟩)

end

theorem attributeName?_key {name : String} (h : isName name.toList = true) :
    attributeName? (' ' :: name.toList ++ ['=']) = some name := by
  have hkey : (' ' :: name.toList ++ ['=']).dropWhile Char.isWhitespace =
      name.toList ++ ['='] := by
    cases hname : name.toList with
    | nil => rfl
    | cons c rest =>
      have hc : c.isWhitespace = false :=
        isWhitespace_eq_false (isNameChar_of_mem h (by rw [hname]; exact List.mem_cons_self))
      simp [hc]
  rw [attributeName?, hkey, List.dropLast_concat, List.getLast?_concat, h, String.ofList_toList]
  rfl

theorem toList_attributeText (a : String × String) :
    (attributeText a).toList =
      (' ' :: a.1.toList ++ ['=']) ++ ('\x22' :: (escape a.2).toList ++ ['\x22']) := by
  simp [attributeText]

/-- The text of the attributes of a tag. -/
def attributesText (attributes : List (String × String)) : List Char :=
  attributes.flatMap fun a => (attributeText a).toList

theorem attributesText_cons (a : String × String) (rest : List (String × String)) :
    attributesText (a :: rest) = (' ' :: a.1.toList ++ ['=']) ++
      '\x22' :: ((escape a.2).toList ++ '\x22' :: attributesText rest) := by
  simp [attributesText, toList_attributeText]

theorem splitOn_append_cons {mark : Char} {before : List Char} (h : mark ∉ before)
    (rest : List Char) :
    (before ++ mark :: rest).splitOn mark = before :: rest.splitOn mark := by
  have hcut := List.splitOnP_append_cons (p := (· == mark)) before rest (beq_self_eq_true mark)
  rw [List.splitOn, hcut]
  exact congrArg (· ++ _) (List.splitOn_eq_singleton h)

theorem not_mem_key {name : List Char} (h : isName name = true) {mark : Char}
    (hmark : isNameChar mark = false) (hne : mark ∉ [' ', '=']) : mark ∉ ' ' :: name ++ ['='] := by
  have hname := not_mem_of_isName h hmark
  simp_all

/-- Quotes stand around the values only, so attributes are cut where they are meant to be. -/
theorem attributes?_attributesText {attributes : List (String × String)} (h : Named attributes) :
    attributes? ((attributesText attributes).splitOn '\x22') = some attributes := by
  induction attributes with
  | nil => rfl
  | cons a rest ih =>
    obtain ⟨ha, hrest⟩ := List.forall_mem_cons.mp h
    rw [attributesText_cons, splitOn_append_cons (not_mem_key ha (by decide) (by decide)),
      splitOn_append_cons (quote_not_mem_escape a.2), attributes?, attributeName?_key ha,
      unescape?_escape, ih hrest]
    simp only [Option.bind_eq_bind, Option.bind_some, String.ofList_toList]
    rfl

/-! ## Tags -/

theorem toList_tagText (tag : String) (attributes : List (String × String)) :
    (tagText tag attributes).toList = tag.toList ++ attributesText attributes := by
  rw [tagText, String.toList_append, String.toList_join, List.flatMap_map, attributesText]

/-- Attributes start with a blank, so they are no part of the tag's name. -/
theorem takeWhile_attributesText (attributes : List (String × String)) :
    (attributesText attributes).takeWhile isNameChar = [] := by
  cases attributes with
  | nil => rfl
  | cons a rest => rw [attributesText_cons]; rfl

theorem dropWhile_attributesText (attributes : List (String × String)) :
    (attributesText attributes).dropWhile isNameChar = attributesText attributes := by
  cases attributes with
  | nil => rfl
  | cons a rest => rw [attributesText_cons]; rfl

section

variable {tag : String} {attributes : List (String × String)}

theorem tag?_tagText (htag : isName tag.toList = true) (hnamed : Named attributes) :
    tag? (tagText tag attributes).toList = some (tag, attributes) := by
  have hchars : ∀ c ∈ tag.toList, isNameChar c = true := fun c hc => isNameChar_of_mem htag hc
  rw [toList_tagText, tag?, List.takeWhile_append_of_pos hchars, takeWhile_attributesText,
    List.dropWhile_append_of_pos hchars, dropWhile_attributesText, List.append_nil, if_pos htag,
    attributes?_attributesText hnamed, String.ofList_toList]
  rfl

theorem head?_tagText (htag : isName tag.toList = true) (attributes : List (String × String))
    (rest : List Char) :
    ((tagText tag attributes).toList ++ rest).head? ≠ some '/' := by
  rw [toList_tagText]
  cases hname : tag.toList with
  | nil =>
    rw [hname] at htag
    cases htag
  | cons c more =>
    rw [hname] at htag
    simp only [List.cons_append, List.head?_cons, Ne, Option.some_inj]
    rintro rfl
    cases htag

/-- A tag ends in the last character of a name or in a quote. -/
theorem getLast?_tagText (htag : isName tag.toList = true) :
    (tagText tag attributes).toList.getLast? ≠ some '/' := by
  rw [toList_tagText]
  rcases List.eq_nil_or_concat attributes with rfl | ⟨before, a, rfl⟩
  · rw [attributesText, List.flatMap_nil, List.append_nil]
    exact fun h => not_mem_of_isName htag (by decide) (List.mem_of_getLast? h)
  · rw [attributesText, List.concat_eq_append, List.flatMap_append, List.flatMap_singleton,
      toList_attributeText, ← List.append_assoc, ← List.append_assoc, ← List.append_assoc,
      List.getLast?_concat]
    decide

theorem tagTokens?_opening (htag : isName tag.toList = true) (hnamed : Named attributes) :
    tagTokens? (tagText tag attributes).toList = some [.opening tag attributes] := by
  have hhead := head?_tagText htag attributes []
  rw [List.append_nil] at hhead
  rw [tagTokens?, if_neg hhead, if_neg (getLast?_tagText htag), tag?_tagText htag hnamed]
  rfl

theorem tagTokens?_empty (htag : isName tag.toList = true) (hnamed : Named attributes) :
    tagTokens? ((tagText tag attributes).toList ++ ['/']) =
      some [.opening tag attributes, .closing tag] := by
  rw [tagTokens?, if_neg (head?_tagText htag attributes ['/']), if_pos List.getLast?_concat,
    List.dropLast_concat, tag?_tagText htag hnamed]
  rfl

theorem tagTokens?_closing (htag : isName tag.toList = true) :
    tagTokens? ('/' :: tag.toList) = some [.closing tag] := by
  rw [tagTokens?, List.head?_cons, if_pos rfl, List.tail_cons, if_pos htag, String.ofList_toList]

end
end Reading
end Bpmn
