import Bpmn.Proofs.Markup.Tags

/-!
# Events read back

Events that close each element in turn make up a tree (`Nests`), and however they are spelled, they
are read back as that tree (`element?_of_spells`).  Between two tags stand blanks, which say
nothing, or an escaped text, so what is spelled is cut into the tokens of the tree (`Nests.says`).
Matching the tags gives the tree again, whatever is open around it (`nest?_tokens`).
-/

namespace Bpmn

namespace Reading

open Markup

/-! ## From one mark to the next -/

/-- The characters that mean something where they stand. -/
def Place.marks : Place → List Char
  | outside => ['<']
  | inTag => ['>', '\x22']
  | inValue => ['\x22']

theorem tokens?_cons {place : Place} {c : Char} (h : c ∉ place.marks) (seen rest : List Char) :
    tokens? place seen (c :: rest) = tokens? place (seen ++ [c]) rest := by
  cases place with
  | outside =>
    have hc : c ≠ '<' := List.ne_of_not_mem_cons h
    rw [tokens?]
    exact hc
  | inTag =>
    obtain ⟨hgt, hquote⟩ : c ≠ '>' ∧ c ≠ '\x22' := by simpa [Place.marks] using h
    rw [tokens?]
    · exact hgt
    · exact hquote
  | inValue =>
    have hc : c ≠ '\x22' := List.ne_of_not_mem_cons h
    rw [tokens?]
    exact hc

/-- What means nothing is kept until the next mark. -/
theorem tokens?_append (place : Place) {cs : List Char} (h : ∀ mark ∈ place.marks, mark ∉ cs)
    (seen rest : List Char) :
    tokens? place seen (cs ++ rest) = tokens? place (seen ++ cs) rest := by
  induction cs generalizing seen with
  | nil => rw [List.nil_append, List.append_nil]
  | cons c cs ih =>
    have hc : c ∉ place.marks := fun hmark => h c hmark List.mem_cons_self
    have hcs : ∀ mark ∈ place.marks, mark ∉ cs := fun mark hmark hmem =>
      h mark hmark (List.mem_cons_of_mem c hmem)
    rw [List.cons_append, tokens?_cons hc, ih hcs, List.append_assoc, List.singleton_append]

/-! ## Within a tag -/

/-- Text that ends no tag it stands in: no bracket is in it but between quotes, and all quotes that
open are closed. -/
def Inside (cs : List Char) : Prop :=
  ∀ seen rest, tokens? .inTag seen (cs ++ rest) = tokens? .inTag (seen ++ cs) rest

theorem Inside.append {a b : List Char} (ha : Inside a) (hb : Inside b) : Inside (a ++ b) := by
  intro seen rest
  rw [List.append_assoc, ha, hb, List.append_assoc]

theorem inside_of_not_mem {cs : List Char} (hbracket : '>' ∉ cs) (hquote : '\x22' ∉ cs) :
    Inside cs :=
  tokens?_append .inTag
    (List.forall_mem_cons.mpr ⟨hbracket, List.forall_mem_singleton.mpr hquote⟩)

theorem inside_quoted {value : List Char} (h : '\x22' ∉ value) :
    Inside ('\x22' :: value ++ ['\x22']) := by
  intro seen rest
  rw [List.append_assoc, List.cons_append, tokens?,
    tokens?_append .inValue (List.forall_mem_singleton.mpr h), List.singleton_append, tokens?]
  simp

theorem inside_attributesText {attributes : List (String × String)} (h : Named attributes) :
    Inside (attributesText attributes) := by
  induction attributes with
  | nil => exact inside_of_not_mem List.not_mem_nil List.not_mem_nil
  | cons a rest ih =>
    obtain ⟨ha, hrest⟩ := List.forall_mem_cons.mp h
    have hkey : Inside (' ' :: a.1.toList ++ ['=']) :=
      inside_of_not_mem (not_mem_key ha (by decide) (by decide))
        (not_mem_key ha (by decide) (by decide))
    rw [attributesText, List.flatMap_cons, toList_attributeText]
    exact (hkey.append (inside_quoted (quote_not_mem_escape a.2))).append (ih hrest)

theorem inside_of_isName {name : List Char} (h : isName name = true) : Inside name :=
  inside_of_not_mem (not_mem_of_isName h (by decide)) (not_mem_of_isName h (by decide))

theorem inside_slash : Inside ['/'] := inside_of_not_mem (by decide) (by decide)

theorem inside_tagText {tag : String} {attributes : List (String × String)}
    (htag : isName tag.toList = true) (hnamed : Named attributes) :
    Inside (tagText tag attributes).toList := by
  rw [toList_tagText]
  exact (inside_of_isName htag).append (inside_attributesText hnamed)

/-! ## Tokens of what is written -/

/-- From a tag to the next, a text is cut into these tokens whatever comes after it. -/
def Says (cs : List Char) (ts : List Token) : Prop :=
  ∀ rest, tokens? .outside [] (cs ++ rest) = (tokens? .outside [] rest).map (ts ++ ·)

theorem says_nil : Says [] [] := by
  intro rest
  rw [List.nil_append]
  exact Option.map_id'.symm

theorem Says.append {a b : List Char} {ts us : List Token} (ha : Says a ts) (hb : Says b us) :
    Says (a ++ b) (ts ++ us) := by
  intro rest
  rw [List.append_assoc, ha, hb, Option.map_map]
  simp only [Function.comp_def, List.append_assoc]

/-- A tag with its brackets. -/
def bracketed (tag : List Char) : List Char := '<' :: tag ++ ['>']

/-- What stands before a tag is said before it. -/
theorem says_before_tag {before tag : List Char} {ts us : List Token}
    (hmark : '<' ∉ before) (hbefore : textTokens? before = some ts) (htag : Inside tag)
    (htokens : tagTokens? tag = some us) : Says (before ++ bracketed tag) (ts ++ us) := by
  intro rest
  rw [bracketed, List.append_assoc, tokens?_append .outside (List.forall_mem_singleton.mpr hmark),
    List.nil_append, List.append_assoc, List.cons_append, tokens?, hbefore, htag, List.nil_append,
    List.singleton_append, tokens?, htokens]
  cases tokens? .outside [] rest with
  | none => rfl
  | some vs => simp

theorem not_mem_of_isBlank {cs : List Char} (h : isBlank cs = true) : '<' ∉ cs :=
  fun hmem => absurd (List.all_eq_true.mp h '<' hmem) (by decide)

/-- Blanks before a tag say nothing. -/
theorem says_tag {gap tag : List Char} {ts : List Token} (hgap : isBlank gap = true)
    (htag : Inside tag) (htokens : tagTokens? tag = some ts) : Says (gap ++ bracketed tag) ts :=
  says_before_tag (not_mem_of_isBlank hgap) (if_pos hgap) htag htokens

theorem says_text {s : String} (hs : isBlank s.toList = false) {tag : List Char} {ts : List Token}
    (htag : Inside tag) (htokens : tagTokens? tag = some ts) :
    Says ((escape s).toList ++ bracketed tag) (.characters s :: ts) := by
  have htext : textTokens? (escape s).toList = some [.characters s] := by
    rw [textTokens?, isBlank_escape, hs, unescape?_escape, Option.map_some, String.ofList_toList]
    rfl
  exact says_before_tag (bracket_not_mem_escape s) htext htag htokens

mutual

/-- The tokens of a tree.  An element without contents is closed where it is opened. -/
def tokens : Content → List Token
  | .element tag attributes contents =>
    .opening tag attributes :: (tokensOf contents ++ [.closing tag])
  | .characters s => [.characters s]

def tokensOf : List Content → List Token
  | [] => []
  | t :: rest => tokens t ++ tokensOf rest

end

theorem tokensOf_append (ts us : List Content) :
    tokensOf (ts ++ us) = tokensOf ts ++ tokensOf us := by
  induction ts with
  | nil => rfl
  | cons t rest ih => rw [List.cons_append, tokensOf, ih, tokensOf, List.append_assoc]

theorem tokensOf_singleton (t : Content) : tokensOf [t] = tokens t := by
  rw [tokensOf, tokensOf, List.append_nil]

/-! ## Events -/

/-- Events that make up a run of elements, and what these are to a reader.  All tags and attributes
must have names, and no text may be blank. -/
inductive Nests : List Event → List Content → Prop where
  | nil : Nests [] []
  | append {es fs : List Event} {ts us : List Content} :
    Nests es ts → Nests fs us → Nests (es ++ fs) (ts ++ us)
  | empty {tag : String} {attributes : List (String × String)} :
    isName tag.toList = true → Named attributes →
      Nests [.empty tag attributes] [.element tag attributes []]
  | text {tag s : String} : isName tag.toList = true → isBlank s.toList = false →
      Nests [.opening tag [], .text s, .closing tag] [.element tag [] [.characters s]]
  | element {tag : String} {attributes : List (String × String)} {es : List Event}
    {ts : List Content} : isName tag.toList = true → Named attributes → Nests es ts →
      Nests (.opening tag attributes :: es ++ [.closing tag]) [.element tag attributes ts]

/-- Characters that spell events one after the other, with gaps of blanks before them.  There is no
gap before or behind a text, nor at the beginning if that is tight. -/
inductive Spells : (tight : Bool) → List Event → List Char → Prop where
  | nil {tight : Bool} : Spells tight [] []
  | cons {tight : Bool} {e : Event} {rest : List Event} {gap cs : List Char} :
    isBlank gap = true → (tight = true ∨ e.isText = true → gap = []) →
      Spells e.isText rest cs → Spells tight (e :: rest) (gap ++ e.spelling.toList ++ cs)

theorem Spells.split {tight : Bool} {es fs : List Event} {cs : List Char}
    (h : Spells tight (es ++ fs) cs) : ∃ front back between, cs = front ++ back ∧
      Spells tight es front ∧ Spells between fs back := by
  induction es generalizing tight cs with
  | nil => exact ⟨[], cs, tight, rfl, .nil, h⟩
  | cons e rest ih =>
    obtain _ | ⟨hblank, htight, hrest⟩ := h
    obtain ⟨front, back, between, rfl, hfront, hback⟩ := ih hrest
    exact ⟨_, back, between, (List.append_assoc _ _ _).symm, .cons hblank htight hfront, hback⟩

theorem toList_spelling_opening (tag : String) (attributes : List (String × String)) :
    (Event.opening tag attributes).spelling.toList = bracketed (tagText tag attributes).toList := by
  have hspelling : (Event.opening tag attributes).spelling =
      "<" ++ tagText tag attributes ++ ">" := rfl
  simp [hspelling, bracketed]

theorem toList_spelling_empty (tag : String) (attributes : List (String × String)) :
    (Event.empty tag attributes).spelling.toList =
      bracketed ((tagText tag attributes).toList ++ ['/']) := by
  have hspelling : (Event.empty tag attributes).spelling =
      "<" ++ tagText tag attributes ++ "/>" := rfl
  simp [hspelling, bracketed]

theorem toList_spelling_closing (tag : String) :
    (Event.closing tag).spelling.toList = bracketed (['/'] ++ tag.toList) := by
  have hspelling : (Event.closing tag).spelling = "</" ++ tag ++ ">" := rfl
  simp [hspelling, bracketed]

section

variable {tag : String} {attributes : List (String × String)} {tight : Bool} {cs : List Char}

theorem says_opening (htag : isName tag.toList = true) (hnamed : Named attributes)
    {gap : List Char} (hgap : isBlank gap = true) :
    Says (gap ++ (Event.opening tag attributes).spelling.toList) [.opening tag attributes] := by
  rw [toList_spelling_opening]
  exact says_tag hgap (inside_tagText htag hnamed) (tagTokens?_opening htag hnamed)

theorem says_empty (htag : isName tag.toList = true) (hnamed : Named attributes)
    (h : Spells tight [.empty tag attributes] cs) :
    Says cs [.opening tag attributes, .closing tag] := by
  obtain _ | ⟨hgap, -, hrest⟩ := h
  cases hrest
  rw [List.append_nil, toList_spelling_empty]
  exact says_tag hgap ((inside_tagText htag hnamed).append inside_slash)
    (tagTokens?_empty htag hnamed)

theorem inside_closing (htag : isName tag.toList = true) : Inside (['/'] ++ tag.toList) :=
  inside_slash.append (inside_of_isName htag)

theorem says_closing (htag : isName tag.toList = true) (h : Spells tight [.closing tag] cs) :
    Says cs [.closing tag] := by
  obtain _ | ⟨hgap, -, hrest⟩ := h
  cases hrest
  rw [List.append_nil, toList_spelling_closing]
  exact says_tag hgap (inside_closing htag) (tagTokens?_closing htag)

/-- A text is kept until the tag behind it, as nothing stands between the two. -/
theorem says_text_closing (htag : isName tag.toList = true) {s : String}
    (hs : isBlank s.toList = false) (h : Spells tight [.text s, .closing tag] cs) :
    Says cs [.characters s, .closing tag] := by
  obtain _ | ⟨-, htight, hrest⟩ := h
  obtain _ | ⟨-, hbehind, hrest⟩ := hrest
  cases hrest
  obtain rfl := htight (.inr rfl)
  obtain rfl := hbehind (.inl rfl)
  rw [List.nil_append, List.nil_append, List.append_nil, toList_spelling_closing]
  exact says_text hs (inside_closing htag) (tagTokens?_closing htag)

end

/-- What spells a run of elements says their tokens. -/
theorem Nests.says {es : List Event} {ts : List Content} (h : Nests es ts) {tight : Bool}
    {cs : List Char} (hcs : Spells tight es cs) : Says cs (tokensOf ts) := by
  induction h generalizing tight cs with
  | nil =>
    cases hcs
    exact says_nil
  | append _ _ ihes ihfs =>
    obtain ⟨front, back, between, rfl, hfront, hback⟩ := hcs.split
    rw [tokensOf_append]
    exact (ihes hfront).append (ihfs hback)
  | empty htag hnamed =>
    rw [tokensOf_singleton, tokens, tokensOf]
    exact says_empty htag hnamed hcs
  | text htag hs =>
    obtain _ | ⟨hgap, -, hrest⟩ := hcs
    rw [tokensOf_singleton, tokens, tokensOf_singleton, tokens]
    exact (says_opening htag (List.forall_mem_nil _) hgap).append (says_text_closing htag hs hrest)
  | element htag hnamed _ ih =>
    obtain _ | ⟨hgap, -, hrest⟩ := hcs
    obtain ⟨front, back, between, rfl, hfront, hback⟩ := hrest.split
    rw [tokensOf_singleton, tokens]
    exact (says_opening htag hnamed hgap).append ((ih hfront).append (says_closing htag hback))

/-! ## Matching tags -/

mutual

/-- Whatever is open around it, a tree is read whole and goes after what was read before. -/
theorem nest?_tokens (t : Content) (stack : List Open) (done : List Content) (rest : List Token) :
    nest? stack done (tokens t ++ rest) = nest? stack (done ++ [t]) rest := by
  match t with
  | .element tag attributes contents =>
    rw [tokens, List.cons_append, nest?, List.append_assoc, nest?_tokensOf contents,
      List.nil_append, List.singleton_append, nest?, if_pos rfl]
  | .characters s => rw [tokens, List.singleton_append, nest?]

theorem nest?_tokensOf (ts : List Content) (stack : List Open) (done : List Content)
    (rest : List Token) :
    nest? stack done (tokensOf ts ++ rest) = nest? stack (done ++ ts) rest := by
  match ts with
  | [] => rw [tokensOf, List.nil_append, List.append_nil]
  | t :: more =>
    rw [tokensOf, List.append_assoc, nest?_tokens t, nest?_tokensOf more, List.append_assoc,
      List.singleton_append]

end

/-! ## Documents -/

theorem tokens?_blank {cs : List Char} (h : isBlank cs = true) :
    tokens? .outside [] cs = some [] := by
  rw [← List.append_nil cs,
    tokens?_append .outside (List.forall_mem_singleton.mpr (not_mem_of_isBlank h)),
    List.nil_append, tokens?, textTokens?, if_pos h]

/-- An element is read back from whatever spells it, and blanks may follow it. -/
theorem element?_of_spells {es : List Event} {tag : String} {attributes : List (String × String)}
    {contents : List Content} (h : Nests es [.element tag attributes contents]) {tight : Bool}
    {cs : List Char} (hcs : Spells tight es cs) {rest : List Char} (hrest : isBlank rest = true) :
    element? (cs ++ rest) = some (.element tag attributes contents) := by
  have htokens : tokens? .outside [] (cs ++ rest) =
      some (tokens (.element tag attributes contents) ++ []) := by
    rw [← tokensOf_singleton, h.says hcs, tokens?_blank hrest, Option.map_some]
  have hnest : nest? [] [] (tokens (.element tag attributes contents) ++ []) =
      some [.element tag attributes contents] := by
    rw [nest?_tokens, nest?, List.nil_append]
  rw [element?, htokens, Option.bind_eq_bind, Option.bind_some, hnest]
  rfl

example : element? "<a b=\"1 &lt; 2\">\n  <c>&amp;</c>\n  <d/>\n</a>\n".toList =
    some (.element "a" [("b", "1 < 2")]
      [.element "c" [] [.characters "&"], .element "d" [] []]) := by
  cbv

end Reading
end Bpmn
