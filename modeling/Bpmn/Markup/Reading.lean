/-!
# Reading markup

What a text of markup says to a reader that knows the plain rules and nothing about the writer.  The
text is cut into tags and the characters between them (`tokens?`), and every closing tag closes the
element that was opened last (`nest?`).  An empty tag opens an element and closes it, blanks alone
between tags say nothing, and entities stand for the characters that markup reserves.  Whatever
breaks a rule is not read at all.
-/

namespace Bpmn

/-- What is read: elements with their attributes in order and whatever stands between their tags. -/
inductive Content where
  | element (tag : String) (attributes : List (String × String)) (contents : List Content)
  | characters (text : String)
deriving Repr

namespace Reading

/-! ## Characters and names -/

def isBlank (cs : List Char) : Bool := cs.all Char.isWhitespace

def isNameStart (c : Char) : Bool := c.isAlpha || c == ':' || c == '_'

def isNameChar (c : Char) : Bool := isNameStart c || c.isDigit || c == '-' || c == '.'

def isName (cs : List Char) : Bool := cs.head?.any isNameStart && cs.all isNameChar

/-- There are five entities; a reserved character that is no entity is an error where it stands. -/
def unescape? : List Char → Option (List Char)
  | [] => some []
  | '&' :: 'l' :: 't' :: ';' :: rest => (unescape? rest).map ('<' :: ·)
  | '&' :: 'g' :: 't' :: ';' :: rest => (unescape? rest).map ('>' :: ·)
  | '&' :: 'a' :: 'm' :: 'p' :: ';' :: rest => (unescape? rest).map ('&' :: ·)
  | '&' :: 'a' :: 'p' :: 'o' :: 's' :: ';' :: rest => (unescape? rest).map ('\x27' :: ·)
  | '&' :: 'q' :: 'u' :: 'o' :: 't' :: ';' :: rest => (unescape? rest).map ('\x22' :: ·)
  | '&' :: _ | '<' :: _ => none
  | c :: rest => (unescape? rest).map (c :: ·)

/-! ## Tags -/

inductive Token where
  | opening (tag : String) (attributes : List (String × String))
  | closing (tag : String)
  | characters (text : String)
deriving DecidableEq, Repr

/-- The name of an attribute out of what stands before its value. -/
def attributeName? (cs : List Char) : Option String :=
  let key := cs.dropWhile Char.isWhitespace
  if cs.head?.any Char.isWhitespace && isName key.dropLast && key.getLast? == some '=' then
    some (String.ofList key.dropLast)
  else none

/-- The attributes of a tag that is cut at its quotes.  Values are taken as they stand, except for
their entities. -/
def attributes? : List (List Char) → Option (List (String × String))
  | [] => none
  | [rest] => if isBlank rest then some [] else none
  | before :: value :: rest => do
    let name ← attributeName? before
    let value ← unescape? value
    return (name, String.ofList value) :: (← attributes? rest)

/-- The name and the attributes of a tag that opens an element. -/
def tag? (cs : List Char) : Option (String × List (String × String)) := do
  let name := cs.takeWhile isNameChar
  if isName name then
    return (String.ofList name, ← attributes? ((cs.dropWhile isNameChar).splitOn '\x22'))
  else none

/-- What a tag says, without its brackets. -/
def tagTokens? (cs : List Char) : Option (List Token) :=
  if cs.head? = some '/' then
    if isName cs.tail then some [.closing (String.ofList cs.tail)] else none
  else if cs.getLast? = some '/' then do
    let (tag, attributes) ← tag? cs.dropLast
    return [.opening tag attributes, .closing tag]
  else do
    let (tag, attributes) ← tag? cs
    return [.opening tag attributes]

/-! ## Tokens -/

/-- What the characters between two tags say. -/
def textTokens? (cs : List Char) : Option (List Token) :=
  if isBlank cs then some [] else (unescape? cs).map fun text => [.characters (String.ofList text)]

/-- Where in a text a character stands.  No bracket within quotes ends a tag. -/
inductive Place where
  | outside
  | inTag
  | inValue

/-- Cuts a text into tokens.  What was seen since the last bracket is kept until the next one. -/
def tokens? : Place → List Char → List Char → Option (List Token)
  | .outside, seen, [] => textTokens? seen
  | .outside, seen, '<' :: rest => do return (← textTokens? seen) ++ (← tokens? .inTag [] rest)
  | .outside, seen, c :: rest => tokens? .outside (seen ++ [c]) rest
  | .inTag, seen, '>' :: rest => do return (← tagTokens? seen) ++ (← tokens? .outside [] rest)
  | .inTag, seen, '\x22' :: rest => tokens? .inValue (seen ++ ['\x22']) rest
  | .inTag, seen, c :: rest => tokens? .inTag (seen ++ [c]) rest
  | .inValue, seen, '\x22' :: rest => tokens? .inTag (seen ++ ['\x22']) rest
  | .inValue, seen, c :: rest => tokens? .inValue (seen ++ [c]) rest
  | .inTag, _, [] | .inValue, _, [] => none

/-! ## Elements -/

/-- An element whose closing tag is still to come, and what stood before it. -/
structure Open where
  tag : String
  attributes : List (String × String)
  before : List Content

/-- Matches the tags.  The element opened last is the first of those still open, and what it has
held so far is the second argument. -/
def nest? : List Open → List Content → List Token → Option (List Content)
  | [], done, [] => some done
  | _ :: _, _, [] => none
  | stack, done, .opening tag attributes :: rest => nest? (⟨tag, attributes, done⟩ :: stack) [] rest
  | stack, done, .characters text :: rest => nest? stack (done ++ [.characters text]) rest
  | [], _, .closing _ :: _ => none
  | last :: stack, done, .closing tag :: rest =>
    if last.tag = tag then
      nest? stack (last.before ++ [.element tag last.attributes done]) rest
    else none

/-- Reads a text that holds one element and nothing beside it. -/
def element? (cs : List Char) : Option Content := do
  match ← nest? [] [] (← tokens? .outside [] cs) with
  | [.element tag attributes contents] => some (.element tag attributes contents)
  | _ => none

/-- Reads a text that starts with the declaration and holds one element after it. -/
def document? (cs : List Char) : Option Content :=
  let start := "<?xml version=\"1.0\" encoding=\"UTF-8\"?>".toList
  if start.isPrefixOf cs then element? (cs.drop start.length) else none

end Reading
end Bpmn
