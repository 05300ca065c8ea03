/-!
# Writing markup

Markup is written event by event: the declaration, then tags and the texts between them.  What
puts events into bytes is a `Writer`, which may keep whatever state it likes and may fail.
`Writer.Lawful` says what is relied on of one that writes to memory.
-/

namespace Bpmn.Markup

/-- What is written at a time.  Values and contents are meant as they are, so whatever has to be
escaped in them is the writer's concern. -/
inductive Event where
  | declaration (version : String) (encoding standalone : Option String)
  | opening (tag : String) (attributes : List (String × String))
  /-- A tag that opens an element and closes it. -/
  | empty (tag : String) (attributes : List (String × String))
  | closing (tag : String)
  | text (content : String)
deriving DecidableEq, Repr

structure Writer where
  State : Type
  /-- A writer that has written nothing yet.  With an indentation it starts a line for each tag and
  puts that many blanks before it for each element around it. -/
  new : (indent : Option Nat) → State
  /-- Writes one event, or gives a reason why it does not. -/
  write : Event → State → Except String State
  /-- All that has been written. -/
  bytes : State → ByteArray

/-! ## How events are spelled -/

/-- The five characters that markup reserves are written as entities. -/
def escapeChar : Char → String
  | '<' => "&lt;"
  | '>' => "&gt;"
  | '&' => "&amp;"
  | '\x27' => "&apos;"
  | '\x22' => "&quot;"
  | c => c.toString

def escape (s : String) : String := String.join (s.toList.map escapeChar)

def attributeText (a : String × String) : String := " " ++ a.1 ++ "=\"" ++ escape a.2 ++ "\""

def tagText (tag : String) (attributes : List (String × String)) : String :=
  tag ++ String.join (attributes.map attributeText)

def pseudoAttribute (name : String) (value : Option String) : String :=
  match value with
  | none => ""
  | some value => " " ++ name ++ "=\"" ++ value ++ "\""

namespace Event

def isText : Event → Bool
  | text _ => true
  | _ => false

def spelling : Event → String
  | declaration version encoding standalone =>
    "<?xml version=\"" ++ version ++ "\"" ++ pseudoAttribute "encoding" encoding ++
      pseudoAttribute "standalone" standalone ++ "?>"
  | opening tag attributes => "<" ++ tagText tag attributes ++ ">"
  | empty tag attributes => "<" ++ tagText tag attributes ++ "/>"
  | closing tag => "</" ++ tag ++ ">"
  | text content => escape content

end Event

namespace Writer

/-- Writes some events one after the other. -/
def run (w : Writer) (events : List Event) (s : w.State) : Except String w.State :=
  events.foldlM (fun s e => w.write e s) s

/-- What is relied on of a writer to memory.  Writing never fails, and an event goes behind all that
was written before it, with no more than blanks in between.  There are no blanks at the beginning,
and none before or behind a text, as they would be taken for a part of it. -/
structure Lawful (w : Writer) : Prop where
  bytes_new : ∀ indent, w.bytes (w.new indent) = ByteArray.empty
  write : ∀ indent past s, w.run past (w.new indent) = .ok s → ∀ e, ∃ next gap,
    w.write e s = .ok next ∧ w.bytes next = w.bytes s ++ (gap ++ e.spelling).toUTF8 ∧
      gap.toList.all Char.isWhitespace = true ∧
      (past.getLast?.all Event.isText = true ∨ e.isText = true → gap = "")

end Writer
end Bpmn.Markup
