import Bpmn.Markup

/-!
# A writer to memory

What is written is kept as one text.  With an indentation every event but a text starts a line,
unless it is the first one or comes right behind a text.
-/

namespace Bpmn.Markup

namespace Memory

structure State where
  indent : Option Nat
  /-- How many elements are open. -/
  level : Nat := 0
  /-- Whether the next event may start a line. -/
  mayBreak : Bool := false
  text : String := ""

namespace State

/-- What stands before an event. -/
def gap (s : State) (e : Event) : String :=
  match s.indent with
  | none => ""
  | some indent => if s.mayBreak && !e.isText then "\n".pushn ' ' (indent * s.level) else ""

/-- Before a closing tag there is one element less around what is written. -/
def leave (s : State) : Event → State
  | .closing _ => { s with level := s.level - 1 }
  | _ => s

def put (s : State) (e : Event) : State :=
  { s with mayBreak := !e.isText, text := s.text ++ (s.gap e ++ e.spelling) }

def enter (s : State) : Event → State
  | .opening .. => { s with level := s.level + 1 }
  | _ => s

def step (s : State) (e : Event) : State := ((s.leave e).put e).enter e

end State
end Memory

def Writer.memory : Writer where
  State := Memory.State
  new indent := { indent }
  write e s := .ok (s.step e)
  bytes s := s.text.toUTF8

end Bpmn.Markup
