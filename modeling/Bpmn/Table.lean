import Bpmn.Model.Element

/-!
# Tables

Values for some elements, in the order in which the elements were first entered.  A value that is
entered for an element again takes the place of the one before.
-/

namespace Bpmn

abbrev Table (β : Type) := List (Handle × β)

namespace Table

variable {β : Type}

/-- Puts at an element a value made of the one that is there, if one is. -/
def alter (h : Handle) (value : Option β → β) : Table β → Table β
  | [] => [(h, value none)]
  | entry :: rest =>
    if entry.1 = h then (h, value (some entry.2)) :: rest else entry :: alter h value rest

def insert (table : Table β) (h : Handle) (value : β) : Table β := table.alter h fun _ => value

def insertAll (table : Table β) (entries : List (Handle × β)) : Table β :=
  entries.foldl (fun table entry => table.insert entry.1 entry.2) table

def erase (h : Handle) (table : Table β) : Table β := table.filter fun entry => entry.1 != h

end Table
end Bpmn
