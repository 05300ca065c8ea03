/-!
# Identifiers

An identifier is a base, with every character but ASCII letters, digits and underscores turned
into an underscore, then an underscore and a number.  Numbers are counted for each base as it
looks after that, from one.  A registry hands identifiers out, remembers how often each base was
used, and gives each thing that is named the same identifier every time.
-/

namespace Bpmn

namespace Identifier

def isPlain (c : Char) : Bool := c.isAlphanum || c == '_'

/-- The base with every character that an identifier cannot hold replaced. -/
def sanitize (base : String) : String := base.map fun c => if isPlain c then c else '_'

/-- The identifier with a number that is made from a base as it looks in identifiers. -/
def numbered (base : String) (n : Nat) : String := base ++ "_" ++ toString n

/-- The identifier of the shape or edge that draws an element. -/
def drawn (id : String) : String := id ++ "_di"

end Identifier

structure Registry (α : Type) where
  /-- The bases used so far as they look in identifiers, the last one first. -/
  spent : List String := []
  /-- Who has which identifier, in the order of assignment. -/
  assigned : List (α × String) := []
deriving DecidableEq, Repr

namespace Registry

variable {α : Type} [DecidableEq α]

def empty : Registry α := {}

/-- A new identifier that belongs to nothing. -/
def fresh (r : Registry α) (base : String) : String × Registry α :=
  let base := Identifier.sanitize base
  (Identifier.numbered base (r.spent.count base + 1), { r with spent := base :: r.spent })

def id? (r : Registry α) (a : α) : Option String := r.assigned.lookup a

/-- The identifier of `a`, which is made from the base if it has none yet. -/
def assign (r : Registry α) (a : α) (base : String) : String × Registry α :=
  match r.id? a with
  | some id => (id, r)
  | none =>
    let (id, r) := r.fresh base
    (id, { r with assigned := r.assigned ++ [(a, id)] })

theorem assign_of_id? {r : Registry α} {a : α} {id : String} (h : r.id? a = some id)
    (base : String) : r.assign a base = (id, r) := by
  rw [assign, h]

def assignAll (r : Registry α) (requests : List (α × String)) : Registry α :=
  requests.foldl (fun r request => (r.assign request.1 request.2).2) r

theorem assignAll_append (r : Registry α) (p q : List (α × String)) :
    r.assignAll (p ++ q) = (r.assignAll p).assignAll q := List.foldl_append

end Registry
end Bpmn
