import Bpmn.Diagnostic.Report
import Bpmn.Model.Visitor

/-!
# Names of flow nodes

A scope is named by the dotted path of the containers around it.  Two nodes of one scope must not
share a name.  A name that an earlier node has in another container is worth a warning, as it is
the earlier one that a connection elsewhere may mean.
-/

namespace Bpmn.Check

def duplicateName (h : Handle) (name scope : String) (first : Handle) : Diagnostic where
  severity := .error
  code := some .duplicateName
  message := s!"duplicate node name `{name}` in scope `{scope}`"
  labels :=
    [.primary h (some .name) "duplicate definition",
      .secondary first (some .name) "first defined here"]
  help := some "rename one of the nodes"

def nameReused (h : Handle) (name elsewhere : String) (first : Handle) : Diagnostic where
  severity := .warning
  code := some .nameReused
  message := s!"node name `{name}` is also used in `{elsewhere}`"
  labels :=
    [.primary h (some .name) "name reused here",
      .secondary first (some .name) "first used here"]

structure NamingState where
  report : Report
  /-- The containers entered and not yet left, innermost first. -/
  entered : List (Handle × String) := []
  /-- For a scope and a name, the first node seen there with it. -/
  inScope : List ((String × String) × Handle) := []
  /-- For a name, the first node seen with it and the container that node stands in. -/
  anywhere : List (String × Handle × Option Handle) := []

namespace NamingState

def scope (s : NamingState) : String := Model.scopeName (s.entered.reverse.map Prod.snd)

def container? (s : NamingState) : Option Handle := s.entered.head?.map Prod.fst

/-- Reports a name that the current scope has already, or remembers it. -/
def checkScope (h : Handle) (name : String) (s : NamingState) : NamingState :=
  match s.inScope.lookup (s.scope, name) with
  | some first => { s with report := s.report.emit (duplicateName h name s.scope first) }
  | none => { s with inScope := s.inScope ++ [((s.scope, name), h)] }

/-- Reports a name that was first seen in another container, or remembers it. -/
def checkElsewhere (m : Model) (h : Handle) (name : String) (s : NamingState) : NamingState :=
  match s.anywhere.lookup name with
  | some (first, home) =>
    if s.container?.isSome && home != s.container? then
      let elsewhere := (home.bind m.name?).getD Model.topScope
      { s with report := s.report.emit (nameReused h name elsewhere first) }
    else s
  | none => { s with anywhere := s.anywhere ++ [(name, h, s.container?)] }

/-- The walk over what stands in a container, with the container entered meanwhile. -/
def within (h : Handle) (name : String) (inside : NamingState → NamingState) (s : NamingState) :
    NamingState :=
  let s := inside { s with entered := (h, name) :: s.entered }
  { s with entered := s.entered.tail }

def visitor (m : Model) : Visitor NamingState where
  node h n s := (s.checkScope h n.name).checkElsewhere m h n.name
  pool := within
  lane := within

end NamingState

def nodeNames (m : Model) (r : Report) : Report :=
  ((NamingState.visitor m).visitModel m { report := r }).report

end Bpmn.Check
