import Bpmn.Diagnostic.Report
import Bpmn.Model.Visitor

/-!
# Empty containers

A pool or lane in which nothing stands directly is worth a warning.
-/

namespace Bpmn.Check

def emptyPool (h : Handle) (name : String) : Diagnostic where
  severity := .warning
  code := some .emptyPool
  message := s!"pool `{name}` is empty"
  labels := [.primary h (some .elements) "no elements declared"]
  help := some "empty pools produce no process"

def emptyLane (h : Handle) (name : String) : Diagnostic where
  severity := .warning
  code := some .emptyLane
  message := s!"lane `{name}` is empty"
  labels := [.primary h (some .elements) "no elements declared"]

def warnIfEmpty (m : Model) (warning : Handle → String → Diagnostic) (h : Handle) (name : String)
    (inside : Report → Report) (r : Report) : Report :=
  inside (if (m.children h).isEmpty then r.emit (warning h name) else r)

def emptinessVisitor (m : Model) : Visitor Report where
  pool := warnIfEmpty m emptyPool
  lane := warnIfEmpty m emptyLane

def emptyContainers (m : Model) (r : Report) : Report := (emptinessVisitor m).visitModel m r

end Bpmn.Check
