import Bpmn.Check.Naming
import Bpmn.Proofs.Check.Findings
import Bpmn.Proofs.Lists
import Bpmn.Proofs.ScopeNames

/-!
# Findings on names

The check of names walks the tree with two tables.  Each holds, for every key met so far, the first
node with that key, so what it finds on a node can be told from the whole walk: an error if the
first node of that name in the same scope is another one, and a warning if the first node of that
name anywhere stands in another container (`nodeNames_eq`).
-/

namespace Bpmn
namespace Check

open Model

/-- Whether `h` is a node with this name. -/
def isNodeNamed (m : Model) (name : String) (h : Handle) : Bool :=
  (m.node? h).any fun n => n.name == name

def isNodeAt (m : Model) (scope name : String) (h : Handle) : Bool :=
  isNodeNamed m name h && m.scopeOf h == scope

/-- The error on a node whose name an earlier one of its scope has. -/
def duplicateFinding? (m : Model) (h : Handle) (name : String) : Option Diagnostic := do
  let first ← m.walk.find? (isNodeAt m (m.scopeOf h) name)
  if first = h then none else some (duplicateName h name (m.scopeOf h) first)

/-- The warning on a node in a container, if the first node of that name stands elsewhere. -/
def reuseFinding? (m : Model) (h : Handle) (name : String) : Option Diagnostic := do
  let first ← m.walk.find? (isNodeNamed m name)
  if (m.parent? h).isSome && m.parent? first != m.parent? h then
    some (nameReused h name (((m.parent? first).bind m.name?).getD topScope) first)
  else none

def nameFindings (m : Model) (h : Handle) : List Diagnostic :=
  match m.node? h with
  | none => []
  | some n => (duplicateFinding? m h n.name).toList ++ (reuseFinding? m h n.name).toList

section

variable {m : Model} {h : Handle} {d : Diagnostic}

theorem mem_nameFindings : d ∈ nameFindings m h ↔
    ∃ n, m.node? h = some n ∧
      (duplicateFinding? m h n.name = some d ∨ reuseFinding? m h n.name = some d) := by
  rw [nameFindings]
  cases m.node? h with
  | none => simp
  | some n => simp

theorem duplicateFinding?_eq_some {name : String} : duplicateFinding? m h name = some d ↔
    ∃ first, m.walk.find? (isNodeAt m (m.scopeOf h) name) = some first ∧ first ≠ h ∧
      d = duplicateName h name (m.scopeOf h) first := by
  simp only [duplicateFinding?, Option.bind_eq_bind, Option.bind_eq_some_iff]
  refine exists_congr fun first => and_congr_right fun _ => ?_
  rw [Option.ite_none_left_eq_some, Option.some_inj, eq_comm (a := d)]

theorem reuseFinding?_eq_some {name : String} : reuseFinding? m h name = some d ↔
    ∃ first, m.walk.find? (isNodeNamed m name) = some first ∧
      (m.parent? h).isSome ∧ m.parent? first ≠ m.parent? h ∧
      d = nameReused h name (((m.parent? first).bind m.name?).getD topScope) first := by
  simp only [reuseFinding?, Option.bind_eq_bind, Option.bind_eq_some_iff]
  refine exists_congr fun first => and_congr_right fun _ => ?_
  rw [Option.ite_none_right_eq_some, Option.some_inj, eq_comm (a := d), Bool.and_eq_true,
    bne_iff_ne, and_assoc]

theorem mem_nameFindings_code (hd : d ∈ nameFindings m h) :
    d.severity = .error ∧ d.code = some .duplicateName ∨
      d.severity = .warning ∧ d.code = some .nameReused := by
  obtain ⟨n, -, hd | hd⟩ := mem_nameFindings.mp hd
  · obtain ⟨first, -, -, rfl⟩ := duplicateFinding?_eq_some.mp hd
    exact .inl ⟨rfl, rfl⟩
  · obtain ⟨first, -, -, -, rfl⟩ := reuseFinding?_eq_some.mp hd
    exact .inr ⟨rfl, rfl⟩

end

/-! ## The containers entered -/

/-- The state with other containers entered. -/
def NamingState.enter (s : NamingState) (containers : List (Handle × String)) : NamingState :=
  { s with entered := containers }

/-- The containers around an element with their names, nearest first. -/
def enclosing (m : Model) (h : Handle) : List (Handle × String) :=
  (m.ancestors h).filterMap fun a => (m.name? a).map fun name => (a, name)

section

variable {m : Model}

theorem enclosing_of_parent {h p : Handle} {name : String} (hp : m.parent? h = some p)
    (hn : m.name? p = some name) : enclosing m h = (p, name) :: enclosing m p := by
  rw [enclosing, ancestors_of_parent hp, lineage, List.filterMap_cons_some (by rw [hn]; rfl)]
  rfl

theorem scope_enter (s : NamingState) (h : Handle) :
    (s.enter (enclosing m h)).scope = m.scopeOf h := by
  have hnames : (enclosing m h).map Prod.snd = (m.ancestors h).filterMap m.name? := by
    rw [enclosing, List.map_filterMap]
    refine List.filterMap_congr fun a _ => ?_
    cases m.name? a <;> rfl
  rw [NamingState.scope, NamingState.enter, scopeOf, List.map_reverse, hnames,
    List.filterMap_reverse]

theorem container?_enter (s : NamingState) (h : Handle) :
    (s.enter (enclosing m h)).container? = m.parent? h := by
  rw [NamingState.container?, NamingState.enter]
  cases hp : m.parent? h with
  | none => simp [enclosing, ancestors_of_root hp]
  | some p =>
    obtain ⟨name, hn⟩ := exists_name_of_parent hp
    simp [enclosing_of_parent hp hn]

end

/-! ## One step for each node -/

/-- What the visitor does at one element, by the containers around it. -/
def nameStep (m : Model) (s : NamingState) (h : Handle) : NamingState :=
  match m.node? h with
  | none => s
  | some n => ((s.enter (enclosing m h)).checkScope h n.name).checkElsewhere m h n.name

theorem entered_checkScope (s : NamingState) (h : Handle) (name : String) :
    (s.checkScope h name).entered = s.entered := by
  rw [NamingState.checkScope]
  split <;> rfl

theorem entered_checkElsewhere (m : Model) (s : NamingState) (h : Handle) (name : String) :
    (s.checkElsewhere m h name).entered = s.entered := by
  rw [NamingState.checkElsewhere]
  split
  · dsimp only
    split <;> rfl
  · rfl

theorem enter_nameStep (m : Model) (s : NamingState) (h : Handle) {n : Node}
    (hn : m.node? h = some n) : (nameStep m s h).enter (enclosing m h) = nameStep m s h := by
  have hentered : (nameStep m s h).entered = enclosing m h := by
    simp only [nameStep, hn, entered_checkElsewhere, entered_checkScope, NamingState.enter]
  rw [NamingState.enter, ← hentered]

theorem visit_naming (m : Model) (h : Handle) (s : NamingState) :
    (NamingState.visitor m).visit m (m.branch h) (s.enter (enclosing m h)) =
      ((m.subtree h).foldl (nameStep m) s).enter (enclosing m h) := by
  -- The containers entered are the same before and after, so what stands in a container is visited
  -- sibling by sibling, each from what the last one left in the tables.
  induction h using inward (m := m) generalizing s with
  | step h ih =>
    have hleaf : m.isContainer h = false → m.subtree h = [h] := by
      intro hc
      rw [subtree, descendants_eq_nil hc]
    have hskip : m.node? h = none → nameStep m s h = s := by
      intro hnode
      rw [nameStep, hnode]
    have hinside : ∀ name, m.name? h = some name → m.node? h = none →
        NamingState.within h name ((NamingState.visitor m).visitAll m ((m.children h).map m.branch))
          (s.enter (enclosing m h)) =
            ((m.subtree h).foldl (nameStep m) s).enter (enclosing m h) := by
      intro name hn hnode
      have hcontext : ∀ c ∈ m.children h, enclosing m c = (h, name) :: enclosing m h :=
        fun c hc => enclosing_of_parent (mem_children.mp hc) hn
      have hvisit : ∀ c ∈ m.children h, ∀ t : NamingState,
          (NamingState.visitor m).visit m (m.branch c) (t.enter ((h, name) :: enclosing m h)) =
            ((m.subtree c).foldl (nameStep m) t).enter ((h, name) :: enclosing m h) := by
        intro c hc t
        rw [← hcontext c hc]
        exact ih c hc t
      have hrun := Visitor.visitAll_branches
        (fun t : NamingState => t.enter ((h, name) :: enclosing m h)) hvisit s
      rw [← descendants_eq] at hrun
      rw [subtree, List.foldl_cons, hskip hnode]
      exact congrArg (fun t => NamingState.enter t t.entered.tail) hrun
    rw [branch_eq, Visitor.visit]
    cases he : m.element? h with
    | none =>
      have hnode : m.node? h = none := by rw [node?, he]; rfl
      rw [hleaf (by simp [Arena.isContainer, he]), List.foldl_cons, hskip hnode]
      rfl
    | some e =>
      cases e with
      | pool name => exact hinside name (by rw [name?, he]; rfl) (by rw [node?, he]; rfl)
      | lane name parent =>
        exact hinside name (by rw [name?, he]; rfl) (by rw [node?, he]; rfl)
      | connection c parent =>
        have hnode : m.node? h = none := by rw [node?, he]; rfl
        rw [hleaf (by simp [Arena.isContainer, he, Element.isContainer]), List.foldl_cons,
          hskip hnode]
        rfl
      | node n parent =>
        have hnode : m.node? h = some n := by rw [node?, he]; rfl
        rw [hleaf (by simp [Arena.isContainer, he, Element.isContainer]), List.foldl_cons,
          List.foldl_nil, enter_nameStep m s h hnode, nameStep, hnode]
        rfl

/-! ## The tables -/

/-- For every key the tables hold the first node with it among those walked. -/
structure Remembers (m : Model) (walked : List Handle) (s : NamingState) : Prop where
  inScope : ∀ scope name, s.inScope.lookup (scope, name) = walked.find? (isNodeAt m scope name)
  anywhere : ∀ name, s.anywhere.lookup name =
    (walked.find? (isNodeNamed m name)).map fun first => (first, m.parent? first)

section

variable {m : Model} {walked rest : List Handle} {h : Handle} {n : Node} {s : NamingState}

theorem find?_walk {p : Handle → Bool} (hw : m.walk = walked ++ h :: rest) (hp : p h = true) :
    m.walk.find? p = (walked.find? p).or (some h) := by
  rw [hw, List.find?_append, List.find?_cons_of_pos hp]

theorem ne_of_find?_walked {p : Handle → Bool} {first : Handle}
    (hw : m.walk = walked ++ h :: rest) (hf : walked.find? p = some first) : first ≠ h := by
  have hnodup := m.walk_nodup
  rw [hw, List.nodup_append] at hnodup
  exact hnodup.2.2 first (List.mem_of_find?_eq_some hf) h List.mem_cons_self

theorem find?_append_singleton (p : Handle → Bool) :
    (walked ++ [h]).find? p = (walked.find? p).or (if p h then some h else none) := by
  rw [List.find?_append, List.find?_cons, List.find?_nil]
  cases p h <;> rfl

theorem isNodeNamed_eq (hn : m.node? h = some n) (name : String) :
    isNodeNamed m name h = (name == n.name) := by
  rw [isNodeNamed, hn, Option.any_some, Bool.beq_comm]

theorem isNodeAt_eq (hn : m.node? h = some n) (scope name : String) :
    isNodeAt m scope name h = ((scope, name) == (m.scopeOf h, n.name)) := by
  rw [isNodeAt, isNodeNamed_eq hn, Bool.and_comm, Bool.beq_comm (a := m.scopeOf h)]
  rfl

/-- The part of a step that looks at the scope. -/
theorem checkScope_spec (hw : m.walk = walked ++ h :: rest) (hn : m.node? h = some n)
    (hs : Remembers m walked s) :
    ((s.enter (enclosing m h)).checkScope h n.name).report =
        s.report.extend (duplicateFinding? m h n.name).toList ∧
      ((s.enter (enclosing m h)).checkScope h n.name).anywhere = s.anywhere ∧
      ∀ scope name, ((s.enter (enclosing m h)).checkScope h n.name).inScope.lookup (scope, name) =
        (walked ++ [h]).find? (isNodeAt m scope name) := by
  have hp : isNodeAt m (m.scopeOf h) n.name h = true := by
    rw [isNodeAt_eq hn, beq_self_eq_true]
  have hfirst := find?_walk hw hp
  rw [NamingState.checkScope, scope_enter, show (s.enter (enclosing m h)).inScope.lookup
    (m.scopeOf h, n.name) = _ from hs.inScope _ _, duplicateFinding?, hfirst]
  cases hf : walked.find? (isNodeAt m (m.scopeOf h) n.name) with
  | none =>
    refine ⟨by simp [NamingState.enter, Report.extend_nil], rfl, fun scope name => ?_⟩
    have htable : (s.enter (enclosing m h)).inScope = s.inScope := rfl
    dsimp only
    rw [htable, lookup_append_singleton, hs.inScope, find?_append_singleton, isNodeAt_eq hn]
  | some first =>
    have hne := ne_of_find?_walked hw hf
    refine ⟨by simp [NamingState.enter, hne, Report.emit_eq], rfl, fun scope name => ?_⟩
    have htable : (s.enter (enclosing m h)).inScope = s.inScope := rfl
    dsimp only
    rw [htable, hs.inScope, find?_append_singleton, isNodeAt_eq hn]
    split
    next heq =>
      obtain ⟨rfl, rfl⟩ := Prod.mk.inj (eq_of_beq heq)
      rw [hf, Option.some_or]
    next => rw [Option.or_none]

/-- The part of a step that looks at all containers. -/
theorem checkElsewhere_spec (hw : m.walk = walked ++ h :: rest) (hn : m.node? h = some n)
    (hs : ∀ name, s.anywhere.lookup name =
      (walked.find? (isNodeNamed m name)).map fun first => (first, m.parent? first))
    (hc : s.container? = m.parent? h) :
    (s.checkElsewhere m h n.name).report = s.report.extend (reuseFinding? m h n.name).toList ∧
      (s.checkElsewhere m h n.name).inScope = s.inScope ∧
      ∀ name, (s.checkElsewhere m h n.name).anywhere.lookup name =
        ((walked ++ [h]).find? (isNodeNamed m name)).map fun first => (first, m.parent? first) := by
  have hp : isNodeNamed m n.name h = true := by
    rw [isNodeNamed_eq hn, beq_self_eq_true]
  have hfirst := find?_walk hw hp
  rw [NamingState.checkElsewhere, hs, reuseFinding?, hfirst, hc]
  cases hf : walked.find? (isNodeNamed m n.name) with
  | none =>
    refine ⟨by simp [Report.extend_nil], rfl, fun name => ?_⟩
    dsimp only [Option.map_none]
    rw [lookup_append_singleton, hs, find?_append_singleton, isNodeNamed_eq hn]
    cases walked.find? (isNodeNamed m name) with
    | some first => rfl
    | none =>
      rw [Option.map_none, Option.none_or, Option.none_or]
      split <;> rfl
  | some first =>
    have htable : ∀ name, s.anywhere.lookup name =
        ((walked ++ [h]).find? (isNodeNamed m name)).map fun first => (first, m.parent? first) := by
      intro name
      rw [hs, find?_append_singleton, isNodeNamed_eq hn]
      split
      next heq => rw [eq_of_beq heq, hf, Option.some_or]
      next => rw [Option.or_none]
    dsimp only [Option.map_some, Option.some_or, Option.bind_eq_bind, Option.bind_some]
    split
    next hother => exact ⟨Report.emit_eq _ _, rfl, htable⟩
    next hother => exact ⟨(Report.extend_nil _).symm, rfl, htable⟩

theorem nameStep_spec (hw : m.walk = walked ++ h :: rest) (hs : Remembers m walked s) :
    (nameStep m s h).report = s.report.extend (nameFindings m h) ∧
      Remembers m (walked ++ [h]) (nameStep m s h) := by
  rw [nameStep, nameFindings]
  cases hn : m.node? h with
  | none =>
    have hskip : ∀ {p : Handle → Bool}, p h = false → (walked ++ [h]).find? p = walked.find? p := by
      intro p hp
      rw [find?_append_singleton, hp, if_neg Bool.false_ne_true, Option.or_none]
    have hnamed : ∀ name, isNodeNamed m name h = false := fun name => by simp [isNodeNamed, hn]
    refine ⟨(Report.extend_nil _).symm, fun scope name => ?_, fun name => ?_⟩
    · rw [hskip (by simp [isNodeAt, hnamed])]
      exact hs.inScope scope name
    · rw [hskip (hnamed name)]
      exact hs.anywhere name
  | some n =>
    obtain ⟨hreport, hanywhere, hinScope⟩ := checkScope_spec hw hn hs
    have hcontainer : ((s.enter (enclosing m h)).checkScope h n.name).container? =
        m.parent? h := by
      rw [NamingState.container?, entered_checkScope]
      exact container?_enter s h
    obtain ⟨hreport', hinScope', hanywhere'⟩ :=
      checkElsewhere_spec hw hn (by rw [hanywhere]; exact hs.anywhere) hcontainer
    refine ⟨?_, fun scope name => ?_, hanywhere'⟩
    · rw [hreport', hreport, Report.extend_extend]
    · rw [hinScope']
      exact hinScope scope name

/-- A walk from some point on adds the findings on the nodes from there. -/
theorem foldl_nameStep {rest : List Handle} (hw : m.walk = walked ++ rest)
    (hs : Remembers m walked s) :
    (rest.foldl (nameStep m) s).report = s.report.extend (rest.flatMap (nameFindings m)) := by
  induction rest generalizing walked s with
  | nil => exact (Report.extend_nil _).symm
  | cons h rest ih =>
    obtain ⟨hreport, hnext⟩ := nameStep_spec hw hs
    rw [List.foldl_cons, ih (by rw [hw, List.append_assoc, List.singleton_append]) hnext, hreport,
      Report.extend_extend, List.flatMap_cons]

end

/-- The check of names adds to a report what there is to find on each node in tree order. -/
theorem nodeNames_eq (m : Model) (r : Report) :
    nodeNames m r = r.extend (m.walk.flatMap (nameFindings m)) := by
  have htop : ∀ root ∈ m.roots, enclosing m root = [] := by
    intro root hroot
    rw [enclosing, ancestors_of_root (mem_roots.mp hroot).2, List.filterMap_nil]
  have hvisit : ∀ root ∈ m.roots, ∀ t : NamingState,
      (NamingState.visitor m).visit m (m.branch root) (t.enter []) =
        ((m.subtree root).foldl (nameStep m) t).enter [] := by
    intro root hroot t
    rw [← htop root hroot]
    exact visit_naming m root t
  have hrun := Visitor.visitAll_branches (fun t : NamingState => t.enter []) hvisit { report := r }
  rw [← walk_eq] at hrun
  have hstart : Remembers m [] { report := r } := ⟨fun _ _ => rfl, fun _ => rfl⟩
  have hreport := congrArg NamingState.report hrun
  rw [← foldl_nameStep (List.nil_append _).symm hstart]
  exact hreport

end Check
end Bpmn
