import Bpmn.Proofs.Check.Duplicates
import Bpmn.Proofs.Lists

/-!
# Each duplicate by itself

The errors on duplicate names stand in tree order, one for each node whose name an earlier node of
its scope has.  Each names the scope, blames the node and shows the first node with that name and
scope.  So of the nodes that share a name and a scope all but the first are reported
(`duplicates_in_tree_order`).
-/

namespace Bpmn

/-- An error that tells of a name used again in a scope, by the later node and the first one. -/
structure Diagnostic.TellsRepeat (d : Diagnostic) (name scope : String) (h first : Handle) :
    Prop where
  severity : d.severity = .error
  code : d.code = some .duplicateName
  message : d.message = "duplicate node name `" ++ name ++ "` in scope `" ++ scope ++ "`"
  labels : d.labels =
    [{ element := h, field := some .name, message := "duplicate definition",
       isPrimary := true },
     { element := first, field := some .name, message := "first defined here",
       isPrimary := false }]
  help : d.help = some "rename one of the nodes"

/-- An earlier node has the name of this one, and its scope has the same name. -/
def Model.Repeats (m : Model) (h : Handle) : Prop :=
  ∃ e, m.Precedes e h ∧ m.Namesakes e h ∧ m.scopeOf e = m.scopeOf h

namespace Check

open Model

/-- The error on a duplicate name at an element, which is found on nodes only. -/
def repeatFinding? (m : Model) (h : Handle) : Option Diagnostic :=
  (m.node? h).bind fun n => duplicateFinding? m h n.name

section

variable {m : Model} {h : Handle} {d : Diagnostic}

theorem repeatFinding?_eq_some : repeatFinding? m h = some d ↔
    ∃ n first, m.node? h = some n ∧
      m.walk.find? (isNodeAt m (m.scopeOf h) n.name) = some first ∧ first ≠ h ∧
      d = duplicateName h n.name (m.scopeOf h) first := by
  simp only [repeatFinding?, Option.bind_eq_some_iff, duplicateFinding?_eq_some,
    exists_and_left]

theorem tellsRepeat_duplicateName (h : Handle) (name scope : String) (first : Handle) :
    (duplicateName h name scope first).TellsRepeat name scope h first := ⟨rfl, rfl, rfl, rfl, rfl⟩

theorem mem_walk_of_node? {n : Node} (hn : m.node? h = some n) : h ∈ m.walk := by
  obtain ⟨e, he, -⟩ := Option.bind_eq_some_iff.mp hn
  exact mem_walk.mpr (Arena.lt_size he)

theorem eq_of_isNodeAt {n : Node} {scope name : String} (hn : m.node? h = some n)
    (hat : isNodeAt m scope name h = true) : scope = m.scopeOf h ∧ name = n.name := by
  rw [isNodeAt_eq hn, beq_iff_eq, Prod.mk.injEq] at hat
  exact hat

theorem primaryLabel?_of_repeatFinding? (hd : repeatFinding? m h = some d) :
    d.primaryLabel?.map Label.element = some h := by
  obtain ⟨n, first, -, -, -, rfl⟩ := repeatFinding?_eq_some.mp hd
  rfl

theorem among_nameFindings :
    Code.duplicateName.among (nameFindings m h) = (repeatFinding? m h).toList := by
  have hreuse : ∀ name, ∀ d ∈ (reuseFinding? m h name).toList, d.code ≠ some .duplicateName := by
    intro name d hd hcode
    obtain ⟨first, -, -, -, rfl⟩ := reuseFinding?_eq_some.mp (Option.mem_toList.mp hd)
    cases hcode
  have hduplicate : ∀ name, ∀ d ∈ (duplicateFinding? m h name).toList,
      d.code = some .duplicateName := by
    intro name d hd
    obtain ⟨first, -, -, rfl⟩ := duplicateFinding?_eq_some.mp (Option.mem_toList.mp hd)
    rfl
  rw [nameFindings, repeatFinding?]
  cases m.node? h with
  | none => rfl
  | some n =>
    rw [Option.bind_some, Code.among_append, Code.among_eq_self (hduplicate n.name),
      Code.among_eq_nil (hreuse n.name), List.append_nil]

theorem among_nodeNames (m : Model) :
    Code.duplicateName.among (nodeNames m .empty).diagnostics =
      m.walk.filterMap (repeatFinding? m) := by
  rw [nodeNames_eq, Report.diagnostics_extend_empty]
  exact Code.among_flatMap_eq (fun _ => among_nameFindings) m.walk

/-- Just the nodes that repeat an earlier one are reported. -/
theorem repeats_iff : m.Repeats h ↔ (repeatFinding? m h).isSome := by
  have hreported : ReportedAt m .duplicateName h ↔ (repeatFinding? m h).isSome := by
    rw [ReportedAt, Option.isSome_iff_exists]
    simp only [← and_assoc, ← Code.mem_among, among_nodeNames, List.mem_filterMap]
    constructor
    · rintro ⟨d, ⟨x, -, hd⟩, hlabel⟩
      rw [primaryLabel?_of_repeatFinding? hd] at hlabel
      exact ⟨d, Option.some.inj hlabel ▸ hd⟩
    · rintro ⟨d, hd⟩
      obtain ⟨n, hn, -⟩ := Option.bind_eq_some_iff.mp hd
      exact ⟨d, ⟨h, mem_walk_of_node? hn, hd⟩, primaryLabel?_of_repeatFinding? hd⟩
  rw [← hreported, reportedAt_duplicateName, Repeats]

instance (m : Model) : DecidablePred m.Repeats := fun _ => decidable_of_iff _ repeats_iff.symm

/-- An error stands at one of the nodes of a name and a scope if that node is not their first. -/
theorem any_repeatFinding? {scope name : String} :
    ((repeatFinding? m h).any fun d =>
        d.primaryLabel?.any fun l => isNodeAt m scope name l.element) = true ↔
      m.walk.find? (isNodeAt m scope name) ≠ some h ∧ isNodeAt m scope name h = true := by
  rw [Option.any_eq_true]
  constructor
  · rintro ⟨d, hd, hlabel⟩
    obtain ⟨n, first, hn, hfind, hne, rfl⟩ := repeatFinding?_eq_some.mp hd
    have hat : isNodeAt m scope name h = true := hlabel
    obtain ⟨rfl, rfl⟩ := eq_of_isNodeAt hn hat
    exact ⟨fun hself => hne (Option.some.inj (hfind.symm.trans hself)), hat⟩
  · rintro ⟨hnot, hat⟩
    obtain ⟨n, hn, -⟩ := (Option.any_eq_true _ _).mp (Bool.and_eq_true_iff.mp hat).1
    obtain ⟨rfl, rfl⟩ := eq_of_isNodeAt hn hat
    obtain ⟨first, hfind⟩ := Option.isSome_iff_exists.mp
      (List.find?_isSome.mpr ⟨h, mem_walk_of_node? hn, hat⟩)
    have hne : first ≠ h := fun heq => hnot (heq ▸ hfind)
    exact ⟨_, repeatFinding?_eq_some.mpr ⟨n, first, hn, hfind, hne, rfl⟩, hat⟩

end

/-- The errors on duplicate names are, in tree order, one for each node that repeats an earlier
one, and tell of it, its scope and the first node of that name there.  Of the nodes that share a
name and a scope all but one are reported. -/
theorem duplicates_in_tree_order (m : Model) :
    List.Forall₂
        (fun h d => ∃ n first, m.node? h = some n ∧
          m.walk.find? (isNodeAt m (m.scopeOf h) n.name) = some first ∧ first ≠ h ∧
          d.TellsRepeat n.name (m.scopeOf h) h first)
        (m.walk.filter fun h => m.Repeats h)
        (Code.duplicateName.among (nodeNames m .empty).diagnostics) ∧
      ∀ scope name,
        (Code.duplicateName.among (nodeNames m .empty).diagnostics).countP
            (fun d => d.primaryLabel?.any fun l => isNodeAt m scope name l.element) =
          m.walk.countP (isNodeAt m scope name) - 1 := by
  rw [among_nodeNames]
  refine ⟨forall₂_filter_filterMap (fun h => ?_) (fun h d hd => ?_) m.walk,
    fun scope name => ?_⟩
  · rw [Bool.eq_iff_iff, decide_eq_true_iff, repeats_iff]
  · obtain ⟨n, first, hn, hfind, hne, rfl⟩ := repeatFinding?_eq_some.mp hd
    exact ⟨n, first, hn, hfind, hne, tellsRepeat_duplicateName h n.name (m.scopeOf h) first⟩
  · rw [List.countP_filterMap, ← countP_other_than_first m.walk_nodup]
    refine List.countP_congr fun h _ => ?_
    rw [Bool.and_eq_true, bne_iff_ne, ← any_repeatFinding?]
    cases repeatFinding? m h <;> rfl

end Check
end Bpmn
