import Bpmn.History
import Bpmn.Proofs.Check.Naming

/-!
# Who is told of a name used twice

A node is reported as a duplicate exactly if an earlier node has its name and a scope of the same
name.  That is the same as standing in one container only where the names of scopes tell the
containers, as with `Model.PlainNames`.  Two pools of one name share a scope.
-/

namespace Bpmn
namespace Model

def Namesakes (m : Model) (a b : Handle) : Prop :=
  ∃ x y, m.node? a = some x ∧ m.node? b = some y ∧ x.name = y.name

end Model

namespace Check

open Model

/-- Whether the check of names reports something of this sort at this element. -/
def ReportedAt (m : Model) (code : Code) (h : Handle) : Prop :=
  ∃ d ∈ (nodeNames m .empty).diagnostics,
    d.code = some code ∧ d.primaryLabel?.map Label.element = some h

section

variable {m : Model} {h : Handle} {d : Diagnostic}

theorem mem_nodeNames :
    d ∈ (nodeNames m .empty).diagnostics ↔ ∃ h ∈ m.walk, d ∈ nameFindings m h := by
  rw [nodeNames_eq, Report.diagnostics_extend_empty, List.mem_flatMap]

/-- The first of a sort is not this one exactly if there is an earlier one. -/
theorem exists_find?_ne {p : Handle → Bool} (hh : h ∈ m.walk) (hp : p h = true) :
    (∃ first, m.walk.find? p = some first ∧ first ≠ h) ↔ ∃ e, m.Precedes e h ∧ p e = true := by
  constructor
  · rintro ⟨first, hfind, hne⟩
    obtain ⟨before, after, hw⟩ := List.append_of_mem hh
    rw [find?_walk hw hp] at hfind
    cases hbefore : before.find? p with
    | none =>
      rw [hbefore, Option.none_or] at hfind
      exact absurd (Option.some.inj hfind).symm hne
    | some e =>
      exact ⟨e, ⟨before, after, hw, List.mem_of_find?_eq_some hbefore⟩,
        List.find?_some hbefore⟩
  · rintro ⟨e, ⟨before, after, hw, he⟩, hpe⟩
    obtain ⟨first, hfirst⟩ := Option.isSome_iff_exists.mp (List.find?_isSome.mpr ⟨e, he, hpe⟩)
    refine ⟨first, ?_, ne_of_find?_walked hw hfirst⟩
    rw [find?_walk hw hp, hfirst, Option.some_or]

theorem isNodeNamed_iff {n : Node} (hn : m.node? h = some n) {e : Handle} :
    isNodeNamed m n.name e = true ↔ m.Namesakes e h := by
  rw [isNodeNamed, Option.any_eq_true]
  constructor
  · rintro ⟨x, hx, hname⟩
    exact ⟨x, n, hx, hn, eq_of_beq hname⟩
  · rintro ⟨x, y, hx, hy, hname⟩
    rw [hn] at hy
    obtain rfl := Option.some.inj hy
    exact ⟨x, hx, beq_iff_eq.mpr hname⟩

theorem isNodeAt_iff {n : Node} (hn : m.node? h = some n) {e : Handle} :
    isNodeAt m (m.scopeOf h) n.name e = true ↔
      m.Namesakes e h ∧ m.scopeOf e = m.scopeOf h := by
  rw [isNodeAt, Bool.and_eq_true, isNodeNamed_iff hn, beq_iff_eq]

theorem reportedAt_duplicateName : ReportedAt m .duplicateName h ↔
    ∃ e, m.Precedes e h ∧ m.Namesakes e h ∧ m.scopeOf e = m.scopeOf h := by
  constructor
  · rintro ⟨d, hd, hcode, hlabel⟩
    obtain ⟨x, hx, hd⟩ := mem_nodeNames.mp hd
    obtain ⟨n, hn, hd⟩ := mem_nameFindings.mp hd
    rcases hd with hd | hd
    · obtain ⟨first, hfind, hne, rfl⟩ := duplicateFinding?_eq_some.mp hd
      obtain rfl : x = h := Option.some.inj hlabel
      have hself := (isNodeAt_iff hn).mpr ⟨⟨n, n, hn, hn, rfl⟩, rfl⟩
      obtain ⟨e, hprecedes, he⟩ := (exists_find?_ne hx hself).mp ⟨first, hfind, hne⟩
      exact ⟨e, hprecedes, (isNodeAt_iff hn).mp he⟩
    · obtain ⟨first, -, -, -, rfl⟩ := reuseFinding?_eq_some.mp hd
      cases hcode
  · rintro ⟨e, hprecedes, hnames, hscope⟩
    obtain ⟨x, n, hx, hn, hname⟩ := hnames
    have hself := (isNodeAt_iff hn).mpr ⟨⟨n, n, hn, hn, rfl⟩, rfl⟩
    have he := (isNodeAt_iff hn).mpr ⟨⟨x, n, hx, hn, hname⟩, hscope⟩
    obtain ⟨first, hfind, hne⟩ :=
      (exists_find?_ne hprecedes.mem_walk.2 hself).mpr ⟨e, hprecedes, he⟩
    have hd := duplicateFinding?_eq_some.mpr ⟨first, hfind, hne, rfl⟩
    exact ⟨_, mem_nodeNames.mpr ⟨h, hprecedes.mem_walk.2, mem_nameFindings.mpr ⟨n, hn, .inl hd⟩⟩,
      rfl, rfl⟩

end

/-- The check of names tells scopes by their names, which is by containers where names are plain.
Whatever it reports apart from duplicates is a warning. -/
theorem duplicates_by_path (m : Model) :
    (∀ h, ReportedAt m .duplicateName h ↔
      ∃ e, m.Precedes e h ∧ m.Namesakes e h ∧ m.scopeOf e = m.scopeOf h) ∧
    (∀ h e, m.Precedes e h → m.Namesakes e h → m.parent? e = m.parent? h →
      ReportedAt m .duplicateName h) ∧
    (m.PlainNames → ∀ h, ReportedAt m .duplicateName h ↔
      ∃ e, m.Precedes e h ∧ m.Namesakes e h ∧ m.parent? e = m.parent? h) ∧
    (∀ d ∈ (nodeNames m .empty).diagnostics,
      d.severity = .error ∧ d.code = some .duplicateName ∨
        d.severity = .warning ∧ d.code = some .nameReused) := by
  refine ⟨fun h => reportedAt_duplicateName, fun h e hprecedes hnames hparent => ?_,
    fun hplain h => ?_, fun d hd => ?_⟩
  · exact reportedAt_duplicateName.mpr
      ⟨e, hprecedes, hnames, scopeOf_eq_of_parent? hparent⟩
  · rw [reportedAt_duplicateName]
    refine exists_congr fun e => and_congr_right fun _ => and_congr_right fun _ => ?_
    exact ⟨hplain.parent?_eq_of_scopeOf, scopeOf_eq_of_parent?⟩
  · obtain ⟨x, -, hd⟩ := mem_nodeNames.mp hd
    exact mem_nameFindings_code hd

/-- Two pools of one name with a node of one name in each. -/
def twinPools : Model :=
  ofEdits
    [.declare (.pool "P"), .declare (.node ⟨"A", .task none⟩ (some ⟨0⟩)),
      .declare (.pool "P"), .declare (.node ⟨"A", .task none⟩ (some ⟨2⟩))]

theorem duplicate_across_pools : ReportedAt twinPools .duplicateName ⟨3⟩ ∧
    ¬∃ e, twinPools.Precedes e ⟨3⟩ ∧ twinPools.Namesakes e ⟨3⟩ ∧
      twinPools.parent? e = twinPools.parent? ⟨3⟩ := by
  have hparents : ∀ e ∈ twinPools.walk, twinPools.parent? e = twinPools.parent? ⟨3⟩ → e = ⟨3⟩ := by
    decide +kernel
  refine ⟨reportedAt_duplicateName.mpr ⟨⟨1⟩, ⟨[⟨0⟩, ⟨1⟩, ⟨2⟩], [], ?_, ?_⟩, ?_, ?_⟩, ?_⟩
  · decide +kernel
  · decide
  · exact ⟨_, _, rfl, rfl, rfl⟩
  · decide +kernel
  · rintro ⟨e, hprecedes, -, hparent⟩
    exact hprecedes.ne (hparents e hprecedes.mem_walk.1 hparent)

-- Two pools of different names, with nodes as above.
example : (ofEdits
    [.declare (.pool "P"), .declare (.node ⟨"A", .task none⟩ (some ⟨0⟩)),
      .declare (.pool "Q"), .declare (.node ⟨"A", .task none⟩ (some ⟨2⟩))]).PlainNames := by
  decide +kernel

end Check
end Bpmn
