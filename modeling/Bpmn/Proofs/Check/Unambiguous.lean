import Bpmn.Proofs.Check.Duplicates
import Bpmn.Proofs.Scope

/-!
# Names that mean one node

Where the check of names has nothing to report, a name may still stand twice, but then only once
below the pools and once, later, at the top level (`Quiet.parents`).  No connection sees both, so a
name that a connection is written with means one node at most, and lanes that hide nothing change
nothing about which.
-/

namespace Bpmn
namespace Model

section

variable {m : Model} {a b : Handle}

theorem Namesakes.symm (hnames : m.Namesakes a b) : m.Namesakes b a := by
  obtain ⟨x, y, hx, hy, hname⟩ := hnames
  exact ⟨y, x, hy, hx, hname.symm⟩

theorem namesakes_of_name? (ha : m.isNode a = true) (hb : m.isNode b = true)
    (hname : m.name? a = m.name? b) : m.Namesakes a b := by
  obtain ⟨x, hx⟩ := Option.isSome_iff_exists.mp ha
  obtain ⟨y, hy⟩ := Option.isSome_iff_exists.mp hb
  rw [name?_eq_of_node? hx, name?_eq_of_node? hy] at hname
  exact ⟨x, y, hx, hy, Option.some.inj hname⟩

end

/-- Nothing is said about names, neither that one stands twice in a scope nor that one is used in
another container too. -/
def Quiet (m : Model) : Prop :=
  ∀ d ∈ (Check.nodeNames m .empty).diagnostics,
    d.code ≠ some .duplicateName ∧ d.code ≠ some .nameReused

instance (m : Model) : Decidable m.Quiet :=
  inferInstanceAs (Decidable (∀ d ∈ (Check.nodeNames m .empty).diagnostics, _))

namespace Quiet

open Check

section

variable {m : Model} (hm : m.Quiet) {a b : Handle}
include hm

theorem parent?_ne (hab : m.Precedes a b) (hnames : m.Namesakes a b) :
    m.parent? a ≠ m.parent? b := by
  intro hparent
  obtain ⟨d, hd, hcode, -⟩ :=
    reportedAt_duplicateName.mpr ⟨a, hab, hnames, scopeOf_eq_of_parent? hparent⟩
  exact (hm d hd).1 hcode

/-- The first node of a name stands where a later one does, if that is in a container. -/
theorem parent?_first (hwalk : b ∈ m.walk) (hb : (m.parent? b).isSome) {n : Node}
    (hn : m.node? b = some n) {first : Handle}
    (hfirst : m.walk.find? (isNodeNamed m n.name) = some first) :
    m.parent? first = m.parent? b := by
  by_contra hne
  have hfound := reuseFinding?_eq_some.mpr ⟨first, hfirst, hb, hne, rfl⟩
  have hd := mem_nodeNames.mpr ⟨b, hwalk, mem_nameFindings.mpr ⟨n, hn, .inr hfound⟩⟩
  exact (hm _ hd).2 rfl

/-- Of two nodes of one name, the first one is in a pool and the other at the top level. -/
theorem parents (hab : m.Precedes a b) (hnames : m.Namesakes a b) :
    m.parent? a ≠ none ∧ m.parent? b = none := by
  have hb : m.parent? b = none := by
    by_contra hsome
    obtain ⟨x, n, hx, hn, hname⟩ := hnames
    have hbwalk := hab.mem_walk.2
    obtain ⟨before, after, hw, ha⟩ := hab
    have hnamed : isNodeNamed m n.name a = true :=
      (isNodeNamed_iff hn).mpr ⟨x, n, hx, hn, hname⟩
    obtain ⟨first, hfirst⟩ :=
      Option.isSome_iff_exists.mp (List.find?_isSome.mpr ⟨a, ha, hnamed⟩)
    have hself : isNodeNamed m n.name b = true := by rw [isNodeNamed_eq hn, beq_self_eq_true]
    have hwalk : m.walk.find? (isNodeNamed m n.name) = some first := by
      rw [find?_walk hw hself, hfirst, Option.some_or]
    have hprecedes : m.Precedes first b :=
      ⟨before, after, hw, List.mem_of_find?_eq_some hfirst⟩
    have hnamesakes := (isNodeNamed_iff hn).mp (List.find?_some hfirst)
    refine hm.parent?_ne hprecedes hnamesakes (hm.parent?_first hbwalk ?_ hn hwalk)
    exact Option.isSome_iff_ne_none.mpr hsome
  refine ⟨fun ha => ?_, hb⟩
  exact hm.parent?_ne hab hnames (ha.trans hb.symm)

variable {mode : Visibility} {h : Handle}

/-- Candidates of one name are one. -/
theorem candidates_inj (ha : a ∈ m.candidates mode h) (hb : b ∈ m.candidates mode h)
    (hname : m.name? a = m.name? b) : a = b := by
  obtain ⟨hanode, hasees⟩ := mem_candidates.mp ha
  obtain ⟨hbnode, hbsees⟩ := mem_candidates.mp hb
  have halike : m.parent? a = none ↔ m.parent? b = none :=
    hasees.parent?_eq_none_iff.trans hbsees.parent?_eq_none_iff.symm
  have hnames := namesakes_of_name? hanode hbnode hname
  have hwalk : m.candidates mode h ⊆ m.walk := (candidates_sublist_walk mode h).subset
  by_contra hne
  rcases precedes_or_precedes (hwalk ha) (hwalk hb) hne with hab | hba
  · obtain ⟨hsome, hnone⟩ := hm.parents hab hnames
    exact hsome (halike.mpr hnone)
  · obtain ⟨hsome, hnone⟩ := hm.parents hba hnames.symm
    exact hsome (halike.mp hnone)

theorem candidates_names_nodup : ((m.candidates mode h).map m.name?).Nodup := by
  refine (m.walk_nodup.sublist (candidates_sublist_walk mode h)).map_on fun a ha b hb hname => ?_
  exact hm.candidates_inj ha hb hname

end
end Quiet

/-- In a model about whose names there is nothing to report, a connection sees nodes of different
names only, and an end that is resolved with lanes that hide the rest is resolved to the same node
with lanes that do not. -/
theorem names_suffice (m : Model) (hm : m.Quiet) (mode : Visibility) (h : Handle) :
    ((m.candidates mode h).map m.name?).Nodup ∧
    ∀ endpoint,
      (∀ a ∈ m.candidates mode h, ∀ b ∈ m.candidates mode h,
        m.Named h endpoint a → m.Named h endpoint b → a = b) ∧
      ∀ n, m.resolve .laneLocal h endpoint = some n →
        m.resolve .poolWide h endpoint = some n := by
  have hsame : ∀ {mode a b} endpoint, a ∈ m.candidates mode h → b ∈ m.candidates mode h →
      m.Named h endpoint a → m.Named h endpoint b → a = b := by
    rintro mode a b endpoint ha hb ⟨c, hc, haname⟩ ⟨d, hd, hbname⟩
    obtain rfl := Option.some.inj (hc.symm.trans hd)
    exact hm.candidates_inj ha hb (haname.trans hbname.symm)
  refine ⟨hm.candidates_names_nodup, fun endpoint => ⟨fun a ha b hb => hsame endpoint ha hb, ?_⟩⟩
  intro n hn
  obtain ⟨before, after, hsplit, hnamed, -⟩ := resolve_eq_some_iff.mp hn
  have hlocal : n ∈ m.candidates .laneLocal h := by simp [hsplit]
  obtain ⟨hnode, hsees⟩ := mem_candidates.mp hlocal
  have hwide : n ∈ m.candidates .poolWide h := mem_candidates.mpr ⟨hnode, hsees.widen⟩
  cases hother : m.resolve .poolWide h endpoint with
  | none => exact absurd hnamed (resolve_eq_none_iff.mp hother n hwide)
  | some first =>
    obtain ⟨_, _, hsplit', hnamed', -⟩ := resolve_eq_some_iff.mp hother
    have hfirst : first ∈ m.candidates .poolWide h := by simp [hsplit']
    rw [hsame endpoint hfirst hwide hnamed' hnamed]

/-- A name that stands in a lane and once more, later, at the top level. -/
def reusedAtTop : Model :=
  ofEdits
    [.declare (.pool "P"), .declare (.lane "L" (some ⟨0⟩)),
      .declare (.node ⟨"A", .task none⟩ (some ⟨1⟩)), .declare (.node ⟨"B", .task none⟩ (some ⟨0⟩)),
      .declare (.connection ⟨⟨"A", none⟩, .sequence, ⟨"B", none⟩, none⟩ (some ⟨1⟩)),
      .declare (.node ⟨"A", .task none⟩ none)]

theorem reusedAtTop_unambiguous : reusedAtTop.Quiet ∧
    ((reusedAtTop.candidates .poolWide ⟨4⟩).map reusedAtTop.name?).Nodup ∧
    reusedAtTop.resolve .laneLocal ⟨4⟩ .source = some ⟨2⟩ ∧
    reusedAtTop.resolve .poolWide ⟨4⟩ .source = some ⟨2⟩ := by
  have hquiet : reusedAtTop.Quiet := by decide +kernel
  have hlocal : reusedAtTop.resolve .laneLocal ⟨4⟩ .source = some ⟨2⟩ := by decide +kernel
  obtain ⟨hnames, hends⟩ := names_suffice reusedAtTop hquiet .poolWide ⟨4⟩
  exact ⟨hquiet, hnames, hlocal, (hends .source).2 ⟨2⟩ hlocal⟩

end Model
end Bpmn
