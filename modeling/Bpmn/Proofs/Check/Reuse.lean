import Bpmn.Proofs.Check.Repeats

/-!
# Names that come from elsewhere

A node in a container is warned about if the first node of its name stands anywhere but in that
container, so what counts is where the name was first seen, not where it was seen last.  The
warnings stand in tree order, one for each such node, and tell where the first one stands.  A node
may also repeat a name of its own scope, and then the error comes right before the warning
(`reuses_in_tree_order`).
-/

namespace Bpmn

/-- A warning that tells of a name used before in another place, by the later node and the first
one. -/
structure Diagnostic.TellsReuse (d : Diagnostic) (name place : String) (h first : Handle) :
    Prop where
  severity : d.severity = .warning
  code : d.code = some .nameReused
  message : d.message = "node name `" ++ name ++ "` is also used in `" ++ place ++ "`"
  labels : d.labels =
    [{ element := h, field := some .name, message := "name reused here", isPrimary := true },
      { element := first, field := some .name, message := "first used here", isPrimary := false }]
  help : d.help = none

namespace Model

/-- The first node with the name of this one is another one and stands in another place, and this
one stands in a container. -/
def Recurs (m : Model) (h : Handle) : Prop :=
  ∃ n first, m.node? h = some n ∧ m.walk.find? (Check.isNodeNamed m n.name) = some first ∧
    first ≠ h ∧ (m.parent? h).isSome ∧ m.parent? first ≠ m.parent? h

/-- What the place of an element is called, by the name of the container it stands in. -/
def PlaceNamed (m : Model) (h : Handle) (place : String) : Prop :=
  match m.parent? h with
  | none => place = "global"
  | some p => m.name? p = some place

theorem placeNamed (m : Model) (h : Handle) :
    m.PlaceNamed h (((m.parent? h).bind m.name?).getD topScope) := by
  rw [PlaceNamed]
  cases hp : m.parent? h with
  | none => rfl
  | some p =>
    obtain ⟨name, hn⟩ := exists_name_of_parent hp
    simp [hn]

end Model

namespace Check

open Model

/-- The warning on a name first seen elsewhere, which is found on nodes only. -/
def recurrenceFinding? (m : Model) (h : Handle) : Option Diagnostic :=
  (m.node? h).bind fun n => reuseFinding? m h n.name

section

variable {m : Model} {h : Handle} {d : Diagnostic}

theorem recurrenceFinding?_eq_some : recurrenceFinding? m h = some d ↔
    ∃ n first, m.node? h = some n ∧ m.walk.find? (isNodeNamed m n.name) = some first ∧
      (m.parent? h).isSome ∧ m.parent? first ≠ m.parent? h ∧
      d = nameReused h n.name (((m.parent? first).bind m.name?).getD topScope) first := by
  simp only [recurrenceFinding?, Option.bind_eq_some_iff, reuseFinding?_eq_some, exists_and_left]

theorem tellsReuse_nameReused (h : Handle) (name place : String) (first : Handle) :
    (nameReused h name place first).TellsReuse name place h first := ⟨rfl, rfl, rfl, rfl, rfl⟩

/-- What stands in another place is another element. -/
theorem ne_of_parent?_ne {first : Handle} (hp : m.parent? first ≠ m.parent? h) : first ≠ h :=
  fun heq => hp (congrArg m.parent? heq)

theorem recurs_iff : m.Recurs h ↔ (recurrenceFinding? m h).isSome := by
  rw [Option.isSome_iff_exists]
  constructor
  · rintro ⟨n, first, hn, hfind, -, hinside, hplace⟩
    exact ⟨_, recurrenceFinding?_eq_some.mpr ⟨n, first, hn, hfind, hinside, hplace, rfl⟩⟩
  · rintro ⟨d, hd⟩
    obtain ⟨n, first, hn, hfind, hinside, hplace, -⟩ := recurrenceFinding?_eq_some.mp hd
    exact ⟨n, first, hn, hfind, ne_of_parent?_ne hplace, hinside, hplace⟩

instance (m : Model) : DecidablePred m.Recurs := fun _ => decidable_of_iff _ recurs_iff.symm

/-- What there is to find on an element is an error and a warning at most, in this order. -/
theorem nameFindings_eq :
    nameFindings m h = (repeatFinding? m h).toList ++ (recurrenceFinding? m h).toList := by
  rw [nameFindings, repeatFinding?, recurrenceFinding?]
  cases m.node? h <;> rfl

theorem among_nameFindings_reused :
    Code.nameReused.among (nameFindings m h) = (recurrenceFinding? m h).toList := by
  have hrepeat : ∀ d ∈ (repeatFinding? m h).toList, d.code ≠ some .nameReused := by
    intro d hd hcode
    obtain ⟨n, first, -, -, -, rfl⟩ := repeatFinding?_eq_some.mp (Option.mem_toList.mp hd)
    cases hcode
  have hrecurrence : ∀ d ∈ (recurrenceFinding? m h).toList, d.code = some .nameReused := by
    intro d hd
    obtain ⟨n, first, -, -, -, -, rfl⟩ := recurrenceFinding?_eq_some.mp (Option.mem_toList.mp hd)
    rfl
  rw [nameFindings_eq, Code.among_append, Code.among_eq_nil hrepeat,
    Code.among_eq_self hrecurrence, List.nil_append]

/-- A finding on a name is of one of two sorts and points at the node that it was found on. -/
theorem eq_some_of_mem_nameFindings (hd : d ∈ nameFindings m h) :
    d.primaryLabel?.map Label.element = some h ∧
      (d.code = some .duplicateName → repeatFinding? m h = some d) ∧
      (d.code = some .nameReused → recurrenceFinding? m h = some d) := by
  rw [nameFindings_eq, List.mem_append, Option.mem_toList, Option.mem_toList] at hd
  rcases hd with hd | hd
  · obtain ⟨n, first, -, -, -, rfl⟩ := repeatFinding?_eq_some.mp hd
    refine ⟨rfl, fun _ => hd, fun hcode => ?_⟩
    cases hcode
  · obtain ⟨n, first, -, -, -, -, rfl⟩ := recurrenceFinding?_eq_some.mp hd
    refine ⟨rfl, fun hcode => ?_, fun _ => hd⟩
    cases hcode

/-- Of the two findings on one node the warning stands right behind the error. -/
theorem infix_nodeNames {error warning : Diagnostic}
    (he : error ∈ (nodeNames m .empty).diagnostics) (hecode : error.code = some .duplicateName)
    (hw : warning ∈ (nodeNames m .empty).diagnostics) (hwcode : warning.code = some .nameReused)
    (hlabel : error.primaryLabel?.map Label.element = warning.primaryLabel?.map Label.element) :
    [error, warning] <:+: (nodeNames m .empty).diagnostics := by
  obtain ⟨x, hx, he⟩ := mem_nodeNames.mp he
  obtain ⟨y, -, hw⟩ := mem_nodeNames.mp hw
  obtain ⟨helement, herror, -⟩ := eq_some_of_mem_nameFindings he
  obtain ⟨hwelement, -, hwarning⟩ := eq_some_of_mem_nameFindings hw
  obtain rfl : x = y := Option.some.inj (helement.symm.trans (hlabel.trans hwelement))
  have hboth : nameFindings m x = [error, warning] := by
    rw [nameFindings_eq, herror hecode, hwarning hwcode]
    rfl
  rw [nodeNames_eq, Report.diagnostics_extend_empty, List.flatMap_def, ← hboth]
  exact List.infix_of_mem_flatten (List.mem_map_of_mem hx)

end

/-- The warnings on reused names are, in tree order, one for each node in a container whose name was
first seen in another place, and tell of the node, of the first one and of where that stands.  An
error on the same node comes right before its warning. -/
theorem reuses_in_tree_order (m : Model) :
    List.Forall₂
        (fun h d => ∃ n first place, m.node? h = some n ∧
          m.walk.find? (isNodeNamed m n.name) = some first ∧ first ≠ h ∧
          m.PlaceNamed first place ∧ d.TellsReuse n.name place h first)
        (m.walk.filter fun h => m.Recurs h)
        (Code.nameReused.among (nodeNames m .empty).diagnostics) ∧
      ∀ error ∈ (nodeNames m .empty).diagnostics, ∀ warning ∈ (nodeNames m .empty).diagnostics,
        error.code = some .duplicateName → warning.code = some .nameReused →
        error.primaryLabel?.map Label.element = warning.primaryLabel?.map Label.element →
        [error, warning] <:+: (nodeNames m .empty).diagnostics := by
  refine ⟨?_, fun error he warning hw hecode hwcode hlabel =>
    infix_nodeNames he hecode hw hwcode hlabel⟩
  rw [nodeNames_eq, Report.diagnostics_extend_empty,
    Code.among_flatMap_eq fun _ => among_nameFindings_reused]
  refine forall₂_filter_filterMap (fun h => ?_) (fun h d hd => ?_) m.walk
  · rw [Bool.eq_iff_iff, decide_eq_true_iff, recurs_iff]
  · obtain ⟨n, first, hn, hfind, -, hplace, rfl⟩ := recurrenceFinding?_eq_some.mp hd
    exact ⟨n, first, _, hn, hfind, ne_of_parent?_ne hplace, m.placeNamed first,
      tellsReuse_nameReused h n.name _ first⟩

/-- A name used once in one pool and twice in another. -/
def namesakes : Model :=
  ofEdits
    [.declare (.pool "P"), .declare (.node ⟨"A", .task none⟩ (some ⟨0⟩)), .declare (.pool "Q"),
      .declare (.node ⟨"A", .task none⟩ (some ⟨2⟩)), .declare (.node ⟨"A", .task none⟩ (some ⟨2⟩))]

/-- The last node repeats the one beside it and recurs from the other pool, and is told so. -/
theorem namesakes_reused : (namesakes.walk.filter fun h => namesakes.Recurs h) = [⟨3⟩, ⟨4⟩] ∧
    ∃ error warning, [error, warning] <:+: (nodeNames namesakes .empty).diagnostics ∧
      error.TellsRepeat "A" "Q" ⟨4⟩ ⟨3⟩ ∧ warning.TellsReuse "A" "P" ⟨4⟩ ⟨1⟩ := by
  have hfound : (nodeNames namesakes .empty).diagnostics =
      [nameReused ⟨3⟩ "A" "P" ⟨1⟩, duplicateName ⟨4⟩ "A" "Q" ⟨3⟩, nameReused ⟨4⟩ "A" "P" ⟨1⟩] := by
    decide +kernel
  obtain ⟨-, hpair⟩ := reuses_in_tree_order namesakes
  refine ⟨by decide +kernel, duplicateName ⟨4⟩ "A" "Q" ⟨3⟩, nameReused ⟨4⟩ "A" "P" ⟨1⟩,
    hpair _ ?_ _ ?_ rfl rfl rfl, tellsRepeat_duplicateName _ _ _ _, tellsReuse_nameReused _ _ _ _⟩
  · rw [hfound]
    exact List.mem_cons_of_mem _ List.mem_cons_self
  · rw [hfound]
    exact List.mem_cons_of_mem _ (List.mem_cons_of_mem _ List.mem_cons_self)

end Check
end Bpmn
