import Bpmn.History
import Bpmn.Proofs.Check.Verdict

/-!
# Where the ends of a connection may stand

The check of a connection looks for the nearest pool around each end, through any number of lanes.
As nothing stands around a pool, the nearest one is the topmost element around the end.  So what
the check says can be told from the top level: whether the topmost elements above the two ends are
pools, and whether they are the same (`connection_by_top`).
-/

namespace Bpmn

/-- The error that one end of a connection is bound to nothing.  It blames that end and shows what
is written there. -/
structure Diagnostic.TellsOpenEnd (d : Diagnostic) (h : Handle) (c : Connection)
    (endpoint : Endpoint) : Prop where
  severity : d.severity = .error
  code : d.code = some .unresolvedReference
  message : d.message =
    match endpoint with
    | .source => "unresolved source reference `" ++ c.source.text ++ "`"
    | .target => "unresolved target reference `" ++ c.target.text ++ "`"
  labels : d.labels =
    match endpoint with
    | .source =>
      [{ element := h, field := some .source, isPrimary := true,
         message := "no node named `" ++ c.source.text ++ "` is visible here" }]
    | .target =>
      [{ element := h, field := some .target, isPrimary := true,
         message := "no node named `" ++ c.target.text ++ "` is visible here" }]
  help : d.help = some (if c.connector = .message then
      "message flows can only reference nodes declared inside a pool"
    else "declare the node in the same pool, or at the top level for unpooled connections")

/-- The warning that a connection joins the node of this name to itself. -/
structure Diagnostic.TellsSelfLoop (d : Diagnostic) (h : Handle) (connector : Connector)
    (name : String) : Prop where
  severity : d.severity = .warning
  code : d.code = some .selfLoop
  message : d.message =
    match connector with
    | .sequence => "sequence flow connects `" ++ name ++ "` to itself"
    | .directedAssociation | .association => "association connects `" ++ name ++ "` to itself"
    | .message => "message flow connects `" ++ name ++ "` to itself"
  labels : d.labels =
    [{ element := h, field := none, message := "self-loop", isPrimary := true }]
  help : d.help = none

namespace Model

/-- The element at the top level in which an element stands, or which it is. -/
def topOf (m : Model) (h : Handle) : Handle := (m.lineage h).getLast (List.cons_ne_nil _ _)

/-- Whether what stands at the top level above an element is a pool. -/
def isPooled (m : Model) (h : Handle) : Bool := m.isPool (m.topOf h)

/-- Message flows join two pools, all else stays within one pool or outside all of them. -/
def MayJoin (m : Model) (connector : Connector) (s t : Handle) : Prop :=
  if connector.isMessageFlow then m.isPooled s ∧ m.isPooled t ∧ m.topOf s ≠ m.topOf t
  else m.isPooled s ∧ m.topOf s = m.topOf t ∨ m.parent? s = none ∧ m.parent? t = none

instance (m : Model) (connector : Connector) (s t : Handle) :
    Decidable (m.MayJoin connector s t) :=
  inferInstanceAs (Decidable (if connector.isMessageFlow then _ else _))

/-- What is wrong with a connection between two ends, by the code that says so. -/
def Misjoins (m : Model) (connector : Connector) (s t : Handle) : Code → Prop
  | .endOutsidePools => connector.isMessageFlow = true ∧ ¬(m.isPooled s ∧ m.isPooled t)
  | .withinOnePool => connector.isMessageFlow = true ∧ m.isPooled s ∧ m.topOf s = m.topOf t
  | .crossesPools =>
    connector.isMessageFlow = false ∧ m.isPooled s ∧ m.isPooled t ∧ m.topOf s ≠ m.topOf t
  | .mixesPooling => connector.isMessageFlow = false ∧ m.isPooled s ≠ m.isPooled t
  | _ => False

section

variable {m : Model} {h p : Handle}

theorem topOf_of_root (hp : m.parent? h = none) : m.topOf h = h := by
  simp [topOf, lineage_of_root hp]

theorem topOf_of_parent (hp : m.parent? h = some p) : m.topOf h = m.topOf p := by
  simp only [topOf, lineage_of_parent hp]
  exact List.getLast_cons (List.cons_ne_nil _ _)

/-- The nearest pool around an element is the topmost element, if that is a pool at all. -/
theorem poolOf?_eq_topOf (hh : m.isPool h = false) :
    m.poolOf? h = if m.isPooled h then some (m.topOf h) else none := by
  induction h using outward (m := m) with
  | root h hp =>
    rw [poolOf?_of_root hp, isPooled, topOf_of_root hp, hh, if_neg Bool.false_ne_true]
  | step h p hp ih =>
    rw [isPooled, topOf_of_parent hp]
    cases hpool : m.isPool p with
    | true =>
      rw [poolOf?_of_pool hp hpool, topOf_of_root (parent?_of_isPool hpool), if_pos hpool]
    | false =>
      rw [poolOf?_of_lane hp hpool]
      exact ih hpool

theorem isPool_of_isNode (hn : m.isNode h = true) : m.isPool h = false := by
  obtain ⟨n, parent, he⟩ := isNode_iff.mp hn
  rw [isPool, he]
  rfl

/-- A pool aside, what stands at the top level is just what stands in no pool. -/
theorem parent?_eq_none_iff_isPooled (hh : m.isPool h = false) :
    m.parent? h = none ↔ m.isPooled h = false := by
  rw [← poolOf?_eq_none_iff, poolOf?_eq_topOf hh]
  cases m.isPooled h <;> simp

end
end Model

namespace Check

open Model

section

variable {m : Model} {h s t : Handle} {c : Connection} {d : Diagnostic}

/-! ## The place of the ends -/

section

variable (hs : m.isNode s = true) (ht : m.isNode t = true)
include hs ht

theorem placement?_eq_none_iff_mayJoin :
    placement? m h c s t = none ↔ m.MayJoin c.connector s t := by
  have hspool := isPool_of_isNode hs
  have htpool := isPool_of_isNode ht
  rw [MayJoin, parent?_eq_none_iff_isPooled hspool, parent?_eq_none_iff_isPooled htpool]
  cases hflow : c.connector.isMessageFlow with
  | true =>
    rw [placement?_eq_none_iff_of_message hflow, poolOf?_eq_topOf hspool, poolOf?_eq_topOf htpool]
    cases m.isPooled s <;> cases m.isPooled t <;> simp
  | false =>
    rw [placement?_eq_none_iff hflow, poolOf?_eq_topOf hspool, poolOf?_eq_topOf htpool]
    by_cases htop : m.topOf s = m.topOf t
    · -- Below one element of the top level the ends are both in a pool or both in none.
      rw [isPooled, isPooled, htop]
      cases m.isPool (m.topOf t) <;> simp
    · cases m.isPooled s <;> cases m.isPooled t <;> simp [htop]

theorem misjoins_iff_code_of_message (hflow : c.connector.isMessageFlow = true)
    (hd : placement? m h c s t = some d) :
    ∃ code, d.code = some code ∧ ∀ other, m.Misjoins c.connector s t other ↔ other = code := by
  rw [placement?, poolOf?_eq_topOf (isPool_of_isNode hs), poolOf?_eq_topOf (isPool_of_isNode ht),
    Connection.isMessageFlow, hflow, if_pos rfl] at hd
  by_cases hboth : m.isPooled s = true ∧ m.isPooled t = true
  · obtain ⟨hsource, htarget⟩ := hboth
    obtain ⟨hsame, rfl⟩ : m.topOf s = m.topOf t ∧ withinOnePool m h (m.topOf s) = d := by
      simpa [hsource, htarget] using hd
    refine ⟨_, rfl, fun other => ?_⟩
    cases other <;> simp [Misjoins, hflow, hsource, htarget, hsame]
  · have hcode : d.code = some .endOutsidePools := by
      cases hsource : m.isPooled s with
      | false =>
        obtain rfl : endOutsidePools m h .source s = d := by simpa [hsource] using hd
        rfl
      | true =>
        have htarget : m.isPooled t = false := by simpa [hsource] using hboth
        obtain rfl : endOutsidePools m h .target t = d := by simpa [hsource, htarget] using hd
        rfl
    have hapart : m.isPooled s = true → m.topOf s ≠ m.topOf t := by
      intro hsource hsame
      exact hboth ⟨hsource, (congrArg m.isPool hsame).symm.trans hsource⟩
    refine ⟨_, hcode, fun other => ?_⟩
    cases other <;> simp +contextual [Misjoins, hflow, hboth, hapart]

theorem misjoins_iff_code_of_flow (hflow : c.connector.isMessageFlow = false)
    (hd : placement? m h c s t = some d) :
    ∃ code, d.code = some code ∧ ∀ other, m.Misjoins c.connector s t other ↔ other = code := by
  rw [placement?, poolOf?_eq_topOf (isPool_of_isNode hs), poolOf?_eq_topOf (isPool_of_isNode ht),
    Connection.isMessageFlow, hflow, if_neg Bool.false_ne_true] at hd
  cases hsource : m.isPooled s with
  | true =>
    cases htarget : m.isPooled t with
    | true =>
      obtain ⟨hapart, rfl⟩ : m.topOf s ≠ m.topOf t ∧
          crossesPools m h c (m.topOf s) (m.topOf t) = d := by
        simpa [hsource, htarget] using hd
      refine ⟨_, rfl, fun other => ?_⟩
      cases other <;> simp [Misjoins, hflow, hsource, htarget, hapart]
    | false =>
      obtain rfl : mixesPooling m h c s t = d := by simpa [hsource, htarget] using hd
      refine ⟨_, rfl, fun other => ?_⟩
      cases other <;> simp [Misjoins, hflow, hsource, htarget]
  | false =>
    cases htarget : m.isPooled t with
    | true =>
      obtain rfl : mixesPooling m h c t s = d := by simpa [hsource, htarget] using hd
      refine ⟨_, rfl, fun other => ?_⟩
      cases other <;> simp [Misjoins, hflow, hsource, htarget]
    | false => simp [hsource, htarget] at hd

/-- Of all that can be wrong with the places of two ends there is just what the check finds. -/
theorem misjoins_iff_code (hd : placement? m h c s t = some d) :
    ∃ code, d.code = some code ∧ ∀ other, m.Misjoins c.connector s t other ↔ other = code := by
  cases hflow : c.connector.isMessageFlow with
  | true => exact misjoins_iff_code_of_message hs ht hflow hd
  | false => exact misjoins_iff_code_of_flow hs ht hflow hd

end

/-! ## What is told -/

theorem tellsOpenEnd_unresolved (h : Handle) (c : Connection) (endpoint : Endpoint) :
    (unresolved h c endpoint).TellsOpenEnd h c endpoint := by
  have hhint : bindingHint c.connector = if c.connector = .message then
      "message flows can only reference nodes declared inside a pool"
    else "declare the node in the same pool, or at the top level for unpooled connections" := by
    cases c.connector <;> rfl
  cases endpoint <;> exact ⟨rfl, rfl, rfl, rfl, congrArg some hhint⟩

theorem tellsSelfLoop_selfLoop (h : Handle) (c : Connection) {n : Node}
    (hn : m.node? s = some n) : (selfLoop m h c s).TellsSelfLoop h c.connector n.name := by
  have hname : nameOrMark m s = n.name := by
    obtain ⟨e, he, hnode⟩ := Option.bind_eq_some_iff.mp hn
    cases e with
    | node x parent =>
      obtain rfl := Option.some.inj hnode
      rw [nameOrMark, name?, he]
      rfl
    | pool | lane | connection => cases hnode
  refine ⟨rfl, rfl, ?_, rfl, rfl⟩
  rw [selfLoop, hname]
  cases c.connector <;> rfl

/-- The unbound ends of a connection, the source before the target. -/
theorem forall₂_bindingFindings (h : Handle) (c : Connection) :
    List.Forall₂ (fun endpoint d => d.TellsOpenEnd h c endpoint)
      ((if c.source.bound = none then [.source] else []) ++
        if c.target.bound = none then [.target] else [])
      (bindingFindings h c) := by
  have hopen : (Endpoint.both.filter fun e => (c.reference e).bound.isNone) =
      (if c.source.bound = none then [.source] else []) ++
        if c.target.bound = none then [.target] else [] := by
    cases hsource : c.source.bound <;> cases htarget : c.target.bound <;>
      simp [Endpoint.both, Connection.reference, hsource, htarget]
  rw [bindingFindings, hopen]
  refine List.forall₂_map_right_iff.mpr (List.forall₂_same.mpr fun endpoint _ => ?_)
  exact tellsOpenEnd_unresolved h c endpoint

end

/-- What the check says of a connection between two nodes depends on the topmost elements above
them.  It finds nothing wrong with their places if they may be joined, and one thing otherwise,
whose code is the only one that applies.  A self-loop is warned about as well.  Of a connection with
an unbound end only the unbound ends are told, the source first. -/
theorem connection_by_top (m : Model) (h : Handle) (c : Connection)
    (hc : m.connection? h = some c) :
    (∀ s t, c.source.bound = some s → c.target.bound = some t →
      m.isNode s = true → m.isNode t = true →
      ∃ misplaced loop : Option Diagnostic,
        (connection m h .empty).diagnostics = misplaced.toList ++ loop.toList ∧
          (misplaced = none ↔ m.MayJoin c.connector s t) ∧
          (∀ d, misplaced = some d → d.severity = .error ∧ ∃ code, d.code = some code ∧
            ∀ other, m.Misjoins c.connector s t other ↔ other = code) ∧
          (loop.isSome ↔ s = t) ∧
          ∀ d, loop = some d →
            ∃ n, m.node? s = some n ∧ d.TellsSelfLoop h c.connector n.name) ∧
    (c.source.bound = none ∨ c.target.bound = none →
      List.Forall₂ (fun endpoint d => d.TellsOpenEnd h c endpoint)
        ((if c.source.bound = none then [.source] else []) ++
          if c.target.bound = none then [.target] else [])
        (connection m h .empty).diagnostics) := by
  rw [connection_eq, Report.diagnostics_extend_empty, connectionFindings, hc]
  refine ⟨fun s t hsource htarget hs ht =>
    ⟨placement? m h c s t, if s = t then some (selfLoop m h c s) else none, ?_,
      placement?_eq_none_iff_mayJoin hs ht,
      fun d hd => ⟨(placement?_eq_some hd).1, misjoins_iff_code hs ht hd⟩, by simp, ?_⟩,
    fun hopen => ?_⟩
  · have hbound : bindingFindings h c = [] := by
      simp [bindingFindings, Endpoint.both, Connection.reference, hsource, htarget]
    simp only [hbound, placementFindings, hsource, htarget, List.nil_append]
    split <;> rfl
  · intro d hd
    obtain ⟨n, hn⟩ := Option.isSome_iff_exists.mp hs
    obtain ⟨-, hd⟩ := Option.ite_none_right_eq_some.mp hd
    obtain rfl := Option.some.inj hd
    exact ⟨n, hn, tellsSelfLoop_selfLoop h c hn⟩
  · have hplace : placementFindings m h c = [] := by
      rw [placementFindings]
      rcases hopen with hopen | hopen
      · rw [hopen]
      · rw [hopen]
        cases c.source.bound <;> rfl
    simp only [hplace, List.append_nil]
    exact forall₂_bindingFindings h c

/-- Connections of a node in a lane of a pool with a node outside all pools, with itself, and with
none. -/
def leavingFlows : Model :=
  ofEdits
    [.declare (.pool "P"), .declare (.lane "L" (some ⟨0⟩)),
      .declare (.node ⟨"A", .task none⟩ (some ⟨1⟩)), .declare (.node ⟨"B", .task none⟩ none),
      .declare (.connect ⟨2⟩ .sequence ⟨3⟩ none), .declare (.connect ⟨2⟩ .message ⟨3⟩ none),
      .declare (.connect ⟨2⟩ .sequence ⟨2⟩ (some ⟨1⟩)),
      .declare (.connection ⟨⟨"A", some ⟨2⟩⟩, .sequence, ⟨"C", none⟩, none⟩ none)]

theorem leavingFlows_told :
    (∃ d, (connection leavingFlows ⟨4⟩ .empty).diagnostics = [d] ∧ d.code = some .mixesPooling) ∧
    (∃ d, (connection leavingFlows ⟨5⟩ .empty).diagnostics = [d] ∧
      d.code = some .endOutsidePools) ∧
    (∃ d, (connection leavingFlows ⟨6⟩ .empty).diagnostics = [d] ∧
      d.TellsSelfLoop ⟨6⟩ .sequence "A") ∧
    ∃ d, (connection leavingFlows ⟨7⟩ .empty).diagnostics = [d] ∧
      d.TellsOpenEnd ⟨7⟩ ⟨⟨"A", some ⟨2⟩⟩, .sequence, ⟨"C", none⟩, none⟩ .target := by
  have hmisplaced : ∀ h connector code,
      leavingFlows.connection? h = some ⟨⟨"A", some ⟨2⟩⟩, connector, ⟨"B", some ⟨3⟩⟩, none⟩ →
      ¬leavingFlows.MayJoin connector ⟨2⟩ ⟨3⟩ → leavingFlows.Misjoins connector ⟨2⟩ ⟨3⟩ code →
      ∃ d, (connection leavingFlows h .empty).diagnostics = [d] ∧ d.code = some code := by
    intro h connector code hc hnot hmisjoins
    obtain ⟨hplaced, -⟩ := connection_by_top leavingFlows h _ hc
    obtain ⟨misplaced, loop, hd, hnone, hcode, hloop, -⟩ := hplaced ⟨2⟩ ⟨3⟩ rfl rfl rfl rfl
    obtain ⟨d, rfl⟩ := Option.ne_none_iff_exists'.mp (mt hnone.mp hnot)
    obtain ⟨-, found, hfound, hwrong⟩ := hcode d rfl
    obtain rfl : code = found := (hwrong code).mp hmisjoins
    obtain rfl : loop = none := by simpa using hloop
    exact ⟨d, hd, hfound⟩
  refine ⟨?_, ?_, ?_, ?_⟩
  · exact hmisplaced ⟨4⟩ .sequence .mixesPooling rfl (by decide +kernel) ⟨rfl, by decide +kernel⟩
  · exact hmisplaced ⟨5⟩ .message .endOutsidePools rfl (by decide +kernel)
      ⟨rfl, by decide +kernel⟩
  · obtain ⟨hplaced, -⟩ := connection_by_top leavingFlows ⟨6⟩ _ rfl
    obtain ⟨misplaced, loop, hd, hnone, -, hloop, htold⟩ := hplaced ⟨2⟩ ⟨2⟩ rfl rfl rfl rfl
    obtain rfl : misplaced = none := hnone.mpr (by decide +kernel)
    obtain ⟨d, rfl⟩ := Option.isSome_iff_exists.mp (hloop.mpr rfl)
    obtain ⟨n, hn, htold⟩ := htold d rfl
    obtain rfl := Option.some.inj hn
    exact ⟨d, hd, htold⟩
  · obtain ⟨-, hopen⟩ := connection_by_top leavingFlows ⟨7⟩ _ rfl
    obtain ⟨d, _, htold, hrest, hd⟩ := List.forall₂_cons_left_iff.mp (hopen (.inr rfl))
    obtain rfl := List.forall₂_nil_left_iff.mp hrest
    exact ⟨d, hd, htold⟩

end Check
end Bpmn
