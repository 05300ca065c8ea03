import Bpmn.Compiler
import Bpmn.History
import Bpmn.Markup.Memory
import Bpmn.Proofs.Redeclared.Document
import Bpmn.Proofs.Redeclared.Findings

/-!
# The order of declaration does not show

Two models with the same tree, whose elements were declared in different orders, give the same text
and the same findings, and linking makes the same of both (`declaration_order_irrelevant`).
-/

namespace Bpmn

/-- Only what the checks found is about elements. -/
def CompileError.rename (s : Handle → Handle) : CompileError → CompileError
  | validation rejection => .validation (rejection.rename s)
  | exporting error => .exporting error

namespace Model

section

variable {s : Handle → Handle} {m n : Model}

theorem Redeclared.rebound (hr : Redeclared s m n) {m' n' : Model} (hm : Rebound m m')
    (hn : Rebound n n') (ha : Alike s m.extant n.extant m' n') : Redeclared s m' n' where
  toAlike := by rwa [hm.extant, hn.extant]
  isLane := by simpa only [hm.isLane, hn.isLane, hm.extant] using hr.isLane
  roots := by rw [hm.roots, hn.roots, hr.roots]
  children := by simpa only [hm.children, hn.children, hm.extant] using hr.children

theorem mapError_generate (m : Model) (w : Markup.Writer) (options : Options) :
    (m.generate w options).mapError (CompileError.rename s) = m.generate w options := by
  rw [Model.generate]
  cases (Document.ofModel m options.placement).written w options.indent with
  | error reason => rfl
  | ok text => rfl

namespace Redeclared

variable (hr : Redeclared s m n) (hm : m.BoundWithin m.extant)
include hr hm

theorem generate (w : Markup.Writer) (options : Options) :
    n.generate w options = m.generate w options := by
  obtain ⟨e, -, hre⟩ := hr.exists_transports hm
  rw [Model.generate, hre.document, Model.generate]

theorem diagnostics : n.diagnostics = m.diagnostics.map (Diagnostic.rename s) := by
  obtain ⟨e, he, hre⟩ := hr.exists_transports hm
  rw [diagnostics_eq, diagnostics_eq, Check.findings_rename hre]
  refine List.map_congr_left fun d hd => Diagnostic.rename_congr fun l hl => ?_
  exact he (Check.mem_extant_of_findings hm hd hl)

theorem validate :
    n.validate =
      (m.validate.map (List.map (Diagnostic.rename s))).mapError (Rejection.rename s) := by
  have hfound : (n.check .empty).diagnostics =
      (m.check .empty).diagnostics.map (Diagnostic.rename s) := hr.diagnostics hm
  have herrors : (n.check .empty).hasErrors = (m.check .empty).hasErrors := by
    rw [Report.hasErrors_eq, Report.hasErrors_eq, hfound, List.any_map]
    rfl
  rw [Model.validate, Model.validate, Report.accept, Report.accept, herrors, hfound]
  split <;> rfl

theorem compile (w : Markup.Writer) (options : Options) :
    n.compile w options = (m.compile w options).mapError (CompileError.rename s) := by
  rw [Model.compile, Model.compile, hr.validate hm, hr.generate hm]
  cases m.validate with
  | error rejection => rfl
  | ok warnings => exact (mapError_generate m w options).symm

theorem link (mode : Visibility) : ∃ m' n' report, m.link mode = .ok (m', report) ∧
    n.link mode = .ok (n', report.rename s) ∧ Redeclared s m' n' ∧ m'.BoundWithin m'.extant := by
  obtain ⟨e, he, hre⟩ := hr.exists_transports hm
  obtain ⟨m', n', report, hlinkm, hlinkn, hrm, hrn, halike, hwithin⟩ :=
    hre.reshapes.link_alike hr.toAlike he nonLanes_subset_extant hm (hre.resolve mode)
  exact ⟨m', n', report, hlinkm, hlinkn, hr.rebound hrm hrn halike, by rwa [hrm.extant]⟩

end Redeclared

/-- Models that differ only in the order in which their elements were declared generate the same
text.  Compiling one succeeds as compiling the other does, and what is found in one is found in the
other at the same elements.  Linking in any mode reports the same and leaves models that again
differ in nothing else. -/
theorem declaration_order_irrelevant (hr : Redeclared s m n) (hm : m.BoundWithin m.extant) :
    (∀ w options, n.generate w options = m.generate w options) ∧
    (∀ w options, n.compile w options = (m.compile w options).mapError (CompileError.rename s)) ∧
    n.diagnostics = m.diagnostics.map (Diagnostic.rename s) ∧
    n.validate =
      (m.validate.map (List.map (Diagnostic.rename s))).mapError (Rejection.rename s) ∧
    ∀ mode, ∃ m' n' report, m.link mode = .ok (m', report) ∧
      n.link mode = .ok (n', report.rename s) ∧ Redeclared s m' n' ∧ m'.BoundWithin m'.extant :=
  ⟨hr.generate hm, hr.compile hm, hr.diagnostics hm, hr.validate hm, hr.link hm⟩

end

/-- Two pools, one after the other, and then what stands in them. -/
def poolsFirst : Model :=
  ofEdits
    [.declare (.pool "P"), .declare (.pool "Q"), .declare (.lane "L" (some ⟨0⟩)),
      .declare (.node ⟨"A", .task none⟩ (some ⟨2⟩)), .declare (.node ⟨"B", .task none⟩ (some ⟨1⟩)),
      .declare (.connection ⟨⟨"A", some ⟨3⟩⟩, .message, ⟨"B", none⟩, none⟩ none)]

/-- The same, with what stands in the first pool declared before the second. -/
def poolByPool : Model :=
  ofEdits
    [.declare (.pool "P"), .declare (.lane "L" (some ⟨0⟩)),
      .declare (.node ⟨"A", .task none⟩ (some ⟨1⟩)), .declare (.pool "Q"),
      .declare (.node ⟨"B", .task none⟩ (some ⟨3⟩)),
      .declare (.connection ⟨⟨"A", some ⟨2⟩⟩, .message, ⟨"B", none⟩, none⟩ none)]

/-- Where the elements of the one are in the other. -/
def reorder (h : Handle) : Handle := ⟨[0, 3, 1, 2, 4, 5].getD h.index 0⟩

def reorderBack (h : Handle) : Handle := ⟨[0, 2, 3, 1, 4, 5].getD h.index 0⟩

theorem redeclared_poolByPool : Redeclared reorder poolsFirst poolByPool := by
  have hthere : ∀ h ∈ poolsFirst.handles,
      reorder h ∈ poolByPool.extant ∧ reorderBack (reorder h) = h := by
    decide +kernel
  have hback : ∀ h ∈ poolByPool.handles,
      reorderBack h ∈ poolsFirst.extant ∧ reorder (reorderBack h) = h := by
    decide +kernel
  have hkept : ∀ h ∈ poolsFirst.handles,
      poolByPool.isPool (reorder h) = poolsFirst.isPool h ∧
      poolByPool.isLane (reorder h) = poolsFirst.isLane h ∧
      poolByPool.name? (reorder h) = poolsFirst.name? h ∧
      poolByPool.node? (reorder h) = poolsFirst.node? h ∧
      poolByPool.connection? (reorder h) =
        (poolsFirst.connection? h).map (Connection.rename reorder) ∧
      poolByPool.children (reorder h) = (poolsFirst.children h).map reorder := by
    decide +kernel
  have hinverse : Set.InvOn reorderBack reorder poolsFirst.extant poolByPool.extant :=
    ⟨fun h hh => (hthere h (mem_handles.mpr hh)).2, fun h hh => (hback h (mem_handles.mpr hh)).2⟩
  exact {
    bijOn := hinverse.bijOn (fun h hh => (hthere h (mem_handles.mpr hh)).1)
      fun h hh => (hback h (mem_handles.mpr hh)).1
    isPool := fun h hh => (hkept h (mem_handles.mpr hh)).1
    isLane := fun h hh => (hkept h (mem_handles.mpr hh)).2.1
    name? := fun h hh => (hkept h (mem_handles.mpr hh)).2.2.1
    node? := fun h hh => (hkept h (mem_handles.mpr hh)).2.2.2.1
    connection? := fun h hh => (hkept h (mem_handles.mpr hh)).2.2.2.2.1
    roots := by decide +kernel
    children := fun h hh => (hkept h (mem_handles.mpr hh)).2.2.2.2.2 }

theorem poolByPool_same : Redeclared reorder poolsFirst poolByPool ∧
    poolsFirst.BoundWithin poolsFirst.extant ∧
    poolByPool.generate .memory {} = poolsFirst.generate .memory {} ∧
    poolByPool.diagnostics = poolsFirst.diagnostics.map (Diagnostic.rename reorder) ∧
    ∃ linked, poolByPool.link .poolWide = .ok (linked, { bound := 1 }) := by
  have hbound : poolsFirst.BoundWithin poolsFirst.extant := boundWithin_iff.mpr (by decide +kernel)
  obtain ⟨hgenerate, -, hdiagnostics, -, hlink⟩ :=
    declaration_order_irrelevant redeclared_poolByPool hbound
  refine ⟨redeclared_poolByPool, hbound, hgenerate .memory {}, hdiagnostics, ?_⟩
  obtain ⟨m', n', report, hm, hn, -⟩ := hlink .poolWide
  have hreport : (poolsFirst.link .poolWide).map Prod.snd = .ok { bound := 1 } := by decide +kernel
  rw [hm] at hreport
  obtain rfl : report = { bound := 1 } := Except.ok.inj hreport
  exact ⟨n', hn⟩

end Model
end Bpmn
