import Bpmn.Proofs.Check.Verdict
import Bpmn.Proofs.Document.ReadBack

/-!
# Compiling

A model is compiled exactly if no check finds an error in it, and what is compiled is what would be
generated (`gated_by_diagnostics`).  So only a failing writer keeps an accepted model from being
compiled.
-/

namespace Bpmn

open Markup

namespace Model

section

variable {m : Model} {w : Writer} {options : Options}

theorem mapError_eq_ok {α β γ : Type} {x : Except α γ} {f : α → β} {c : γ} :
    x.mapError f = .ok c ↔ x = .ok c := by
  cases x <;> simp [Except.mapError]

theorem compile_eq_ok {text : String} : m.compile w options = .ok text ↔
    (∃ warnings, m.validate = .ok warnings) ∧ m.generate w options = .ok text := by
  rw [compile]
  cases m.validate with
  | error rejection => simp [Except.mapError, Bind.bind, Except.bind]
  | ok warnings => simp [Except.mapError, Bind.bind, Except.bind]

theorem generate_eq_ok {text : String} : m.generate w options = .ok text ↔
    (Document.ofModel m options.placement).written w options.indent = .ok text :=
  mapError_eq_ok

theorem exists_compile (hw : w.Lawful) {warnings : List Diagnostic} (hv : m.validate = .ok warnings)
    (options : Options) : ∃ text, m.compile w options = .ok text := by
  obtain ⟨body, hgenerate, -⟩ := generate_of_lawful hw m options
  exact ⟨_, compile_eq_ok.mpr ⟨⟨warnings, hv⟩, hgenerate⟩⟩

end

/-- The checks find what each of them finds on a report of its own.  A model is rejected, with all
that was found, exactly if an error was found; otherwise only warnings were, and its document is
compiled as it would be generated, which a lawful writer never refuses. -/
theorem gated_by_diagnostics (m : Model) (w : Writer) (options : Options) :
    m.diagnostics =
        (m.connections.flatMap fun h => (Check.connection m h .empty).diagnostics) ++
          (Check.nodeNames m .empty).diagnostics ++ (Check.emptyContainers m .empty).diagnostics ∧
      if ∃ d ∈ m.diagnostics, d.severity = .error then
        m.validate = .error ⟨m.diagnostics⟩ ∧
          m.compile w options = .error (.validation ⟨m.diagnostics⟩)
      else
        (∀ d ∈ m.diagnostics, d.severity = .warning) ∧ m.validate = .ok m.diagnostics ∧
          m.compile w options = m.generate w options ∧
          (w.Lawful → ∃ text, m.compile w options = .ok text) := by
  refine ⟨diagnostics_eq_checks m, ?_⟩
  have hvalid := validate_eq m
  split
  next herror =>
    rw [if_pos herror] at hvalid
    exact ⟨hvalid, by rw [compile, hvalid]; rfl⟩
  next hclean =>
    rw [if_neg hclean] at hvalid
    refine ⟨fun d hd => ?_, hvalid, by rw [compile, hvalid]; rfl,
      fun hw => exists_compile hw hvalid options⟩
    cases hs : d.severity with
    | warning => rfl
    | error => exact absurd ⟨d, hd, hs⟩ hclean

theorem reserved_compiled :
    reserved.diagnostics =
        (reserved.connections.flatMap fun h =>
          (Check.connection reserved h .empty).diagnostics) ++
          (Check.nodeNames reserved .empty).diagnostics ++
          (Check.emptyContainers reserved .empty).diagnostics ∧
      reserved.validate = .ok [] ∧ ∃ text, reserved.compile .memory {} = .ok text := by
  obtain ⟨hchecks, hgate⟩ := gated_by_diagnostics reserved .memory {}
  rw [if_neg (by decide +kernel)] at hgate
  obtain ⟨-, hvalid, -, hcompiled⟩ := hgate
  have hnone : reserved.diagnostics = [] := by decide +kernel
  exact ⟨hchecks, by rw [hvalid, hnone], hcompiled Writer.lawful_memory⟩

end Model
end Bpmn
