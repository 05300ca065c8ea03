import Bpmn.Markup.Memory
import Bpmn.Proofs.Markup.RoundTrip

/-!
# What a writer writes

A lawful writer takes any events whatsoever, and what it has written by then spells them
(`Lawful.spells`).  A writer to memory is one (`lawful_memory`).
-/

namespace Bpmn.Markup

open Reading

namespace Writer

section

variable {w : Writer}

/-! ## Runs of lawful writers -/

theorem run_nil (s : w.State) : w.run [] s = .ok s := rfl

theorem run_cons (e : Event) (rest : List Event) (s : w.State) :
    w.run (e :: rest) s = w.write e s >>= w.run rest := List.foldlM_cons

theorem run_append (es fs : List Event) (s : w.State) :
    w.run (es ++ fs) s = w.run es s >>= w.run fs := List.foldlM_append

/-- Events go behind what was written before them, whatever that was. -/
theorem Lawful.spells_behind (hw : w.Lawful) {indent : Option Nat} {past : List Event}
    {s : w.State} (hs : w.run past (w.new indent) = .ok s) (events : List Event) :
    ∃ next cs, w.run events s = .ok next ∧ w.bytes next = w.bytes s ++ (String.ofList cs).toUTF8 ∧
      Spells (past.getLast?.all Event.isText) events cs := by
  -- What is written next depends on the past, so the past grows with each event.
  induction events generalizing past s with
  | nil => exact ⟨s, [], run_nil s, ByteArray.append_empty.symm, .nil⟩
  | cons e rest ih =>
    obtain ⟨mid, gap, hmid, hbytes, hblank, htight⟩ := hw.write indent past s hs e
    have hpast : w.run (past ++ [e]) (w.new indent) = .ok mid := by
      rw [run_append, hs]
      exact (run_cons e [] s).trans (by rw [hmid]; rfl)
    obtain ⟨next, cs, hnext, hrest, hcs⟩ := ih hpast
    rw [List.getLast?_concat, Option.all_some] at hcs
    refine ⟨next, gap.toList ++ e.spelling.toList ++ cs, ?_, ?_, .cons hblank (fun h => ?_) hcs⟩
    · rw [run_cons, hmid]
      exact hnext
    · rw [hrest, hbytes, ByteArray.append_assoc]
      congr 1
      simp [String.toUTF8, ByteArray.append_assoc]
    · rw [htight h]
      rfl

/-- Whatever the events and the indentation, a new writer spells them. -/
theorem Lawful.spells (hw : w.Lawful) (indent : Option Nat) (events : List Event) :
    ∃ s cs, w.run events (w.new indent) = .ok s ∧ w.bytes s = (String.ofList cs).toUTF8 ∧
      Spells true events cs := by
  have hnothing : w.run [] (w.new indent) = .ok (w.new indent) := run_nil _
  obtain ⟨s, cs, hs, hbytes, hcs⟩ := hw.spells_behind hnothing events
  rw [hw.bytes_new indent, ByteArray.empty_append] at hbytes
  exact ⟨s, cs, hs, hbytes, hcs⟩

end
end Writer

/-! ## A writer to memory -/

namespace Memory

theorem toList_all_gap (s : State) (e : Event) :
    (s.gap e).toList.all Char.isWhitespace = true := by
  have hpushn : ∀ n, ("\n".pushn ' ' n).toList.all Char.isWhitespace = true := by
    intro n
    induction n with
    | zero => rfl
    | succ n ih =>
      have hpush : "\n".pushn ' ' (n + 1) = ("\n".pushn ' ' n).push ' ' := rfl
      rw [hpush, String.toList_push, List.all_append, ih]
      rfl
  rw [State.gap]
  cases s.indent with
  | none => rfl
  | some indent =>
    dsimp only
    split
    · exact hpushn _
    · rfl

theorem gap_eq_empty {s : State} {e : Event} (h : s.mayBreak = false ∨ e.isText = true) :
    s.gap e = "" := by
  rw [State.gap]
  cases s.indent with
  | none => rfl
  | some indent => rcases h with h | h <;> simp [h]

theorem mayBreak_step (s : State) (e : Event) : (s.step e).mayBreak = !e.isText := by
  cases e <;> rfl

theorem mayBreak_leave (s : State) (e : Event) : (s.leave e).mayBreak = s.mayBreak := by
  cases e <;> rfl

theorem text_step (s : State) (e : Event) :
    (s.step e).text = s.text ++ ((s.leave e).gap e ++ e.spelling) := by
  cases e <;> rfl

theorem run_memory (events : List Event) (s : State) :
    Writer.memory.run events s = .ok (events.foldl State.step s) := by
  induction events generalizing s with
  | nil => rfl
  | cons e rest ih => exact ih (s.step e)

/-- A line may be started if something was written and it was not a text. -/
theorem mayBreak_foldl (indent : Option Nat) (past : List Event) :
    (past.foldl State.step { indent }).mayBreak = !past.getLast?.all Event.isText := by
  rcases List.eq_nil_or_concat past with rfl | ⟨before, e, rfl⟩
  · rfl
  · rw [List.concat_eq_append, List.foldl_append, List.foldl_cons, List.foldl_nil, mayBreak_step,
      List.getLast?_concat, Option.all_some]

end Memory

theorem Writer.lawful_memory : memory.Lawful where
  bytes_new _ := rfl
  write indent past s hs e := by
    obtain rfl := Except.ok.inj ((Memory.run_memory past { indent }).symm.trans hs)
    let before : Memory.State := (past.foldl Memory.State.step { indent }).leave e
    refine ⟨_, before.gap e, rfl, ?_, Memory.toList_all_gap before e,
      fun h => Memory.gap_eq_empty (h.imp_left fun hpast => ?_)⟩
    · exact (congrArg String.toUTF8 (Memory.text_step _ e)).trans String.toByteArray_append
    · rw [Memory.mayBreak_leave, Memory.mayBreak_foldl, hpast]
      rfl

end Bpmn.Markup
