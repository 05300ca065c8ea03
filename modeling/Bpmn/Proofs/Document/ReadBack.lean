import Bpmn.Compiler
import Bpmn.History
import Bpmn.Proofs.Document.Exporting
import Bpmn.Proofs.Markup.Writing
import Bpmn.Proofs.Naming.Numbering
import Bpmn.Proofs.Number.Binary32

/-!
# Documents read back

A lawful writer takes the whole export of a document, and what it has written is read back as the
document's tree wherever no reference is blank (`Document.written_of_lawful`).  The references of a
model's document are names, which hold an underscore.  So the text generated for a model is read
back as the tree of its document, whatever the layout and the indentation (`read_generate`).
-/

namespace Bpmn

open Markup Reading

/-! ## Exports as runs of a writer -/

namespace Exporter

/-- An export of events goes as far as the writer does, and fails for its reason. -/
theorem run_forM_write {w : Writer} (events : List Event) (s : w.State) :
    (events.forM write : Exporter w Unit).run s =
      ((w.run events s).mapError .write).map fun next => ((), next) := by
  induction events generalizing s with
  | nil => rfl
  | cons e rest ih =>
    rw [List.forM_eq_forM, List.forM_cons, StateT.run_bind, Writer.run_cons]
    have hwrite : (write e : Exporter w Unit).run s =
        ((w.write e s).mapError .write).map fun next => ((), next) := by
      rw [StateT.run, write]
      cases w.write e s with
      | error reason => rfl
      | ok next => rfl
    rw [hwrite]
    cases w.write e s with
    | error reason => rfl
    | ok next => exact ih next

theorem finished_toUTF8 (s : String) : finished s.toUTF8 = .ok (s.push '\n') := by
  have hvalid : s.toUTF8.IsValidUTF8 := s.isValidUTF8
  have htext : String.fromUTF8? s.toUTF8 = some s := by
    rw [String.fromUTF8?, dif_pos hvalid]
    rfl
  rw [finished, htext]

end Exporter

namespace Document

/-! ## The text of a document -/

/-- What stands at the beginning of every text. -/
def declaration : String := "<?xml version=\"1.0\" encoding=\"UTF-8\"?>"

theorem spelling_declaration :
    (Event.declaration "1.0" (some "UTF-8") none).spelling = declaration := rfl

/-- A lawful writer takes a document, and what it has written is the declaration, an element that
is read back as the tree of the document, and the end of a line. -/
theorem written_of_lawful {w : Writer} (hw : w.Lawful) (indent : Nat) {d : Document}
    (h : ∀ id ∈ d.processes.flatMap Process.references, Exporter.Visible id) :
    ∃ body : String, d.written w indent = .ok (declaration ++ body ++ "\n") ∧
      ∀ rest, isBlank rest = true →
        element? (body.toList ++ rest) = some (d.tree Binary32.text) := by
  obtain ⟨es, hes, hnests⟩ := Exporter.writes_definitions (w := w) h
  have hdocument : (Exporter.document d : Exporter w Unit) =
      (.declaration "1.0" (some "UTF-8") none :: es).forM Exporter.write := by
    rw [Exporter.document, hes]
    rfl
  obtain ⟨s, cs, hs, hbytes, hspells⟩ := hw.spells (if indent = 0 then none else some indent)
    (.declaration "1.0" (some "UTF-8") none :: es)
  -- The declaration is written first, so nothing stands before it.
  obtain _ | @⟨_, _, _, gap, body, -, htight, hspells⟩ := hspells
  obtain rfl := htight (.inl rfl)
  rw [spelling_declaration, List.nil_append] at hbytes
  refine ⟨String.ofList body, ?_, fun rest hrest => ?_⟩
  · have htext : String.ofList (declaration.toList ++ body) =
        declaration ++ String.ofList body := by
      simp
    rw [htext] at hbytes
    rw [written, hdocument, Exporter.run_forM_write, hs]
    change Exporter.finished (w.bytes s) = _
    rw [hbytes, Exporter.finished_toUTF8, String.push_eq_append]
    rfl
  · rw [String.toList_ofList]
    exact element?_of_spells hnests hspells hrest

theorem document?_declaration {body : String} {t : Content}
    (h : element? (body.toList ++ ['\n']) = some t) :
    document? (declaration ++ body ++ "\n").toList = some t := by
  have htext : (declaration ++ body ++ "\n").toList =
      declaration.toList ++ (body.toList ++ ['\n']) := by
    simp
  have hstart : "<?xml version=\"1.0\" encoding=\"UTF-8\"?>".toList = declaration.toList := rfl
  rw [document?, htext, hstart,
    if_pos (List.isPrefixOf_iff_prefix.mpr (List.prefix_append _ _)), List.drop_left, h]

/-! ## The references of a model's document -/

/-- Names hold an underscore. -/
theorem visible_numbered (base : String) (n : Nat) :
    Exporter.Visible (Identifier.numbered base n) := by
  rw [Exporter.Visible, Identifier.toList_numbered, isBlank, List.all_append, List.all_cons]
  exact (congrArg _ (Bool.false_and _)).trans (Bool.and_false _)

theorem visible_of_mem_namedIds {m : Model} {id : String} (hid : id ∈ namedIds m) :
    Exporter.Visible id := by
  obtain ⟨h, hh, rfl⟩ := List.mem_map.mp hid
  obtain ⟨base, n, hname⟩ := Names.exists_numbered (Naming.element_mem_entities.mpr hh)
  rw [hname]
  exact visible_numbered base n

theorem visible_references (m : Model) (placement : Placement) :
    ∀ id ∈ (ofModel m placement).processes.flatMap Process.references, Exporter.Visible id := by
  intro id hid
  obtain ⟨record, hrecord, hid⟩ := List.mem_flatMap.mp hid
  obtain ⟨p, hp, rfl⟩ := List.mem_map.mp hrecord
  exact visible_of_mem_namedIds (process_references_subset hp hid)

end Document

/-! ## The text of a model -/

namespace Model

open Document

theorem generate_of_lawful {w : Writer} (hw : w.Lawful) (m : Model) (options : Options) :
    ∃ body : String, m.generate w options = .ok (declaration ++ body ++ "\n") ∧
      ∀ rest, isBlank rest = true → element? (body.toList ++ rest) =
        some ((Document.ofModel m options.placement).tree Binary32.text) := by
  obtain ⟨body, hwritten, hread⟩ :=
    written_of_lawful hw options.indent (visible_references m options.placement)
  exact ⟨body, by rw [generate, hwritten]; rfl, hread⟩

/-- What is generated for a model is the declaration, one element and the end of a line.  It is read
back as the tree of the model's document, with every number in digits that denote it, and the
indentation makes no difference to a reader. -/
theorem read_generate (m : Model) (w : Writer) (hw : w.Lawful) (options : Options) :
    ∃ numeral : Float32 → String, (∀ x, Binary32.Denotes (numeral x) x) ∧
      (∃ body : String,
        m.generate w options =
            .ok ("<?xml version=\"1.0\" encoding=\"UTF-8\"?>" ++ body ++ "\n") ∧
          element? body.toList = some ((Document.ofModel m options.placement).tree numeral)) ∧
      ∀ indent, ∃ text, m.generate w { options with indent := indent } = .ok text ∧
        document? text.toList = some ((Document.ofModel m options.placement).tree numeral) := by
  refine ⟨Binary32.text, Binary32.denotes_text, ?_, fun indent => ?_⟩
  · obtain ⟨body, hgenerate, hread⟩ := generate_of_lawful hw m options
    refine ⟨body, hgenerate, ?_⟩
    rw [← List.append_nil body.toList]
    exact hread [] rfl
  · obtain ⟨body, hgenerate, hread⟩ := generate_of_lawful hw m { options with indent := indent }
    exact ⟨_, hgenerate, document?_declaration (hread ['\n'] rfl)⟩

/-- Names and a label full of what markup reserves: a pool that holds a lane with a task and another
task beside it, and a flow from one to the other. -/
def reserved : Model :=
  ofEdits
    [.declare (.pool "a < b & \"c\""), .declare (.lane "]]>" (some ⟨0⟩)),
      .declare (.node ⟨"</bpmn:process>\n", .task none⟩ (some ⟨1⟩)),
      .declare (.node ⟨"&lt;", .task none⟩ (some ⟨0⟩)),
      .declare (.connection ⟨⟨"'", some ⟨2⟩⟩, .sequence, ⟨"<!--", some ⟨3⟩⟩, some "if \"x\" > 'y'"⟩
        (some ⟨0⟩))]

theorem read_generate_reserved : Writer.memory.Lawful ∧
    ∃ numeral : Float32 → String, (∀ x, Binary32.Denotes (numeral x) x) ∧
      (∃ body : String,
        reserved.generate .memory {} =
            .ok ("<?xml version=\"1.0\" encoding=\"UTF-8\"?>" ++ body ++ "\n") ∧
          element? body.toList = some ((Document.ofModel reserved {}).tree numeral)) ∧
      ∀ indent, ∃ text, reserved.generate .memory { indent := indent } = .ok text ∧
        document? text.toList = some ((Document.ofModel reserved {}).tree numeral) :=
  ⟨Writer.lawful_memory, read_generate reserved .memory Writer.lawful_memory {}⟩

end Model
end Bpmn
