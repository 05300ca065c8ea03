import Bpmn.Proofs.Document.Landing
import Bpmn.Proofs.Naming.Legality

/-!
# Identifiers that a document may have

All identifiers of a document are made of characters that fit, but one that is named after an
element begins as the name of the element does.  So they are all legal exactly if no element that
is named in the document has a name that begins with a digit (`ids_legal_iff_no_leading_digit`).
-/

namespace Bpmn

open Markup Model Naming Assembly Identifier

namespace Document

section

variable {m : Model} {placement : Placement} {h : Handle} {id name : String}

/-! ## Identifiers of elements among all -/

theorem elementIds_subset_ids (d : Document) : d.elementIds ⊆ d.ids := by
  have hprocess : ∀ p : Process, p.elementIds ⊆ p.ids := by
    intro p id hid
    simp only [Process.elementIds, Process.ids, List.mem_cons, List.mem_append, List.mem_map,
      List.mem_flatMap] at hid ⊢
    rcases hid with rfl | (⟨l, hl, rfl⟩ | ⟨n, hn, rfl⟩) | hflow
    · exact .inl rfl
    · exact .inr (.inl (.inl (.inr ⟨l, hl, List.mem_cons_self⟩)))
    · exact .inr (.inl (.inr ⟨n, hn, List.mem_cons_self⟩))
    · exact .inr (.inr hflow)
  intro id hid
  refine List.mem_cons_of_mem _ (List.mem_append_left _ ?_)
  refine (List.mem_append.mp hid).elim (fun hid => ?_) (List.mem_append_right _)
  obtain ⟨p, hp, hid⟩ := List.mem_flatMap.mp hid
  exact List.mem_append_left _ (List.mem_flatMap.mpr ⟨p, hp, hprocess p hid⟩)

theorem mem_ids_of_named (hh : h ∈ namedHandles m) :
    elementId m h ∈ (ofModel m placement).ids :=
  elementIds_subset_ids _ (namedIds_subset (mem_namedIds hh))

/-- An identifier is the name of an entity, or that of something drawn with a mark behind it. -/
theorem mem_ids (hid : id ∈ (ofModel m placement).ids) :
    (∃ e ∈ entities m, (Names.ofModel m).id e = id) ∨
      ∃ h ∈ namedHandles m, drawnId m h = id := by
  refine (List.mem_append.mp (ids_sublist.subset hid)).imp List.mem_map.mp fun hdrawn => ?_
  obtain ⟨h, hh, hid⟩ := List.mem_map.mp hdrawn
  exact ⟨h, drawnHandles_subperm.subset hh, hid⟩

/-! ## Elements with names -/

/-- A node, a lane, or a pool with something in it has an identifier. -/
theorem mem_namedHandles_of_name? (hname : m.name? h = some name)
    (hpool : m.isPool h = true → m.children h ≠ []) : h ∈ namedHandles m := by
  obtain ⟨e, he, hname⟩ := Option.bind_eq_some_iff.mp hname
  cases e with
  | pool =>
    have hp : m.isPool h = true := isPool_iff.mpr ⟨_, he⟩
    have hbusy : h ∈ m.busyPools :=
      List.mem_filter.mpr ⟨mem_pools.mpr hp, by simpa using hpool hp⟩
    exact mem_namedHandles_of_mem_busyPools hbusy
  | lane => exact mem_namedHandles_of_isLane (isLane_iff.mpr ⟨_, _, he⟩)
  | node => exact mem_namedHandles_of_isNode (isNode_iff.mpr ⟨_, _, he⟩)
  | connection => cases hname

/-- The pools with identifiers are those with something in them. -/
theorem children_ne_nil_of_named (hh : h ∈ namedHandles m) (hpool : m.isPool h = true) :
    m.children h ≠ [] := by
  have hleaf : m.isLeaf h = false := by
    refine Bool.eq_false_iff.mpr fun hl => ?_
    rw [isPool_eq_false_of_isLeaf hl] at hpool
    cases hpool
  simp only [namedHandles, List.mem_append] at hh
  rcases hh with hnode | hlane | hflow | hmessage | hbusy
  · rw [isLeaf_of_isNode (Partition.mem_nodes.mp hnode)] at hleaf
    cases hleaf
  · rw [laneHandles_eq, List.mem_filter, not_isLane_of_isPool hpool] at hlane
    cases hlane.2
  · rw [isLeaf_of_isConnection (isConnection_of_isFlow (Partition.mem_flows.mp hflow))] at hleaf
    cases hleaf
  · rw [isLeaf_of_isConnection (isConnection_of_mem_messageFlows hmessage)] at hleaf
    cases hleaf
  · simpa using (List.mem_filter.mp hbusy).2

/-! ## Legal identifiers -/

theorem all_isPlain (hid : id ∈ (ofModel m placement).ids) :
    id ≠ "" ∧ id.toList.all isPlain = true := by
  rcases mem_ids hid with ⟨e, he, rfl⟩ | ⟨h, hh, rfl⟩
  · exact ⟨Names.id_ne_empty he, Names.all_id he⟩
  · exact ⟨drawn_ne_empty _, all_drawn (Names.all_id (element_mem_entities.mpr hh))⟩

theorem isLegal_elementId (hh : h ∈ namedHandles m) :
    isLegal (elementId m h) = !(m.name? h).any beginsWithDigit :=
  Names.isLegal_id (element_mem_entities.mpr hh)

theorem isLegal_drawnId (hh : h ∈ namedHandles m) :
    isLegal (drawnId m h) = !(m.name? h).any beginsWithDigit := by
  have he := element_mem_entities.mpr hh
  rw [drawnId, isLegal_drawn (Names.id_ne_empty he), Names.isLegal_id he, ownName?]

/-- An identifier that is not legal is that of an element whose name begins with a digit, or of
what draws it. -/
theorem exists_name_of_not_isLegal (hid : id ∈ (ofModel m placement).ids)
    (hlegal : isLegal id = false) :
    ∃ h ∈ namedHandles m, ∃ name, m.name? h = some name ∧ beginsWithDigit name = true ∧
      (id = elementId m h ∨ id = drawnId m h) := by
  rcases mem_ids hid with ⟨e, he, rfl⟩ | ⟨h, hh, rfl⟩
  · rw [Names.isLegal_id he, Bool.not_eq_false', Option.any_eq_true] at hlegal
    obtain ⟨name, hname, hdigit⟩ := hlegal
    cases e with
    | element h => exact ⟨h, element_mem_entities.mp he, name, hname, hdigit, .inl rfl⟩
    | document | process | laneSet | eventDefinition | collaboration | diagram | plane =>
      cases hname
  · rw [isLegal_drawnId hh, Bool.not_eq_false', Option.any_eq_true] at hlegal
    obtain ⟨name, hname, hdigit⟩ := hlegal
    exact ⟨h, hh, name, hname, hdigit, .inr rfl⟩

end

/-- The identifiers of a document are made of letters, digits and underscores.  One of them is not
legal only if it is that of an element whose name begins with a digit, or of what draws the
element.  So all are legal exactly if no node, no lane and no pool with something in it has such a
name. -/
theorem ids_legal_iff_no_leading_digit (m : Model) (placement : Placement) :
    (∀ id ∈ (ofModel m placement).ids, id ≠ "" ∧ id.toList.all isPlain = true) ∧
      (∀ id ∈ (ofModel m placement).ids, isLegal id = false →
        ∃ h name, m.name? h = some name ∧ beginsWithDigit name = true ∧
          (id = elementId m h ∨ id = drawnId m h)) ∧
      ((∀ id ∈ (ofModel m placement).ids, isLegal id = true) ↔
        ∀ h name, m.name? h = some name → (m.isPool h = true → m.children h ≠ []) →
          beginsWithDigit name = false) := by
  refine ⟨fun id hid => all_isPlain hid, fun id hid hlegal => ?_, ⟨?_, ?_⟩⟩
  · obtain ⟨h, -, name, hname⟩ := exists_name_of_not_isLegal hid hlegal
    exact ⟨h, name, hname⟩
  · intro hall h name hname hpool
    have hh := mem_namedHandles_of_name? hname hpool
    have hlegal := hall _ (mem_ids_of_named hh)
    rw [isLegal_elementId hh, hname, Option.any_some, Bool.not_eq_true'] at hlegal
    exact hlegal
  · intro hnames id hid
    by_contra hnot
    have hlegal := Bool.eq_false_iff.mpr hnot
    obtain ⟨h, hh, name, hname, hdigit, -⟩ := exists_name_of_not_isLegal hid hlegal
    rw [hnames h name hname (children_ne_nil_of_named hh)] at hdigit
    cases hdigit

/-- A single node whose name begins with a digit. -/
def reviewAgain : Model := ofEdits [.declare (.node ⟨"2nd review", .task none⟩ none)]

/-- Its document begins the identifiers of the node and of its shape with that digit. -/
theorem reviewAgain_not_legal : (∃ text, reviewAgain.compile .memory {} = .ok text) ∧
    "2nd_review_1" ∈ (ofModel reviewAgain {}).ids ∧
    "2nd_review_1_di" ∈ (ofModel reviewAgain {}).ids ∧
    isLegal "2nd_review_1" = false ∧ isLegal "2nd_review_1_di" = false := by
  have hvalid : reviewAgain.validate = .ok [] := by decide +kernel
  refine ⟨exists_compile Writer.lawful_memory hvalid {}, ?_, ?_, by decide, by decide⟩
  · decide +kernel
  · decide +kernel

end Document
end Bpmn
