import Bpmn.Proofs.Naming.Census
import Bpmn.Proofs.Naming.Registry

/-!
# The names of a model

What a document can rely on: all its entities have names (`mem_keys`), different entities have
different ones (`id_inj`), and what can be seen by any name is an entity of the document under
its own name (`visibleFrom?_eq_some`).
-/

namespace Bpmn
namespace Names

section

variable {names : Names} {e : Entity} {id : String}

theorem mem_of_id? (h : names.id? e = some id) : (e, id) ∈ names := by
  obtain ⟨before, after, rfl, _⟩ := List.lookup_eq_some_iff.mp h
  exact List.mem_append_right before List.mem_cons_self

theorem id_of_id? (h : names.id? e = some id) : names.id e = id := by
  rw [Names.id, h]
  rfl

theorem id?_of_mem (he : e ∈ names.map Prod.fst) : names.id? e = some (names.id e) := by
  cases h : names.id? e with
  | none =>
    obtain ⟨pair, hp, rfl⟩ := List.mem_map.mp he
    have hne := List.lookup_eq_none_iff.mp h pair hp
    simp at hne
  | some id => rw [id_of_id? h]

theorem mem_id (he : e ∈ names.map Prod.fst) : (e, names.id e) ∈ names :=
  mem_of_id? (id?_of_mem he)

theorem id_mem (he : e ∈ names.map Prod.fst) : names.id e ∈ names.map Prod.snd :=
  List.mem_map.mpr ⟨_, mem_id he, rfl⟩

theorem eq_of_id_eq (hids : (names.map Prod.snd).Nodup) {a b : Entity}
    (ha : a ∈ names.map Prod.fst) (hb : b ∈ names.map Prod.fst) (h : names.id a = names.id b) :
    a = b :=
  congrArg Prod.fst (List.inj_on_of_nodup_map hids (mem_id ha) (mem_id hb) h)

theorem upTo_isPrefix (names : Names) (e : Entity) : names.upTo e <+: names := by
  induction names with
  | nil => exact List.prefix_rfl
  | cons pair rest ih =>
    rw [upTo, List.prefix_cons_inj]
    split
    · exact List.nil_prefix
    · exact ih

/-- All names are visible that are given before an entity has its own. -/
theorem upTo_append {before after : Names} (he : e ∉ before.map Prod.fst) :
    upTo (before ++ after) e = before ++ upTo after e := by
  induction before with
  | nil => rfl
  | cons pair rest ih =>
    rw [List.map_cons, List.mem_cons, not_or] at he
    rw [List.cons_append, upTo, if_neg (Ne.symm he.1), ih he.2, List.cons_append]

/-- Whatever sees an element sees it by its one name. -/
theorem visibleFrom?_eq_some {viewer h : Handle} (hv : names.visibleFrom? viewer h = some id) :
    .element h ∈ names.map Prod.fst ∧ names.id (.element h) = id := by
  have hid : names.id? (.element h) = some id :=
    (upTo_isPrefix names (.element viewer)).lookup_eq_some hv
  exact ⟨List.mem_map.mpr ⟨_, mem_of_id? hid, rfl⟩, id_of_id? hid⟩

end

def ofModel (m : Model) : Names := ofPartition m (Partition.ofModel m)

section

open Naming

variable {m : Model}

theorem sound : (issue m (Partition.ofModel m)).Sound := Registry.Sound.empty.assignAll _

theorem ofModel_eq : ofModel m = (issue m (Partition.ofModel m)).assigned := rfl

theorem mem_keys {e : Entity} : e ∈ (ofModel m).map Prod.fst ↔ e ∈ entities m := by
  rw [← mem_keys_plan, ofModel_eq, ← Registry.keys, issue, Registry.mem_keys_assignAll]
  exact or_iff_right List.not_mem_nil

/-- Different entities of a model have different names. -/
theorem id_inj {a b : Entity} (ha : a ∈ entities m) (hb : b ∈ entities m)
    (h : (ofModel m).id a = (ofModel m).id b) : a = b :=
  eq_of_id_eq sound.ids_nodup (mem_keys.mpr ha) (mem_keys.mpr hb) h

theorem id?_isSome {h : Handle} (hh : h ∈ namedHandles m) :
    ((ofModel m).id? (.element h)).isSome := by
  rw [id?_of_mem (mem_keys.mpr (element_mem_entities.mpr hh)), Option.isSome_some]

/-! ## Nodes are named first -/

/-- What has its name before the processes come to be named. -/
def nodesFirst (m : Model) : Plan :=
  [(.document, "Definitions")] ++
    (Partition.ofModel m).processes.flatMap fun process => process.nodes.flatMap (named m)

theorem nodesFirst_prefix : nodesFirst m <+: plan m (Partition.ofModel m) := by
  unfold plan
  rw [List.append_assoc _ _ [_, _, _], List.append_assoc, List.append_assoc]
  exact List.prefix_append _ _

theorem names_nodesFirst_isPrefix :
    (Registry.empty.assignAll (nodesFirst m)).assigned <+: ofModel m := by
  obtain ⟨later, hplan⟩ := nodesFirst_prefix (m := m)
  rw [ofModel_eq, issue, ← hplan, Registry.assignAll_append]
  exact Registry.assigned_prefix_assignAll _ later

theorem element_mem_nodesFirst {h : Handle} :
    .element h ∈ (nodesFirst m).map Prod.fst ↔ m.isNode h = true := by
  rw [nodesFirst, List.map_append, keys_nodes, List.mem_append, List.map_singleton,
    List.mem_singleton, or_iff_right Entity.noConfusion, List.mem_map]
  simp only [Entity.element.injEq, exists_eq_right]
  exact Partition.mem_nodes

/-- Whatever is no node itself sees all nodes. -/
theorem visibleFrom?_of_isNode {h n : Handle} (hh : m.isNode h = false) (hn : m.isNode n = true) :
    (ofModel m).visibleFrom? h n = some ((ofModel m).id (.element n)) := by
  let first : Names := (Registry.empty.assignAll (nodesFirst m)).assigned
  have hkeys : ∀ e, e ∈ first.map Prod.fst ↔ e ∈ (nodesFirst m).map Prod.fst := fun e =>
    Registry.mem_keys_assignAll.trans (or_iff_right List.not_mem_nil)
  have hnames : first <+: ofModel m := names_nodesFirst_isPrefix
  have hid : first.id? (.element n) = some ((ofModel m).id (.element n)) := by
    have hmem := (hkeys (.element n)).mpr (element_mem_nodesFirst.mpr hn)
    rw [id?_of_mem hmem, id_of_id? (hnames.lookup_eq_some (id?_of_mem hmem))]
  have hseen : first <+: (ofModel m).upTo (.element h) := by
    obtain ⟨later, hlater⟩ := hnames
    rw [← hlater, upTo_append]
    · exact List.prefix_append first _
    · rw [hkeys, element_mem_nodesFirst, hh]
      exact Bool.false_ne_true
  exact hseen.lookup_eq_some hid

/-- The name of an entity is made from a base that the plan has for it. -/
theorem exists_base {e : Entity} (he : e ∈ entities m) :
    ∃ base n, (e, base) ∈ plan m (Partition.ofModel m) ∧
      (ofModel m).id e = Identifier.numbered (Identifier.sanitize base) n := by
  have hassigned : (e, (ofModel m).id e) ∈
      (Registry.empty.assignAll (plan m (Partition.ofModel m))).assigned :=
    mem_id (mem_keys.mpr he)
  exact (Registry.mem_assigned_assignAll hassigned).resolve_left List.not_mem_nil

theorem exists_numbered {e : Entity} (he : e ∈ entities m) :
    ∃ base n, (ofModel m).id e = Identifier.numbered base n := by
  obtain ⟨base, n, hid, _⟩ := sound.numbered _ (id_mem (mem_keys.mpr he))
  exact ⟨base, n, hid⟩

end
end Names
end Bpmn
