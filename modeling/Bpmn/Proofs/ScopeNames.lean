import Bpmn.Proofs.Sorts

/-!
# Names of scopes

A scope is named by the names of the containers on the way to it.  Two scopes may have one name:
where siblings share a name, where a name has a dot in it, and where a pool is called like the top
level.  Outside these cases the name of a scope tells the container (`parent?_eq_of_scopeOf`).
-/

namespace Bpmn
namespace Model

/-- Names by which containers can be told apart from the paths to them. -/
structure PlainNames (m : Model) : Prop where
  undotted : ∀ {c : Handle} {name : String}, m.isContainer c = true → m.name? c = some name →
    '.' ∉ name.toList
  siblings : ∀ {c d : Handle}, m.isContainer c = true → m.isContainer d = true →
    m.parent? c = m.parent? d → m.name? c = m.name? d → c = d
  notTop : ∀ {p : Handle}, m.isPool p = true → m.name? p ≠ some topScope

/-! ## Joining names by dots -/

theorem intercalate_dot_inj {a b : List String} (ha : ∀ name ∈ a, '.' ∉ name.toList)
    (hb : ∀ name ∈ b, '.' ∉ name.toList) (hane : a ≠ []) (hbne : b ≠ [])
    (h : ".".intercalate a = ".".intercalate b) : a = b := by
  have split : ∀ names : List String, (∀ name ∈ names, '.' ∉ name.toList) → names ≠ [] →
      List.splitOn '.' (".".intercalate names).toList = names.map String.toList := by
    intro names hnames hne
    rw [String.toList_intercalate]
    refine List.splitOn_intercalate '.' (fun chars hchars => ?_) (by simpa using hne)
    obtain ⟨name, hname, rfl⟩ := List.mem_map.mp hchars
    exact hnames name hname
  have hchars : a.map String.toList = b.map String.toList := by
    rw [← split a ha hane, ← split b hb hbne, h]
  exact List.map_injective_iff.mpr (fun _ _ => String.toList_inj.mp) hchars

theorem scopeName_inj {a b : List String} (ha : ∀ name ∈ a, '.' ∉ name.toList)
    (hb : ∀ name ∈ b, '.' ∉ name.toList) (hatop : a ≠ [topScope]) (hbtop : b ≠ [topScope])
    (h : scopeName a = scopeName b) : a = b := by
  have top : ∀ names : List String, (∀ name ∈ names, '.' ∉ name.toList) → names ≠ [] →
      topScope = ".".intercalate names → names = [topScope] := by
    intro names hnames hne htop
    have hsingle : ∀ name ∈ [topScope], '.' ∉ name.toList := by decide
    refine intercalate_dot_inj hnames hsingle hne (List.cons_ne_nil _ _) ?_
    rw [String.intercalate_singleton, htop]
  cases a with
  | nil =>
    cases b with
    | nil => rfl
    | cons name rest => exact absurd (top _ hb (List.cons_ne_nil _ _) h) hbtop
  | cons name rest =>
    cases b with
    | nil => exact absurd (top _ ha (List.cons_ne_nil _ _) h.symm) hatop
    | cons => exact intercalate_dot_inj ha hb (List.cons_ne_nil _ _) (List.cons_ne_nil _ _) h

/-! ## The containers on the way -/

/-- The names of the containers around an element, nearest first. -/
def containerNames (m : Model) (h : Handle) : List String := (m.ancestors h).filterMap m.name?

section

variable {m : Model}

theorem scopeOf_eq (h : Handle) : m.scopeOf h = scopeName (m.containerNames h).reverse := by
  rw [scopeOf, containerNames, List.filterMap_reverse]

theorem scopeOf_eq_of_parent? {a b : Handle} (h : m.parent? a = m.parent? b) :
    m.scopeOf a = m.scopeOf b := by
  have hancestors : m.ancestors a = m.ancestors b := by
    cases hb : m.parent? b with
    | none => rw [ancestors_of_root hb, ancestors_of_root (h.trans hb)]
    | some p => rw [ancestors_of_parent hb, ancestors_of_parent (h.trans hb)]
  rw [scopeOf, scopeOf, hancestors]

theorem exists_name_of_parent {h p : Handle} (hp : m.parent? h = some p) :
    ∃ name, m.name? p = some name := by
  have hc := parent_isContainer hp
  obtain ⟨e, he, hc⟩ := (Option.any_eq_true _ _).mp hc
  rw [name?, he]
  cases e with
  | pool name => exact ⟨name, rfl⟩
  | lane name parent => exact ⟨name, rfl⟩
  | node | connection => cases hc

theorem containerNames_of_root {h : Handle} (hp : m.parent? h = none) :
    m.containerNames h = [] := by
  rw [containerNames, ancestors_of_root hp, List.filterMap_nil]

theorem containerNames_of_parent {h p : Handle} {name : String} (hp : m.parent? h = some p)
    (hn : m.name? p = some name) : m.containerNames h = name :: m.containerNames p := by
  rw [containerNames, ancestors_of_parent hp, lineage, List.filterMap_cons_some hn]
  rfl

theorem containerNames_eq_nil {h : Handle} : m.containerNames h = [] ↔ m.parent? h = none := by
  refine ⟨fun hnil => ?_, containerNames_of_root⟩
  cases hp : m.parent? h with
  | none => rfl
  | some p =>
    obtain ⟨name, hn⟩ := exists_name_of_parent hp
    rw [containerNames_of_parent hp hn] at hnil
    cases hnil

theorem isContainer_of_mem_ancestors {h a : Handle} (ha : a ∈ m.ancestors h) :
    m.isContainer a = true := by
  induction h using outward (m := m) with
  | root h hp =>
    rw [ancestors_of_root hp] at ha
    cases ha
  | step h p hp ih =>
    rw [ancestors_of_parent hp] at ha
    rcases List.mem_cons.mp ha with rfl | ha
    · exact parent_isContainer hp
    · exact ih ha

namespace PlainNames

theorem iff_handles : m.PlainNames ↔
    (∀ c ∈ m.handles, m.isContainer c = true → ∀ name ∈ m.name? c, '.' ∉ name.toList) ∧
    (∀ c ∈ m.handles, ∀ d ∈ m.handles, m.isContainer c = true → m.isContainer d = true →
      m.parent? c = m.parent? d → m.name? c = m.name? d → c = d) ∧
    ∀ p ∈ m.handles, m.isPool p = true → m.name? p ≠ some topScope := by
  have hmem : ∀ c, m.isContainer c = true → c ∈ m.handles :=
    fun c hc => mem_handles.mpr (Arena.lt_size_of_isContainer hc)
  have hpool : ∀ p, m.isPool p = true → m.isContainer p = true := by
    intro p hp
    rw [isContainer_eq, hp, Bool.true_or]
  constructor
  · intro hm
    exact ⟨fun c _ hc name hn => hm.undotted hc hn, fun c _ d _ => hm.siblings,
      fun p _ => hm.notTop⟩
  · rintro ⟨hundotted, hsiblings, htop⟩
    refine ⟨fun hc hn => ?_, fun hc hd => ?_, fun hp => ?_⟩
    · exact hundotted _ (hmem _ hc) hc _ hn
    · exact hsiblings _ (hmem _ hc) _ (hmem _ hd) hc hd
    · exact htop _ (hmem _ (hpool _ hp)) hp

instance : Decidable m.PlainNames := decidable_of_iff _ iff_handles.symm

theorem undotted_path (hm : m.PlainNames) (h : Handle) :
    ∀ name ∈ m.containerNames h, '.' ∉ name.toList := by
  intro name hname
  obtain ⟨c, hc, hn⟩ := List.mem_filterMap.mp hname
  exact hm.undotted (isContainer_of_mem_ancestors hc) hn

/-- Only a pool has a path of one name. -/
theorem path_ne_top (hm : m.PlainNames) (h : Handle) : m.containerNames h ≠ [topScope] := by
  intro htop
  cases hp : m.parent? h with
  | none =>
    rw [containerNames_of_root hp] at htop
    cases htop
  | some p =>
    obtain ⟨name, hn⟩ := exists_name_of_parent hp
    rw [containerNames_of_parent hp hn] at htop
    obtain ⟨rfl, hrest⟩ := List.cons.inj htop
    have hpool := isPool_of_root (containerNames_eq_nil.mp hrest) (parent_isContainer hp)
    exact hm.notTop hpool hn

theorem parent?_eq_of_containerNames (hm : m.PlainNames) {a b : Handle}
    (h : m.containerNames a = m.containerNames b) : m.parent? a = m.parent? b := by
  induction a using outward (m := m) generalizing b with
  | root a hp =>
    rw [containerNames_of_root hp] at h
    rw [hp, containerNames_eq_nil.mp h.symm]
  | step a p hp ih =>
    obtain ⟨name, hn⟩ := exists_name_of_parent hp
    rw [containerNames_of_parent hp hn] at h
    cases hq : m.parent? b with
    | none =>
      rw [containerNames_of_root hq] at h
      cases h
    | some q =>
      obtain ⟨other, ho⟩ := exists_name_of_parent hq
      rw [containerNames_of_parent hq ho] at h
      obtain ⟨rfl, hrest⟩ := List.cons.inj h
      rw [hp, hm.siblings (parent_isContainer hp) (parent_isContainer hq) (ih hrest)
        (hn.trans ho.symm)]

theorem parent?_eq_of_scopeOf (hm : m.PlainNames) {a b : Handle}
    (h : m.scopeOf a = m.scopeOf b) : m.parent? a = m.parent? b := by
  refine hm.parent?_eq_of_containerNames (List.reverse_inj.mp ?_)
  have undotted : ∀ x, ∀ name ∈ (m.containerNames x).reverse, '.' ∉ name.toList :=
    fun x name hname => hm.undotted_path x name (List.mem_reverse.mp hname)
  have notTop : ∀ x, (m.containerNames x).reverse ≠ [topScope] := by
    intro x htop
    rw [List.reverse_eq_iff, List.reverse_singleton] at htop
    exact hm.path_ne_top x htop
  rw [scopeOf_eq, scopeOf_eq] at h
  exact scopeName_inj (undotted a) (undotted b) (notTop a) (notTop b) h

end PlainNames
end
end Model
end Bpmn
