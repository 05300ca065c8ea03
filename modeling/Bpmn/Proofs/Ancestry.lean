import Bpmn.Proofs.Sorts
import Mathlib.Logic.Function.Iterate

/-!
# Lines upward

Going up from an element, one parent at a time, gets to smaller handles and so comes to an end.
Whatever does not stand at the top level has first lanes around it, as many as there may be, and
then a pool, and nothing is around a pool.  The walk, which goes down, tells the same containment:
what has an element above it is the piece of the walk right behind that element.
-/

namespace Bpmn
namespace Model

/-- Around an element there are lanes and then a pool of the top level. -/
structure Enclosed (m : Model) (h : Handle) (lanes : List Handle) (pool : Handle) : Prop where
  ancestors : m.ancestors h = lanes ++ [pool]
  isLane : ∀ l ∈ lanes, m.isLane l = true
  isPool : m.isPool pool = true
  top : pool ∈ m.roots

section

variable {m : Model} {h p pool : Handle} {lanes : List Handle}

/-! ## One parent at a time -/

theorem getElem?_lineage (h : Handle) (k : Nat) :
    (m.lineage h)[k]? = (fun x => x.bind m.parent?)^[k] (some h) := by
  have stop : ∀ k, (fun x => x.bind m.parent?)^[k] none = none :=
    Function.iterate_fixed rfl
  induction h using outward (m := m) generalizing k with
  | root h hp =>
    rw [lineage_of_root hp]
    cases k with
    | zero => rfl
    | succ k =>
      rw [Function.iterate_succ_apply, Option.bind_some, hp, stop]
      rfl
  | step h p hp ih =>
    rw [lineage_of_parent hp]
    cases k with
    | zero => rfl
    | succ k => rw [List.getElem?_cons_succ, ih, Function.iterate_succ_apply, Option.bind_some, hp]

/-- The ancestors are what going up leads to, up to where it leads to nothing. -/
theorem getElem?_ancestors (h : Handle) (k : Nat) :
    (m.ancestors h)[k]? = (fun x => x.bind m.parent?)^[k + 1] (some h) := by
  rw [← getElem?_lineage, lineage, List.getElem?_cons_succ]

theorem lineage_decreasing (h : Handle) : (m.lineage h).Pairwise (· > ·) := by
  induction h using outward (m := m) with
  | root h hp =>
    rw [lineage_of_root hp]
    exact List.pairwise_singleton _ h
  | step h p hp ih =>
    rw [lineage_of_parent hp, List.pairwise_cons]
    refine ⟨fun a ha => ?_, ih⟩
    rw [← ancestors_of_parent hp] at ha
    exact lt_of_mem_ancestors ha

theorem length_ancestors_le (h : Handle) : (m.ancestors h).length ≤ h.index := by
  induction h using outward (m := m) with
  | root h hp =>
    rw [ancestors_of_root hp]
    exact Nat.zero_le _
  | step h p hp ih =>
    rw [ancestors_of_parent hp, lineage, List.length_cons]
    have hlt : p.index < h.index := parent_lt hp
    omega

/-! ## Lanes, then a pool -/

theorem Enclosed.of_pool (hp : m.parent? h = some pool) (hpool : m.isPool pool = true) :
    m.Enclosed h [] pool where
  ancestors := by rw [ancestors_of_parent hp, lineage_of_root (parent?_of_isPool hpool)]; rfl
  isLane := by simp
  isPool := hpool
  top := (List.mem_filter.mp (mem_pools.mpr hpool)).1

theorem Enclosed.of_lane (hp : m.parent? h = some p) (hl : m.isLane p = true)
    (henclosed : m.Enclosed p lanes pool) : m.Enclosed h (p :: lanes) pool where
  ancestors := by rw [ancestors_of_parent hp, lineage, henclosed.ancestors]; rfl
  isLane l hmem := by
    rcases List.mem_cons.mp hmem with rfl | hmem
    · exact hl
    · exact henclosed.isLane l hmem
  isPool := henclosed.isPool
  top := henclosed.top

theorem exists_enclosed (hp : m.parent? h = some p) : ∃ lanes pool, m.Enclosed h lanes pool := by
  induction h using outward (m := m) generalizing p with
  | root h hroot =>
    rw [hroot] at hp
    cases hp
  | step h q hq ih =>
    have hcontainer := parent_isContainer hq
    rw [isContainer_eq, Bool.or_eq_true] at hcontainer
    rcases hcontainer with hpool | hl
    · exact ⟨[], q, .of_pool hq hpool⟩
    · obtain ⟨r, hr⟩ := exists_parent_of_isLane hl
      obtain ⟨lanes, pool, henclosed⟩ := ih hr
      exact ⟨q :: lanes, pool, .of_lane hq hl henclosed⟩

theorem Enclosed.containerOf?_eq_head? (henclosed : m.Enclosed h lanes pool) :
    m.containerOf? h = (m.ancestors h).head? := by
  rw [containerOf?_eq]
  cases hp : m.parent? h with
  | none =>
    have hnil := henclosed.ancestors
    rw [ancestors_of_root hp] at hnil
    simp at hnil
  | some p => rw [ancestors_of_parent hp, lineage, List.head?_cons]

theorem Enclosed.poolOf?_eq_getLast? (henclosed : m.Enclosed h lanes pool) :
    m.poolOf? h = (m.ancestors h).getLast? := by
  rw [henclosed.ancestors, List.getLast?_concat, poolOf?_eq_some_iff, henclosed.ancestors]
  exact ⟨by simp, henclosed.isPool⟩

/-- Nothing but the last of the ancestors is a pool. -/
theorem Enclosed.eq_pool (henclosed : m.Enclosed h lanes pool) (ha : p ∈ m.ancestors h)
    (hp : m.isPool p = true) : p = pool := by
  have hfirst := poolOf?_eq_some_iff.mpr ⟨ha, hp⟩
  rw [henclosed.poolOf?_eq_getLast?, henclosed.ancestors, List.getLast?_concat] at hfirst
  exact (Option.some.inj hfirst).symm

end

/-- Going up and the walk tell one containment.  Ancestors are reached parent by parent, they get
smaller and end with the only pool among them, and what has an element among its ancestors follows
it in the walk in one piece. -/
theorem ancestry_fits_walk (m : Model) :
    (∀ h k, (m.ancestors h)[k]? = (fun x => x.bind m.parent?)^[k + 1] (some h)) ∧
    (∀ h, (m.ancestors h).length ≤ h.index ∧ (h :: m.ancestors h).Pairwise (· > ·)) ∧
    (∀ h, h.index < m.size →
      if h ∈ m.roots then m.ancestors h = []
      else ∃ lanes pool, m.Enclosed h lanes pool ∧
        m.containerOf? h = (m.ancestors h).head? ∧ m.poolOf? h = (m.ancestors h).getLast?) ∧
    (∀ a d, d ∈ m.descendants a ↔ a ∈ m.ancestors d) ∧
    (m.walk.Nodup ∧ ∀ a, a.index < m.size →
      ∃ before after, m.walk = before ++ a :: (m.descendants a ++ after)) ∧
    ∀ l, m.isLane l = true → ∃! p, p ∈ m.ancestors l ∧ m.isPool p = true := by
  refine ⟨getElem?_ancestors, fun h => ⟨length_ancestors_le h, lineage_decreasing h⟩,
    fun h hh => ?_, fun a d => mem_descendants, ⟨walk_nodup, fun a ha => ?_⟩, fun l hl => ?_⟩
  · split
    next hroot => exact ancestors_of_root (mem_roots.mp hroot).2
    next hinner =>
      obtain ⟨p, hp⟩ : ∃ p, m.parent? h = some p :=
        Option.ne_none_iff_exists'.mp fun hnone => hinner (mem_roots.mpr ⟨hh, hnone⟩)
      obtain ⟨lanes, pool, henclosed⟩ := exists_enclosed hp
      exact ⟨lanes, pool, henclosed, henclosed.containerOf?_eq_head?,
        henclosed.poolOf?_eq_getLast?⟩
  · obtain ⟨before, after, hwalk⟩ := exists_walk_eq ha
    exact ⟨before, after, by rw [hwalk, subtree, List.append_assoc, List.cons_append]⟩
  · obtain ⟨p, hp⟩ := exists_parent_of_isLane hl
    obtain ⟨lanes, pool, henclosed⟩ := exists_enclosed hp
    refine ⟨pool, ⟨?_, henclosed.isPool⟩, fun q hq => henclosed.eq_pool hq.1 hq.2⟩
    rw [henclosed.ancestors]
    exact List.mem_append_right lanes (List.mem_singleton_self pool)

end Model
end Bpmn
