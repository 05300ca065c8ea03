import Bpmn.Naming.Registry

/-!
# Numbered identifiers

A number holds no underscore, so the last underscore of a numbered identifier tells the base from
the number, even where the base ends in an underscore and a number itself.  What draws an element
ends in letters and is never a numbered identifier.
-/

namespace Bpmn
namespace Identifier

/-- Where a mark occurs in neither rest, it tells the rests from what stands before them. -/
theorem split_at_last {α : Type} {mark : α} {a b s t : List α} (hs : mark ∉ s) (ht : mark ∉ t)
    (h : a ++ mark :: s = b ++ mark :: t) : a = b ∧ s = t := by
  rcases List.append_eq_append_iff.mp h with ⟨d, hb, hs'⟩ | ⟨d, ha, ht'⟩
  · cases d with
    | nil =>
      rw [List.append_nil] at hb
      exact ⟨hb.symm, (List.cons.inj hs').2⟩
    | cons x d =>
      have hmem : mark ∈ s := by
        rw [(List.cons.inj hs').2]
        exact List.mem_append_right d List.mem_cons_self
      exact (hs hmem).elim
  · cases d with
    | nil =>
      rw [List.append_nil] at ha
      exact ⟨ha, (List.cons.inj ht').2.symm⟩
    | cons x d =>
      have hmem : mark ∈ t := by
        rw [(List.cons.inj ht').2]
        exact List.mem_append_right d List.mem_cons_self
      exact (ht hmem).elim

theorem toList_numbered (base : String) (n : Nat) :
    (numbered base n).toList = base.toList ++ '_' :: Nat.toDigits 10 n := by
  simp [numbered, Nat.toString_eq_repr]

theorem toList_drawn (id : String) : (drawn id).toList = id.toList ++ '_' :: ['d', 'i'] := by
  simp [drawn]

theorem numbered_inj {a b : String} {m n : Nat} :
    numbered a m = numbered b n ↔ a = b ∧ m = n := by
  constructor
  · intro h
    have hlist := congrArg String.toList h
    rw [toList_numbered, toList_numbered] at hlist
    obtain ⟨hbase, hdigits⟩ :=
      split_at_last Nat.underscore_not_in_toDigits Nat.underscore_not_in_toDigits hlist
    have hnumber := congrArg (fun digits => Nat.ofDigitChars 10 digits 0) hdigits
    exact ⟨String.toList_inj.mp hbase, by simpa using hnumber⟩
  · rintro ⟨rfl, rfl⟩
    rfl

theorem drawn_inj {a b : String} : drawn a = drawn b ↔ a = b := by
  constructor
  · intro h
    have hlist := congrArg String.toList h
    rw [toList_drawn, toList_drawn] at hlist
    exact String.toList_inj.mp (List.append_cancel_right hlist)
  · rintro rfl
    rfl

theorem numbered_ne_drawn (base id : String) (n : Nat) : numbered base n ≠ drawn id := by
  intro h
  have hlist := congrArg String.toList h
  rw [toList_numbered, toList_drawn] at hlist
  obtain ⟨_, hdigits⟩ := split_at_last Nat.underscore_not_in_toDigits (by decide) hlist
  have hd : 'd' ∈ Nat.toDigits 10 n := by rw [hdigits]; decide
  exact absurd (Nat.isDigit_of_mem_toDigits (by decide) (by decide) hd) (by decide)

end Identifier
end Bpmn
