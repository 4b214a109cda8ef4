import Mathlib.Algebra.GroupWithZero.Nat
import Mathlib.Data.Finset.Card
import Mathlib.Order.Interval.Finset.Nat

namespace Library

variable {Entry : Type} (first length : Entry → Nat)

theorem intervals_union (entries : List Entry)
    (separate : entries.Pairwise fun left right =>
      first left + length left ≤ first right ∨ first right + length right ≤ first left) :
    ∃ union : Finset Nat, union.card = (entries.map length).sum ∧
      ∀ point, point ∈ union ↔
        ∃ entry ∈ entries, first entry ≤ point ∧ point < first entry + length entry := by
  induction entries with
  | nil => exact ⟨∅, by simp⟩
  | cons entry entries ih =>
    obtain ⟨apart, rest⟩ := List.pairwise_cons.mp separate
    obtain ⟨union, card, members⟩ := ih rest
    refine ⟨Finset.Ico (first entry) (first entry + length entry) ∪ union, ?_, ?_⟩
    · rw [Finset.card_union_of_disjoint, Nat.card_Ico, card]
      · simp
      · rw [Finset.disjoint_left]
        intro point here there
        obtain ⟨other, member, lower, upper⟩ := (members point).mp there
        have between := apart other member
        rw [Finset.mem_Ico] at here
        omega
    · intro point
      simp [members, Finset.mem_Ico]

theorem intervals_total_le_card (entries : List Entry) (points : Finset Nat)
    (inside : ∀ entry ∈ entries, ∀ point, first entry ≤ point → point < first entry + length entry → point ∈ points)
    (separate : entries.Pairwise fun left right =>
      first left + length left ≤ first right ∨ first right + length right ≤ first left) :
    (entries.map length).sum ≤ points.card := by
  obtain ⟨union, card, members⟩ := intervals_union first length entries separate
  rw [← card]
  apply Finset.card_le_card
  intro point member
  obtain ⟨entry, listed, lower, upper⟩ := (members point).mp member
  exact inside entry listed point lower upper

theorem intervals_total_le (limit : Nat) (entries : List Entry)
    (inside : ∀ entry ∈ entries, first entry + length entry ≤ limit)
    (separate : entries.Pairwise fun left right =>
      first left + length left ≤ first right ∨ first right + length right ≤ first left) :
    (entries.map length).sum ≤ limit := by
  have total := intervals_total_le_card first length entries (Finset.range limit) ?_ separate
  · rwa [Finset.card_range] at total
  · intro entry listed point _ upper
    have bound := inside entry listed
    rw [Finset.mem_range]
    omega

end Library
