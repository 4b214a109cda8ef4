import Mathlib.Data.List.Pairwise
import Mathlib.Data.Set.Lattice
import Mathlib.Order.CompletePartialOrder

namespace Library

variable {Grant Resource : Type}

def Exclusive (footprint : Grant → Set Resource) (ledger : List Grant) : Prop :=
  ledger.Pairwise fun left right => Disjoint (footprint left) (footprint right)

def Marked (footprint : Grant → Set Resource) (marks : Set Resource) (ledger : List Grant) : Prop :=
  ∀ grant ∈ ledger, footprint grant ⊆ marks

variable {footprint : Grant → Set Resource} {marks : Set Resource} {ledger : List Grant}

/-- A grant of unmarked resources is disjoint from everything already granted. -/
theorem Exclusive.grant {grant : Grant} (exclusive : Exclusive footprint ledger)
    (marked : Marked footprint marks ledger) (unmarked : Disjoint (footprint grant) marks) :
    Exclusive footprint (grant :: ledger) := by
  refine List.pairwise_cons.mpr ⟨?_, exclusive⟩
  intro other member
  exact Set.disjoint_of_subset_right (marked other member) unmarked

theorem Marked.mono {more : Set Resource} (marked : Marked footprint marks ledger)
    (subset : marks ⊆ more) : Marked footprint more ledger :=
  fun grant member => (marked grant member).trans subset

theorem Marked.grant {grant : Grant} (marked : Marked footprint marks ledger)
    (held : footprint grant ⊆ marks) : Marked footprint marks (grant :: ledger) := by
  intro other member
  rcases List.mem_cons.mp member with rfl | member
  · exact held
  · exact marked other member

variable [DecidableEq Grant]

theorem Exclusive.release (exclusive : Exclusive footprint ledger) (grant : Grant) :
    Exclusive footprint (ledger.erase grant) :=
  exclusive.sublist List.erase_sublist

/-- Releasing one grant takes no resource from another. -/
theorem Exclusive.release_disjoint {grant : Grant} (exclusive : Exclusive footprint ledger)
    (member : grant ∈ ledger) :
    ∀ other ∈ ledger.erase grant, Disjoint (footprint grant) (footprint other) := by
  have reordered : (grant :: ledger.erase grant).Pairwise
      fun left right => Disjoint (footprint left) (footprint right) :=
    exclusive.perm (List.perm_cons_erase member) fun separate => separate.symm
  exact (List.pairwise_cons.mp reordered).1

/-- Unmarking exactly the released resources keeps the remaining grants marked. -/
theorem Marked.release {grant : Grant} (marked : Marked footprint marks ledger)
    (exclusive : Exclusive footprint ledger) (member : grant ∈ ledger) :
    Marked footprint (marks \ footprint grant) (ledger.erase grant) := by
  intro other remaining resource held
  refine ⟨marked other (List.mem_of_mem_erase remaining) held, ?_⟩
  exact Set.disjoint_right.mp (exclusive.release_disjoint member other remaining) held

end Library
