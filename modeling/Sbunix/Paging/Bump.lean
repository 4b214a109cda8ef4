import Mathlib.Algebra.GroupWithZero.Nat
import Mathlib.Data.List.Basic

namespace Sbunix.Paging

structure Bump where
  bumpAddr : BitVec 64
  prevNoPages : BitVec 16

/-- `init_bump_addr`, with `prev_no_pages` as it is at first. -/
def initBumpAddr (kphysfree : BitVec 64) : Bump := ⟨0xFFFFFFFF80000000 + kphysfree, 0⟩

def vmmgrAllocPage (bump : Bump) (page : BitVec 16) : BitVec 64 × Bump :=
  let bumpAddr := bump.bumpAddr + 4096 + 4096 * bump.prevNoPages.setWidth 64
  (bumpAddr, ⟨bumpAddr, page⟩)

def KernelMapped (page : BitVec 64) : Prop :=
  0xFFFFFFFF80200000 ≤ page.toNat ∧ page.toNat + 4096 ≤ 0xFFFFFFFF82C00000

instance (page : BitVec 64) : Decidable (KernelMapped page) := inferInstanceAs (Decidable (_ ∧ _))

/-- The allocator passes over the pages of the last call as long as the addresses do not wrap. -/
theorem vmmgrAllocPage_toNat {bump : Bump} (page : BitVec 16)
    (room : bump.bumpAddr.toNat + 4096 + 4096 * bump.prevNoPages.toNat < 2 ^ 64) :
    (vmmgrAllocPage bump page).1.toNat = bump.bumpAddr.toNat + 4096 + 4096 * bump.prevNoPages.toNat := by
  have small := bump.prevNoPages.isLt
  change (bump.bumpAddr + 4096 + 4096 * bump.prevNoPages.setWidth 64).toNat = _
  rw [BitVec.toNat_add, BitVec.toNat_add, BitVec.toNat_mul, BitVec.toNat_setWidth]
  change ((bump.bumpAddr.toNat + 4096) % 2 ^ 64 + 4096 * (bump.prevNoPages.toNat % 2 ^ 64) % 2 ^ 64) % 2 ^ 64 = _
  omega

def allocPages (bump : Bump) : List (BitVec 16) → List (BitVec 64 × BitVec 16) × Bump
  | [] => ([], bump)
  | page :: pages =>
    let (address, bump) := vmmgrAllocPage bump page
    let (regions, bump) := allocPages bump pages
    ((address, page) :: regions, bump)

def regionEnd (region : BitVec 64 × BitVec 16) : Nat := region.1.toNat + 4096 * (region.2.toNat + 1)

def InRegion (region : BitVec 64 × BitVec 16) (address : Nat) : Prop :=
  region.1.toNat ≤ address ∧ address < regionEnd region

def bytesOf (pages : List (BitVec 16)) : Nat := (pages.map fun page => 4096 * (page.toNat + 1)).sum

def Adjacent (start : Nat) : List (BitVec 64 × BitVec 16) → Prop
  | [] => True
  | region :: regions => region.1.toNat = start ∧ Adjacent (regionEnd region) regions

theorem allocPages_adjacent {bump : Bump} {pages : List (BitVec 16)} {start : Nat}
    (next : start = bump.bumpAddr.toNat + 4096 + 4096 * bump.prevNoPages.toNat)
    (room : start + bytesOf pages ≤ 2 ^ 64) : Adjacent start (allocPages bump pages).1 := by
  induction pages generalizing bump start with
  | nil => trivial
  | cons page pages ih =>
    simp only [bytesOf, List.map_cons, List.sum_cons] at room
    have address : (vmmgrAllocPage bump page).1.toNat = start := by
      rw [vmmgrAllocPage_toNat page (by omega), next]
    refine ⟨address, ih ?_ ?_⟩
    · change (vmmgrAllocPage bump page).1.toNat + 4096 * (page.toNat + 1) =
        (vmmgrAllocPage bump page).1.toNat + 4096 + 4096 * page.toNat
      omega
    · change (vmmgrAllocPage bump page).1.toNat + 4096 * (page.toNat + 1) + bytesOf pages ≤ 2 ^ 64
      rw [address]
      simp only [bytesOf]
      omega

theorem allocPages_pages (bump : Bump) (pages : List (BitVec 16)) :
    (allocPages bump pages).1.map Prod.snd = pages := by
  induction pages generalizing bump with
  | nil => rfl
  | cons page pages ih => exact congrArg (page :: ·) (ih _)

/-- What holds at the first region and passes from a region to its end holds at every region. -/
theorem Adjacent.starts (Invariant : Nat → Prop)
    (next : ∀ address pages, Invariant address → Invariant (address + 4096 * (pages + 1))) {start : Nat}
    {regions : List (BitVec 64 × BitVec 16)} (adjacent : Adjacent start regions) (initial : Invariant start) :
    ∀ region ∈ regions, Invariant region.1.toNat := by
  induction regions generalizing start with
  | nil => simp
  | cons first regions ih =>
    rcases adjacent with ⟨here, rest⟩
    intro region member
    rcases List.mem_cons.mp member with rfl | member
    · rw [here]
      exact initial
    · refine ih rest ?_ region member
      rw [regionEnd, here]
      exact next start first.2.toNat initial

theorem Adjacent.above {start : Nat} {regions : List (BitVec 64 × BitVec 16)} (adjacent : Adjacent start regions) :
    ∀ region ∈ regions, start ≤ region.1.toNat := by
  refine adjacent.starts (start ≤ ·) ?_ (Nat.le_refl start)
  intro address pages above
  omega

theorem Adjacent.increasing {start : Nat} {regions : List (BitVec 64 × BitVec 16)}
    (adjacent : Adjacent start regions) :
    regions.Pairwise fun left right => regionEnd left ≤ right.1.toNat := by
  induction regions generalizing start with
  | nil => exact List.Pairwise.nil
  | cons first regions ih => exact List.Pairwise.cons adjacent.2.above (ih adjacent.2)

theorem Adjacent.isChain {start : Nat} {regions : List (BitVec 64 × BitVec 16)} (adjacent : Adjacent start regions) :
    regions.IsChain fun left right => right.1.toNat = regionEnd left := by
  induction regions generalizing start with
  | nil => exact List.IsChain.nil
  | cons first regions ih =>
    cases regions with
    | nil => exact List.IsChain.singleton _
    | cons second regions => exact List.IsChain.cons_cons adjacent.2.1 (ih adjacent.2)

theorem Adjacent.aligned {start : Nat} {regions : List (BitVec 64 × BitVec 16)} (adjacent : Adjacent start regions)
    (page : start % 4096 = 0) : ∀ region ∈ regions, region.1.toNat % 4096 = 0 := by
  refine adjacent.starts (· % 4096 = 0) ?_ page
  intro address pages aligned
  omega

theorem Adjacent.within {start : Nat} {regions : List (BitVec 64 × BitVec 16)} (adjacent : Adjacent start regions) :
    ∀ region ∈ regions, regionEnd region ≤ start + bytesOf (regions.map Prod.snd) := by
  induction regions generalizing start with
  | nil => simp
  | cons first regions ih =>
    rcases adjacent with ⟨here, rest⟩
    intro region member
    simp only [bytesOf, List.map_cons, List.sum_cons]
    rcases List.mem_cons.mp member with rfl | member
    · simp only [regionEnd]
      omega
    · have bound := ih rest region member
      simp only [regionEnd, bytesOf] at bound ⊢
      omega

/-- The regions of successive calls are disjoint, in increasing order and without gaps. -/
theorem bump_regions_disjoint (bumpAddr : BitVec 64) (pages : List (BitVec 16))
    (room : bumpAddr.toNat + 4096 + bytesOf pages ≤ 2 ^ 64) :
    let regions := (allocPages ⟨bumpAddr, 0⟩ pages).1
    regions.map Prod.snd = pages ∧
      regions.Pairwise (fun left right => left.1.toNat < right.1.toNat ∧
        ∀ address, ¬ (InRegion left address ∧ InRegion right address)) ∧
      regions.IsChain (fun left right => right.1.toNat = regionEnd left) ∧
      (∀ region ∈ regions, bumpAddr.toNat + 4096 ≤ region.1.toNat ∧ regionEnd region ≤ 2 ^ 64) ∧
      (bumpAddr.toNat % 4096 = 0 → ∀ region ∈ regions, region.1.toNat % 4096 = 0) := by
  intro regions
  have adjacent : Adjacent (bumpAddr.toNat + 4096) regions := allocPages_adjacent rfl room
  have asked : regions.map Prod.snd = pages := allocPages_pages _ pages
  refine ⟨asked, ?_, adjacent.isChain, ?_, ?_⟩
  · refine adjacent.increasing.imp ?_
    intro left right before
    simp only [InRegion, regionEnd] at before ⊢
    refine ⟨by omega, fun address => by omega⟩
  · intro region member
    refine ⟨adjacent.above region member, ?_⟩
    have bound := adjacent.within region member
    rw [asked] at bound
    omega
  · intro page
    exact adjacent.aligned (by omega)

theorem bump_regions_three :
    (allocPages ⟨0xFFFFFFFF80220000, 0⟩ [0, 29, 1]).1 =
        [(0xFFFFFFFF80221000, 0), (0xFFFFFFFF80222000, 29), (0xFFFFFFFF80240000, 1)] ∧
      (allocPages ⟨0xFFFFFFFF80220000, 0⟩ [0, 29, 1]).1.Pairwise (fun left right => left.1.toNat < right.1.toNat ∧
        ∀ address, ¬ (InRegion left address ∧ InRegion right address)) :=
  ⟨by decide, (bump_regions_disjoint _ _ (by decide)).2.1⟩

end Sbunix.Paging
