import Sbunix.Library.Run
import Sbunix.Library.Ownership
import Sbunix.Mmgr.Range

namespace Sbunix.Mmgr

open Library

structure Allocation where
  address : BitVec 64
  size : BitVec 32
  deriving DecidableEq

def Allocation.frame (allocation : Allocation) : Nat := allocation.address.toNat / 4096

def Allocation.Owns (allocation : Allocation) (frame : Nat) : Prop :=
  allocation.frame ≤ frame ∧ frame < allocation.frame + allocation.size.toNat

inductive Call where
  | allocBlock
  | allocSizeBlocks (size : BitVec 32)
  | freeBlock (p : BitVec 64)
  | freeSizeBlocks (p : BitVec 64) (size : BitVec 32)

structure Session where
  manager : State
  live : List Allocation

def Session.granted (session : Session) (size : BitVec 32) (result : BitVec 64 × State) : Session where
  manager := result.2
  live := if result.1 = 0 then session.live else ⟨result.1, size⟩ :: session.live

/-- Callers free only what they hold, with the size it was allocated with. -/
def step (session : Session) : Call → Option Session
  | .allocBlock => do
    let result ← mmgrAllocBlock session.manager
    return session.granted 1 result
  | .allocSizeBlocks size => do
    let result ← mmgrAllocSizeBlocks session.manager size
    return session.granted size result
  | .freeBlock p =>
    if ⟨p, 1⟩ ∈ session.live then do
      let manager ← mmgrFreeBlock session.manager p
      return ⟨manager, session.live.erase ⟨p, 1⟩⟩
    else none
  | .freeSizeBlocks p size =>
    if ⟨p, size⟩ ∈ session.live then do
      let manager ← mmgrFreeSizeBlocks session.manager p size
      return ⟨manager, session.live.erase ⟨p, size⟩⟩
    else none

def aliasClass (frame : Nat) : Nat × Nat := (frame / 64, frame % 32)

def footprint (allocation : Allocation) : Set (Nat × Nat) :=
  { unit | ∃ frame, allocation.Owns frame ∧ aliasClass frame = unit }

def marks (s : State) : Set (Nat × Nat) :=
  { unit | ∃ frame, busy s frame = true ∧ aliasClass frame = unit }

theorem aliasClass_eq {left right : Nat} : aliasClass left = aliasClass right ↔ Aliased left right := by
  simp [aliasClass, Aliased]

theorem aliasClass_mem_marks {s : State} {frame : Nat} :
    aliasClass frame ∈ marks s ↔ busy s frame = true := by
  constructor
  · rintro ⟨other, marked, same⟩
    rw [← busy_congr s (aliasClass_eq.mp same)]
    exact marked
  · exact fun marked => ⟨frame, marked, rfl⟩

/-- Frame 0 is held by nobody and never free, as if it had been allocated at the start. -/
def reservation : Allocation := ⟨0, 1⟩

theorem footprint_reservation : footprint reservation = {aliasClass 0} := by
  ext unit
  simp [footprint, reservation, Allocation.Owns, Allocation.frame, eq_comm]

structure Allocation.Placed (allocation : Allocation) : Prop where
  address : allocation.address = blockAddress allocation.frame
  positive : 0 < allocation.frame
  bound : allocation.frame + allocation.size.toNat ≤ 76800

/-- Ownership by alias class. One bit per frame would not do: frames 32 apart share their bit. -/
structure Session.Owned (session : Session) : Prop where
  exclusive : Exclusive footprint (reservation :: session.live)
  marked : Marked footprint (marks session.manager) (reservation :: session.live)
  placed : ∀ allocation ∈ session.live, allocation.Placed

theorem Session.Owned.reserved {session : Session} (owned : session.Owned) :
    busy session.manager 0 = true := by
  apply aliasClass_mem_marks.mp
  apply owned.marked reservation (by simp)
  simp [footprint_reservation]

/-- Granting a free range whose classes the manager has just marked keeps the ownership. -/
theorem Session.Owned.grant {session : Session} (owned : session.Owned) {next : State} {start : Nat}
    {size : BitVec 32} (free : FreeRange session.manager size.toNat start)
    (updated : ∀ other, busy next other = true ↔ busy session.manager other = true ∨
      ∃ c, c < size.toNat ∧ Aliased (start + c) other) :
    (session.granted size (blockAddress start, next)).Owned := by
  have bound := free.bound
  have size_positive := free.1
  have positive : 0 < start := by
    by_contra zero
    have first := (free.2 0 size_positive).2
    rw [show start + 0 = 0 by omega, owned.reserved] at first
    cases first
  have number := blockAddress_toNat (show start < 76800 by omega)
  have frame : (⟨blockAddress start, size⟩ : Allocation).frame = start := by
    simp only [Allocation.frame, number]
    omega
  have address : blockAddress start ≠ 0 := blockAddress_ne_zero positive (by omega)
  have owns : ∀ other, (⟨blockAddress start, size⟩ : Allocation).Owns other →
      ∃ c, c < size.toNat ∧ other = start + c := by
    intro other held
    simp only [Allocation.Owns, frame] at held
    exact ⟨other - start, by omega, by omega⟩
  have unmarked : Disjoint (footprint ⟨blockAddress start, size⟩) (marks session.manager) := by
    rw [Set.disjoint_left]
    rintro unit ⟨other, held, rfl⟩ marked
    obtain ⟨c, upper, rfl⟩ := owns other held
    rw [aliasClass_mem_marks, (free.2 c upper).2] at marked
    cases marked
  have more : marks session.manager ⊆ marks next := by
    rintro unit ⟨other, marked, rfl⟩
    exact aliasClass_mem_marks.mpr ((updated other).mpr (Or.inl marked))
  have held : footprint ⟨blockAddress start, size⟩ ⊆ marks next := by
    rintro unit ⟨other, held, rfl⟩
    obtain ⟨c, upper, rfl⟩ := owns other held
    exact aliasClass_mem_marks.mpr ((updated _).mpr (Or.inr ⟨c, upper, rfl, rfl⟩))
  simp only [Session.granted, if_neg address]
  refine ⟨?_, ?_, ?_⟩
  · have granted := owned.exclusive.grant owned.marked unmarked
    exact granted.perm (List.Perm.swap _ _ _) fun separate => separate.symm
  · have granted := (owned.marked.mono more).grant held
    intro allocation member
    exact granted allocation (by
      simp only [List.mem_cons] at member ⊢
      exact or_left_comm.mp member)
  · intro allocation member
    rcases List.mem_cons.mp member with rfl | member
    · refine ⟨?_, ?_, ?_⟩ <;> rw [frame]
      · exact positive
      · exact bound
    · exact owned.placed allocation member

theorem Session.Owned.release {session : Session} (owned : session.Owned) {next : State}
    {allocation : Allocation} (member : allocation ∈ session.live)
    (updated : ∀ other, busy next other = true ↔ busy session.manager other = true ∧
      ∀ c, c < allocation.size.toNat → ¬ Aliased (allocation.frame + c) other) :
    (⟨next, session.live.erase allocation⟩ : Session).Owned := by
  have placed := owned.placed allocation member
  have different : reservation ≠ allocation := by
    rintro rfl
    exact absurd placed.positive (by decide)
  have erased : (reservation :: session.live).erase allocation =
      reservation :: session.live.erase allocation :=
    List.erase_cons_tail (by simpa using different)
  have cleared : marks session.manager \ footprint allocation ⊆ marks next := by
    rintro unit ⟨⟨other, marked, rfl⟩, outside⟩
    refine aliasClass_mem_marks.mpr ((updated other).mpr ⟨marked, ?_⟩)
    intro c upper aliased
    exact outside ⟨allocation.frame + c, ⟨by omega, by omega⟩, aliasClass_eq.mpr aliased⟩
  refine ⟨?_, ?_, ?_⟩
  · rw [← erased]
    exact owned.exclusive.release allocation
  · rw [← erased]
    exact (owned.marked.release owned.exclusive (List.mem_cons_of_mem _ member)).mono cleared
  · intro other remaining
    exact owned.placed other (List.mem_of_mem_erase remaining)

theorem Session.Owned.refused {session : Session} (owned : session.Owned) (size : BitVec 32) :
    (session.granted size (0, session.manager)).Owned := by
  simpa [Session.granted] using owned

theorem Session.Owned.allocBlock {session : Session} (owned : session.Owned)
    {result : BitVec 64 × State} (executed : mmgrAllocBlock session.manager = some result) :
    (session.granted 1 result).Owned := by
  obtain ⟨address, next⟩ := result
  rcases allocBlock_cases executed with ⟨rfl, rfl, _⟩ | ⟨block, h, candidate, _, _, rfl, rfl⟩
  · exact owned.refused 1
  · apply owned.grant
    · refine ⟨by decide, ?_⟩
      intro c upper
      have first : c = 0 := by
        change c < 1 at upper
        omega
      subst c
      exact ⟨h, candidate.not_busy⟩
    · intro other
      have set : mmgrSetBlock session.manager block = some _ := setBlock_eq.mpr ⟨h, rfl⟩
      have marked := busy_setBlock set other
      simp [taken, marked]

theorem Session.Owned.allocSizeBlocks {session : Session} (owned : session.Owned) {size : BitVec 32}
    {result : BitVec 64 × State} (executed : mmgrAllocSizeBlocks session.manager size = some result) :
    (session.granted size result).Owned := by
  obtain ⟨address, next⟩ := result
  rcases allocSizeBlocks_cases executed with ⟨rfl, rfl⟩ | ⟨start, marked, free, set, rfl, rfl⟩
  · exact owned.refused size
  · have bound := free.bound
    apply owned.grant free
    intro other
    have updated := busy_setBlocks (by omega) set other
    simpa using updated

theorem Allocation.Placed.block {allocation : Allocation} (placed : allocation.Placed) :
    toInt32 (allocation.address / blockSize) = allocation.frame := by
  have bound := placed.bound
  have positive := placed.positive
  by_cases empty : allocation.frame < 76800
  · have divided : allocation.address / blockSize = BitVec.ofNat 64 allocation.frame := by
      apply BitVec.eq_of_toNat_eq
      rw [BitVec.toNat_udiv, BitVec.toNat_ofNat]
      change allocation.frame = allocation.frame % 2 ^ 64
      omega
    rw [divided, toInt32_ofNat empty]
  · have last : allocation.frame = 76800 := by omega
    have address := placed.address
    rw [last] at address ⊢
    rw [address]
    decide

theorem Allocation.Placed.address_ne_zero {allocation : Allocation} (placed : allocation.Placed) :
    allocation.address ≠ 0 := by
  intro zero
  have positive := placed.positive
  rw [Allocation.frame, zero] at positive
  exact absurd positive (by decide)

theorem Session.Owned.freeBlock {session : Session} (owned : session.Owned) {p : BitVec 64} {next : State}
    (member : ⟨p, 1⟩ ∈ session.live) (executed : mmgrFreeBlock session.manager p = some next) :
    (⟨next, session.live.erase ⟨p, 1⟩⟩ : Session).Owned := by
  have placed := owned.placed _ member
  have block := placed.block
  dsimp only at block
  rw [mmgrFreeBlock, if_neg placed.address_ne_zero, block] at executed
  simp only [Option.bind_eq_bind, Option.bind_eq_some_iff] at executed
  obtain ⟨cleared, unset, executed⟩ := executed
  cases executed
  apply owned.release member
  intro other
  have kept := busy_unsetBlock unset other
  simp [kept]

theorem Session.Owned.freeSizeBlocks {session : Session} (owned : session.Owned) {p : BitVec 64}
    {size : BitVec 32} {next : State} (member : ⟨p, size⟩ ∈ session.live)
    (executed : mmgrFreeSizeBlocks session.manager p size = some next) :
    (⟨next, session.live.erase ⟨p, size⟩⟩ : Session).Owned := by
  have placed := owned.placed _ member
  have bound := placed.bound
  have block := placed.block
  dsimp only at block bound
  rw [mmgrFreeSizeBlocks, if_neg placed.address_ne_zero, block, size_toInt (by omega)] at executed
  simp only [Option.bind_eq_bind, Option.bind_eq_some_iff] at executed
  obtain ⟨cleared, unset, executed⟩ := executed
  cases executed
  apply owned.release member
  intro other
  have kept := busy_unsetBlocks unset other
  simpa using kept

theorem step_cases {session next : Session} {call : Call} (stepped : step session call = some next) :
    (∃ result, mmgrAllocBlock session.manager = some result ∧ next = session.granted 1 result) ∨
    (∃ size result, mmgrAllocSizeBlocks session.manager size = some result ∧ next = session.granted size result) ∨
    (∃ p manager, ⟨p, 1⟩ ∈ session.live ∧ mmgrFreeBlock session.manager p = some manager ∧
      next = ⟨manager, session.live.erase ⟨p, 1⟩⟩) ∨
    ∃ p size manager, ⟨p, size⟩ ∈ session.live ∧ mmgrFreeSizeBlocks session.manager p size = some manager ∧
      next = ⟨manager, session.live.erase ⟨p, size⟩⟩ := by
  cases call with
  | allocBlock =>
    simp only [step, Option.bind_eq_bind, Option.bind_eq_some_iff] at stepped
    obtain ⟨result, executed, stepped⟩ := stepped
    cases stepped
    exact Or.inl ⟨result, executed, rfl⟩
  | allocSizeBlocks size =>
    simp only [step, Option.bind_eq_bind, Option.bind_eq_some_iff] at stepped
    obtain ⟨result, executed, stepped⟩ := stepped
    cases stepped
    exact Or.inr (Or.inl ⟨size, result, executed, rfl⟩)
  | freeBlock p =>
    simp only [step, Option.bind_eq_bind, Option.ite_none_right_eq_some, Option.bind_eq_some_iff] at stepped
    obtain ⟨member, manager, executed, stepped⟩ := stepped
    cases stepped
    exact Or.inr (Or.inr (Or.inl ⟨p, manager, member, executed, rfl⟩))
  | freeSizeBlocks p size =>
    simp only [step, Option.bind_eq_bind, Option.ite_none_right_eq_some, Option.bind_eq_some_iff] at stepped
    obtain ⟨member, manager, executed, stepped⟩ := stepped
    cases stepped
    exact Or.inr (Or.inr (Or.inr ⟨p, size, manager, member, executed, rfl⟩))

theorem step_preserves_owned (session : Session) (call : Call) (next : Session) (owned : session.Owned)
    (stepped : step session call = some next) : next.Owned := by
  rcases step_cases stepped with ⟨result, executed, rfl⟩ | ⟨size, result, executed, rfl⟩ |
    ⟨p, manager, member, executed, rfl⟩ | ⟨p, size, manager, member, executed, rfl⟩
  · exact owned.allocBlock executed
  · exact owned.allocSizeBlocks executed
  · exact owned.freeBlock member executed
  · exact owned.freeSizeBlocks member executed

theorem initial_owned {manager : State} (reserved : busy manager 0 = true) :
    (⟨manager, []⟩ : Session).Owned := by
  refine ⟨List.pairwise_singleton _ _, ?_, by simp⟩
  intro allocation member
  have same : allocation = reservation := by simpa using member
  subst same
  rw [footprint_reservation]
  rintro unit rfl
  exact aliasClass_mem_marks.mpr reserved

/-- No frame ever belongs to two live allocations. -/
theorem live_allocations_disjoint (manager : State) (reserved : busy manager 0 = true)
    (calls : List Call) (final : Session) (executed : run step ⟨manager, []⟩ calls = some final) :
    final.live.Pairwise fun left right => ∀ frame, ¬ (left.Owns frame ∧ right.Owns frame) := by
  have owned := run_preserves Session.Owned step_preserves_owned
    (initial_owned reserved) executed
  refine (List.pairwise_cons.mp owned.exclusive).2.imp ?_
  rintro left right separate frame ⟨leftOwns, rightOwns⟩
  exact Set.disjoint_left.mp separate ⟨frame, leftOwns, rfl⟩ ⟨frame, rightOwns, rfl⟩

def twoWords : State := ⟨fun index => if index = 0 then 1 else 0, 1, 128⟩

theorem two_words_disjoint :
    ∃ final, run step ⟨twoWords, []⟩
        [.allocBlock, .allocSizeBlocks 40, .freeBlock 0x1000, .allocBlock] = some final ∧
      final.live = [⟨0x1000, 1⟩, ⟨0x22000, 40⟩] ∧
      final.live.Pairwise fun left right => ∀ frame, ¬ (left.Owns frame ∧ right.Owns frame) := by
  have ledger : (run step ⟨twoWords, []⟩
      [.allocBlock, .allocSizeBlocks 40, .freeBlock 0x1000, .allocBlock]).map Session.live =
        some [⟨0x1000, 1⟩, ⟨0x22000, 40⟩] := by decide +kernel
  obtain ⟨final, executed, live⟩ := Option.map_eq_some_iff.mp ledger
  exact ⟨final, executed, live, live_allocations_disjoint twoWords (by decide) _ final executed⟩

end Sbunix.Mmgr
