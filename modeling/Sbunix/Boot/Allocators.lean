import Mathlib.Order.WellFounded
import Sbunix.Boot.Init
import Sbunix.Library.Run

namespace Sbunix.Boot

open Library Mmgr Paging

inductive Call where
  | allocPage (page : BitVec 16)
  | allocBlock

def step (session : Session) : Call → Option Session
  | .allocPage page =>
    let (address, bump) := vmmgrAllocPage session.bump page
    some { session with bump, regions := session.regions ++ [(address, page)] }
  | .allocBlock => do
    let (_, mmgr, handed) ← allocBlock (session.mmgr, session.handed)
    return { session with mmgr, handed }

theorem step_allocPage (session : Session) (page : BitVec 16) :
    step session (.allocPage page) = some { session with
      bump := ⟨(vmmgrAllocPage session.bump page).1, page⟩
      regions := session.regions ++ [((vmmgrAllocPage session.bump page).1, page)] } := rfl

def Covers (region : BitVec 64 × BitVec 16) (address : BitVec 64) : Prop :=
  (region.1 - virtBase).toNat ≤ address.toNat ∧
    address.toNat < (region.1 - virtBase).toNat + 4096 * (region.2.toNat + 1)

/-- No frame of the one allocator lies in a region of the other. -/
def Session.Disjoint (session : Session) : Prop :=
  ∀ address ∈ session.handed, ∀ region ∈ session.regions, ¬ Covers region address

/-- The pages asked for, behind those of the last call, end before every frame behind `kphysfree` that `mm_phy_init`
    has left free. -/
def BelowFree (start : Mmgr.State) (kphysfree : BitVec 64) (session : Session) : Call → Prop
  | .allocPage page => ∀ block, Candidate start block → kphysfree.toNat < 4096 * block →
      session.bump.bumpAddr.toNat + 4096 * (session.bump.prevNoPages.toNat + 1) + 4096 * (page.toNat + 1) ≤
        0xFFFFFFFF80000000 + 4096 * block
  | .allocBlock => True

theorem reserveBlocks_candidate {s next : Mmgr.State} {i remaining : Nat} (bound : i + remaining ≤ 76800)
    (executed : reserveBlocks s i remaining = some next) {block : Nat} (candidate : Candidate next block) :
    Candidate s block ∧ ¬ (i ≤ block ∧ block < i + remaining) := by
  obtain ⟨other, same, counted, raised⟩ := reserveBlocks_spec s i remaining bound
  cases executed.symm.trans same
  rw [candidate_iff_raised] at candidate ⊢
  obtain ⟨low, inside, h, clear⟩ := candidate
  rw [counted.maxBlocks] at inside
  refine ⟨⟨low, inside, h, ?_⟩, ?_⟩
  · intro bit small reached marked
    exact clear bit small reached ((raised _ _ small).mpr (Or.inl marked))
  · intro reserved
    have reached : Reaches block ⟨block / 64, h⟩ (block % 32) := ⟨rfl, Or.inl rfl⟩
    exact clear (block % 32) (by omega) reached
      ((raised _ _ (by omega)).mpr (Or.inr ⟨block, reserved.1, reserved.2, reached⟩))

theorem mmPhyInit_reserved {s start : Mmgr.State} {smap : List SmapEntry} (executed : mmPhyInit s smap = some start)
    {block : Nat} (candidate : Candidate start block) : 1024 ≤ block := by
  simp only [mmPhyInit, Option.bind_eq_bind, Option.bind_eq_some_iff] at executed
  obtain ⟨_, _, _, _, cleared, _, reserving⟩ := executed
  have outside := (reserveBlocks_candidate (by decide) reserving candidate).2
  omega

/-- Block 0 is reserved, so `NULL` is never the address of a block that was taken. -/
theorem allocBlock_step {blocks next : Blocks} {address : BitVec 64}
    (reserved : ∀ block, Candidate blocks.1 block → 1024 ≤ block)
    (executed : allocBlock blocks = some (address, next)) :
    address = 0 ∧ next = blocks ∨
    ∃ block h, Candidate blocks.1 block ∧ (∀ other, other < block → ¬ Candidate blocks.1 other) ∧ address ≠ 0 ∧
      next = (taken blocks.1 block h, blocks.2 ++ [blockAddress block]) := by
  simp only [allocBlock, Option.bind_eq_bind, Option.bind_eq_some_iff, Prod.exists, Option.pure_def,
    Option.some.injEq] at executed
  obtain ⟨found, mmgr, allocated, equal⟩ := executed
  cases equal
  rcases allocBlock_cases allocated with ⟨rfl, rfl, _⟩ | ⟨block, h, candidate, least, _, rfl, rfl⟩
  · exact Or.inl ⟨rfl, rfl⟩
  · have early := reserved block candidate
    have nonnull := blockAddress_ne_zero (show 0 < block by omega) candidate.bound
    rw [if_neg nonnull]
    exact Or.inr ⟨block, h, candidate, least, nonnull, rfl⟩

structure Taken (start : Mmgr.State) (blocks : Blocks) : Prop where
  reserved : ∀ block, Candidate start block → 1024 ≤ block
  handed : ∀ address ∈ blocks.2, ∃ block, Candidate start block ∧ address = blockAddress block
  free : ∀ block, Candidate blocks.1 block → Candidate start block ∧
    ∀ address ∈ blocks.2, address.toNat < 4096 * block
  missing : ∀ block, Candidate start block → Candidate blocks.1 block ∨ blockAddress block ∈ blocks.2
  sorted : blocks.2.Pairwise fun left right => left.toNat < right.toNat

theorem Taken.alloc {start : Mmgr.State} {blocks next : Blocks} {address : BitVec 64} (taken : Taken start blocks)
    (executed : allocBlock blocks = some (address, next)) :
    Taken start next ∧ next.2.length = if address = 0 then blocks.2.length else blocks.2.length + 1 := by
  have reserved : ∀ block, Candidate blocks.1 block → 1024 ≤ block :=
    fun block candidate => taken.reserved block (taken.free block candidate).1
  rcases allocBlock_step reserved executed with ⟨rfl, rfl⟩ | ⟨block, h, candidate, least, nonnull, rfl⟩
  · exact ⟨taken, rfl⟩
  have number := blockAddress_toNat candidate.bound
  rw [if_neg nonnull]
  refine ⟨⟨taken.reserved, ?_, ?_, ?_, ?_⟩, List.length_append⟩
  · intro address member
    rcases List.mem_append.mp member with member | member
    · exact taken.handed address member
    · exact ⟨block, (taken.free block candidate).1, List.mem_singleton.mp member⟩
  · intro other later
    obtain ⟨earlier, different⟩ := (candidate_taken h candidate.1 other).mp later
    have order : ¬ other < block := fun below => least other below earlier
    refine ⟨(taken.free other earlier).1, ?_⟩
    intro address member
    rcases List.mem_append.mp member with member | member
    · exact (taken.free other earlier).2 address member
    · rw [List.mem_singleton.mp member, number]
      omega
  · intro other was
    rcases taken.missing other was with still | gone
    · by_cases same : other = block
      · exact Or.inr (List.mem_append_right _ (List.mem_singleton.mpr (congrArg blockAddress same)))
      · exact Or.inl ((candidate_taken h candidate.1 other).mpr ⟨still, same⟩)
    · exact Or.inr (List.mem_append_left _ gone)
  · rw [List.pairwise_append]
    refine ⟨taken.sorted, List.pairwise_singleton _ _, ?_⟩
    intro left member right last
    rw [List.mem_singleton.mp last, number]
    have before := (taken.free block candidate).2 left member
    omega

structure FirstFree (start : Mmgr.State) (kphysfree : BitVec 64) (first : Nat) : Prop where
  candidate : Candidate start first
  behind : kphysfree.toNat < 4096 * first
  least : ∀ block, Candidate start block → kphysfree.toNat < 4096 * block → first ≤ block

/-- The regions follow one another behind `kphysfree` and end before the first free frame, which
    `vmmgr_init` has taken. -/
structure Apart (start : Mmgr.State) (kphysfree : BitVec 64) (first : Nat) (session : Session) : Prop where
  handed : ∀ address ∈ session.handed, ∃ block, Candidate start block ∧ address = blockAddress block
  free : ∀ block, Candidate session.mmgr block → Candidate start block
  taken : blockAddress first ∈ session.handed
  cursor : 0xFFFFFFFF80000000 + kphysfree.toNat ≤ session.bump.bumpAddr.toNat ∧
    session.bump.bumpAddr.toNat + 4096 + 4096 * session.bump.prevNoPages.toNat ≤ 0xFFFFFFFF80000000 + 4096 * first
  regions : ∀ region ∈ session.regions, 0xFFFFFFFF80000000 + kphysfree.toNat + 4096 ≤ region.1.toNat ∧
    region.1.toNat + 4096 * (region.2.toNat + 1) ≤ 0xFFFFFFFF80000000 + 4096 * first

theorem vmmgrInit_apart {smap : List SmapEntry} {start : Mmgr.State} {kphysfree : BitVec 64} {m next : Memory}
    {session : Session} (initialised : mmPhyInit bootState smap = some start)
    (booted : vmmgrInit kphysfree m start = some (next, session)) (aligned : kphysfree.toNat % 4096 = 0)
    (high : kphysfree.toNat ≤ 0x400000) :
    ∃ first, FirstFree start kphysfree first ∧ Apart start kphysfree first session := by
  simp only [vmmgrInit, Option.bind_eq_bind, Option.bind_eq_some_iff, Prod.exists, Option.pure_def,
    Option.some.injEq] at booted
  obtain ⟨tables, mmgr, handed, initial, synced, syncing, equal⟩ := booted
  cases equal
  have begun : Taken start (start, []) := by
    refine ⟨fun block => mmPhyInit_reserved initialised, ?_, ?_, ?_, List.Pairwise.nil⟩
    · exact fun address member => absurd member List.not_mem_nil
    · exact fun block candidate => ⟨candidate, fun address member => absurd member List.not_mem_nil⟩
    · exact fun block candidate => Or.inl candidate
  have taken : Taken start (mmgr, handed) ∧ 2 ≤ handed.length := by
    refine initTables_preserves (fun blocks => Taken start blocks ∧ 2 ≤ blocks.2.length) ?_ ?_ initial
    · intro source address next holds allocated
      obtain ⟨taken, length⟩ := holds.1.alloc allocated
      refine ⟨taken, ?_⟩
      have enough := holds.2
      split at length <;> omega
    · intro pml4table left table nonnull dir next second present
      obtain ⟨taken, length⟩ := begun.alloc table
      obtain ⟨more, longer⟩ := taken.alloc second
      rw [if_neg nonnull] at length
      rw [if_neg present, length] at longer
      exact ⟨more, Nat.le_of_eq longer.symm⟩
  obtain ⟨taken, two⟩ := taken
  obtain ⟨earlier, later, rest, shape⟩ : ∃ earlier later rest, handed = earlier :: later :: rest := by
    match handed, two with
    | earlier :: later :: rest, _ => exact ⟨earlier, later, rest, rfl⟩
  have laterListed : later ∈ handed := shape ▸ List.mem_cons_of_mem _ List.mem_cons_self
  obtain ⟨block, candidate, address⟩ := taken.handed later laterListed
  obtain ⟨before, beforeCandidate, beforeAddress⟩ := taken.handed earlier (shape ▸ List.mem_cons_self)
  have order : earlier.toNat < later.toNat := by
    have sorted := taken.sorted
    simp only [shape, List.pairwise_cons] at sorted
    exact sorted.1 later List.mem_cons_self
  rw [beforeAddress, address, blockAddress_toNat beforeCandidate.bound, blockAddress_toNat candidate.bound] at order
  have reserved := taken.reserved before beforeCandidate
  obtain ⟨first, ⟨firstCandidate, behind⟩, least⟩ := WellFounded.has_min Nat.lt_wfRel.wf
    {block | Candidate start block ∧ kphysfree.toNat < 4096 * block} ⟨block, candidate, by omega⟩
  have firstFree : FirstFree start kphysfree first :=
    ⟨firstCandidate, behind, fun other free after => Nat.le_of_not_lt (least other ⟨free, after⟩)⟩
  refine ⟨first, firstFree, taken.handed, ?_, ?_, ?_, fun region member => absurd member List.not_mem_nil⟩
  · intro other free
    exact (taken.free other (reserveBlocks_candidate (by decide) syncing free).1).1
  · rcases taken.missing first firstCandidate with still | gone
    · have passed := (taken.free first still).2 later laterListed
      have minimal := firstFree.least block candidate (by omega)
      rw [address, blockAddress_toNat candidate.bound] at passed
      omega
    · exact gone
  · have small := firstCandidate.bound
    have value : (initBumpAddr kphysfree).bumpAddr.toNat = 0xFFFFFFFF80000000 + kphysfree.toNat := by
      change (0xFFFFFFFF80000000 + kphysfree).toNat = _
      rw [BitVec.toNat_add]
      change (0xFFFFFFFF80000000 + kphysfree.toNat) % 2 ^ 64 = _
      omega
    rw [value]
    change _ ∧ 0xFFFFFFFF80000000 + kphysfree.toNat + 4096 + 4096 * 0 ≤ _
    omega

section Step

variable {start : Mmgr.State} {kphysfree : BitVec 64} {first : Nat} {session next : Session}
  (firstFree : FirstFree start kphysfree first) (apart : Apart start kphysfree first session)

theorem physical_toNat {address : BitVec 64} {low : Nat} (kernel : 0xFFFFFFFF80000000 + low + 4096 ≤ address.toNat) :
    (address - virtBase).toNat = address.toNat - 0xFFFFFFFF80000000 := by
  have bound := address.isLt
  rw [BitVec.toNat_sub]
  change (2 ^ 64 - 0xFFFFFFFF80000000 + address.toNat) % 2 ^ 64 = _
  omega

include firstFree

theorem Apart.disjoint (apart : Apart start kphysfree first session) : session.Disjoint := by
  intro address member region listed covered
  obtain ⟨block, candidate, rfl⟩ := apart.handed address member
  obtain ⟨low, high⟩ := apart.regions region listed
  have physical := physical_toNat low
  obtain ⟨above, below⟩ := covered
  rw [physical, blockAddress_toNat candidate.bound] at above below
  have minimal := firstFree.least block candidate (by omega)
  omega

include apart

theorem Apart.next_region (page : BitVec 16) :
    (vmmgrAllocPage session.bump page).1.toNat =
      session.bump.bumpAddr.toNat + 4096 + 4096 * session.bump.prevNoPages.toNat := by
  have small := firstFree.candidate.bound
  have high := apart.cursor.2
  exact vmmgrAllocPage_toNat page (by omega)

theorem Apart.step {call : Call} (admitted : BelowFree start kphysfree session call)
    (executed : step session call = some next) : Apart start kphysfree first next := by
  cases call with
  | allocPage page =>
    rw [step_allocPage] at executed
    have begins := apart.next_region firstFree page
    have low := apart.cursor.1
    have inside := admitted first firstFree.candidate firstFree.behind
    generalize (vmmgrAllocPage session.bump page).1 = address at executed begins
    cases executed
    refine ⟨apart.handed, apart.free, apart.taken, ?_, ?_⟩
    · dsimp only
      omega
    · intro region member
      rcases List.mem_append.mp member with member | member
      · exact apart.regions region member
      · rw [List.mem_singleton.mp member]
        dsimp only
        omega
  | allocBlock =>
    simp only [Boot.step, allocBlock, Option.bind_eq_bind, Option.bind_eq_some_iff, Prod.exists, Option.pure_def,
      Option.some.injEq] at executed
    obtain ⟨_, mmgr, handed, ⟨address, state, allocated, equal⟩, equal'⟩ := executed
    cases equal
    cases equal'
    rcases allocBlock_cases allocated with ⟨rfl, rfl, _⟩ | ⟨block, h, candidate, _, _, rfl, rfl⟩
    · exact apart
    · refine ⟨?_, ?_, ?_, apart.cursor, apart.regions⟩
      · intro address member
        dsimp only at member
        split at member
        · exact apart.handed address member
        · rcases List.mem_append.mp member with member | member
          · exact apart.handed address member
          · exact ⟨block, apart.free block candidate, List.mem_singleton.mp member⟩
      · intro other free
        exact apart.free other ((candidate_taken h candidate.1 other).mp free).1
      · dsimp only
        split
        · exact apart.taken
        · exact List.mem_append_left _ apart.taken

/-- A region that reaches past the first free frame covers it. -/
theorem Apart.broken {call : Call} (refused : ¬ BelowFree start kphysfree session call)
    (executed : Boot.step session call = some next) : ¬ next.Disjoint := by
  cases call with
  | allocBlock => exact absurd trivial refused
  | allocPage page =>
    rw [step_allocPage] at executed
    intro disjoint
    have begins := apart.next_region firstFree page
    obtain ⟨low, high⟩ := apart.cursor
    apply refused
    intro block candidate behind
    have minimal := firstFree.least block candidate behind
    by_contra longer
    generalize (vmmgrAllocPage session.bump page).1 = address at executed begins
    cases executed
    have physical := @physical_toNat address kphysfree.toNat (by omega)
    refine disjoint _ apart.taken _ (List.mem_append_right _ (List.mem_singleton.mpr rfl)) ?_
    unfold Covers
    dsimp only
    rw [physical, blockAddress_toNat firstFree.candidate.bound]
    omega

end Step

/-- After boot the two allocators hand out different memory exactly as long as every region of
    `vmmgr_alloc_page` ends before the frames that `mm_phy_init` has left free. -/
theorem allocators_disjoint_iff (smap : List SmapEntry) (kphysfree : BitVec 64) (memory tables : Memory)
    (start : Mmgr.State) (session final : Session) (calls : List Call) (aligned : kphysfree.toNat % 4096 = 0)
    (high : kphysfree.toNat ≤ 0x400000) (initialised : mmPhyInit bootState smap = some start)
    (booted : vmmgrInit kphysfree memory start = some (tables, session))
    (executed : run step session calls = some final) :
    Throughout step Session.Disjoint session calls ↔ Admitted step (BelowFree start kphysfree) session calls := by
  obtain ⟨first, firstFree, apart⟩ := vmmgrInit_apart initialised booted aligned high
  apply throughout_iff_admitted (Apart start kphysfree first) Session.Disjoint
  · exact fun state call next apart admitted => apart.step firstFree admitted
  · exact fun state apart => apart.disjoint firstFree
  · exact fun state call next apart refused => apart.broken firstFree refused
  · exact apart
  · exact executed

def fullMap : List SmapEntry := [⟨0, 0x12C00000, mmPhyUsable⟩]

theorem fullMap_valid : ValidMap fullMap := by
  constructor <;> simp [fullMap, mmPhyUsable]

theorem fullMap_blocks : usableBlocks fullMap = 76800 := by decide

/-- After `calls` allocations from the full map, the blocks of the lower halves are free from that rank on. -/
structure Sequential (calls : Nat) (s : Mmgr.State) : Prop where
  maxBlocks : s.maxBlocks = 76800
  usedBlocks : s.usedBlocks = BitVec.ofNat 64 (1024 + calls)
  candidate_iff : ∀ block, Candidate s block ↔
    block % 64 < 32 ∧ block < 76800 ∧ 512 + calls ≤ 32 * (block / 64) + block % 64

theorem Initialised.sequential {s : Mmgr.State} (initialised : Initialised fullMap s) : Sequential 0 s := by
  refine ⟨?_, initialised.usedBlocks, ?_⟩
  · rw [initialised.maxBlocks, fullMap_blocks]
    rfl
  · intro block
    rw [initialised.candidate_iff fullMap_valid, fullMap_blocks]
    constructor
    · rintro ⟨above, below, low, _⟩
      omega
    · rintro ⟨low, below, above⟩
      refine ⟨by omega, by omega, low, fun _ => Or.inl ?_⟩
      refine ⟨_, List.mem_singleton.mpr rfl, rfl, Nat.zero_le _, ?_⟩
      change 4096 * block + 4096 ≤ 0 + 0x12C00000
      omega

def lowerBlock (rank : Nat) : Nat := 64 * (rank / 32) + rank % 32

theorem Sequential.alloc {calls : Nat} {s : Mmgr.State} (sequential : Sequential calls s) (left : calls < 37888) :
    ∃ next, mmgrAllocBlock s = some (blockAddress (lowerBlock (512 + calls)), next) ∧ Sequential (calls + 1) next := by
  have words : (s.maxBlocks / 64).toNat = 1200 := by
    rw [sequential.maxBlocks]
    decide
  have first : Candidate s (lowerBlock (512 + calls)) := by
    rw [sequential.candidate_iff, lowerBlock]
    omega
  obtain ⟨address, next, allocated⟩ := allocBlock_total (Nat.le_of_eq words)
  rcases allocBlock_cases allocated with ⟨_, _, refused⟩ | ⟨block, h, candidate, least, _, rfl, rfl⟩
  · exfalso
    rcases refused with empty | none
    · have value := congrArg BitVec.toNat empty
      rw [getTotalUsableBlocks, getTotalBlocks, getUsedBlocks, sequential.maxBlocks, sequential.usedBlocks,
        BitVec.toNat_sub, BitVec.toNat_ofNat] at value
      change (2 ^ 64 - (1024 + calls) % 2 ^ 64 + 76800) % 2 ^ 64 = 0 at value
      omega
    · exact none _ first
  · have place := (sequential.candidate_iff block).mp candidate
    have rank : block = lowerBlock (512 + calls) := by
      have notBelow : ¬ lowerBlock (512 + calls) < block := fun below => least _ below first
      rw [lowerBlock] at notBelow ⊢
      omega
    refine ⟨taken s block h, by rw [← rank, allocated], sequential.maxBlocks, ?_, ?_⟩
    · change s.usedBlocks + 1 = _
      rw [sequential.usedBlocks]
      bv_omega
    · intro other
      rw [candidate_taken h candidate.1, sequential.candidate_iff]
      rw [lowerBlock] at rank
      omega

theorem Sequential.takes {calls : Nat} {s : Mmgr.State} (sequential : Sequential calls s) (left : calls < 37888)
    (handed : List (BitVec 64)) :
    ∃ next, allocBlock (s, handed) = some (blockAddress (lowerBlock (512 + calls)), next) ∧
      Sequential (calls + 1) next.1 := by
  obtain ⟨next, allocated, following⟩ := sequential.alloc left
  let address := blockAddress (lowerBlock (512 + calls))
  refine ⟨(next, if address = 0 then handed else handed ++ [address]), ?_, following⟩
  rw [allocBlock, allocated]
  rfl

theorem Sequential.supplies {calls : Nat} {s : Mmgr.State} (sequential : Sequential calls s) {n : Nat}
    (enough : calls + n ≤ 37888) (handed : List (BitVec 64)) : Supplies allocBlock n (s, handed) := by
  induction n generalizing calls s handed with
  | zero => trivial
  | succ n ih =>
    obtain ⟨next, allocated, following⟩ := sequential.takes (by omega) handed
    have range : 1024 ≤ lowerBlock (512 + calls) ∧ lowerBlock (512 + calls) < 76800 := by
      rw [lowerBlock]
      omega
    have number := blockAddress_toNat range.2
    exact ⟨_, next, allocated, frameOf_ne_zero (by omega) (by omega), ih following (by omega) _⟩

theorem fullMap_boots : ∃ start tables session, mmPhyInit bootState fullMap = some start ∧
    vmmgrInit 0x200000 (fun _ => 0) start = some (tables, session) ∧
    session.bump = initBumpAddr 0x200000 ∧ Candidate start 1024 := by
  obtain ⟨start, executed, initialised⟩ := mmPhyInit_valid fullMap_valid
  have sequential := Initialised.sequential initialised
  have zero : Sound fun _ => 0 := fun _ present => absurd (BitVec.zero_and) present
  obtain ⟨tables, ⟨mmgr, handed⟩, built⟩ := initTables_supplied zero (sequential.supplies (by decide) [])
  obtain ⟨synced, syncing, _⟩ := reserveBlocks_spec mmgr 512 (myKernelSize * 256 - 512) (by decide)
  refine ⟨start, tables, ⟨synced, handed, initBumpAddr 0x200000, []⟩, executed, ?_, rfl, ?_⟩
  · rw [vmmgrInit, built, Option.bind_eq_bind, Option.bind_some]
    dsimp only
    rw [mmgrSyncwithKernel, syncing]
    rfl
  · rw [sequential.candidate_iff]
    decide

theorem ten_pages_disjoint : ∃ start tables session, mmPhyInit bootState fullMap = some start ∧
    vmmgrInit 0x200000 (fun _ => 0) start = some (tables, session) ∧
    Throughout step Session.Disjoint session [.allocPage 3, .allocPage 5] := by
  obtain ⟨start, tables, session, initialised, booted, bump, _⟩ := fullMap_boots
  refine ⟨start, tables, session, initialised, booted, ?_⟩
  have room {block : Nat} (candidate : Candidate start block) :
      0xFFFFFFFF80400000 ≤ 0xFFFFFFFF80000000 + 4096 * block := by
    have reserved := mmPhyInit_reserved initialised candidate
    omega
  refine (allocators_disjoint_iff fullMap 0x200000 (fun _ => 0) tables start session _ [.allocPage 3, .allocPage 5]
    (by decide) (by decide) initialised booted rfl).mpr ⟨?_, ?_⟩
  · intro block candidate _
    refine Nat.le_trans ?_ (room candidate)
    rw [bump]
    decide
  · intro next executed
    rw [step_allocPage, bump] at executed
    cases executed
    refine ⟨?_, fun _ _ => trivial⟩
    intro block candidate _
    refine Nat.le_trans ?_ (room candidate)
    dsimp only
    decide

/-- 512 pages from the usual end of the kernel on cover the first frame that `vmmgr_init` takes. -/
theorem large_region_covers_table : ¬ ∀ (smap : List SmapEntry) (kphysfree : BitVec 64) (memory tables : Memory)
    (start : Mmgr.State) (session final : Session) (calls : List Call), kphysfree.toNat % 4096 = 0 →
    0x200000 ≤ kphysfree.toNat → kphysfree.toNat ≤ 0x400000 → mmPhyInit bootState smap = some start →
    vmmgrInit kphysfree memory start = some (tables, session) → run step session calls = some final →
    final.Disjoint := by
  intro always
  obtain ⟨start, tables, session, initialised, booted, bump, candidate⟩ := fullMap_boots
  have disjoint := always fullMap 0x200000 (fun _ => 0) tables start session _ [.allocPage 511] (by decide) (by decide)
    (by decide) initialised booted rfl
  obtain ⟨first, firstFree, apart⟩ := vmmgrInit_apart initialised booted (by decide) (by decide)
  refine apart.broken firstFree ?_ (step_allocPage session 511) disjoint
  intro below
  have reached := below 1024 candidate (by decide)
  rw [bump] at reached
  revert reached
  decide

end Sbunix.Boot
