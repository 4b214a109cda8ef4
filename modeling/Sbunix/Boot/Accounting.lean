import Sbunix.Boot.Allocators
import Sbunix.Mmgr.Capacity

namespace Sbunix.Boot

open Library Mmgr Paging

/-- Usable memory that starts at 0, apart from holes below 1 MiB, and ends at 48 MiB or above. -/
structure FromZero (smap : List SmapEntry) (top : Nat) : Prop where
  count : smap.length ≤ 10
  aligned : ∀ entry ∈ smap, entry.base.toNat % 4096 = 0 ∧ entry.length.toNat % 4096 = 0
  usable : ∀ frame, 256 ≤ frame → (UsableFrame smap frame ↔ frame < top)
  large : 12288 ≤ top

section Counters

variable {s next : Mmgr.State}

theorem unsetBlock_counted {bit : Int} (executed : mmgrUnsetBlock s bit = some next) :
    Counted s next s.usedBlocks := by
  simp only [mmgrUnsetBlock, Option.bind_eq_bind, Option.bind_eq_some_iff] at executed
  obtain ⟨index, _, executed⟩ := executed
  cases executed
  exact ⟨rfl, rfl⟩

theorem memsetMap_counted {c : BitVec 8} {p n : Nat} (executed : memsetMap s c p n = some next) :
    Counted s next s.usedBlocks := by
  induction n generalizing s p with
  | zero =>
    cases executed
    exact ⟨rfl, rfl⟩
  | succ n ih =>
    rw [memsetMap] at executed
    split at executed
    · have later := ih executed
      exact ⟨later.maxBlocks, later.usedBlocks⟩
    · cases executed

theorem initBlocks_counted {blockNo : BitVec 64} {blocks : Nat} (executed : initBlocks s blockNo blocks = some next) :
    Counted s next (s.usedBlocks - BitVec.ofNat 64 blocks) := by
  induction blocks generalizing s blockNo with
  | zero =>
    cases executed
    exact ⟨rfl, (BitVec.sub_zero _).symm⟩
  | succ blocks ih =>
    simp only [initBlocks, Option.bind_eq_bind, Option.bind_eq_some_iff] at executed
    obtain ⟨unset, first, rest⟩ := executed
    have counted := unsetBlock_counted first
    have later := ih rest
    refine ⟨later.maxBlocks.trans counted.maxBlocks, later.usedBlocks.trans ?_⟩
    change unset.usedBlocks - 1 - _ = _
    rw [counted.usedBlocks, Nat.add_comm blocks 1, BitVec.ofNat_add]
    bv_omega

/-- The loop has a result only where every block lies in the bitmap. -/
theorem initBlocks_inside {blockNo : BitVec 64} {blocks : Nat} (executed : initBlocks s blockNo blocks = some next)
    {j : Nat} (inside : j < blocks) : (wordIndex (toInt32 (blockNo + BitVec.ofNat 64 j))).isSome = true := by
  induction blocks generalizing s blockNo j with
  | zero => cases inside
  | succ blocks ih =>
    simp only [initBlocks, Option.bind_eq_bind, Option.bind_eq_some_iff] at executed
    obtain ⟨unset, first, rest⟩ := executed
    cases j with
    | zero =>
      simp only [mmgrUnsetBlock, Option.bind_eq_bind, Option.bind_eq_some_iff] at first
      obtain ⟨index, located, _⟩ := first
      rw [BitVec.add_zero, located]
      rfl
    | succ j =>
      have later := ih rest (Nat.lt_of_succ_lt_succ inside)
      rwa [BitVec.add_assoc, show (1 : BitVec 64) = BitVec.ofNat 64 1 from rfl, ← BitVec.ofNat_add,
        Nat.add_comm 1 j] at later

theorem regions_counted {entries : List SmapEntry}
    (executed : entries.foldlM (fun s entry => mmgrPhyInitRegions s entry.base entry.length) s = some next) :
    Counted s next (s.usedBlocks - BitVec.ofNat 64 (entries.map fun entry => entry.length.toNat / 4096).sum) ∧
      ∀ entry ∈ entries, ∃ before after, mmgrPhyInitRegions before entry.base entry.length = some after := by
  induction entries generalizing s with
  | nil =>
    cases executed
    exact ⟨⟨rfl, (BitVec.sub_zero _).symm⟩, fun entry member => absurd member List.not_mem_nil⟩
  | cons entry entries ih =>
    simp only [List.foldlM_cons, Option.bind_eq_bind, Option.bind_eq_some_iff] at executed
    obtain ⟨middle, first, rest⟩ := executed
    obtain ⟨later, others⟩ := ih rest
    have counted := initBlocks_counted first
    refine ⟨⟨later.maxBlocks.trans counted.maxBlocks, later.usedBlocks.trans ?_⟩, ?_⟩
    · have quotient : (entry.length / blockSize).toNat = entry.length.toNat / 4096 := by
        rw [BitVec.toNat_udiv]
        rfl
      rw [counted.usedBlocks, quotient, List.map_cons, List.sum_cons, BitVec.ofNat_add]
      bv_omega
    · intro other member
      rcases List.mem_cons.mp member with rfl | member
      · exact ⟨s, middle, first⟩
      · exact others other member

theorem collectEntry_collects {smap : List SmapEntry} {memory result : SystemMemory}
    (executed : smap.foldlM collectEntry memory = some result) :
    result.sysUsableMemory = memory.sysUsableMemory ++ (usableEntries smap).filter (fun entry => entry.length ≠ 0) ∧
      result.usableMemorySize = memory.usableMemorySize +
        BitVec.ofNat 64 ((usableEntries smap).map fun entry => entry.length.toNat).sum := by
  induction smap generalizing memory with
  | nil =>
    cases executed
    exact ⟨(List.append_nil _).symm, (BitVec.add_zero _).symm⟩
  | cons entry smap ih =>
    simp only [List.foldlM_cons, Option.bind_eq_bind, Option.bind_eq_some_iff] at executed
    obtain ⟨middle, first, rest⟩ := executed
    obtain ⟨entries, size⟩ := ih rest
    rw [entries, size]
    unfold collectEntry at first
    by_cases present : entry.length ≠ 0
    · rw [if_pos present] at first
      split at first
      · by_cases usable : entry.type = mmPhyUsable
        · simp only [if_pos usable] at first
          cases first
          have listed : usableEntries (entry :: smap) = entry :: usableEntries smap := by simp [usableEntries, usable]
          refine ⟨?_, ?_⟩
          · have kept : decide (entry.length ≠ 0) = true := decide_eq_true present
            rw [listed, List.filter_cons, if_pos kept, List.append_assoc]
            rfl
          · rw [listed, List.map_cons, List.sum_cons, BitVec.ofNat_add, BitVec.ofNat_toNat, BitVec.setWidth_eq,
              ← BitVec.add_assoc]
        · simp only [if_neg usable] at first
          cases first
          simp [usableEntries, usable]
      · cases first
    · rw [if_neg present] at first
      cases first
      rw [ne_eq, not_not] at present
      by_cases usable : entry.type = mmPhyUsable
      · simp [usableEntries, usable, present]
      · simp [usableEntries, usable]

end Counters

section Map

variable {smap : List SmapEntry} {top : Nat} {start : Mmgr.State}

/-- A map that `mm_phy_init` accepts ends within the 300 MiB that the bitmap covers. -/
theorem FromZero.top_le (map : FromZero smap top) (initialised : mmPhyInit bootState smap = some start) :
    top ≤ 76800 := by
  simp only [mmPhyInit, Option.bind_eq_bind, Option.bind_eq_some_iff] at initialised
  obtain ⟨memory, collected, filled, _, cleared, clearing, _⟩ := initialised
  obtain ⟨entries, _⟩ := collectEntry_collects collected
  obtain ⟨_, accepted⟩ := regions_counted clearing
  by_contra above
  obtain ⟨entry, member, usable, first, last⟩ := (map.usable 76800 (by decide)).mpr (by omega)
  have aligned := map.aligned entry member
  have listed : entry ∈ memory.sysUsableMemory := by
    rw [entries, List.nil_append, List.mem_filter]
    refine ⟨mem_usableEntries.mpr ⟨member, usable⟩, decide_eq_true ?_⟩
    intro zero
    rw [zero] at last
    change 4096 * 76800 + 4096 ≤ _ + 0 at last
    omega
  obtain ⟨before, after, executed⟩ := accepted entry listed
  have inside : 76800 - entry.base.toNat / 4096 < (entry.length / blockSize).toNat := by
    rw [BitVec.toNat_udiv]
    change _ < entry.length.toNat / 4096
    omega
  have reached := initBlocks_inside executed inside
  have block : entry.base / blockSize + BitVec.ofNat 64 (76800 - entry.base.toNat / 4096) = 76800 := by
    apply BitVec.eq_of_toNat_eq
    rw [BitVec.toNat_add, BitVec.toNat_udiv, BitVec.toNat_ofNat]
    change (entry.base.toNat / 4096 + (76800 - entry.base.toNat / 4096) % 2 ^ 64) % 2 ^ 64 = 76800
    omega
  rw [block] at reached
  revert reached
  decide

theorem FromZero.low (map : FromZero smap top) (initialised : mmPhyInit bootState smap = some start) :
    ∀ entry ∈ usableEntries smap, entry.length.toNat ≤ 300 * 2 ^ 20 := by
  have limit := map.top_le initialised
  intro entry member
  obtain ⟨listed, usable⟩ := mem_usableEntries.mp member
  have aligned := map.aligned entry listed
  by_contra long
  have last : UsableFrame smap ((entry.base.toNat + entry.length.toNat) / 4096 - 1) :=
    ⟨entry, listed, usable, by omega, by omega⟩
  have below := (map.usable _ (by omega)).mp last
  omega

theorem sum_le_of_forall {entries : List SmapEntry} (bound : ∀ entry ∈ entries, entry.length.toNat ≤ 300 * 2 ^ 20) :
    (entries.map fun entry => entry.length.toNat).sum ≤ entries.length * (300 * 2 ^ 20) := by
  induction entries with
  | nil => exact Nat.le_refl _
  | cons entry entries ih =>
    have first := bound entry List.mem_cons_self
    have rest := ih fun other member => bound other (List.mem_cons_of_mem _ member)
    rw [List.map_cons, List.sum_cons, List.length_cons]
    omega

theorem present_blocks (entries : List SmapEntry) :
    ((entries.filter fun entry => entry.length ≠ 0).map fun entry => entry.length.toNat / 4096).sum =
      (entries.map fun entry => entry.length.toNat / 4096).sum := by
  induction entries with
  | nil => rfl
  | cons entry entries ih =>
    by_cases present : entry.length ≠ 0
    · have kept : decide (entry.length ≠ 0) = true := decide_eq_true present
      rw [List.filter_cons, if_pos kept, List.map_cons, List.map_cons, List.sum_cons, List.sum_cons, ih]
    · have dropped : ¬ decide (entry.length ≠ 0) = true := fun kept => present (of_decide_eq_true kept)
      rw [ne_eq, not_not] at present
      rw [List.filter_cons, if_neg dropped, ih, List.map_cons, List.sum_cons, present]
      exact (Nat.zero_add _).symm

/-- `mm_phy_init` counts the blocks down to none and then the first 1024 of them up again, usable or not. -/
theorem FromZero.counted (map : FromZero smap top) (initialised : mmPhyInit bootState smap = some start) :
    start.maxBlocks = BitVec.ofNat 64 (usableBlocks smap) ∧ usableBlocks smap < 2 ^ 32 ∧ start.usedBlocks = 1024 := by
  have low := sum_le_of_forall (map.low initialised)
  have few : (usableEntries smap).length ≤ 10 := (List.length_filter_le _ _).trans map.count
  have bytes := usableBlocks_bytes fun entry (member : entry ∈ usableEntries smap) =>
    (map.aligned entry (mem_usableEntries.mp member).1).2
  change _ = 4096 * usableBlocks smap at bytes
  have small : 4096 * usableBlocks smap ≤ 10 * (300 * 2 ^ 20) := by
    rw [← bytes]
    exact low.trans (Nat.mul_le_mul_right _ few)
  simp only [mmPhyInit, Option.bind_eq_bind, Option.bind_eq_some_iff] at initialised
  obtain ⟨memory, collected, filled, filling, cleared, clearing, reserving⟩ := initialised
  obtain ⟨entries, size⟩ := collectEntry_collects collected
  have maxBlocks : memory.usableMemorySize / blockSize = BitVec.ofNat 64 (usableBlocks smap) := by
    apply BitVec.eq_of_toNat_eq
    rw [size, bytes, BitVec.toNat_udiv, BitVec.toNat_add, BitVec.toNat_ofNat, BitVec.toNat_ofNat]
    change (0 + 4096 * usableBlocks smap % 2 ^ 64) % 2 ^ 64 / 4096 = _
    omega
  have fillCounted := memsetMap_counted filling
  obtain ⟨clearCounted, _⟩ := regions_counted clearing
  obtain ⟨other, same, counted, _⟩ := reserveBlocks_spec cleared 0 1024 (by decide)
  cases reserving.symm.trans same
  rw [maxBlocks] at fillCounted
  refine ⟨?_, by omega, ?_⟩
  · rw [counted.maxBlocks, clearCounted.maxBlocks, fillCounted.maxBlocks]
  · rw [counted.usedBlocks, clearCounted.usedBlocks, fillCounted.usedBlocks, entries, List.nil_append, present_blocks]
    change BitVec.ofNat 64 (usableBlocks smap) - BitVec.ofNat 64 (usableBlocks smap) + 1024 = 1024
    rw [BitVec.sub_self]
    rfl

end Map

def Reserved (frame : Nat) : Prop := frame < 1024 ∨ 512 ≤ frame ∧ frame < myKernelSize * 256

instance (frame : Nat) : Decidable (Reserved frame) := inferInstanceAs (Decidable (_ ∨ _))

def usableFrames (smap : List SmapEntry) : Finset Nat := (Finset.range (2 ^ 52)).filter (UsableFrame smap)

def heldFrames (smap : List SmapEntry) (handed : List (BitVec 64)) : Finset Nat :=
  (usableFrames smap).filter fun frame => Reserved frame ∨ handed.contains (blockAddress frame)

def freeFrames (smap : List SmapEntry) (handed : List (BitVec 64)) : Finset Nat :=
  (usableFrames smap).filter fun frame => ¬ (Reserved frame ∨ handed.contains (blockAddress frame))

theorem held_add_free (smap : List SmapEntry) (handed : List (BitVec 64)) :
    (heldFrames smap handed).card + (freeFrames smap handed).card = (usableFrames smap).card :=
  Finset.card_filter_add_card_filter_not _

/-- The counter is ahead of the addresses returned by a fixed number of blocks. -/
structure Tallied (total base : Nat) (blocks : Blocks) : Prop where
  maxBlocks : blocks.1.maxBlocks = BitVec.ofNat 64 total
  usedBlocks : blocks.1.usedBlocks = BitVec.ofNat 64 (base + blocks.2.length)
  reserved : ∀ block, Candidate blocks.1 block → 1024 ≤ block
  frames : ∀ address ∈ blocks.2, ∃ block, block < 76800 ∧ address = blockAddress block
  fresh : ∀ block, Candidate blocks.1 block → blockAddress block ∉ blocks.2
  nodup : blocks.2.Nodup

variable {total base : Nat}

theorem Tallied.length_le {blocks : Blocks} (tallied : Tallied total base blocks) : blocks.2.length ≤ 76800 := by
  have inside : blocks.2.toFinset ⊆ (Finset.range 76800).image blockAddress := by
    intro address member
    obtain ⟨block, bound, rfl⟩ := tallied.frames address (List.mem_toFinset.mp member)
    exact Finset.mem_image_of_mem _ (Finset.mem_range.mpr bound)
  calc blocks.2.length = blocks.2.toFinset.card := (List.toFinset_card_of_nodup tallied.nodup).symm
    _ ≤ ((Finset.range 76800).image blockAddress).card := Finset.card_le_card inside
    _ ≤ (Finset.range 76800).card := Finset.card_image_le
    _ = 76800 := Finset.card_range _

theorem Tallied.alloc {blocks next : Blocks} {address : BitVec 64} (tallied : Tallied total base blocks)
    (executed : allocBlock blocks = some (address, next)) : Tallied total base next := by
  rcases allocBlock_step tallied.reserved executed with ⟨rfl, rfl⟩ | ⟨block, h, candidate, _, _, rfl⟩
  · exact tallied
  refine ⟨tallied.maxBlocks, ?_, ?_, ?_, ?_, ?_⟩
  · change blocks.1.usedBlocks + 1 = BitVec.ofNat 64 (base + (blocks.2 ++ [blockAddress block]).length)
    rw [tallied.usedBlocks, List.length_append, List.length_singleton, ← Nat.add_assoc, BitVec.ofNat_add _ 1]
    rfl
  · intro other later
    exact tallied.reserved other ((candidate_taken h candidate.1 other).mp later).1
  · intro address member
    rcases List.mem_append.mp member with member | member
    · exact tallied.frames address member
    · exact ⟨block, candidate.bound, List.mem_singleton.mp member⟩
  · intro other later member
    obtain ⟨earlier, different⟩ := (candidate_taken h candidate.1 other).mp later
    rcases List.mem_append.mp member with member | member
    · exact tallied.fresh other earlier member
    · exact different (blockAddress_injective earlier.bound candidate.bound (List.mem_singleton.mp member))
  · rw [List.nodup_append]
    refine ⟨tallied.nodup, List.nodup_singleton _, ?_⟩
    intro address member other last same
    rw [List.mem_singleton.mp last] at same
    exact tallied.fresh block candidate (same ▸ member)

theorem Tallied.reserve {mmgr next : Mmgr.State} {handed : List (BitVec 64)} {i remaining : Nat}
    (tallied : Tallied total base (mmgr, handed)) (bound : i + remaining ≤ 76800)
    (executed : reserveBlocks mmgr i remaining = some next) : Tallied total (base + remaining) (next, handed) := by
  obtain ⟨other, same, counted, _⟩ := reserveBlocks_spec mmgr i remaining bound
  cases executed.symm.trans same
  have earlier {block : Nat} (candidate : Candidate next block) : Candidate mmgr block :=
    (reserveBlocks_candidate bound executed candidate).1
  refine ⟨counted.maxBlocks.trans tallied.maxBlocks, ?_, ?_, tallied.frames, ?_, tallied.nodup⟩
  · rw [counted.usedBlocks, tallied.usedBlocks, ← BitVec.ofNat_add]
    congr 1
    change base + handed.length + remaining = base + remaining + handed.length
    omega
  · exact fun block candidate => tallied.reserved block (earlier candidate)
  · exact fun block candidate => tallied.fresh block (earlier candidate)

/-- `vmmgr_init` counts the 512 blocks from block 512 on a second time. -/
theorem vmmgrInit_tallied {start : Mmgr.State} {kphysfree : BitVec 64} {m next : Memory} {session : Session}
    (tallied : Tallied total base (start, [])) (booted : vmmgrInit kphysfree m start = some (next, session)) :
    Tallied total (base + 9728) (session.mmgr, session.handed) := by
  simp only [vmmgrInit, Option.bind_eq_bind, Option.bind_eq_some_iff, Prod.exists, Option.pure_def,
    Option.some.injEq] at booted
  obtain ⟨tables, mmgr, handed, initial, synced, syncing, equal⟩ := booted
  cases equal
  have supplied : Tallied total base (mmgr, handed) := by
    refine initTables_preserves (Tallied total base) (fun _ _ _ holds allocated => holds.alloc allocated) ?_ initial
    intro pml4table left table _ dir next second _
    exact (tallied.alloc table).alloc second
  exact supplied.reserve (by decide) syncing

theorem step_tallied (session : Session) (call : Call) (next : Session)
    (tallied : Tallied total base (session.mmgr, session.handed)) (executed : step session call = some next) :
    Tallied total base (next.mmgr, next.handed) := by
  cases call with
  | allocPage page =>
    cases executed
    exact tallied
  | allocBlock =>
    simp only [step, Option.bind_eq_bind, Option.bind_eq_some_iff, Prod.exists] at executed
    obtain ⟨address, mmgr, handed, allocated, equal⟩ := executed
    cases equal
    exact tallied.alloc allocated

def Separate (entries : List SmapEntry) : Prop :=
  entries.Pairwise fun left right => left.base.toNat + left.length.toNat ≤ right.base.toNat ∨
    right.base.toNat + right.length.toNat ≤ left.base.toNat

theorem blockAddress_div {frame : Nat} (bound : frame < 2 ^ 52) : (blockAddress frame).toNat / 4096 = frame := by
  rw [blockAddress, BitVec.toNat_mul, BitVec.toNat_ofNat]
  change frame % 2 ^ 64 * 4096 % 2 ^ 64 / 4096 = frame
  omega

theorem heldFrames_card (smap : List SmapEntry) (handed : List (BitVec 64)) :
    (heldFrames smap handed).card ≤ 10240 + handed.length := by
  have inside : heldFrames smap handed ⊆
      Finset.range 10240 ∪ (handed.map fun address => address.toNat / 4096).toFinset := by
    intro frame member
    simp only [heldFrames, usableFrames, Finset.mem_filter, Finset.mem_range] at member
    obtain ⟨⟨bound, _⟩, reserved | listed⟩ := member
    · refine Finset.mem_union_left _ (Finset.mem_range.mpr ?_)
      change frame < 1024 ∨ 512 ≤ frame ∧ frame < 10240 at reserved
      omega
    · rw [List.contains_iff_mem] at listed
      refine Finset.mem_union_right _ (List.mem_toFinset.mpr (List.mem_map.mpr ⟨_, listed, ?_⟩))
      exact blockAddress_div bound
  calc (heldFrames smap handed).card
      ≤ (Finset.range 10240 ∪ (handed.map fun address => address.toNat / 4096).toFinset).card :=
        Finset.card_le_card inside
    _ ≤ (Finset.range 10240).card + (handed.map fun address => address.toNat / 4096).toFinset.card :=
        Finset.card_union_le _ _
    _ ≤ 10240 + handed.length := by
        have distinct := List.toFinset_card_le (handed.map fun address => address.toNat / 4096)
        rw [List.length_map] at distinct
        rw [Finset.card_range]
        omega

theorem usableBlocks_le_card {smap : List SmapEntry} {top : Nat} {start : Mmgr.State} (map : FromZero smap top)
    (initialised : mmPhyInit bootState smap = some start) (separate : Separate (usableEntries smap)) :
    usableBlocks smap ≤ (usableFrames smap).card := by
  have limit := map.top_le initialised
  refine intervals_total_le_card (fun entry : SmapEntry => entry.base.toNat / 4096) _ _ _ ?_ ?_
  · intro entry member frame lower upper
    obtain ⟨listed, usable⟩ := mem_usableEntries.mp member
    have aligned := map.aligned entry listed
    have here : UsableFrame smap frame := ⟨entry, listed, usable, by omega, by omega⟩
    rw [usableFrames, Finset.mem_filter, Finset.mem_range]
    refine ⟨?_, here⟩
    by_cases hole : frame < 256
    · omega
    · have below := (map.usable frame (by omega)).mp here
      omega
  · refine separate.imp_of_mem ?_
    intro left right leftMember rightMember apart
    have leftAligned := map.aligned left (mem_usableEntries.mp leftMember).1
    have rightAligned := map.aligned right (mem_usableEntries.mp rightMember).1
    omega

section Run

variable {smap : List SmapEntry} {top : Nat} (map : FromZero smap top) {kphysfree : BitVec 64} {memory tables : Memory}
  {start : Mmgr.State} {session final : Session} {calls : List Call}
  (initialised : mmPhyInit bootState smap = some start)
  (booted : vmmgrInit kphysfree memory start = some (tables, session)) (executed : run step session calls = some final)

include map initialised booted executed

theorem run_counters : final.mmgr.maxBlocks.toNat = usableBlocks smap ∧
    final.mmgr.usedBlocks.toNat = 10752 + final.handed.length := by
  obtain ⟨maxBlocks, small, usedBlocks⟩ := map.counted initialised
  have begun : Tallied (usableBlocks smap) 1024 (start, []) :=
    ⟨maxBlocks, usedBlocks, fun block => mmPhyInit_reserved initialised, fun address member => absurd member
      List.not_mem_nil, fun block _ => List.not_mem_nil, List.nodup_nil⟩
  have tallied : Tallied (usableBlocks smap) 10752 (final.mmgr, final.handed) :=
    run_preserves (fun session => Tallied (usableBlocks smap) 10752 (session.mmgr, session.handed))
      (fun state call next => step_tallied state call next) (vmmgrInit_tallied begun booted) executed
  constructor
  · rw [tallied.maxBlocks, BitVec.toNat_ofNat]
    omega
  · have few := tallied.length_le
    change final.handed.length ≤ 76800 at few
    rw [tallied.usedBlocks, BitVec.toNat_ofNat]
    change (10752 + final.handed.length) % 2 ^ 64 = _
    omega

/-- At most 10240 usable frames are reserved, 512 fewer than are counted. -/
theorem run_ahead (separate : Separate (usableEntries smap)) :
    final.mmgr.maxBlocks.toNat + 512 ≤ final.mmgr.usedBlocks.toNat + (freeFrames smap final.handed).card := by
  obtain ⟨total, used⟩ := run_counters map initialised booted executed
  have split := held_add_free smap final.handed
  have blocks := usableBlocks_le_card map initialised separate
  have held := heldFrames_card smap final.handed
  omega

end Run

/-- The counter agrees with the frames only where overlapping entries make up for the blocks counted twice. Where the
    entries do not overlap it is at least 512 ahead. -/
theorem block_accounting_iff (smap : List SmapEntry) (top : Nat) (map : FromZero smap top) (kphysfree : BitVec 64)
    (memory tables : Memory) (start : Mmgr.State) (session final : Session) (calls : List Call)
    (initialised : mmPhyInit bootState smap = some start)
    (booted : vmmgrInit kphysfree memory start = some (tables, session))
    (executed : run step session calls = some final) :
    (final.mmgr.usedBlocks.toNat + (freeFrames smap final.handed).card = final.mmgr.maxBlocks.toNat ↔
      usableBlocks smap + (heldFrames smap final.handed).card =
        (usableFrames smap).card + (10752 + final.handed.length)) ∧
    (Separate (usableEntries smap) →
      final.mmgr.maxBlocks.toNat + 512 ≤ final.mmgr.usedBlocks.toNat + (freeFrames smap final.handed).card) := by
  refine ⟨?_, run_ahead map initialised booted executed⟩
  obtain ⟨total, used⟩ := run_counters map initialised booted executed
  have split := held_add_free smap final.handed
  omega

theorem fullMap_fromZero : FromZero fullMap 76800 := by
  refine ⟨by decide, fullMap_valid.aligned, ?_, by decide⟩
  intro frame _
  simp only [UsableFrame, fullMap, List.mem_singleton, exists_eq_left, true_and]
  change 0 ≤ 4096 * frame ∧ 4096 * frame + 4096 ≤ 0 + 0x12C00000 ↔ frame < 76800
  omega

theorem full_map_drifts : ∃ start tables session, mmPhyInit bootState fullMap = some start ∧
    vmmgrInit 0x200000 (fun _ => 0) start = some (tables, session) ∧
    session.mmgr.maxBlocks.toNat + 512 ≤ session.mmgr.usedBlocks.toNat + (freeFrames fullMap session.handed).card := by
  obtain ⟨start, tables, session, initialised, booted, _⟩ := fullMap_boots
  obtain ⟨_, drift⟩ := block_accounting_iff fullMap 76800 fullMap_fromZero 0x200000 (fun _ => 0) tables start session
    session [] initialised booted rfl
  exact ⟨start, tables, session, initialised, booted, drift (List.pairwise_singleton _ _)⟩

/-- One entry of 300 MiB is enough for the counter to differ right after `vmmgr_init`. -/
theorem blocks_counted_twice : ¬ ∀ (smap : List SmapEntry) (top : Nat) (kphysfree : BitVec 64)
    (memory tables : Memory) (start : Mmgr.State) (session final : Session) (calls : List Call), FromZero smap top →
    mmPhyInit bootState smap = some start → vmmgrInit kphysfree memory start = some (tables, session) →
    run step session calls = some final →
    final.mmgr.usedBlocks.toNat + (freeFrames smap final.handed).card = final.mmgr.maxBlocks.toNat := by
  intro always
  obtain ⟨start, tables, session, initialised, booted, _⟩ := fullMap_boots
  have agrees := always fullMap 76800 0x200000 (fun _ => 0) tables start session session [] fullMap_fromZero initialised
    booted rfl
  have ahead := run_ahead fullMap_fromZero initialised booted (show run step session [] = some session from rfl)
    (List.pairwise_singleton _ _)
  omega

end Sbunix.Boot
