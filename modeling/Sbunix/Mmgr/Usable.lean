import Sbunix.Library.Interval
import Sbunix.Mmgr.Boot

namespace Sbunix.Mmgr

def bootState : State := ⟨fun _ => 0, 0, 0⟩

def usableEntries (smap : List SmapEntry) : List SmapEntry :=
  smap.filter fun entry => entry.type = mmPhyUsable

/-- The number of blocks that `mm_phy_init` computes from the summed lengths. -/
def usableBlocks (smap : List SmapEntry) : Nat :=
  ((usableEntries smap).map fun entry => entry.length.toNat / 4096).sum

def UsableFrame (smap : List SmapEntry) (frame : Nat) : Prop :=
  ∃ entry ∈ smap, entry.type = mmPhyUsable ∧ entry.base.toNat ≤ 4096 * frame ∧
    4096 * frame + 4096 ≤ entry.base.toNat + entry.length.toNat

instance (smap : List SmapEntry) (frame : Nat) : Decidable (UsableFrame smap frame) :=
  inferInstanceAs (Decidable (∃ entry ∈ smap, _))

/-- At most ten non-empty page-aligned entries that do not overlap, usable ones below 300 MiB. -/
structure ValidMap (smap : List SmapEntry) : Prop where
  count : smap.length ≤ 10
  nonempty : ∀ entry ∈ smap, entry.length ≠ 0
  aligned : ∀ entry ∈ smap, entry.base.toNat % 4096 = 0 ∧ entry.length.toNat % 4096 = 0
  separate : smap.Pairwise fun left right =>
    left.base.toNat + left.length.toNat ≤ right.base.toNat ∨
      right.base.toNat + right.length.toNat ≤ left.base.toNat
  low : ∀ entry ∈ smap, entry.type = mmPhyUsable →
    entry.base.toNat + entry.length.toNat ≤ 300 * 2 ^ 20

theorem mem_usableEntries {smap : List SmapEntry} {entry : SmapEntry} :
    entry ∈ usableEntries smap ↔ entry ∈ smap ∧ entry.type = mmPhyUsable := by
  simp [usableEntries]

theorem collectEntry_fold (memory : SystemMemory) {smap : List SmapEntry}
    (room : memory.sysTotalMemory.length + smap.length ≤ 10)
    (sublist : memory.sysUsableMemory.length ≤ memory.sysTotalMemory.length)
    (nonempty : ∀ entry ∈ smap, entry.length ≠ 0) :
    ∃ result, smap.foldlM collectEntry memory = some result ∧
      result.sysUsableMemory = memory.sysUsableMemory ++ usableEntries smap ∧
      result.usableMemorySize.toNat = (memory.usableMemorySize.toNat +
        ((usableEntries smap).map fun entry => entry.length.toNat).sum) % 2 ^ 64 := by
  induction smap generalizing memory with
  | nil =>
    refine ⟨memory, rfl, by simp [usableEntries], ?_⟩
    have bound := memory.usableMemorySize.isLt
    simp only [usableEntries, List.filter_nil, List.map_nil, List.sum_nil]
    omega
  | cons entry smap ih =>
    have present := nonempty entry (by simp)
    have rest : ∀ other ∈ smap, other.length ≠ 0 :=
      fun other member => nonempty other (List.mem_cons_of_mem _ member)
    simp only [List.length_cons] at room
    have free : memory.sysTotalMemory.length < 10 ∧ memory.sysUsableMemory.length < 10 := by omega
    by_cases usable : entry.type = mmPhyUsable
    · obtain ⟨result, folded, entries, size⟩ := ih
        ⟨memory.sysTotalMemory ++ [entry], memory.sysUsableMemory ++ [entry],
          memory.usableMemorySize + entry.length⟩
        (by simp only [List.length_append, List.length_singleton]; omega)
        (by simp only [List.length_append, List.length_singleton]; omega) rest
      refine ⟨result, ?_, ?_, ?_⟩
      · simp only [List.foldlM_cons, collectEntry, ne_eq, present, not_false_eq_true, if_true, free,
          and_self, usable, Option.bind_eq_bind, Option.bind_some]
        exact folded
      · rw [entries]
        simp [usableEntries, usable]
      · rw [size]
        simp only [usableEntries, usable, decide_true, List.filter_cons_of_pos, List.map_cons,
          List.sum_cons, BitVec.toNat_add]
        omega
    · obtain ⟨result, folded, entries, size⟩ := ih
        { memory with sysTotalMemory := memory.sysTotalMemory ++ [entry] }
        (by simp only [List.length_append, List.length_singleton]; omega)
        (by simp only [List.length_append, List.length_singleton]; omega) rest
      refine ⟨result, ?_, ?_, ?_⟩
      · simp only [List.foldlM_cons, collectEntry, ne_eq, present, not_false_eq_true, if_true, free,
          and_self, usable, if_false, Option.bind_eq_bind, Option.bind_some]
        exact folded
      · rw [entries]
        simp [usableEntries, usable]
      · rw [size]
        simp [usableEntries, usable]

def SmapEntry.Contains (entry : SmapEntry) (block : Nat) : Prop :=
  entry.base.toNat / 4096 ≤ block ∧ block < entry.base.toNat / 4096 + entry.length.toNat / 4096

theorem phyInitRegions_spec (s : State) {entry : SmapEntry}
    (aligned : entry.base.toNat % 4096 = 0 ∧ entry.length.toNat % 4096 = 0)
    (low : entry.base.toNat + entry.length.toNat ≤ 300 * 2 ^ 20) :
    ∃ next, mmgrPhyInitRegions s entry.base entry.length = some next ∧
      Counted s next (s.usedBlocks - BitVec.ofNat 64 (entry.length.toNat / 4096)) ∧
      ∀ index bit, bit < 64 → (Raised next index bit ↔ Raised s index bit ∧
        ∀ block, entry.Contains block → ¬ Reaches block index bit) := by
  have quotient (value : BitVec 64) : (value / blockSize).toNat = value.toNat / 4096 := by
    rw [BitVec.toNat_udiv]
    rfl
  have first : entry.base / blockSize = BitVec.ofNat 64 (entry.base.toNat / 4096) := by
    apply BitVec.eq_of_toNat_eq
    have bound := entry.base.isLt
    rw [quotient, BitVec.toNat_ofNat]
    omega
  obtain ⟨next, executed, counted, raised⟩ := initBlocks_spec s
    (entry.base.toNat / 4096) (entry.length.toNat / 4096) (by omega)
  refine ⟨next, ?_, counted, ?_⟩
  · rw [mmgrPhyInitRegions, first, quotient]
    exact executed
  · intro index bit small
    rw [raised index bit small]
    simp only [SmapEntry.Contains, and_imp]

theorem phyInitRegions_fold (s : State) {entries : List SmapEntry}
    (aligned : ∀ entry ∈ entries, entry.base.toNat % 4096 = 0 ∧ entry.length.toNat % 4096 = 0)
    (low : ∀ entry ∈ entries, entry.base.toNat + entry.length.toNat ≤ 300 * 2 ^ 20) :
    ∃ next, entries.foldlM (fun s entry => mmgrPhyInitRegions s entry.base entry.length) s = some next ∧
      Counted s next (s.usedBlocks -
        BitVec.ofNat 64 (entries.map fun entry => entry.length.toNat / 4096).sum) ∧
      ∀ index bit, bit < 64 → (Raised next index bit ↔ Raised s index bit ∧
        ∀ entry ∈ entries, ∀ block, entry.Contains block → ¬ Reaches block index bit) := by
  induction entries generalizing s with
  | nil => exact ⟨s, rfl, ⟨rfl, by simp⟩, by simp⟩
  | cons entry entries ih =>
    obtain ⟨middle, executed, firstCounted, firstRaised⟩ :=
      phyInitRegions_spec s (aligned entry (by simp)) (low entry (by simp))
    obtain ⟨next, folded, counted, raised⟩ := ih middle
      (fun other member => aligned other (List.mem_cons_of_mem _ member))
      (fun other member => low other (List.mem_cons_of_mem _ member))
    refine ⟨next, ?_, ⟨?_, ?_⟩, ?_⟩
    · simp only [List.foldlM_cons, executed, Option.bind_eq_bind, Option.bind_some]
      exact folded
    · rw [counted.maxBlocks, firstCounted.maxBlocks]
    · rw [counted.usedBlocks, firstCounted.usedBlocks, List.map_cons, List.sum_cons, BitVec.ofNat_add]
      bv_omega
    · intro index bit small
      rw [raised index bit small, firstRaised index bit small]
      simp [and_assoc]

theorem usableBlocks_le {smap : List SmapEntry} (valid : ValidMap smap) : usableBlocks smap ≤ 76800 := by
  apply Library.intervals_total_le (fun entry : SmapEntry => entry.base.toNat / 4096)
  · intro entry member
    obtain ⟨listed, usable⟩ := mem_usableEntries.mp member
    have low := valid.low entry listed usable
    omega
  · refine List.Pairwise.imp_of_mem ?_ (valid.separate.sublist List.filter_sublist)
    intro left right leftMember rightMember apart
    have leftAligned := valid.aligned left (mem_usableEntries.mp leftMember).1
    have rightAligned := valid.aligned right (mem_usableEntries.mp rightMember).1
    omega

theorem usableBlocks_bytes {entries : List SmapEntry}
    (aligned : ∀ entry ∈ entries, entry.length.toNat % 4096 = 0) :
    (entries.map fun entry => entry.length.toNat).sum =
      4096 * (entries.map fun entry => entry.length.toNat / 4096).sum := by
  induction entries with
  | nil => rfl
  | cons entry entries ih =>
    have first := aligned entry (by simp)
    have rest := ih fun other member => aligned other (List.mem_cons_of_mem _ member)
    simp only [List.map_cons, List.sum_cons, rest]
    omega

structure Initialised (smap : List SmapEntry) (s : State) : Prop where
  maxBlocks : s.maxBlocks = BitVec.ofNat 64 (usableBlocks smap)
  usedBlocks : s.usedBlocks = 1024
  raised : ∀ (index : Fin 1200) bit, bit < 64 → (Raised s index bit ↔
    (8 * index.val + bit / 8 < usableBlocks smap / 64 ∧ bit % 8 < 4) ∧
      (∀ entry ∈ usableEntries smap, ∀ block, entry.Contains block → ¬ Reaches block index bit) ∨
    ∃ block, block < 1024 ∧ Reaches block index bit)

theorem fill_bit {bit : Nat} : (0xF : BitVec 8).getLsbD (bit % 8) = true ↔ bit % 8 < 4 := by
  have all : ∀ i : Fin 8, (0xF : BitVec 8).getLsbD i.val = true ↔ i.val < 4 := by decide
  exact all ⟨bit % 8, Nat.mod_lt _ (by decide)⟩

theorem mmPhyInit_valid {smap : List SmapEntry} (valid : ValidMap smap) :
    ∃ s, mmPhyInit bootState smap = some s ∧ Initialised smap s := by
  have total := usableBlocks_le valid
  obtain ⟨memory, collected, entries, size⟩ := collectEntry_fold ⟨[], [], 0⟩
    (by simpa using valid.count) (by simp) valid.nonempty
  have bytes := usableBlocks_bytes fun entry (member : entry ∈ usableEntries smap) =>
    (valid.aligned entry (mem_usableEntries.mp member).1).2
  simp only [List.nil_append] at entries
  have maxBlocks : memory.usableMemorySize / blockSize = BitVec.ofNat 64 (usableBlocks smap) := by
    apply BitVec.eq_of_toNat_eq
    rw [BitVec.toNat_udiv, size, bytes, BitVec.toNat_ofNat]
    change (0 + 4096 * usableBlocks smap) % 2 ^ 64 / 4096 = _
    omega
  have length : (BitVec.ofNat 64 (usableBlocks smap) / 64).toNat = usableBlocks smap / 64 := by
    rw [BitVec.toNat_udiv, BitVec.toNat_ofNat]
    change usableBlocks smap % 2 ^ 64 / 64 = _
    omega
  have narrow : ((BitVec.ofNat 64 (usableBlocks smap) / 64).setWidth 32).toNat = usableBlocks smap / 64 := by
    rw [BitVec.toNat_setWidth, length]
    omega
  obtain ⟨filled, filling, fillCounted, fillRaised⟩ := memsetMap_spec
    ⟨bootState.memoryMap, BitVec.ofNat 64 (usableBlocks smap), BitVec.ofNat 64 (usableBlocks smap)⟩
    0xF 0 (usableBlocks smap / 64) (by omega)
  obtain ⟨cleared, clearing, clearCounted, clearRaised⟩ := phyInitRegions_fold filled
    (fun entry (member : entry ∈ usableEntries smap) =>
      valid.aligned entry (mem_usableEntries.mp member).1)
    (fun entry member => valid.low entry (mem_usableEntries.mp member).1 (mem_usableEntries.mp member).2)
  obtain ⟨s, reserving, counted, raised⟩ := reserveBlocks_spec cleared 0 1024 (by decide)
  refine ⟨s, ?_, ⟨?_, ?_, ?_⟩⟩
  · rw [mmPhyInit, collected, Option.bind_eq_bind, Option.bind_some, maxBlocks]
    dsimp only
    rw [narrow, filling, Option.bind_eq_bind, Option.bind_some, entries, clearing, Option.bind_some,
      reserving]
  · rw [counted.maxBlocks, clearCounted.maxBlocks, fillCounted.maxBlocks]
  · rw [counted.usedBlocks, clearCounted.usedBlocks, fillCounted.usedBlocks]
    change BitVec.ofNat 64 (usableBlocks smap) - BitVec.ofNat 64 (usableBlocks smap) + 1024 = 1024
    rw [BitVec.sub_self]
    rfl
  · intro index bit small
    have zero : ¬ Raised bootState index bit := by simp [Raised, bootState]
    rw [raised index bit small, clearRaised index bit small, fillRaised index bit small, fill_bit]
    simp only [Nat.zero_add, Nat.zero_le, true_and]
    refine or_congr (and_congr ?_ Iff.rfl) Iff.rfl
    split
    · rename_i inside
      simp [inside]
    · rename_i outside
      simp only [outside, false_and, iff_false]
      exact zero

end Sbunix.Mmgr
