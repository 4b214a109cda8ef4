import Sbunix.Mmgr.Bitmap

namespace Sbunix.Mmgr

/-- The blocks among which `mmgr_get_first_free` chooses. A free block of the upper half of a
    word never comes first, because its alias in the lower half precedes it. -/
def Candidate (s : State) (block : Nat) : Prop :=
  block % 64 < 32 ∧ block / 64 < (s.maxBlocks / 64).toNat ∧
    ∃ h : block / 64 < 1200, s.memoryMap ⟨block / 64, h⟩ &&& blockMask block = 0

theorem Candidate.bound {s : State} {block : Nat} (candidate : Candidate s block) : block < 76800 := by
  obtain ⟨_, _, h, _⟩ := candidate
  omega

theorem Candidate.not_busy {s : State} {block : Nat} (candidate : Candidate s block) :
    busy s block = false := by
  obtain ⟨_, _, h, zero⟩ := candidate
  have bit := congrArg (fun word => word.getLsbD (block % 32)) zero
  simp only [BitVec.getLsbD_and, getLsbD_blockMask block (block % 32) (by omega)] at bit
  simpa [busy, h] using bit

theorem firstFreeBit_some {word : BitVec 64} {j : Nat} (found : firstFreeBit word = some j) :
    j < 32 ∧ word &&& blockMask j = 0 ∧ ∀ k, k < j → word &&& blockMask k ≠ 0 := by
  simp only [firstFreeBit, List.find?_range_eq_some, beq_iff_eq, List.mem_range,
    Bool.not_eq_true', beq_eq_false_iff_ne] at found
  obtain ⟨zero, _, before⟩ := found
  refine ⟨?_, zero, before⟩
  by_contra high
  have earlier := before (j % 32) (by omega)
  apply earlier
  have same : blockMask (j % 32) = blockMask j := blockMask_congr (Nat.mod_mod _ _)
  change word &&& blockMask (j % 32) = 0
  rw [same]
  exact zero

theorem firstFreeBit_none {word : BitVec 64} (missing : firstFreeBit word = none) (j : Nat) :
    word &&& blockMask j ≠ 0 := by
  simp only [firstFreeBit, List.find?_eq_none, List.mem_range, beq_iff_eq] at missing
  have absent := missing (j % 32) (by omega)
  have same : blockMask (j % 32) = blockMask j := blockMask_congr (Nat.mod_mod _ _)
  change ¬ word &&& blockMask (j % 32) = 0 at absent
  rwa [same] at absent

theorem full_word_mask (block : Nat) : (0xFFFFFFFFFFFFFFFF : BitVec 64) &&& blockMask block ≠ 0 := by
  intro zero
  have bit := congrArg (fun word => word.getLsbD (block % 32)) zero
  have ones : (0xFFFFFFFFFFFFFFFF : BitVec 64) = BitVec.allOnes 64 := by decide
  have low : block % 32 < 64 := by omega
  rw [ones] at bit
  simp only [BitVec.getLsbD_and, getLsbD_blockMask block (block % 32) low,
    BitVec.getLsbD_allOnes, low] at bit
  simp at bit

theorem not_candidate_of_word {s : State} {i : Nat} (h : i < 1200)
    (full : ∀ j, s.memoryMap ⟨i, h⟩ &&& blockMask j ≠ 0) (block : Nat) (word : block / 64 = i) :
    ¬ Candidate s block := by
  rintro ⟨_, _, bound, zero⟩
  subst i
  exact full block zero

def ScanResult (s : State) (i : Nat) (result : Int) : Prop :=
  (result = -1 ∧ ∀ block, 64 * i ≤ block → ¬ Candidate s block) ∨
  ∃ block : Nat, result = block ∧ Candidate s block ∧ 64 * i ≤ block ∧
    ∀ other, 64 * i ≤ other → other < block → ¬ Candidate s other

theorem ScanResult.skip {s : State} {i : Nat} {result : Int} (h : i < 1200)
    (full : ∀ j, s.memoryMap ⟨i, h⟩ &&& blockMask j ≠ 0) (rest : ScanResult s (i + 1) result) :
    ScanResult s i result := by
  have skipped := not_candidate_of_word h full
  rcases rest with ⟨absent, none⟩ | ⟨block, found, candidate, above, least⟩
  · refine Or.inl ⟨absent, ?_⟩
    intro block above
    by_cases word : block / 64 = i
    · exact skipped block word
    · exact none block (by omega)
  · refine Or.inr ⟨block, found, candidate, by omega, ?_⟩
    intro other above below
    by_cases word : other / 64 = i
    · exact skipped other word
    · exact least other (by omega) below

theorem firstFreeFrom_spec {s : State} {fuel i : Nat} {result : Int}
    (found : firstFreeFrom s fuel i = some result) : ScanResult s i result := by
  induction fuel generalizing i with
  | zero => cases found
  | succ fuel ih =>
    simp only [firstFreeFrom] at found
    split at found
    · rename_i limit
      split at found
      · rename_i h
        split at found
        · cases scanned : firstFreeBit (s.memoryMap ⟨i, h⟩) with
          | some j =>
            simp only [scanned, Option.some.injEq] at found
            obtain ⟨low, zero, before⟩ := firstFreeBit_some scanned
            have quotient : (i * 64 + j) / 64 = i := by omega
            refine Or.inr ⟨i * 64 + j, found.symm, ⟨by omega, by rw [quotient]; exact limit, ?_⟩,
              by omega, ?_⟩
            · refine ⟨by omega, ?_⟩
              simp only [quotient]
              rw [blockMask_congr (show (i * 64 + j) % 32 = j % 32 by omega)]
              exact zero
            · rintro other above below ⟨_, _, bound, clear⟩
              have word : other / 64 = i := by omega
              simp only [word] at clear
              apply before (other % 64) (by omega)
              rw [blockMask_congr (show other % 64 % 32 = other % 32 by omega)]
              exact clear
          | none =>
            simp only [scanned] at found
            exact (ih found).skip h (firstFreeBit_none scanned)
        · rename_i full
          have ones : s.memoryMap ⟨i, h⟩ = 0xFFFFFFFFFFFFFFFF := Classical.not_not.mp full
          refine (ih found).skip h fun j => ?_
          rw [ones]
          exact full_word_mask j
      · cases found
    · rename_i limit
      refine Or.inl ⟨(Option.some.inj found).symm, ?_⟩
      rintro block above ⟨_, inside, _⟩
      simp only [getTotalBlocks] at limit
      omega

theorem firstFreeFrom_total {s : State} (fits : (s.maxBlocks / 64).toNat ≤ 1200) {fuel i : Nat}
    (enough : fuel + i = 1201) (start : i ≤ 1200) : ∃ result, firstFreeFrom s fuel i = some result := by
  induction fuel generalizing i with
  | zero => omega
  | succ fuel ih =>
    simp only [firstFreeFrom]
    split
    · rename_i limit
      simp only [getTotalBlocks] at limit
      have h : i < 1200 := by omega
      simp only [h, dite_true]
      split
      · split
        · exact ⟨_, rfl⟩
        · exact ih (by omega) (by omega)
      · exact ih (by omega) (by omega)
    · exact ⟨_, rfl⟩

theorem toInt32_ofNat {block : Nat} (bound : block < 76800) : toInt32 (BitVec.ofNat 64 block) = block := by
  have width : (BitVec.ofNat 64 block).setWidth 32 = BitVec.ofNat 32 block := by
    apply BitVec.eq_of_toNat_eq
    simp only [BitVec.toNat_setWidth, BitVec.toNat_ofNat]
    omega
  rw [toInt32, width, BitVec.toInt_eq_toNat_cond, BitVec.toNat_ofNat]
  have small : block % 2 ^ 32 = block := Nat.mod_eq_of_lt (by omega)
  rw [small, if_pos (by omega)]

theorem pageFrame_ne_minus_one {block : Nat} (bound : block < 76800) : BitVec.ofInt 64 block ≠ -1 := by
  intro equal
  have value := congrArg BitVec.toNat equal
  rw [BitVec.ofInt_natCast, BitVec.toNat_ofNat, Nat.mod_eq_of_lt (by omega)] at value
  have wide : (-1 : BitVec 64).toNat = 18446744073709551615 := by decide
  omega

def taken (s : State) (block : Nat) (h : block / 64 < 1200) : State :=
  { s.storeWord ⟨block / 64, h⟩ (s.memoryMap ⟨block / 64, h⟩ ||| blockMask block) with
    usedBlocks := s.usedBlocks + 1 }

def blockAddress (block : Nat) : BitVec 64 := BitVec.ofNat 64 block * blockSize

theorem blockAddress_toNat {block : Nat} (bound : block < 76800) :
    (blockAddress block).toNat = block * 4096 := by
  simp only [blockAddress, blockSize, BitVec.toNat_mul, BitVec.toNat_ofNat]
  change block % 2 ^ 64 * 4096 % 2 ^ 64 = block * 4096
  omega

theorem blockAddress_ne_zero {block : Nat} (positive : 0 < block) (bound : block < 76800) : blockAddress block ≠ 0 := by
  intro zero
  have number := blockAddress_toNat bound
  rw [zero] at number
  change 0 = block * 4096 at number
  omega

/-- `mmgr_alloc_block` either refuses and changes nothing, or takes the least candidate. -/
theorem allocBlock_cases {s next : State} {address : BitVec 64}
    (executed : mmgrAllocBlock s = some (address, next)) :
    (address = 0 ∧ next = s ∧ (getTotalUsableBlocks s = 0 ∨ ∀ block, ¬ Candidate s block)) ∨
    ∃ block h, Candidate s block ∧ (∀ other, other < block → ¬ Candidate s other) ∧
      getTotalUsableBlocks s ≠ 0 ∧ address = blockAddress block ∧ next = taken s block h := by
  unfold mmgrAllocBlock at executed
  split at executed
  · rename_i none
    cases executed
    refine Or.inl ⟨rfl, rfl, Or.inl ?_⟩
    simpa using none
  · rename_i some
    have usable : getTotalUsableBlocks s ≠ 0 := by
      intro zero
      apply some
      simp [zero]
    simp only [Option.bind_eq_bind, Option.bind_eq_some_iff] at executed
    obtain ⟨result, searched, executed⟩ := executed
    rcases firstFreeFrom_spec searched with ⟨absent, none⟩ | ⟨block, found, candidate, _, least⟩
    · subst absent
      rw [if_pos (by decide)] at executed
      cases executed
      exact Or.inl ⟨rfl, rfl, Or.inr fun block => none block (by omega)⟩
    · subst found
      have bound := candidate.bound
      rw [if_neg (pageFrame_ne_minus_one bound)] at executed
      obtain ⟨marked, set, executed⟩ := Option.bind_eq_some_iff.mp executed
      rw [BitVec.ofInt_natCast, toInt32_ofNat bound] at set
      obtain ⟨h, rfl⟩ := setBlock_eq.mp set
      cases executed
      exact Or.inr ⟨block, h, candidate, fun other below => least other (by omega) below, usable,
        by rw [BitVec.ofInt_natCast]; rfl, rfl⟩

theorem allocBlock_total {s : State} (fits : (s.maxBlocks / 64).toNat ≤ 1200) :
    ∃ address next, mmgrAllocBlock s = some (address, next) := by
  have total : ∃ result, firstFreeFrom s 1201 0 = some result := firstFreeFrom_total fits rfl (by omega)
  obtain ⟨result, searched⟩ := total
  unfold mmgrAllocBlock
  split
  · exact ⟨_, _, rfl⟩
  · simp only [mmgrGetFirstFree, searched, Option.bind_eq_bind, Option.bind_some]
    rcases firstFreeFrom_spec searched with ⟨absent, _⟩ | ⟨found, equal, least, _, _⟩
    · subst absent
      exact ⟨_, _, rfl⟩
    · subst equal
      have bound := least.bound
      obtain ⟨_, _, h, _⟩ := least
      rw [if_neg (pageFrame_ne_minus_one bound), BitVec.ofInt_natCast, toInt32_ofNat bound]
      rw [setBlock_eq.mpr ⟨h, rfl⟩]
      exact ⟨_, _, rfl⟩

theorem candidate_taken {s : State} {block : Nat} (h : block / 64 < 1200) (low : block % 64 < 32)
    (other : Nat) : Candidate (taken s block h) other ↔ Candidate s other ∧ other ≠ block := by
  simp only [Candidate, taken, State.storeWord]
  by_cases word : other / 64 = block / 64
  · simp only [word, if_true]
    by_cases same : other % 32 = block % 32
    · constructor
      · rintro ⟨otherLow, _, _, zero⟩
        exfalso
        rw [blockMask_congr same] at zero
        have bit := congrArg (fun value => value.getLsbD (block % 32)) zero
        simp [getLsbD_blockMask block (block % 32) (by omega)] at bit
      · rintro ⟨⟨otherLow, _⟩, different⟩
        omega
    · have separate : ∀ x : BitVec 64, (x ||| blockMask block) &&& blockMask other = x &&& blockMask other := by
        intro x
        have disjoint := blockMask_disjoint (Ne.symm same)
        rw [show (x ||| blockMask block) &&& blockMask other =
            (x &&& blockMask other) ||| (blockMask block &&& blockMask other) by
          apply BitVec.eq_of_getLsbD_eq
          intro bit bound
          simp only [BitVec.getLsbD_and, BitVec.getLsbD_or, Bool.and_or_distrib_right], disjoint]
        simp
      simp only [separate]
      have different : other ≠ block := by
        intro equal
        exact same (by rw [equal])
      simp [different, h]
  · have different : other ≠ block := by
      intro equal
      exact word (by rw [equal])
    constructor
    · rintro ⟨otherLow, inside, bound, zero⟩
      have index : (⟨other / 64, bound⟩ : Fin 1200) ≠ ⟨block / 64, h⟩ := by
        intro equal
        exact word (congrArg Fin.val equal)
      rw [if_neg index] at zero
      exact ⟨⟨otherLow, inside, bound, zero⟩, different⟩
    · rintro ⟨⟨otherLow, inside, bound, zero⟩, _⟩
      have index : (⟨other / 64, bound⟩ : Fin 1200) ≠ ⟨block / 64, h⟩ := by
        intro equal
        exact word (congrArg Fin.val equal)
      exact ⟨otherLow, inside, bound, by rw [if_neg index]; exact zero⟩

end Sbunix.Mmgr
