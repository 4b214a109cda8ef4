import Mathlib.Order.Bounds.Basic
import Sbunix.Mmgr.Undo

namespace Sbunix.Mmgr

def ReportedFree (s : State) (size start : Nat) : Prop :=
  ∀ c, c < size → mmgrIsBlockFree s (start + c : Nat) = some 0

theorem not_reportedFree {s : State} {size start block : Nat} (lower : start ≤ block) (upper : block < start + size)
    (used : busy s block = true) : ¬ ReportedFree s size start := by
  intro free
  have report := free (block - start) (by omega)
  rw [show start + (block - start) = block by omega] at report
  have clear := (isBlockFree_eq report).2.mp rfl
  rw [used] at clear
  cases clear

theorem isBlockFree_total (s : State) {block : Nat} (bound : block < 76800) :
    ∃ used, mmgrIsBlockFree s block = some used := by
  have inside : block / 64 < 1200 := by omega
  rw [mmgrIsBlockFree, wordIndex_block, dif_pos inside]
  exact ⟨_, rfl⟩

section Search

variable {s : State} {size : Nat}

/-- The innermost loop finds the range free, or stops at its first block in use. -/
theorem rangeCheck_cases {tempBit remaining count : Nat} (inside : tempBit + size ≤ 76800) (some : 0 < remaining)
    (split : count + remaining = size)
    (before : ∀ c, c < count → mmgrIsBlockFree s (tempBit + c : Nat) = .some 0) :
    rangeCheck s size tempBit remaining count count = .some .found ∧ ReportedFree s size tempBit ∨
    ∃ blocked, blocked < size ∧ rangeCheck s size tempBit remaining count count = .some (.blocked blocked) ∧
      busy s (tempBit + blocked) = true := by
  induction remaining generalizing count with
  | zero => omega
  | succ remaining ih =>
    obtain ⟨used, read⟩ := isBlockFree_total s (show tempBit + count < 76800 by omega)
    rw [rangeCheck, read, Option.bind_eq_bind, Option.bind_some]
    by_cases unused : used = 0
    · subst unused
      have upTo : ∀ c, c < count + 1 → mmgrIsBlockFree s (tempBit + c : Nat) = .some 0 := by
        intro c below
        by_cases last : c = count
        · rw [last]
          exact read
        · exact before c (by omega)
      rw [if_pos rfl]
      by_cases full : count + 1 = size
      · rw [if_pos full]
        exact Or.inl ⟨rfl, fun c below => upTo c (by omega)⟩
      · rw [if_neg full]
        exact ih (by omega) (by omega) upTo
    · rw [if_neg unused]
      have marked := (isBlockFree_eq read).2
      refine Or.inr ⟨count, by omega, rfl, ?_⟩
      rw [← Bool.not_eq_false]
      exact fun clear => unused (marked.mpr clear)

/-- The test of the middle loop and `mmgr_is_block_free` agree where the upper bits of a word are all equal. -/
theorem Uniform.mask_iff (uniform : Uniform s) {block : Nat} (h : block / 64 < 1200) :
    s.memoryMap ⟨block / 64, h⟩ &&& blockMask block = 0 ↔ busy s block = false := by
  constructor
  · intro zero
    have bit := congrArg (fun value => value.getLsbD (block % 32)) zero
    simp only [BitVec.getLsbD_and, getLsbD_blockMask _ (block % 32) (by omega)] at bit
    rw [busy_of_word s h rfl]
    simpa using bit
  · exact uniform.mask_clear h

theorem Uniform.busy_of_mask (uniform : Uniform s) {i block : Nat} (h : i < 1200) (word : block / 64 = i)
    (masked : s.memoryMap ⟨i, h⟩ &&& blockMask block ≠ 0) : busy s block = true := by
  subst word
  rw [← Bool.not_eq_false]
  exact fun free => masked ((uniform.mask_iff h).mpr free)

def Scanned (s : State) (size low high : Nat) (found : Option Nat) : Prop :=
  match found with
  | none => ∀ start, low ≤ start → start < high → ¬ ReportedFree s size start
  | some start => low ≤ start ∧ start < high ∧ ReportedFree s size start ∧
      ∀ other, low ≤ other → other < start → ¬ ReportedFree s size other

theorem Scanned.skip {low middle high : Nat} {found : Option Nat} (rest : Scanned s size middle high found)
    (order : low ≤ middle) (skipped : ∀ start, low ≤ start → start < middle → ¬ ReportedFree s size start) :
    Scanned s size low high found := by
  have extended {start : Nat} (lower : low ≤ start)
      (later : middle ≤ start → ¬ ReportedFree s size start) : ¬ ReportedFree s size start := by
    by_cases before : start < middle
    · exact skipped start lower before
    · exact later (by omega)
  cases found with
  | none => exact fun start lower upper => extended lower fun later => rest start later upper
  | some start =>
    obtain ⟨above, below, free, least⟩ := rest
    exact ⟨by omega, below, free, fun other lower upper => extended lower fun later => least other later upper⟩

/-- The scan of one word. A range that is blocked blocks every start up to the block in use. -/
theorem rangeFreeBit_scanned (uniform : Uniform s) {i fuel j : Nat} (h : i < 1200) (positive : 0 < size)
    (inside : i * 64 + 63 + size ≤ 76800) (enough : 64 ≤ fuel + j) :
    ∃ found, rangeFreeBit s size i (s.memoryMap ⟨i, h⟩) fuel j = some found ∧
      Scanned s size (i * 64 + j) (i * 64 + 64) (found.map (i * 64 + ·)) := by
  induction fuel generalizing j with
  | zero =>
    refine ⟨none, rfl, ?_⟩
    intro start lower upper
    omega
  | succ fuel ih =>
    rw [rangeFreeBit]
    by_cases small : j < 64
    · rw [if_pos small]
      by_cases unused : s.memoryMap ⟨i, h⟩ &&& (shiftOne j).signExtend 64 = 0
      · rw [if_pos unused]
        have unchecked : ∀ c, c < 0 → mmgrIsBlockFree s (i * 64 + j + c : Nat) = some 0 :=
          fun c below => absurd below (Nat.not_lt_zero c)
        rcases rangeCheck_cases (show i * 64 + j + size ≤ 76800 by omega) positive (Nat.zero_add size) unchecked with
          ⟨checked, free⟩ | ⟨blocked, short, checked, used⟩
        · rw [checked]
          refine ⟨some j, rfl, Nat.le_refl _, Nat.add_lt_add_left small _, free, ?_⟩
          intro other lower upper
          exact absurd upper (Nat.not_lt.mpr lower)
        · rw [checked]
          obtain ⟨found, scanned, rest⟩ := ih (show 64 ≤ fuel + (j + blocked + 1) by omega)
          refine ⟨found, scanned, rest.skip (by omega) ?_⟩
          intro start lower upper
          exact not_reportedFree (by omega) (by omega) used
      · rw [if_neg unused]
        obtain ⟨found, scanned, rest⟩ := ih (show 64 ≤ fuel + (j + 1) by omega)
        have used : busy s (i * 64 + j) = true := by
          refine uniform.busy_of_mask h (by omega) ?_
          rw [blockMask_congr (show (i * 64 + j) % 32 = j % 32 by omega)]
          exact unused
        refine ⟨found, scanned, rest.skip (by omega) ?_⟩
        intro start lower upper
        exact not_reportedFree (by omega) (by omega) used
    · rw [if_neg small]
      refine ⟨none, rfl, ?_⟩
      intro start lower upper
      omega

def returned : Option Nat → Int
  | none => -1
  | some start => start

theorem rangeFreeFrom_scanned (uniform : Uniform s) (positive : 0 < size)
    (inside : s.maxBlocks.toNat + size ≤ 76800) {fuel i : Nat} (enough : fuel + i = 1201) (array : i ≤ 1200) :
    ∃ found, rangeFreeFrom s size fuel i = some (returned found) ∧
      Scanned s size (64 * i) (64 * (s.maxBlocks.toNat / 64)) found := by
  have words : (getTotalBlocks s / 64).toNat = s.maxBlocks.toNat / 64 := BitVec.toNat_udiv
  induction fuel generalizing i with
  | zero => omega
  | succ fuel ih =>
    rw [rangeFreeFrom, words]
    by_cases limit : i < s.maxBlocks.toNat / 64
    · have h : i < 1200 := by omega
      obtain ⟨found, scanned, rest⟩ := ih (show fuel + (i + 1) = 1201 by omega) h
      rw [if_pos limit, dif_pos h]
      by_cases full : s.memoryMap ⟨i, h⟩ = 0xFFFFFFFFFFFFFFFF
      · rw [if_neg fun other => other full]
        refine ⟨found, scanned, rest.skip (by omega) ?_⟩
        intro start lower upper
        refine not_reportedFree (Nat.le_refl start) (by omega) (uniform.busy_of_mask h (by omega) ?_)
        rw [full]
        exact full_word_mask start
      · rw [if_pos full]
        obtain ⟨first, looked, word⟩ := rangeFreeBit_scanned uniform h positive
          (show i * 64 + 63 + size ≤ 76800 by omega) (show 64 ≤ 64 + 0 by decide)
        rw [looked, Option.bind_eq_bind, Option.bind_some]
        rw [Nat.mul_comm i 64] at word
        cases first with
        | none => exact ⟨found, scanned, rest.skip (by omega) word⟩
        | some j =>
          obtain ⟨above, below, free, least⟩ := word
          dsimp only at above below free least
          rw [Nat.mul_comm i 64]
          exact ⟨some (64 * i + j), rfl, above, by omega, free, least⟩
    · rw [if_neg limit]
      refine ⟨none, rfl, ?_⟩
      intro start lower upper
      omega

end Search

/-- The search returns the least start of a free range, and -1 where there is none. -/
theorem first_range_exact (s : State) (uniform : Uniform s) (size : BitVec 32) (positive : 1 ≤ size.toInt)
    (room : (getTotalBlocks s).toNat + size.toInt ≤ 76800) :
    (∀ start : Nat, mmgrGetFirstRangeFree s size = some (start : Int) ↔
      IsLeast {start | start < 64 * ((getTotalBlocks s).toNat / 64) ∧ ReportedFree s size.toNat start} start) ∧
    (mmgrGetFirstRangeFree s size = some (-1) ↔
      ∀ start, start < 64 * ((getTotalBlocks s).toNat / 64) → ¬ ReportedFree s size.toNat start) := by
  have unsigned : (size.toNat : Int) = size.toInt := by
    rw [BitVec.toInt_eq_toNat_cond] at positive ⊢
    split at positive <;> split <;> omega
  have inside : s.maxBlocks.toNat + size.toNat ≤ 76800 := by
    change (s.maxBlocks.toNat : Int) + size.toInt ≤ 76800 at room
    omega
  obtain ⟨found, searched, scanned⟩ :=
    rangeFreeFrom_scanned uniform (show 0 < size.toNat by omega) inside (show 1201 + 0 = 1201 from rfl) (Nat.zero_le _)
  rw [mmgrGetFirstRangeFree, searched]
  cases found with
  | none =>
    have nothing : ∀ start, start < 64 * ((getTotalBlocks s).toNat / 64) → ¬ ReportedFree s size.toNat start :=
      fun start => scanned start (Nat.zero_le _)
    refine ⟨?_, iff_of_true rfl nothing⟩
    intro start
    refine iff_of_false ?_ fun least => nothing start least.1.1 least.1.2
    intro same
    have negative : (-1 : Int) = start := Option.some.inj same
    omega
  | some first =>
    obtain ⟨_, below, free, before⟩ := scanned
    refine ⟨?_, iff_of_false ?_ fun nothing => nothing first below free⟩
    · intro start
      have least : IsLeast {start | start < 64 * ((getTotalBlocks s).toNat / 64) ∧ ReportedFree s size.toNat start}
          first := by
        refine ⟨⟨below, free⟩, ?_⟩
        intro other member
        by_contra earlier
        exact before other (Nat.zero_le _) (by omega) member.2
      constructor
      · intro same
        have equal : (first : Int) = start := Option.some.inj same
        exact Int.natCast_inj.mp equal ▸ least
      · intro other
        rw [least.unique other]
        rfl
    · intro same
      have negative : (first : Int) = -1 := Option.some.inj same
      omega

def fourUsed : State := ⟨fun index => if index.val = 0 then 0xF else 0, 4, 128⟩

theorem fourUsed_uniform : Uniform fourUsed := by
  have bits : ∀ bit : Fin 64, 31 ≤ bit.val → (0xF : BitVec 64).getLsbD bit.val = (0xF : BitVec 64).getLsbD 31 := by
    decide
  intro index bit high bound
  simp only [fourUsed]
  split
  · exact bits ⟨bit, bound⟩ high
  · rw [BitVec.ofNat_eq_ofNat, BitVec.getLsbD_zero, BitVec.getLsbD_zero]

theorem forty_blocks_found : mmgrGetFirstRangeFree fourUsed 40 = some 36 ∧
    IsLeast {start | start < 64 * ((getTotalBlocks fourUsed).toNat / 64) ∧ ReportedFree fourUsed 40 start} 36 := by
  have found : mmgrGetFirstRangeFree fourUsed 40 = some 36 := by decide +kernel
  exact ⟨found, ((first_range_exact fourUsed fourUsed_uniform 40 (by decide) (by decide)).1 36).mp found⟩

end Sbunix.Mmgr
