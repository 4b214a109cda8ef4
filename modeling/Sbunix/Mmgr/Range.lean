import Sbunix.Mmgr.Search

namespace Sbunix.Mmgr

theorem rangeCheck_found {s : State} {size tempBit remaining count : Nat}
    (split : count + remaining = size)
    (found : rangeCheck s size tempBit remaining count count = some .found) :
    count < size ∧ ∀ c, count ≤ c → c < size →
      (tempBit + c) / 64 < 1200 ∧ busy s (tempBit + c) = false := by
  induction remaining generalizing count with
  | zero => cases found
  | succ remaining ih =>
    simp only [rangeCheck, Option.bind_eq_bind, Option.bind_eq_some_iff] at found
    obtain ⟨used, read, found⟩ := found
    obtain ⟨inside, zero⟩ := isBlockFree_eq read
    split at found
    · rename_i unused
      have clear := zero.mp unused
      split at found
      · refine ⟨by omega, ?_⟩
        intro c lower upper
        have same : c = count := by omega
        rw [same]
        exact ⟨inside, clear⟩
      · obtain ⟨_, rest⟩ := ih (by omega) found
        refine ⟨by omega, ?_⟩
        intro c lower upper
        by_cases first : c = count
        · rw [first]
          exact ⟨inside, clear⟩
        · exact rest c (by omega) upper
    · cases found

theorem rangeFreeBit_found {s : State} {size i fuel j result : Nat} {word : BitVec 64}
    (found : rangeFreeBit s size i word fuel j = some (some result)) :
    rangeCheck s size (i * 64 + result) size 0 0 = some .found := by
  induction fuel generalizing j with
  | zero => cases found
  | succ fuel ih =>
    simp only [rangeFreeBit] at found
    split at found
    · split at found
      · simp only [Option.bind_eq_bind, Option.bind_eq_some_iff] at found
        obtain ⟨check, checked, found⟩ := found
        cases check with
        | found =>
          simp only [Option.some.injEq] at found
          rw [← found]
          exact checked
        | blocked count => exact ih found
        | exhausted => exact ih found
      · exact ih found
    · cases found

def FreeRange (s : State) (size start : Nat) : Prop :=
  0 < size ∧ ∀ c, c < size → (start + c) / 64 < 1200 ∧ busy s (start + c) = false

theorem rangeFreeFrom_spec {s : State} {size fuel i : Nat} {result : Int}
    (found : rangeFreeFrom s size fuel i = some result) :
    result = -1 ∨ ∃ start : Nat, result = start ∧ FreeRange s size start := by
  induction fuel generalizing i with
  | zero => cases found
  | succ fuel ih =>
    simp only [rangeFreeFrom] at found
    split at found
    · split at found
      · split at found
        · simp only [Option.bind_eq_bind, Option.bind_eq_some_iff] at found
          obtain ⟨scan, scanned, found⟩ := found
          cases scan with
          | some j =>
            have check := rangeFreeBit_found scanned
            obtain ⟨positive, free⟩ := rangeCheck_found (by omega) check
            exact Or.inr ⟨i * 64 + j, (Option.some.inj found).symm, positive,
              fun c upper => free c (by omega) upper⟩
          | none => exact ih found
        · exact ih found
      · cases found
    · exact Or.inl (Option.some.inj found).symm

theorem FreeRange.bound {s : State} {size start : Nat} (free : FreeRange s size start) :
    start + size ≤ 76800 := by
  have last := (free.2 (size - 1) (by have := free.1; omega)).1
  have positive := free.1
  omega

theorem bit_setBlocks {s next : State} {start remaining i : Nat} (bound : start + i + remaining ≤ 76800)
    (executed : setBlocks s (BitVec.ofNat 64 start) remaining i = some next) (index : Fin 1200) (bit : Nat) :
    (next.memoryMap index).getLsbD bit = true ↔ (s.memoryMap index).getLsbD bit = true ∨
      ∃ c, i ≤ c ∧ c < i + remaining ∧ Covers (start + c) index bit := by
  induction remaining generalizing s i with
  | zero =>
    cases executed
    have nothing : ¬ ∃ c, i ≤ c ∧ c < i + 0 ∧ Covers (start + c) index bit := by
      rintro ⟨c, lower, upper, _⟩
      omega
    simp only [nothing, or_false]
  | succ remaining ih =>
    simp only [setBlocks, Option.bind_eq_bind, Option.bind_eq_some_iff] at executed
    obtain ⟨middle, set, rest⟩ := executed
    rw [← BitVec.ofNat_add, toInt32_ofNat (by omega)] at set
    rw [ih (by omega) rest, bit_setBlock set, or_assoc]
    apply or_congr_right
    constructor
    · rintro (covered | ⟨c, lower, upper, covered⟩)
      · exact ⟨i, by omega, by omega, covered⟩
      · exact ⟨c, by omega, by omega, covered⟩
    · rintro ⟨c, lower, upper, covered⟩
      by_cases first : c = i
      · exact Or.inl (first ▸ covered)
      · exact Or.inr ⟨c, by omega, by omega, covered⟩

theorem bit_unsetBlocks {s next : State} {start remaining i : Nat}
    (executed : unsetBlocks s start remaining i = some next) (index : Fin 1200) (bit : Nat) :
    (next.memoryMap index).getLsbD bit = true ↔ (s.memoryMap index).getLsbD bit = true ∧
      ∀ c, i ≤ c → c < i + remaining → ¬ Covers (start + c) index bit := by
  induction remaining generalizing s i with
  | zero =>
    cases executed
    exact ⟨fun set => ⟨set, by intro c lower upper; omega⟩, fun kept => kept.1⟩
  | succ remaining ih =>
    simp only [unsetBlocks, Option.bind_eq_bind, Option.bind_eq_some_iff] at executed
    obtain ⟨middle, unset, rest⟩ := executed
    rw [← Int.natCast_add] at unset
    rw [ih rest, bit_unsetBlock unset, and_assoc]
    apply and_congr_right
    intro _
    constructor
    · rintro ⟨first, later⟩ c lower upper
      by_cases same : c = i
      · exact same ▸ first
      · exact later c (by omega) (by omega)
    · intro none
      exact ⟨none i (by omega) (by omega), fun c lower upper => none c (by omega) (by omega)⟩

theorem unsetBlocks_total {start remaining i : Nat} (s : State) (bound : start + i + remaining ≤ 76800) :
    ∃ next, unsetBlocks s start remaining i = some next ∧ next.usedBlocks = s.usedBlocks ∧
      next.maxBlocks = s.maxBlocks := by
  induction remaining generalizing s i with
  | zero => exact ⟨s, rfl, rfl, rfl⟩
  | succ remaining ih =>
    have unset : mmgrUnsetBlock s ((start + i : Nat) : Int) = some _ := unsetBlock_eq.mpr ⟨by omega, rfl⟩
    obtain ⟨next, rest, used, total⟩ := ih (i := i + 1) (s.storeWord _ _) (by omega)
    refine ⟨next, ?_, used, total⟩
    rw [unsetBlocks, ← Int.natCast_add, unset]
    exact rest

theorem busy_setBlocks {s next : State} {start remaining i : Nat} (bound : start + i + remaining ≤ 76800)
    (executed : setBlocks s (BitVec.ofNat 64 start) remaining i = some next) (other : Nat) :
    busy next other = true ↔ busy s other = true ∨
      ∃ c, i ≤ c ∧ c < i + remaining ∧ Aliased (start + c) other := by
  by_cases inside : other / 64 < 1200
  · rw [busy_of_word next inside rfl, busy_of_word s inside rfl, bit_setBlocks bound executed]
    simp only [covers_aliased]
  · rw [busy, busy, dif_neg inside, dif_neg inside]
    constructor
    · exact Or.inl
    · rintro (marked | ⟨c, lower, upper, aliased⟩)
      · exact marked
      · have word := aliased.1
        omega

theorem busy_unsetBlocks {s next : State} {start remaining i : Nat}
    (executed : unsetBlocks s start remaining i = some next) (other : Nat) :
    busy next other = true ↔ busy s other = true ∧
      ∀ c, i ≤ c → c < i + remaining → ¬ Aliased (start + c) other := by
  by_cases inside : other / 64 < 1200
  · rw [busy_of_word next inside rfl, busy_of_word s inside rfl, bit_unsetBlocks executed]
    simp only [covers_aliased]
  · rw [busy, busy, dif_neg inside, dif_neg inside, Bool.false_eq_true, false_and]

theorem size_toInt {size : BitVec 32} (bound : size.toNat ≤ 76800) : size.toInt.toNat = size.toNat := by
  rw [BitVec.toInt_eq_toNat_cond, if_pos (by omega)]
  simp

theorem allocSizeBlocks_cases {s next : State} {size : BitVec 32} {address : BitVec 64}
    (executed : mmgrAllocSizeBlocks s size = some (address, next)) :
    (address = 0 ∧ next = s) ∨
    ∃ start marked, FreeRange s size.toNat start ∧
      setBlocks s (BitVec.ofNat 64 start) size.toNat 0 = some marked ∧ address = blockAddress start ∧
      next = { marked with usedBlocks := marked.usedBlocks + size.signExtend 64 } := by
  unfold mmgrAllocSizeBlocks at executed
  split at executed
  · cases executed
    exact Or.inl ⟨rfl, rfl⟩
  · simp only [Option.bind_eq_bind, Option.bind_eq_some_iff] at executed
    obtain ⟨found, searched, executed⟩ := executed
    rcases rangeFreeFrom_spec searched with rfl | ⟨start, rfl, free⟩
    · rw [if_pos (by decide)] at executed
      cases executed
      exact Or.inl ⟨rfl, rfl⟩
    · have bound := free.bound
      have positive := free.1
      rw [if_neg (pageFrame_ne_minus_one (by omega)), size_toInt (by omega), BitVec.ofInt_natCast] at executed
      obtain ⟨marked, set, executed⟩ := Option.bind_eq_some_iff.mp executed
      cases executed
      exact Or.inr ⟨start, marked, free, set, rfl, rfl⟩

end Sbunix.Mmgr
