import Mathlib.Logic.Relation
import Sbunix.Tarfs.Image

namespace Sbunix.Tarfs

open Relation

def HeaderStep (mem : Memory) (stop header next : Nat) : Prop :=
  header ≤ stop ∧ ∃ size, myAtool mem (header + sizeField) = some size ∧ next = nextHeader header size

def Visits (mem : Memory) (stop start header : Nat) : Prop := ReflTransGen (HeaderStep mem stop) start header

def SizeTerminated (mem : Memory) (header : Nat) : Prop := ∃ k, k < 12 ∧ mem (header + sizeField + k) = 0

def Advances (mem : Memory) (stop start : Nat) : Prop :=
  ∀ header next, Visits mem stop start header → HeaderStep mem stop header next → header < next

def Ends (mem : Memory) (stop start : Nat) : Prop := ∃ header, Visits mem stop start header ∧ stop < header

def blocks (size : BitVec 32) : Int := if size = 0 then 0 else 512 * (size.toInt.tdiv 512 + 1)

/-- The size, read as signed, is above -1024, its blocks are below 2 GiB, and the next header is in the address
    space. -/
structure StepsForward (header : Nat) (size : BitVec 32) : Prop where
  above : -1024 < size.toInt
  below : size.toInt < 2 ^ 31 - 512
  inside : header + 512 + blocks size < 2 ^ 64

theorem round_toInt (size : BitVec 32) : (round size).toInt = (512 * (size.toInt.tdiv 512 + 1)).bmod (2 ^ 32) := by
  have quotient : (size.sdiv 512).toInt = (size.toInt.tdiv 512).bmod (2 ^ 32) := BitVec.toInt_sdiv size 512
  rw [round, BitVec.toInt_mul, BitVec.toInt_add, quotient]
  change (((((size.toInt.tdiv 512).bmod (2 ^ 32)) + 1).bmod (2 ^ 32)) * 512).bmod (2 ^ 32) = _
  rw [Int.bmod_add_bmod, Int.bmod_mul_bmod, Int.mul_comm]

theorem tdiv_cases (value : Int) :
    0 ≤ value ∧ value.tdiv 512 = value / 512 ∨ value < 0 ∧ value.tdiv 512 = -(-value / 512) := by
  by_cases negative : value < 0
  · refine Or.inr ⟨negative, ?_⟩
    have positive : (-value).tdiv 512 = -value / 512 := Int.tdiv_eq_ediv_of_nonneg (by omega)
    rw [← positive, Int.neg_tdiv, Int.neg_neg]
  · exact Or.inl ⟨by omega, Int.tdiv_eq_ediv_of_nonneg (by omega)⟩

def added (size : BitVec 32) : Int := if size = 0 then 0 else (round size).toInt

/-- The blocks of the largest sizes overflow. -/
theorem added_eq (size : BitVec 32) : added size = if size.toInt < 2 ^ 31 - 512 then blocks size else -2 ^ 31 := by
  have low : -2 ^ 31 ≤ size.toInt := size.le_toInt
  have high : size.toInt < 2 ^ 31 := size.toInt_lt
  rw [added, blocks]
  by_cases zero : size = 0
  · rw [if_pos zero, if_pos zero, zero]
    rfl
  · rw [if_neg zero, if_neg zero, round_toInt]
    have quotient := tdiv_cases size.toInt
    by_cases below : size.toInt < 2 ^ 31 - 512
    · rw [if_pos below]
      exact Int.bmod_eq_of_le (by omega) (by omega)
    · have last : size.toInt.tdiv 512 = 4194303 := by omega
      rw [if_neg below, last]
      rfl

theorem nextHeader_toInt (header : Nat) (size : BitVec 32) :
    (nextHeader header size : Int) = (header + 512 + added size) % 2 ^ 64 := by
  rw [nextHeader, added]
  split
  · rw [headerSize]
    omega
  · have widened : ((round size).signExtend 64).toInt = (round size).toInt := BitVec.toInt_signExtend_of_le (by decide)
    have bound := ((round size).signExtend 64).isLt
    rw [BitVec.toInt_eq_toNat_cond] at widened
    rw [headerSize, ← widened]
    split <;> omega

theorem StepsForward.next {header : Nat} {size : BitVec 32} (forward : StepsForward header size) :
    header < nextHeader header size := by
  obtain ⟨above, below, inside⟩ := forward
  have next := nextHeader_toInt header size
  have quotient := tdiv_cases size.toInt
  rw [added_eq, if_pos below] at next
  rw [blocks] at next inside
  by_cases zero : size = 0
  · rw [if_pos zero] at next inside
    omega
  · rw [if_neg zero] at next inside
    omega

/-- A step that does not go forward goes back or stays, unless the addresses below 2 GiB wrap. -/
theorem lt_nextHeader_iff {header : Nat} (low : 2 ^ 31 ≤ header) (bound : header < 2 ^ 64) (size : BitVec 32) :
    header < nextHeader header size ↔ StepsForward header size := by
  refine ⟨fun forward => ?_, StepsForward.next⟩
  have next := nextHeader_toInt header size
  have least : -2 ^ 31 ≤ size.toInt := size.le_toInt
  have most : size.toInt < 2 ^ 31 := size.toInt_lt
  have quotient := tdiv_cases size.toInt
  rw [added_eq] at next
  by_cases below : size.toInt < 2 ^ 31 - 512
  · rw [if_pos below] at next
    have steps : blocks size = 0 ∨ blocks size = 512 * (size.toInt.tdiv 512 + 1) := by
      rw [blocks]
      split
      · exact Or.inl rfl
      · exact Or.inr rfl
    have value : size = 0 → size.toInt = 0 := by
      intro zero
      rw [zero]
      rfl
    refine ⟨?_, below, by omega⟩
    by_contra negative
    rw [blocks, if_neg fun zero => negative (by rw [value zero]; decide)] at next
    omega
  · rw [if_neg below] at next
    omega

theorem atoFrom_terminated {base : BitVec 32} {mem : Memory} {str remaining i k : Nat} (ended : mem (str + i + k) = 0)
    (enough : k < remaining) (res : BitVec 32) : ∃ size, atoFrom base mem str remaining i res = some size := by
  induction k generalizing remaining i res with
  | zero =>
    obtain ⟨left, rfl⟩ : ∃ left, remaining = left + 1 := ⟨remaining - 1, by omega⟩
    rw [atoFrom, if_pos (show mem (str + i) = 0 from ended)]
    exact ⟨res, rfl⟩
  | succ k ih =>
    obtain ⟨left, rfl⟩ : ∃ left, remaining = left + 1 := ⟨remaining - 1, by omega⟩
    rw [atoFrom]
    split
    · exact ⟨res, rfl⟩
    · refine ih ?_ (by omega) _
      rw [show str + (i + 1) + k = str + i + (k + 1) by omega]
      exact ended

theorem SizeTerminated.size {mem : Memory} {header : Nat} (terminated : SizeTerminated mem header) :
    ∃ size, myAtool mem (header + sizeField) = some size := by
  obtain ⟨k, short, ended⟩ := terminated
  rw [myAtool]
  exact atoFrom_terminated (show mem (header + sizeField + 0 + k) = 0 from ended) (by omega) 0

section Walk

variable {mem : Memory} {stop start : Nat}

/-- Every header that the loop comes to has a size that goes forward. -/
def GoesForward (mem : Memory) (stop start : Nat) : Prop :=
  ∀ header size, Visits mem stop start header → header ≤ stop → myAtool mem (header + sizeField) = some size →
    StepsForward header size

theorem GoesForward.step {next : Nat} (forward : GoesForward mem stop start) (step : HeaderStep mem stop start next) :
    GoesForward mem stop next :=
  fun header size visited => forward header size (ReflTransGen.head step visited)

theorem GoesForward.advances (forward : GoesForward mem stop start) : Advances mem stop start := by
  rintro header next visited ⟨inside, size, read, rfl⟩
  exact (forward header size visited inside read).next

theorem Advances.le {header : Nat} (advances : Advances mem stop start) (visited : Visits mem stop start header) :
    start ≤ header := by
  induction visited with
  | refl => exact Nat.le_refl start
  | tail before step ih => exact Nat.le_of_lt (Nat.lt_of_le_of_lt ih (advances _ _ before step))

theorem Advances.goesForward (linked : Linked start stop) (advances : Advances mem stop start) :
    GoesForward mem stop start := by
  intro header size visited inside read
  have low := advances.le visited
  have start_low := linked.low
  have high := linked.high
  rw [← lt_nextHeader_iff (by omega) (by omega)]
  exact advances header _ visited ⟨inside, size, read, rfl⟩

variable (terminated : ∀ header, Visits mem stop start header → header ≤ stop → SizeTerminated mem header)

include terminated

/-- The rule of induction over the headers. The distance to the end falls in each round. -/
theorem GoesForward.induction {motive : Nat → Prop} (forward : GoesForward mem stop start)
    (past : ∀ header, stop < header → motive header)
    (round : ∀ header size, header ≤ stop → myAtool mem (header + sizeField) = some size →
      motive (nextHeader header size) → motive header) : motive start := by
  induction left : stop + 1 - start using Nat.strongRecOn generalizing start with
  | _ left ih =>
    by_cases inside : start ≤ stop
    · obtain ⟨size, read⟩ := (terminated start ReflTransGen.refl inside).size
      have step : HeaderStep mem stop start (nextHeader start size) := ⟨inside, size, read, rfl⟩
      have further := (forward start size ReflTransGen.refl inside read).next
      apply round start size inside read
      exact ih (stop + 1 - nextHeader start size) (by omega)
        (fun header visited => terminated header (ReflTransGen.head step visited)) (forward.step step) rfl
    · exact past start (by omega)

theorem GoesForward.ends (forward : GoesForward mem stop start) : Ends mem stop start := by
  refine forward.induction terminated ?_ ?_
  · exact fun header past => ⟨header, ReflTransGen.refl, past⟩
  · rintro header size inside read ⟨last, visited, past⟩
    exact ⟨last, ReflTransGen.head ⟨inside, size, read, rfl⟩ visited, past⟩

/-- The loops whose visits return all return. -/
theorem GoesForward.walk_returns (forward : GoesForward mem stop start) {State : Type}
    {visit : State → Nat → Option (State × Bool)} (returns : ∀ state header, ∃ next, visit state header = some next)
    (state : State) : ∃ final, walkArchive mem stop visit state start = some final := by
  refine forward.induction (motive := fun header => ∀ state, ∃ final,
    walkArchive mem stop visit state header = some final) terminated ?_ ?_ state
  · exact fun header past state => ⟨state, walkArchive_end past⟩
  · intro header size inside read later state
    obtain ⟨⟨next, left⟩, visited⟩ := returns state header
    cases left with
    | true => exact ⟨next, walkArchive_left inside visited⟩
    | false =>
      rw [walkArchive_step inside visited read]
      exact later next

end Walk

/-- The loop over the archive advances exactly where every size it comes to goes forward, and then it ends. -/
theorem walk_advances_iff (mem : Memory) (start stop : Nat) (linked : Linked start stop)
    (terminated : ∀ header, Visits mem stop start header → header ≤ stop → SizeTerminated mem header) :
    (Advances mem stop start ∧ Ends mem stop start ↔ GoesForward mem stop start) ∧
    (GoesForward mem stop start → ∀ (State : Type) (visit : State → Nat → Option (State × Bool)),
      (∀ state header, ∃ next, visit state header = some next) →
        ∀ state, ∃ final, walkArchive mem stop visit state start = some final) := by
  refine ⟨⟨fun both => both.1.goesForward linked, fun forward => ⟨forward.advances, forward.ends terminated⟩⟩, ?_⟩
  intro forward State visit returns state
  exact forward.walk_returns terminated returns state

def twoBlocks : Memory := image 0xFFFFFFFF80200000 [⟨[97], 1000⟩]

theorem twoBlocks_header : Header twoBlocks 0xFFFFFFFF80200000 ⟨[97], 1000⟩ :=
  image_header _ ⟨by decide, by decide, by decide, by decide⟩ []

theorem twoBlocks_size : myAtool twoBlocks (0xFFFFFFFF80200000 + sizeField) = some 1000 :=
  twoBlocks_header.size ⟨by decide, by decide, by decide, by decide⟩

theorem twoBlocks_behind {header : Nat} (behind : 0xFFFFFFFF80200600 ≤ header) : twoBlocks (header + sizeField) = 0 :=
  image_behind (Nat.le_add_right_of_le behind)

theorem twoBlocks_visited {header : Nat} (visited : Visits twoBlocks 0xFFFFFFFF80200A00 0xFFFFFFFF80200000 header) :
    header = 0xFFFFFFFF80200000 ∨ 0xFFFFFFFF80200600 ≤ header := by
  induction visited with
  | refl => exact Or.inl rfl
  | tail _ step ih =>
    obtain ⟨inside, size, read, rfl⟩ := step
    refine Or.inr ?_
    rcases ih with rfl | behind
    · cases twoBlocks_size.symm.trans read
      decide
    · cases (myAtool_of_zero (twoBlocks_behind behind)).symm.trans read
      rw [nextHeader_zero (by omega)]
      omega

theorem twoBlocks_advance : Advances twoBlocks 0xFFFFFFFF80200A00 0xFFFFFFFF80200000 ∧
    Ends twoBlocks 0xFFFFFFFF80200A00 0xFFFFFFFF80200000 := by
  have terminated : ∀ header, Visits twoBlocks 0xFFFFFFFF80200A00 0xFFFFFFFF80200000 header →
      header ≤ 0xFFFFFFFF80200A00 → SizeTerminated twoBlocks header := by
    intro header visited _
    rcases twoBlocks_visited visited with rfl | behind
    · exact ⟨11, by decide, twoBlocks_header.digitsEnd⟩
    · exact ⟨0, by decide, twoBlocks_behind behind⟩
  refine (walk_advances_iff twoBlocks _ _ ⟨by decide, by decide⟩ terminated).1.mpr ?_
  intro header size visited inside read
  rcases twoBlocks_visited visited with rfl | behind
  · cases twoBlocks_size.symm.trans read
    exact ⟨by decide, by decide, by decide⟩
  · cases (myAtool_of_zero (twoBlocks_behind behind)).symm.trans read
    refine ⟨by decide, by decide, ?_⟩
    change (header : Int) + 512 + 0 < 2 ^ 64
    omega

def backwards : Memory := image 0xFFFFFFFF80200000 [⟨[97], 2 ^ 32 - 1024⟩]

theorem backwards_end : backwards (0xFFFFFFFF80200000 + sizeField + 11) = 0 := by
  rw [sizeField, Nat.add_assoc, backwards, image_entry (by omega), entryByte, if_neg (by omega), if_neg (by omega)]

theorem backwards_size :
    myAtool backwards (0xFFFFFFFF80200000 + sizeField) = some (BitVec.ofNat 32 (2 ^ 32 - 1024)) := by
  have digits : ∀ k, k < 11 → backwards (0xFFFFFFFF80200000 + sizeField + k) =
      BitVec.ofNat 8 (48 + (2 ^ 32 - 1024) / 8 ^ (10 - k) % 8) := by
    intro k inside
    rw [sizeField, Nat.add_assoc, backwards, image_entry (by omega), entryByte, if_neg (by omega), if_pos (by omega),
      show 134 - (124 + k) = 10 - k by omega]
  have value := atoFrom_digits digits backwards_end 11 65524 (Nat.le_refl _)
  rw [Nat.div_eq_of_lt (by decide)] at value
  exact value

/-- The loop comes back to the header for ever. -/
theorem negative_size_never_ends : ¬ ∀ (mem : Memory) (start stop : Nat), Linked start stop →
    (∀ header, Visits mem stop start header → header ≤ stop → SizeTerminated mem header) →
    Ends mem stop start := by
  intro every
  have stays : ∀ header, Visits backwards 0xFFFFFFFF80201000 0xFFFFFFFF80200000 header →
      header = 0xFFFFFFFF80200000 := by
    intro header visited
    induction visited with
    | refl => rfl
    | tail _ step ih =>
      obtain ⟨_, size, read, rfl⟩ := step
      subst ih
      cases backwards_size.symm.trans read
      decide
  have terminated : ∀ header, Visits backwards 0xFFFFFFFF80201000 0xFFFFFFFF80200000 header →
      header ≤ 0xFFFFFFFF80201000 → SizeTerminated backwards header := by
    intro header visited _
    rw [stays header visited]
    exact ⟨11, by decide, backwards_end⟩
  obtain ⟨header, visited, past⟩ := every backwards _ _ ⟨by decide, by decide⟩ terminated
  rw [stays header visited] at past
  exact absurd past (by decide)

end Sbunix.Tarfs
