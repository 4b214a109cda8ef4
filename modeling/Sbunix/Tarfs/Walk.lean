import Sbunix.Tarfs.Model

namespace Sbunix.Tarfs

open Library

theorem digit_value : ∀ digit, digit < 8 →
    BitVec.ofNat 8 (48 + digit) ≠ 0 ∧
      (BitVec.ofNat 8 (48 + digit)).signExtend 32 - 48 = BitVec.ofNat 32 digit := by
  decide

theorem atoFrom_digits {mem : Memory} {str size : Nat}
    (digits : ∀ k, k < 11 → mem (str + k) = BitVec.ofNat 8 (48 + size / 8 ^ (10 - k) % 8))
    (ended : mem (str + 11) = 0) (left remaining : Nat) (few : left ≤ 11) :
    atoFrom 8 mem str (remaining + left + 1) (11 - left) (BitVec.ofNat 32 (size / 8 ^ left)) =
      some (BitVec.ofNat 32 size) := by
  induction left with
  | zero =>
    rw [Nat.sub_zero, atoFrom, if_pos ended, Nat.pow_zero, Nat.div_one]
  | succ left ih =>
    have character := digits (11 - (left + 1)) (by omega)
    rw [show 10 - (11 - (left + 1)) = left by omega] at character
    obtain ⟨nonzero, value⟩ := digit_value (size / 8 ^ left % 8) (Nat.mod_lt _ (by decide))
    rw [show remaining + (left + 1) + 1 = (remaining + left + 1) + 1 by omega, atoFrom, character,
      if_neg nonzero, value, show 11 - (left + 1) + 1 = 11 - left by omega]
    have shifted : BitVec.ofNat 32 (size / 8 ^ (left + 1)) * 8 + BitVec.ofNat 32 (size / 8 ^ left % 8) =
        BitVec.ofNat 32 (size / 8 ^ left) := by
      rw [show (8 : BitVec 32) = BitVec.ofNat 32 8 from rfl, ← BitVec.ofNat_mul, ← BitVec.ofNat_add,
        Nat.pow_succ, ← Nat.div_div_eq_div_mul, Nat.div_add_mod']
    rw [shifted]
    exact ih (by omega)

theorem Header.size {mem : Memory} {address : Nat} {entry : Entry} (header : Header mem address entry)
    (valid : entry.Valid) : myAtool mem (address + sizeField) = some (BitVec.ofNat 32 entry.size) := by
  have zero : entry.size / 8 ^ 11 = 0 := Nat.div_eq_of_lt (Nat.lt_of_lt_of_le valid.size (by decide))
  have value := atoFrom_digits header.digits header.digitsEnd 11 65524 (Nat.le_refl _)
  rw [zero] at value
  exact value

theorem Header.string {mem : Memory} {address : Nat} {entry : Entry} (header : Header mem address entry)
    (valid : entry.Valid) : cString mem address = some entry.name :=
  cString_eq header.name valid.noNul header.nameEnd

def Overshoots (size : Nat) : Bool := 0 < size && size % 512 == 0

def excess (skip : Bool) : Nat := if skip then 512 else 0

theorem round_toNat {size : Nat} (small : size + 512 < 2 ^ 31) :
    ((round (BitVec.ofNat 32 size)).signExtend 64).toNat = 512 * (size / 512 + 1) := by
  have bound : 1024 * (size / 512 + 1) < 2 ^ 32 := by omega
  have value : (BitVec.ofNat 32 size).toNat = size := by
    rw [BitVec.toNat_ofNat]
    omega
  have quotient : (BitVec.ofNat 32 size).sdiv 512 = BitVec.ofNat 32 (size / 512) := by
    have sign : (BitVec.ofNat 32 size).msb = false := by
      rw [BitVec.msb_eq_false_iff_two_mul_lt, value]
      omega
    rw [BitVec.sdiv_eq, sign]
    apply BitVec.eq_of_toNat_eq
    change ((BitVec.ofNat 32 size) / 512).toNat = _
    rw [BitVec.toNat_udiv, value, BitVec.toNat_ofNat]
    change size / 512 = size / 512 % 2 ^ 32
    omega
  have rounded : round (BitVec.ofNat 32 size) = BitVec.ofNat 32 (512 * (size / 512 + 1)) := by
    rw [round, quotient, Nat.mul_comm, BitVec.ofNat_mul, BitVec.ofNat_add]
    rfl
  have whole : (round (BitVec.ofNat 32 size)).toNat = 512 * (size / 512 + 1) := by
    rw [rounded, BitVec.toNat_ofNat]
    omega
  have sign : (round (BitVec.ofNat 32 size)).msb = false := by
    rw [BitVec.msb_eq_false_iff_two_mul_lt, whole, ← Nat.mul_assoc]
    exact bound
  have small : 512 * (size / 512 + 1) < 2 ^ 64 := by omega
  rw [BitVec.signExtend_eq_setWidth_of_msb_false sign, BitVec.toNat_setWidth, whole, Nat.mod_eq_of_lt small]

theorem nextHeader_eq {address : Nat} {entry : Entry} (small : entry.size + 512 < 2 ^ 31)
    (below : after address entry + 512 < 2 ^ 64) :
    nextHeader address (BitVec.ofNat 32 entry.size) = after address entry + excess (Overshoots entry.size) := by
  by_cases empty : entry.size = 0
  · rw [nextHeader, empty, if_pos (show 0#32 = 0 from rfl), after, empty]
    rw [after, empty] at below
    change (address + 512) % 2 ^ 64 = address + 512 + 0 + 0
    change address + 512 + 0 + 512 < 2 ^ 64 at below
    omega
  · have nonzero : BitVec.ofNat 32 entry.size ≠ 0 := by
      intro zero
      have value := congrArg BitVec.toNat zero
      rw [BitVec.toNat_ofNat] at value
      change entry.size % 2 ^ 32 = 0 at value
      omega
    rw [nextHeader, if_neg nonzero, round_toNat small]
    have advance : 512 * (entry.size / 512 + 1) = padded entry.size + excess (Overshoots entry.size) := by
      rw [padded, Overshoots, excess]
      by_cases full : entry.size % 512 = 0
      · have overshoots : (decide (0 < entry.size) && entry.size % 512 == 0) = true := by
          simp [full]
          omega
        rw [if_pos overshoots]
        omega
      · have fits : ¬ (decide (0 < entry.size) && entry.size % 512 == 0) = true := by simp [full]
        rw [if_neg fits]
        omega
    have bound : excess (Overshoots entry.size) ≤ 512 := by
      unfold excess
      split <;> omega
    rw [advance, after]
    rw [after] at below
    change (address + 512 + (padded entry.size + excess (Overshoots entry.size))) % 2 ^ 64 = _
    omega

theorem atoFrom_congr {base : BitVec 32} {left right : Memory} {str : Nat} (same : ∀ m, str ≤ m → left m = right m)
    (remaining i : Nat) (res : BitVec 32) :
    atoFrom base left str remaining i res = atoFrom base right str remaining i res := by
  induction remaining generalizing i res with
  | zero => rfl
  | succ remaining ih => rw [atoFrom, atoFrom, same (str + i) (by omega), ih]

theorem myAtool_of_zero {mem : Memory} {str : Nat} (ended : mem str = 0) : myAtool mem str = some 0 :=
  if_pos ended

theorem nextHeader_zero {header : Nat} (below : header + 512 < 2 ^ 64) : nextHeader header 0 = header + 512 := by
  rw [nextHeader, if_pos rfl]
  change (header + 512) % 2 ^ 64 = header + 512
  omega

section Walk

variable {State : Type} {mem : Memory} {stop : Nat} {visit : State → Nat → Option (State × Bool)}

theorem walkArchive_step {state next : State} {header : Nat} {size : BitVec 32} (inside : header ≤ stop)
    (visited : visit state header = some (next, false)) (read : myAtool mem (header + sizeField) = some size) :
    walkArchive mem stop visit state header = walkArchive mem stop visit next (nextHeader header size) := by
  rw [walkArchive, if_pos inside, visited]
  simp only [Option.bind_eq_bind, Option.bind_some, read, Bool.false_eq_true, if_false]

theorem walkArchive_stuck {state : State} {header : Nat} (inside : header ≤ stop)
    (stuck : visit state header = none) : walkArchive mem stop visit state header = none := by
  rw [walkArchive, if_pos inside, stuck]
  rfl

theorem walkArchive_left {state next : State} {header : Nat} (inside : header ≤ stop)
    (visited : visit state header = some (next, true)) : walkArchive mem stop visit state header = some next := by
  rw [walkArchive, if_pos inside, visited]
  simp only [Option.bind_eq_bind, Option.bind_some, if_true]

theorem walkArchive_end {state : State} {header : Nat} (outside : stop < header) :
    walkArchive mem stop visit state header = some state := by
  rw [walkArchive, if_neg (by omega)]

def Idle (mem : Memory) (visit : State → Nat → Option (State × Bool)) : Prop :=
  ∀ state header, mem header = 0 → mem (header + sizeField) = 0 → visit state header = some (state, false)

theorem walk_zeros (idle : Idle mem visit) (below : stop + 512 < 2 ^ 64) (state : State) (header blocks : Nat)
    (zeros : ∀ m, header ≤ m → m < header + 512 * blocks → mem m = 0) (inside : header + 512 * blocks ≤ stop) :
    walkArchive mem stop visit state header = walkArchive mem stop visit state (header + 512 * blocks) := by
  induction blocks generalizing header with
  | zero => rfl
  | succ blocks ih =>
    have first : mem header = 0 := zeros header (Nat.le_refl _) (by omega)
    have size : mem (header + sizeField) = 0 := zeros (header + 124) (by omega) (by omega)
    have rest := ih (header + 512) (fun m low high => zeros m (by omega) (by omega)) (by omega)
    rw [walkArchive_step (by omega) (idle state header first size) (myAtool_of_zero size),
      nextHeader_zero (by omega), rest,
      show header + 512 + 512 * blocks = header + 512 * (blocks + 1) by omega]

def visitAll (visit : State → Nat → Option (State × Bool)) : State → List Nat → Option (State × Bool)
  | state, [] => some (state, false)
  | state, header :: headers => do
    let (state, left) ← visit state header
    if left then some (state, true) else visitAll visit state headers

def visitThenEnd (mem : Memory) (stop : Nat) (visit : State → Nat → Option (State × Bool)) (state : State)
    (headers : List Nat) : Option State := do
  let (state, left) ← visitAll visit state headers
  if left then some state else walkArchive mem stop visit state stop

end Walk

/-- The entries that the walk comes to. Where it overshoots it leaves out the next one. -/
def visitedFrom : Bool → Nat → List Entry → List (Nat × Entry)
  | _, _, [] => []
  | true, address, entry :: entries => visitedFrom false (after address entry) entries
  | false, address, entry :: entries =>
    (address, entry) :: visitedFrom (Overshoots entry.size) (after address entry) entries

def QuietData (mem : Memory) : Bool → Nat → List Entry → Prop
  | _, _, [] => True
  | true, address, entry :: entries =>
    (∀ m, address + 512 ≤ m → m < after address entry → mem m = 0) ∧
      QuietData mem false (after address entry) entries
  | false, address, entry :: entries => QuietData mem (Overshoots entry.size) (after address entry) entries

theorem size_le_padded (size : Nat) : size ≤ padded size := by
  unfold padded
  omega

theorem Archive.below {mem : Memory} {stop address : Nat} {entries : List Entry}
    (archive : Archive mem stop address entries) : address + 1024 ≤ stop := by
  induction entries generalizing address with
  | nil =>
    obtain ⟨⟨blocks, many, equal⟩, _⟩ := archive
    omega
  | cons entry entries ih =>
    have rest := ih archive.2
    unfold after at rest
    omega

structure Linked (start stop : Nat) : Prop where
  low : 0xFFFFFFFF80000000 ≤ start
  high : stop + 512 < 2 ^ 64

theorem Archive.nextHeader {mem : Memory} {stop address : Nat} {entry : Entry} {entries : List Entry}
    (archive : Archive mem stop (after address entry) entries) (linked : Linked address stop) :
    nextHeader address (BitVec.ofNat 32 entry.size) = after address entry + excess (Overshoots entry.size) := by
  have room := archive.below
  have sized := size_le_padded entry.size
  have low := linked.low
  have high := linked.high
  apply nextHeader_eq
  · unfold after at room
    omega
  · omega

section Entries

variable {State : Type} {mem : Memory} {stop : Nat} {visit : State → Nat → Option (State × Bool)}

/-- A walk over an archive visits the entries that it does not overshoot, and then the end. -/
theorem walk_entries (idle : Idle mem visit) (state : State) {skip : Bool} {address : Nat} {entries : List Entry}
    (linked : Linked address stop) (archive : Archive mem stop address entries)
    (valid : ∀ entry ∈ entries, entry.Valid) (quiet : QuietData mem skip address entries) :
    walkArchive mem stop visit state (address + excess skip) =
      visitThenEnd mem stop visit state ((visitedFrom skip address entries).map Prod.fst) := by
  induction entries generalizing address skip state with
  | nil =>
    obtain ⟨⟨blocks, many, equal⟩, zeros⟩ := archive
    change _ = walkArchive mem stop visit state stop
    have end_eq : stop = address + excess skip + 512 * (blocks - excess skip / 512) := by
      cases skip
      · change stop = address + 0 + 512 * (blocks - 0 / 512)
        omega
      · change stop = address + 512 + 512 * (blocks - 512 / 512)
        omega
    have run := walk_zeros idle linked.high state (address + excess skip) (blocks - excess skip / 512)
      (fun m low high => zeros m (by omega) (by omega)) (Nat.le_of_eq end_eq.symm)
    rw [run, ← end_eq]
  | cons entry entries ih =>
    have head := valid entry List.mem_cons_self
    have tail : ∀ other ∈ entries, other.Valid := fun other member => valid other (List.mem_cons_of_mem _ member)
    have room := archive.2.below
    have low := linked.low
    have high := linked.high
    have later : Linked (after address entry) stop := ⟨by unfold after; omega, high⟩
    cases skip with
    | false =>
      have next := archive.2.nextHeader linked
      have inside : address ≤ stop := by
        unfold after at room
        omega
      have continued : ∀ other : State, walkArchive mem stop visit other (after address entry +
          excess (Overshoots entry.size)) = visitThenEnd mem stop visit other
            ((visitedFrom (Overshoots entry.size) (after address entry) entries).map Prod.fst) :=
        fun other => ih other later archive.2 tail quiet
      change walkArchive mem stop visit state (address + 0) = visitThenEnd mem stop visit state
        (address :: (visitedFrom (Overshoots entry.size) (after address entry) entries).map Prod.fst)
      rw [Nat.add_zero]
      cases visited : visit state address with
      | none =>
        rw [walkArchive, if_pos inside, visitThenEnd, visitAll, visited]
        rfl
      | some result =>
        obtain ⟨other, left⟩ := result
        cases left with
        | true =>
          rw [walkArchive_left inside visited, visitThenEnd, visitAll, visited]
          rfl
        | false =>
          rw [walkArchive_step inside visited (archive.1.size head), next, continued other, visitThenEnd,
            visitThenEnd, visitAll, visited]
          simp only [Option.bind_eq_bind, Option.bind_some, Bool.false_eq_true, if_false]
    | true =>
      have whole : after address entry = address + 512 + 512 * ((entry.size + 511) / 512) := rfl
      have run := walk_zeros idle high state (address + 512) ((entry.size + 511) / 512)
        (fun m low high => quiet.1 m low (by omega)) (by omega)
      change walkArchive mem stop visit state (address + 512) = _
      rw [run, ← whole]
      exact ih state later archive.2 tail quiet.2

end Entries

end Sbunix.Tarfs
