import Sbunix.Library.Numeral
import Sbunix.Tarfs.Model

namespace Sbunix.Text

open Library
open Tarfs (Memory myAtool atoFrom)

def digitTable : List (BitVec 8) :=
  [48, 49, 50, 51, 52, 53, 54, 55, 56, 57, 97, 98, 99, 100, 101, 102, 0]

/-- The loop of `convert` and of `convert_u`. It has no result where it leaves the buffer at its front. -/
def convertFrom (base : BitVec 64) (buf : Memory) : Nat → BitVec 64 → Option (Memory × Nat)
  | 0, _ => none
  | ptr + 1, num =>
    if base = 0 then none
    else do
      let digit ← digitTable[(num % base).toNat]?
      let buf := Function.update buf ptr digit
      if num / base ≠ 0 then convertFrom base buf ptr (num / base) else some (buf, ptr)

def bufSize : Nat := 65

/-- The static buffer with what lies behind it, and the place in it where the string starts. -/
def convert (buf : Memory) (num : BitVec 64) (base : BitVec 32) : Option (Memory × Nat) :=
  convertFrom (base.signExtend 64) (Function.update buf (bufSize - 1) 0) (bufSize - 1) num

/-- The C library has the same code, with a `uint16_t` for the base. -/
def convertU (buf : Memory) (num : BitVec 64) (base : BitVec 16) : Option (Memory × Nat) :=
  convertFrom (base.setWidth 64) (Function.update buf (bufSize - 1) 0) (bufSize - 1) num

def myAtoi (mem : Memory) (str : Nat) : Option (BitVec 32) := atoFrom 10 mem str 65536 0 0

theorem digitTable_digitChar : ∀ d, d < 16 → digitTable[d]? = some (digitChar d) := by
  decide

section Convert

variable {base : BitVec 64}

/-- The loop puts the numeral in front of where it starts. -/
theorem convertFrom_numeral (two : 2 ≤ base.toNat) (table : base.toNat ≤ 16) {ptr : Nat} (buf : Memory)
    {num : BitVec 64} (room : (numeral base.toNat num.toNat).length ≤ ptr) :
    convertFrom base buf ptr num =
      some (place buf (ptr - (numeral base.toNat num.toNat).length) (numeral base.toNat num.toNat),
        ptr - (numeral base.toNat num.toNat).length) := by
  induction ptr generalizing num buf with
  | zero => exact absurd (List.length_eq_zero_iff.mp (Nat.le_zero.mp room)) (numeral_ne_nil two _)
  | succ ptr ih =>
    have nonzero : base ≠ 0 := by
      rintro rfl
      exact absurd two (by decide)
    have remainder : (num % base).toNat = num.toNat % base.toNat := BitVec.toNat_umod
    have quotient : (num / base).toNat = num.toNat / base.toNat := BitVec.toNat_udiv
    have digit : digitTable[(num % base).toNat]? = some (digitChar (num.toNat % base.toNat)) := by
      rw [remainder]
      exact digitTable_digitChar _ (Nat.lt_of_lt_of_le (Nat.mod_lt _ (by omega)) table)
    rw [convertFrom, if_neg nonzero, digit]
    simp only [Option.bind_eq_bind, Option.bind_some]
    by_cases small : num.toNat < base.toNat
    · have last : ¬num / base ≠ 0 := by
        rw [not_not, ← BitVec.toNat_inj, quotient]
        exact Nat.div_eq_of_lt small
      rw [if_neg last, numeral_of_lt small, List.length_singleton, Nat.add_sub_cancel, place_singleton,
        Nat.mod_eq_of_lt small]
    · have more : num / base ≠ 0 := by
        rw [ne_eq, ← BitVec.toNat_inj, quotient]
        exact Nat.ne_of_gt (Nat.div_pos (by omega) (by omega))
      have shorter := numeral_of_le two (Nat.le_of_not_lt small)
      rw [shorter, List.length_append, List.length_singleton] at room
      rw [if_pos more, ih _ (by rw [quotient]; omega), quotient, shorter, List.length_append, List.length_singleton,
        Nat.add_sub_add_right, ← place_concat, Nat.sub_add_cancel (by omega)]

/-- The 64 bytes in front of the terminator hold every number, also in base 2. -/
theorem length_numeral_word (two : 2 ≤ base.toNat) (num : BitVec 64) :
    (numeral base.toNat num.toNat).length ≤ 64 := by
  rw [length_numeral_le_iff two _ (by decide)]
  exact Nat.lt_of_lt_of_le num.isLt (Nat.pow_le_pow_left two 64)

theorem convertFrom_terminated (two : 2 ≤ base.toNat) (table : base.toNat ≤ 16) (buf : Memory) (num : BitVec 64) :
    convertFrom base (Function.update buf (bufSize - 1) 0) (bufSize - 1) num =
      some (place buf (64 - (numeral base.toNat num.toNat).length) (numeral base.toNat num.toNat ++ [0]),
        64 - (numeral base.toNat num.toNat).length) := by
  have room := length_numeral_word two num
  rw [show bufSize - 1 = 64 from rfl, convertFrom_numeral two table _ room, ← place_concat, Nat.sub_add_cancel room]

end Convert

theorem toNat_signExtend {x : BitVec 32} (nonneg : 0 ≤ x.toInt) :
    (x.signExtend 64).toNat = x.toNat ∧ x.toInt = x.toNat := by
  have positive : x.msb = false := by
    rw [BitVec.msb_eq_toInt, decide_eq_false_iff_not]
    omega
  refine ⟨?_, BitVec.toInt_eq_toNat_of_msb positive⟩
  rw [BitVec.signExtend_eq_setWidth_of_msb_false positive, BitVec.toNat_setWidth]
  omega

theorem convert_eq (buf : Memory) (num : BitVec 64) {base : BitVec 32} (two : 2 ≤ base.toInt)
    (table : base.toInt ≤ 16) :
    convert buf num base =
      some (place buf (64 - (numeral base.toNat num.toNat).length) (numeral base.toNat num.toNat ++ [0]),
        64 - (numeral base.toNat num.toNat).length) ∧
    2 ≤ base.toNat ∧ base.toNat ≤ 16 ∧ (numeral base.toNat num.toNat).length ≤ 64 := by
  obtain ⟨extended, same⟩ := toNat_signExtend (show 0 ≤ base.toInt by omega)
  have low : 2 ≤ (base.signExtend 64).toNat := by omega
  have written := convertFrom_terminated low (by omega) buf num
  have short := length_numeral_word low num
  rw [extended] at written short
  exact ⟨written, by omega, by omega, short⟩

theorem convertU_eq (buf : Memory) (num : BitVec 64) :
    convertU buf num 10 =
      some (place buf (64 - (numeral 10 num.toNat).length) (numeral 10 num.toNat ++ [0]),
        64 - (numeral 10 num.toNat).length) := by
  have two : 2 ≤ ((10 : BitVec 16).setWidth 64).toNat := by decide
  exact convertFrom_terminated two (by decide) buf num

theorem digit_read : ∀ d, d < 10 → (digitChar d).signExtend 32 - 48 = BitVec.ofNat 32 d := by
  decide

/-- The loop computes the value of the digits modulo `2 ^ 32`. -/
theorem atoFrom_value {base : Nat} (ten : base ≤ 10) {mem : Memory} {str : Nat} {text : List (BitVec 8)}
    (digits : ∀ character ∈ text, ∃ d, d < base ∧ character = digitChar d) {remaining i : Nat}
    (read : cString mem (str + i) = some text) (enough : text.length < remaining) (value : Nat) :
    atoFrom (BitVec.ofNat 32 base) mem str remaining i (BitVec.ofNat 32 value) =
      some (BitVec.ofNat 32 (text.foldl (fun value character => value * base + digitValue character) value)) := by
  obtain ⟨left, rfl⟩ : ∃ left, remaining = left + 1 := ⟨remaining - 1, by omega⟩
  induction text generalizing left i value with
  | nil =>
    have ended : mem (str + i) = 0 := (cString_spec read).2.2
    rw [atoFrom, if_pos ended]
    rfl
  | cons character text ih =>
    obtain ⟨here, nonzero, later⟩ := cString_cons read
    change cString mem (str + (i + 1)) = some text at later
    obtain ⟨d, small, rfl⟩ := digits character List.mem_cons_self
    rw [List.length_cons] at enough
    obtain ⟨left, rfl⟩ : ∃ rest, left = rest + 1 := ⟨left - 1, by omega⟩
    have rest := ih (fun character member => digits character (List.mem_cons_of_mem _ member)) later
      (value * base + d) left (by omega)
    rw [atoFrom, here, if_neg nonzero, digit_read d (by omega), ← BitVec.ofNat_mul, ← BitVec.ofNat_add, rest,
      List.foldl_cons, digitValue_digitChar d (by omega)]

theorem atoFrom_numeral {base : Nat} (two : 2 ≤ base) (ten : base ≤ 10) (buf : Memory) (ptr : Nat) (n : BitVec 32) :
    atoFrom (BitVec.ofNat 32 base) (place buf ptr (numeral base n.toNat ++ [0])) ptr 65536 0 0 = some n := by
  have short : (numeral base n.toNat).length ≤ 32 := by
    rw [length_numeral_le_iff two _ (by decide)]
    exact Nat.lt_of_lt_of_le n.isLt (Nat.pow_le_pow_left two 32)
  have read : cString (place buf ptr (numeral base n.toNat ++ [0])) (ptr + 0) = some (numeral base n.toNat) :=
    cString_place [] (numeral_ne_zero two (by omega))
  rw [show (0 : BitVec 32) = BitVec.ofNat 32 0 from rfl, atoFrom_value ten (fun _ => mem_numeral two) read (by omega),
    ← numeralValue, numeralValue_numeral two (by omega), BitVec.ofNat_toNat, BitVec.setWidth_eq]

/-- `convert` writes the digits of every number into its buffer, and the number is read back from there. -/
theorem convert_round_trips (buf : Memory) (num : BitVec 64) (base : BitVec 32) (two : 2 ≤ base.toInt)
    (table : base.toInt ≤ 16) (n : BitVec 32) :
    (∃ after ptr text, convert buf num base = some (after, ptr) ∧ ptr + text.length < bufSize ∧
      (∀ i, bufSize ≤ i → after i = buf i) ∧ cString after ptr = some text ∧
      IsNumeral base.toNat num.toNat text) ∧
    (∃ after ptr, convert buf (n.setWidth 64) 10 = some (after, ptr) ∧ myAtoi after ptr = some n) ∧
    (∃ after ptr, convert buf (n.setWidth 64) 8 = some (after, ptr) ∧ myAtool after ptr = some n) := by
  have wide : (n.setWidth 64).toNat = n.toNat := by
    rw [BitVec.toNat_setWidth]
    omega
  obtain ⟨written, two, table, short⟩ := convert_eq buf num two table
  refine ⟨⟨_, _, numeral base.toNat num.toNat, written, ?_, ?_, ?_, ?_⟩, ?_, ?_⟩
  · rw [bufSize]
    omega
  · intro i behind
    apply place_outside
    rw [List.length_append, List.length_singleton]
    rw [bufSize] at behind
    omega
  · exact cString_place [] (numeral_ne_zero two table)
  · exact numeral_isNumeral two table num.toNat
  · have decimal := (convert_eq buf (n.setWidth 64) (show 2 ≤ (10 : BitVec 32).toInt by decide) (by decide)).1
    rw [wide] at decimal
    exact ⟨_, _, decimal, atoFrom_numeral (by decide) (by decide) buf _ n⟩
  · have octal := (convert_eq buf (n.setWidth 64) (show 2 ≤ (8 : BitVec 32).toInt by decide) (by decide)).1
    rw [wide] at octal
    refine ⟨_, _, octal, ?_⟩
    exact atoFrom_numeral (show 2 ≤ 8 by decide) (by decide) buf _ n

theorem convert_round_trips_widest :
    (∃ after ptr text, convert (fun _ => 0) (BitVec.allOnes 64) 2 = some (after, ptr) ∧ ptr + text.length < bufSize ∧
      (∀ i, bufSize ≤ i → after i = 0) ∧ cString after ptr = some text ∧
      IsNumeral 2 (2 ^ 64 - 1) text) ∧
    (∃ after ptr, convert (fun _ => 0) 4294967295 10 = some (after, ptr) ∧ myAtoi after ptr = some 4294967295) ∧
    (∃ after ptr, convert (fun _ => 0) 4294967295 8 = some (after, ptr) ∧ myAtool after ptr = some 4294967295) :=
  convert_round_trips (fun _ => 0) (BitVec.allOnes 64) 2 (by decide) (by decide) 4294967295

end Sbunix.Text
