import Mathlib.Data.Nat.Digits.Lemmas

namespace Library

def digitChar (d : Nat) : BitVec 8 := BitVec.ofNat 8 (d + if d < 10 then 48 else 87)

def digitValue (character : BitVec 8) : Nat :=
  if character.toNat < 58 then character.toNat - 48 else character.toNat - 87

def numeral (base n : Nat) : List (BitVec 8) :=
  if n = 0 then [digitChar 0] else ((Nat.digits base n).map digitChar).reverse

def numeralValue (base : Nat) (text : List (BitVec 8)) : Nat :=
  text.foldl (fun value character => value * base + digitValue character) 0

/-- A text of digits without superfluous zeros in front that denotes a number. -/
structure IsNumeral (base n : Nat) (text : List (BitVec 8)) : Prop where
  nonempty : text ≠ []
  digits : ∀ character ∈ text, ∃ d, d < base ∧ character = digitChar d
  leading : text.head? = some (digitChar 0) → text = [digitChar 0]
  value : numeralValue base text = n

theorem digitValue_digitChar : ∀ d, d < 16 → digitValue (digitChar d) = d := by
  decide

theorem digitChar_ne_zero : ∀ d, d < 16 → digitChar d ≠ 0 := by
  decide

theorem digitChar_inj : ∀ d, d < 16 → ∀ e, e < 16 → digitChar d = digitChar e → d = e := by
  decide

section Base

variable {base : Nat}

theorem numeral_of_lt {n : Nat} (small : n < base) : numeral base n = [digitChar n] := by
  rw [numeral]
  split
  case isTrue zero => rw [zero]
  case isFalse positive =>
    rw [Nat.digits_of_lt base n positive small]
    rfl

theorem numeral_of_le (two : 2 ≤ base) {n : Nat} (large : base ≤ n) :
    numeral base n = numeral base (n / base) ++ [digitChar (n % base)] := by
  have quotient : n / base ≠ 0 := Nat.ne_of_gt (Nat.div_pos large (by omega))
  rw [numeral, if_neg (by omega), numeral, if_neg quotient, Nat.digits_def' two (by omega), List.map_cons,
    List.reverse_cons]

theorem numeral_induction {motive : Nat → List (BitVec 8) → Prop} (two : 2 ≤ base)
    (digit : ∀ n, n < base → motive n [digitChar n])
    (append : ∀ n text, base ≤ n → motive (n / base) text → motive n (text ++ [digitChar (n % base)])) (n : Nat) :
    motive n (numeral base n) := by
  induction n using Nat.strongRecOn with
  | ind n ih =>
    by_cases small : n < base
    · rw [numeral_of_lt small]
      exact digit n small
    · rw [numeral_of_le two (by omega)]
      exact append n _ (by omega) (ih _ (Nat.div_lt_self (by omega) two))

theorem numeral_ne_nil (two : 2 ≤ base) (n : Nat) : numeral base n ≠ [] := by
  induction n using numeral_induction two with
  | digit n small => exact List.cons_ne_nil _ _
  | append n text large ih => exact List.append_ne_nil_of_left_ne_nil ih _

theorem length_numeral_le_iff (two : 2 ≤ base) (n : Nat) {k : Nat} (positive : 0 < k) :
    (numeral base n).length ≤ k ↔ n < base ^ k := by
  rw [numeral]
  split
  case isTrue zero =>
    rw [zero, List.length_singleton]
    exact iff_of_true positive (Nat.pow_pos (by omega))
  case isFalse nonzero =>
    rw [List.length_reverse, List.length_map]
    exact Nat.digits_length_le_iff two n

theorem mem_numeral (two : 2 ≤ base) {n : Nat} {character : BitVec 8} (member : character ∈ numeral base n) :
    ∃ d, d < base ∧ character = digitChar d := by
  induction n using numeral_induction two with
  | digit n small => exact ⟨n, small, List.mem_singleton.mp member⟩
  | append n text large ih =>
    rcases List.mem_append.mp member with earlier | last
    · exact ih earlier
    · exact ⟨n % base, Nat.mod_lt n (by omega), List.mem_singleton.mp last⟩

theorem numeral_ne_zero (two : 2 ≤ base) (table : base ≤ 16) {n : Nat} :
    ∀ character ∈ numeral base n, character ≠ 0 := by
  intro character member
  obtain ⟨d, small, rfl⟩ := mem_numeral two member
  exact digitChar_ne_zero d (by omega)

theorem numeralValue_concat (text : List (BitVec 8)) (character : BitVec 8) :
    numeralValue base (text ++ [character]) = numeralValue base text * base + digitValue character := by
  rw [numeralValue, List.foldl_append]
  rfl

theorem numeralValue_numeral (two : 2 ≤ base) (table : base ≤ 16) (n : Nat) :
    numeralValue base (numeral base n) = n := by
  induction n using numeral_induction two with
  | digit n small =>
    change 0 * base + digitValue (digitChar n) = n
    rw [digitValue_digitChar n (by omega), Nat.zero_mul, Nat.zero_add]
  | append n text large ih =>
    have small : n % base < base := Nat.mod_lt n (by omega)
    rw [numeralValue_concat, ih, digitValue_digitChar _ (by omega), Nat.div_add_mod']

theorem numeral_leading (two : 2 ≤ base) (table : base ≤ 16) (n : Nat)
    (zero : (numeral base n).head? = some (digitChar 0)) : n = 0 := by
  by_contra nonzero
  have digits : Nat.digits base n ≠ [] := Nat.digits_ne_nil_iff_ne_zero.mpr nonzero
  have small := Nat.digits_lt_base two (List.getLast_mem digits)
  rw [numeral, if_neg nonzero, List.head?_reverse, List.getLast?_map, List.getLast?_eq_some_getLast digits,
    Option.map_some, Option.some_inj] at zero
  exact Nat.getLast_digit_ne_zero base nonzero (digitChar_inj _ (by omega) 0 (by omega) zero)

theorem map_digitValue_numeral (two : 2 ≤ base) (table : base ≤ 16) {n : Nat} (positive : n ≠ 0) :
    (numeral base n).map digitValue = (Nat.digits base n).reverse := by
  have digits : ∀ d ∈ Nat.digits base n, (digitValue ∘ digitChar) d = id d := fun d member =>
    digitValue_digitChar d (Nat.lt_of_lt_of_le (Nat.digits_lt_base two member) table)
  rw [numeral, if_neg positive, List.map_reverse, List.map_map, List.map_congr_left digits, List.map_id]

theorem leading_digits {n m : Nat} (two : 2 ≤ base) (length : (Nat.digits base n).length = m + 2) :
    n / base ^ m = (Nat.digits base n).getD (m + 1) 0 * base + (Nat.digits base n).getD m 0 ∧
      0 < (Nat.digits base n).getD (m + 1) 0 := by
  have bound : n < base ^ (m + 2) := (Nat.digits_length_le_iff two n).mp (Nat.le_of_eq length)
  have large : base ^ (m + 1) ≤ n := (Nat.lt_digits_length_iff two n).mp (by omega)
  have quotient : n / base ^ (m + 1) = n / base ^ m / base := by
    rw [Nat.pow_succ, Nat.div_div_eq_div_mul]
  have top : n / base ^ (m + 1) < base := Nat.div_lt_of_lt_mul (by rwa [← Nat.pow_succ])
  have positive : 0 < n / base ^ (m + 1) := Nat.div_pos large (by positivity)
  rw [Nat.getD_digits n _ two, Nat.getD_digits n _ two, Nat.mod_eq_of_lt top, quotient, Nat.div_add_mod']
  exact ⟨rfl, quotient ▸ positive⟩

theorem numeral_isNumeral (two : 2 ≤ base) (table : base ≤ 16) (n : Nat) : IsNumeral base n (numeral base n) where
  nonempty := numeral_ne_nil two n
  digits := fun _ => mem_numeral two
  leading := by
    intro zero
    rw [numeral_leading two table n zero, numeral, if_pos rfl]
  value := numeralValue_numeral two table n

end Base

end Library
