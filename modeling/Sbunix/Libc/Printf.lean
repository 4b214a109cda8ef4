import Sbunix.Text.Convert
import Mathlib.Data.List.GetD

namespace Sbunix.Libc

open Library
open Tarfs (Memory)
open Text (convertU)

/-- A string is given by its characters before the terminator. -/
inductive Argument where
  | int (i : BitVec 32)
  | string (s : List (BitVec 8))

/-- `buf` goes on with what lies above it on the stack, `conv` with what lies behind the buffer of `convert_u`. -/
structure Printing where
  buf : Memory
  cnt : Nat
  conv : Memory

/-- `buf[cnt++] = c`, which has no result outside the 100 bytes. -/
def put (s : Printing) (c : BitVec 8) : Option Printing :=
  if s.cnt < 100 then some { s with buf := Function.update s.buf s.cnt c, cnt := s.cnt + 1 } else none

def putConverted (s : Printing) (i : BitVec 32) : Option Printing := do
  let (conv, ptr) ← convertU s.conv (i.signExtend 64) 10
  (List.range 8).foldlM (fun s ind => if conv (ptr + ind) ≠ 32 then put s (conv (ptr + ind)) else some s)
    { s with conv := conv }

/-- The `switch` on the character behind a `%`. An argument of the wrong kind has no result. -/
def putArgument (s : Printing) (spec : BitVec 8) (args : List Argument) : Option (Printing × List Argument) :=
  if spec = 99 then
    match args with
    | .int i :: args => (put s (i.setWidth 8)).map (·, args)
    | _ => none
  else if spec = 115 then
    match args with
    | .string text :: args => (text.foldlM put s).map (·, args)
    | _ => none
  else if spec = 100 then
    match args with
    | .int i :: args => (putConverted s i).map (·, args)
    | _ => none
  else if spec = 120 then
    match args with
    | .int i :: args => do
      let s ← put s 48
      let s ← put s 120
      (putConverted s i).map (·, args)
    | _ => none
  else some (s, args)

/-- The loop over the format. It runs over the end of a format whose last character is a `%`. -/
def printfFrom (s : Printing) : List (BitVec 8) → List Argument → Option Printing
  | [], _ => some s
  | c :: fmt, args =>
    if c ≠ 37 then do
      let s ← put s c
      printfFrom s fmt args
    else
      match fmt with
      | [] => none
      | spec :: fmt => do
        let (s, args) ← putArgument s spec args
        printfFrom s fmt args

def printf (buf conv : Memory) (fmt : List (BitVec 8)) (args : List Argument) : Option (List (BitVec 8)) := do
  let s ← printfFrom ⟨buf, 0, conv⟩ fmt args
  cString s.buf 0

inductive Item where
  | literal (c : BitVec 8)
  | char (i : BitVec 32)
  | string (s : List (BitVec 8))
  | decimal (n : BitVec 32)
  | hexadecimal (n : BitVec 32)

namespace Item

def Valid : Item → Prop
  | literal c => c ≠ 0 ∧ c ≠ 37
  | char i => i.setWidth 8 ≠ (0 : BitVec 8)
  | string s => ∀ c ∈ s, c ≠ 0
  | decimal n => 0 ≤ n.toInt
  | hexadecimal n => 0 ≤ n.toInt

instance : DecidablePred Valid
  | literal c => inferInstanceAs (Decidable (c ≠ 0 ∧ c ≠ 37))
  | char i => inferInstanceAs (Decidable (i.setWidth 8 ≠ (0 : BitVec 8)))
  | string s => inferInstanceAs (Decidable (∀ c ∈ s, c ≠ 0))
  | decimal n => inferInstanceAs (Decidable (0 ≤ n.toInt))
  | hexadecimal n => inferInstanceAs (Decidable (0 ≤ n.toInt))

def format : Item → List (BitVec 8)
  | literal c => [c]
  | char _ => [37, 99]
  | string _ => [37, 115]
  | decimal _ => [37, 100]
  | hexadecimal _ => [37, 120]

def arguments : Item → List Argument
  | literal _ => []
  | char i => [.int i]
  | string s => [.string s]
  | decimal n => [.int n]
  | hexadecimal n => [.int n]

def expansion : Item → List (BitVec 8)
  | literal c => [c]
  | char i => [i.setWidth 8]
  | string s => s
  | decimal n => numeral 10 n.toNat
  | hexadecimal n => [48, 120] ++ numeral 16 n.toNat

def width : Item → Nat
  | literal _ => 1
  | char _ => 1
  | string s => s.length
  | decimal _ => 8
  | hexadecimal _ => 10

end Item

def format (items : List Item) : List (BitVec 8) := items.flatMap Item.format

def arguments (items : List Item) : List Argument := items.flatMap Item.arguments

def expansion (items : List Item) : List (BitVec 8) := items.flatMap Item.expansion

def width (items : List Item) : Nat := (items.map Item.width).sum

/-- The items that come out right whatever the memory holds. The terminator that `%d` and `%x` copy behind a number of
less than eight digits has to end the whole text. -/
def Terminates : List Item → Prop
  | [] => False
  | .literal _ :: items => Terminates items
  | .char _ :: items => Terminates items
  | .string _ :: items => Terminates items
  | .decimal n :: items =>
    (n.toNat < 10 ^ 7 ∧ expansion items = []) ∨ (10 ^ 7 ≤ n.toNat ∧ n.toNat < 10 ^ 8 ∧ Terminates items)
  | .hexadecimal n :: items => n.toNat < 10 ^ 7 ∧ numeral 10 n.toNat = numeral 16 n.toNat ++ expansion items

instance decidableTerminates : DecidablePred Terminates
  | [] => .isFalse id
  | .literal _ :: items => decidableTerminates items
  | .char _ :: items => decidableTerminates items
  | .string _ :: items => decidableTerminates items
  | .decimal n :: items =>
    have := decidableTerminates items
    inferInstanceAs (Decidable
      ((n.toNat < 10 ^ 7 ∧ expansion items = []) ∨ (10 ^ 7 ≤ n.toNat ∧ n.toNat < 10 ^ 8 ∧ Terminates items)))
  | .hexadecimal n :: items =>
    inferInstanceAs (Decidable (n.toNat < 10 ^ 7 ∧ numeral 10 n.toNat = numeral 16 n.toNat ++ expansion items))

def copied (conv : Memory) (n : Nat) : List (BitVec 8) :=
  ((numeral 10 n ++ 0 :: (List.range 8).map fun k => conv (65 + k)).take 8).filter (· ≠ 32)

def Item.written (conv : Memory) : Item → List (BitVec 8)
  | literal c => [c]
  | char i => [i.setWidth 8]
  | string s => s
  | decimal n => copied conv n.toNat
  | hexadecimal n => [48, 120] ++ copied conv n.toNat

def written (conv : Memory) (items : List Item) : List (BitVec 8) := items.flatMap (Item.written conv)

def printed (buf conv : Memory) (text : List (BitVec 8)) : Printing := ⟨place buf 0 text, text.length, conv⟩

section Put

variable {buf conv : Memory}

theorem put_printed (text : List (BitVec 8)) (c : BitVec 8) :
    put (printed buf conv text) c =
      if (text ++ [c]).length ≤ 100 then some (printed buf conv (text ++ [c])) else none := by
  have stored : Function.update (place buf 0 text) text.length c = place buf 0 (text ++ [c]) := by
    rw [← place_append, Nat.zero_add, place_singleton]
  rw [printed, put, stored, printed, List.length_append, List.length_singleton]
  rfl

theorem putAll_printed (text more : List (BitVec 8)) (inside : text.length ≤ 100) :
    more.foldlM put (printed buf conv text) =
      if (text ++ more).length ≤ 100 then some (printed buf conv (text ++ more)) else none := by
  induction more generalizing text with
  | nil => rw [List.append_nil, if_pos inside, List.foldlM_nil]; rfl
  | cons c more ih =>
    rw [List.foldlM_cons, put_printed]
    split
    case isTrue room =>
      rw [Option.bind_eq_bind, Option.bind_some, ih _ room, List.append_assoc]
      rfl
    case isFalse full =>
      rw [if_neg]
      · rfl
      · rw [List.length_append, List.length_singleton] at full
        rw [List.length_append, List.length_cons]
        omega

theorem put_put_printed (text : List (BitVec 8)) (c d : BitVec 8) :
    (put (printed buf conv text) c).bind (put · d) =
      if (text ++ [c, d]).length ≤ 100 then some (printed buf conv (text ++ [c, d])) else none := by
  rw [put_printed]
  split
  case isTrue room => rw [Option.bind_some, put_printed, List.append_assoc, List.singleton_append]
  case isFalse full =>
    rw [Option.bind_none, if_neg]
    rw [List.length_append] at full ⊢
    simp only [List.length_cons, List.length_nil] at full ⊢
    omega

theorem foldlM_ne_space (bytes : Nat → BitVec 8) (s : Printing) (indices : List Nat) :
    indices.foldlM (fun s ind => if bytes ind ≠ 32 then put s (bytes ind) else some s) s =
      ((indices.map bytes).filter (· ≠ 32)).foldlM put s := by
  rw [List.foldlM_filter, List.foldlM_map]
  simp only [decide_eq_true_eq]
  rfl

theorem read_numeral {c : Memory} (same : ∀ k, 65 ≤ k → c k = conv k) {text : List (BitVec 8)}
    (short : text.length ≤ 64) :
    (List.range 8).map (fun ind => place c (64 - text.length) (text ++ [0]) (64 - text.length + ind)) =
      (text ++ 0 :: (List.range 8).map fun k => conv (65 + k)).take 8 := by
  apply List.ext_getElem
  · simp
  · intro ind left right
    rw [List.length_map, List.length_range] at left
    rw [List.getElem_map, List.getElem_range, place_add, List.getElem_take]
    rcases Nat.lt_trichotomy ind text.length with digit | ended | behind
    · rw [List.getElem?_append_left digit, List.getElem_append_left digit, List.getElem?_eq_getElem digit,
        Option.getD_some]
    · subst ended
      simp
    · rw [List.getElem?_eq_none (by rw [List.length_append]; exact behind), Option.getD_none,
        List.getElem_append_right (by omega), same _ (by omega)]
      obtain ⟨k, rfl⟩ := Nat.exists_eq_add_of_lt behind
      simp only [show text.length + k + 1 - text.length = k + 1 by omega, List.getElem_cons_succ, List.getElem_map,
        List.getElem_range]
      congr 1
      omega

theorem putConverted_printed {c : Memory} (same : ∀ k, 65 ≤ k → c k = conv k) {n : BitVec 32} (positive : 0 ≤ n.toInt)
    (text : List (BitVec 8)) (inside : text.length ≤ 100) :
    ∃ after : Memory, (∀ k, 65 ≤ k → after k = conv k) ∧
      putConverted (printed buf c text) n =
        if (text ++ copied conv n.toNat).length ≤ 100 then some (printed buf after (text ++ copied conv n.toNat))
        else none := by
  have short : (numeral 10 n.toNat).length ≤ 64 := by
    rw [length_numeral_le_iff (by decide) _ (by decide)]
    exact Nat.lt_of_lt_of_le n.isLt (by decide)
  refine ⟨place c (64 - (numeral 10 n.toNat).length) (numeral 10 n.toNat ++ [0]), ?_, ?_⟩
  · intro k behind
    rw [place_outside, same k behind]
    rw [List.length_append, List.length_singleton]
    omega
  · rw [← putAll_printed text _ inside, copied, ← read_numeral same short, ← foldlM_ne_space, putConverted,
      Text.convertU_eq, (Text.toNat_signExtend positive).1]
    rfl

theorem printfFrom_literal {s : Printing} {c : BitVec 8} (literal : c ≠ 37) {fmt : List (BitVec 8)}
    {args : List Argument} : printfFrom s (c :: fmt) args = (put s c).bind fun s => printfFrom s fmt args := by
  rw [printfFrom.eq_def]
  exact if_pos literal

theorem printfFrom_argument {s : Printing} {spec : BitVec 8} {fmt : List (BitVec 8)} {args : List Argument} :
    printfFrom s (37 :: spec :: fmt) args =
      (putArgument s spec args).bind fun rest => printfFrom rest.1 fmt rest.2 :=
  rfl

theorem printfFrom_item {c : Memory} (same : ∀ k, 65 ≤ k → c k = conv k) {item : Item} (valid : item.Valid)
    (text : List (BitVec 8)) (inside : text.length ≤ 100) (fmt : List (BitVec 8)) (args : List Argument) :
    ∃ after : Memory, (∀ k, 65 ≤ k → after k = conv k) ∧
      printfFrom (printed buf c text) (item.format ++ fmt) (item.arguments ++ args) =
        if (text ++ item.written conv).length ≤ 100 then
          printfFrom (printed buf after (text ++ item.written conv)) fmt args
        else none := by
  cases item with
  | literal character =>
    refine ⟨c, same, ?_⟩
    change printfFrom _ (character :: fmt) args = _
    rw [printfFrom_literal valid.2, put_printed, Item.written]
    split <;> rfl
  | char i =>
    refine ⟨c, same, ?_⟩
    change printfFrom _ (37 :: 99 :: fmt) (.int i :: args) = _
    rw [printfFrom_argument, putArgument, if_pos rfl]
    rw [put_printed, Item.written]
    split <;> rfl
  | string s =>
    refine ⟨c, same, ?_⟩
    change printfFrom _ (37 :: 115 :: fmt) (.string s :: args) = _
    rw [printfFrom_argument, putArgument, if_neg (by decide), if_pos rfl]
    rw [putAll_printed _ _ inside, Item.written]
    split <;> rfl
  | decimal n =>
    obtain ⟨after, kept, put⟩ := putConverted_printed same valid text inside
    refine ⟨after, kept, ?_⟩
    change printfFrom _ (37 :: 100 :: fmt) (.int n :: args) = _
    rw [printfFrom_argument, putArgument, if_neg (by decide), if_neg (by decide), if_pos rfl]
    rw [put, Item.written]
    split <;> rfl
  | hexadecimal n =>
    have unfolded : printfFrom (printed buf c text) (37 :: 120 :: fmt) (.int n :: args) =
        ((put (printed buf c text) 48).bind (put · 120)).bind fun s =>
          ((putConverted s n).map (·, args)).bind fun rest => printfFrom rest.1 fmt rest.2 := by
      rw [printfFrom_argument, putArgument, if_neg (by decide), if_neg (by decide), if_neg (by decide), if_pos rfl]
      simp only [Option.bind_eq_bind, Option.bind_assoc]
    rw [put_put_printed] at unfolded
    by_cases room : (text ++ [48, 120]).length ≤ 100
    · obtain ⟨after, kept, put⟩ := putConverted_printed same valid _ room
      refine ⟨after, kept, unfolded.trans ?_⟩
      rw [if_pos room, Option.bind_some, put, Item.written, List.append_assoc]
      split <;> rfl
    · refine ⟨c, same, unfolded.trans ?_⟩
      rw [if_neg room, Option.bind_none, if_neg]
      rw [Item.written, ← List.append_assoc, List.length_append]
      omega

theorem printfFrom_items {c : Memory} (same : ∀ k, 65 ≤ k → c k = conv k) {items : List Item}
    (valid : ∀ item ∈ items, item.Valid) (text : List (BitVec 8)) (inside : text.length ≤ 100) :
    (printfFrom (printed buf c text) (format items) (arguments items)).map Printing.buf =
      if (text ++ written conv items).length ≤ 100 then some (place buf 0 (text ++ written conv items)) else none := by
  induction items generalizing c text with
  | nil =>
    change some (place buf 0 text) = if (text ++ []).length ≤ 100 then some (place buf 0 (text ++ [])) else none
    rw [List.append_nil, if_pos inside]
  | cons item items ih =>
    obtain ⟨after, kept, turn⟩ :=
      printfFrom_item same (valid item List.mem_cons_self) text inside (format items) (arguments items)
    rw [format, arguments, written, List.flatMap_cons, List.flatMap_cons, List.flatMap_cons, ← format, ← arguments,
      ← written, turn, ← List.append_assoc]
    split
    case isTrue room => exact ih kept (fun item member => valid item (List.mem_cons_of_mem _ member)) _ room
    case isFalse full =>
      rw [if_neg]
      · rfl
      · rw [List.length_append]
        omega

theorem printf_eq {items : List Item} (valid : ∀ item ∈ items, item.Valid) :
    printf buf conv (format items) (arguments items) =
      if (written conv items).length ≤ 100 then cString (place buf 0 (written conv items)) 0 else none := by
  have start : printed buf conv [] = ⟨buf, 0, conv⟩ := by
    rw [printed, place_nil]
    rfl
  have reflexive : ∀ k, 65 ≤ k → conv k = conv k := fun _ _ => rfl
  have filled : (printfFrom (printed buf conv []) (format items) (arguments items)).map Printing.buf = _ :=
    printfFrom_items reflexive valid [] (Nat.zero_le 100)
  rw [start, List.nil_append] at filled
  have mapped : printf buf conv (format items) (arguments items) =
      ((printfFrom ⟨buf, 0, conv⟩ (format items) (arguments items)).map Printing.buf).bind (cString · 0) := by
    rw [Option.bind_map]
    rfl
  rw [mapped, filled]
  split <;> rfl

end Put

section Digits

variable (conv : Memory) {n : Nat}

theorem digitChar_ne_space : ∀ d, d < 10 → digitChar d ≠ 32 := by
  decide

theorem filter_ne_space {text : List (BitVec 8)} (digits : ∀ c ∈ text, ∃ d, d < 10 ∧ c = digitChar d) :
    text.filter (· ≠ 32) = text := by
  apply List.filter_eq_self.mpr
  intro c member
  obtain ⟨d, small, rfl⟩ := digits c member
  exact decide_eq_true (digitChar_ne_space d small)

/-- A short number is copied with its terminator. -/
theorem copied_short (short : n < 10 ^ 7) : ∃ junk, copied conv n = numeral 10 n ++ 0 :: junk := by
  have length : (numeral 10 n).length ≤ 7 := (length_numeral_le_iff (by decide) n (by decide)).mpr short
  obtain ⟨left, rest⟩ : ∃ left, 8 - (numeral 10 n).length = left + 1 := ⟨7 - (numeral 10 n).length, by omega⟩
  rw [copied, List.take_append, List.take_of_length_le (by omega), rest, List.take_succ_cons, List.filter_append,
    filter_ne_space fun _ => mem_numeral (by decide)]
  exact ⟨_, congrArg (numeral 10 n ++ ·) (List.filter_cons_of_pos (by decide))⟩

/-- Of a long number the first eight digits are copied. -/
theorem copied_long (long : 10 ^ 7 ≤ n) : copied conv n = (numeral 10 n).take 8 := by
  have length : ¬(numeral 10 n).length ≤ 7 := by
    rw [length_numeral_le_iff (by decide) n (by decide)]
    omega
  rw [copied, List.take_append_of_le_length (by omega)]
  exact filter_ne_space fun c member => mem_numeral (by decide) (List.mem_of_mem_take member)

theorem copied_length : (copied conv n).length ≤ 8 := by
  rw [copied]
  exact Nat.le_trans (List.length_filter_le _ _) (List.length_take_le _ _)

/-- The leading two digits tell a number of eight decimal digits or more from its hexadecimal digits. -/
theorem leading_digits_differ {n h k t s : Nat} (long : 10 ^ 7 ≤ n) (small : n < 2 ^ 31)
    (hexadecimal : n / 16 ^ h = t * 16 + s) (decimal : n / 10 ^ k = t * 10 + s) (positive : 0 < t) (top : t < 10)
    (next : s < 10) (hs : h = 4 ∨ h = 5 ∨ h = 6) (ks : k = 6 ∨ k = 7 ∨ k = 8) : False := by
  rcases hs with rfl | rfl | rfl
  · rcases ks with rfl | rfl | rfl
    · omega
    · omega
    · omega
  · rcases ks with rfl | rfl | rfl
    · omega
    · omega
    · omega
  · rcases ks with rfl | rfl | rfl
    · omega
    · omega
    · omega

theorem digits_not_suffix {n : Nat} (long : 10 ^ 7 ≤ n) (small : n < 2 ^ 31) :
    ¬Nat.digits 16 n <:+ Nat.digits 10 n := by
  rintro ⟨low, split⟩
  have decimal : (Nat.digits 10 n).length ≤ 10 ∧ ¬(Nat.digits 10 n).length ≤ 7 := by
    rw [Nat.digits_length_le_iff (by decide), Nat.digits_length_le_iff (by decide)]
    omega
  have hexadecimal : (Nat.digits 16 n).length ≤ 8 ∧ ¬(Nat.digits 16 n).length ≤ 5 := by
    rw [Nat.digits_length_le_iff (by decide), Nat.digits_length_le_iff (by decide)]
    omega
  obtain ⟨h, eh⟩ : ∃ h, (Nat.digits 16 n).length = h + 2 := ⟨(Nat.digits 16 n).length - 2, by omega⟩
  have length : (Nat.digits 10 n).length = low.length + h + 2 := by
    rw [← split, List.length_append, eh, Nat.add_assoc]
  have same : ∀ i, (Nat.digits 10 n).getD (low.length + i) 0 = (Nat.digits 16 n).getD i 0 := by
    intro i
    rw [← split, List.getD_append_right _ _ _ _ (Nat.le_add_right _ _), Nat.add_sub_cancel_left]
  have ten : ∀ i, (Nat.digits 16 n).getD i 0 < 10 := by
    intro i
    rw [← same, Nat.getD_digits n _ (by decide)]
    exact Nat.mod_lt _ (by decide)
  obtain ⟨leading, positive⟩ := leading_digits (by decide) eh
  have others := (leading_digits (by decide) length).1
  rw [Nat.add_assoc, same, same] at others
  exact leading_digits_differ long small leading others positive (ten _) (ten _) (by omega) (by omega)

theorem numeral_not_leading {before after : List (BitVec 8)} (long : 10 ^ 7 ≤ n) (small : n < 2 ^ 31) :
    (numeral 10 n).take 8 ++ before ≠ numeral 16 n ++ after := by
  intro same
  have values := congrArg (List.map digitValue) same
  rw [List.map_append, List.map_append, List.map_take, map_digitValue_numeral (by decide) (by decide) (by omega),
    map_digitValue_numeral (by decide) (by decide) (by omega)] at values
  have count : ¬(Nat.digits 10 n).length ≤ 7 := by
    rw [Nat.digits_length_le_iff (by decide)]
    omega
  have short : (Nat.digits 16 n).length ≤ 8 := by
    rw [Nat.digits_length_le_iff (by decide)]
    omega
  have hexadecimal : (Nat.digits 16 n).reverse <+: (Nat.digits 10 n).reverse.take 8 := by
    apply List.prefix_of_prefix_length_le (List.prefix_append _ _) (values ▸ List.prefix_append _ _)
    rw [List.length_take, List.length_reverse, List.length_reverse]
    omega
  exact digits_not_suffix long small (List.reverse_prefix.mp (hexadecimal.trans (List.take_prefix _ _)))

end Digits

section Terminated

variable {items : List Item}

theorem expansion_cons (item : Item) : expansion (item :: items) = item.expansion ++ expansion items := rfl

theorem written_cons (conv : Memory) (item : Item) :
    written conv (item :: items) = item.written conv ++ written conv items := rfl

theorem Item.expansion_ne_zero {item : Item} (valid : item.Valid) : ∀ c ∈ item.expansion, c ≠ 0 := by
  cases item with
  | literal c => exact List.forall_mem_singleton.mpr valid.1
  | char i => exact List.forall_mem_singleton.mpr valid
  | string s => exact valid
  | decimal n => exact numeral_ne_zero (by decide) (by decide)
  | hexadecimal n =>
    rw [expansion, List.forall_mem_append]
    exact ⟨by decide, numeral_ne_zero (by decide) (by decide)⟩

theorem expansion_ne_zero (valid : ∀ item ∈ items, item.Valid) : ∀ c ∈ expansion items, c ≠ 0 := by
  intro c member
  obtain ⟨item, inside, part⟩ := List.mem_flatMap.mp member
  exact item.expansion_ne_zero (valid item inside) c part

/-- The items come out up to a terminator. -/
theorem Terminates.written (conv : Memory) (terminates : Terminates items) :
    ∃ junk, written conv items = expansion items ++ 0 :: junk := by
  induction items with
  | nil => exact terminates.elim
  | cons item items ih =>
    simp only [written_cons, expansion_cons, List.append_assoc]
    cases item with
    | literal _ | char _ | string _ =>
      obtain ⟨junk, rest⟩ := ih terminates
      exact ⟨junk, congrArg (_ ++ ·) rest⟩
    | decimal n =>
      rcases terminates with ⟨short, last⟩ | ⟨long, small, terminates⟩
      · obtain ⟨junk, copy⟩ := copied_short conv short
        exact ⟨junk ++ Libc.written conv items, by rw [last, Item.written, copy, List.append_assoc]; rfl⟩
      · obtain ⟨junk, rest⟩ := ih terminates
        have whole : (numeral 10 n.toNat).length ≤ 8 :=
          (length_numeral_le_iff (by decide) _ (by decide)).mpr small
        exact ⟨junk, by rw [Item.written, copied_long conv long, List.take_of_length_le whole, rest]; rfl⟩
    | hexadecimal n =>
      obtain ⟨short, same⟩ := terminates
      obtain ⟨junk, copy⟩ := copied_short conv short
      refine ⟨junk ++ Libc.written conv items, ?_⟩
      rw [Item.written, copy, same, Item.expansion]
      simp only [List.append_assoc, List.cons_append]

theorem terminated_inj {left right before after : List (BitVec 8)} (leftChars : ∀ c ∈ left, c ≠ 0)
    (rightChars : ∀ c ∈ right, c ≠ 0) (same : left ++ 0 :: before = right ++ 0 :: after) : left = right := by
  induction left generalizing right with
  | nil =>
    cases right with
    | nil => rfl
    | cons c right => exact absurd (List.cons.inj same).1.symm (rightChars c List.mem_cons_self)
  | cons c left ih =>
    cases right with
    | nil => exact absurd (List.cons.inj same).1 (leftChars c List.mem_cons_self)
    | cons d right =>
      obtain ⟨rfl, rest⟩ := List.cons.inj same
      rw [ih (fun c member => leftChars c (List.mem_cons_of_mem _ member))
        (fun c member => rightChars c (List.mem_cons_of_mem _ member)) rest]

def Missing (text : List (BitVec 8)) : Prop := text ≠ [] ∧ ∀ c ∈ text, ∃ d, d < 10 ∧ c = digitChar d

theorem Missing.ne_zero {text : List (BitVec 8)} (missing : Missing text) : ∀ c ∈ text, c ≠ 0 := by
  intro c member
  obtain ⟨d, small, rfl⟩ := missing.2 c member
  exact digitChar_ne_zero d (by omega)

theorem Missing.shift {missing text before after : List (BitVec 8)} (digits : Missing missing)
    (same : text ++ before = missing ++ (text ++ after)) : ∃ later, Missing later ∧ before = later ++ after := by
  induction text generalizing missing with
  | nil => exact ⟨missing, digits, same⟩
  | cons c text ih =>
    cases missing with
    | nil => exact absurd rfl digits.1
    | cons d missing =>
      obtain ⟨rfl, rest⟩ := List.cons.inj same
      have moved : Missing (missing ++ [c]) := by
        refine ⟨List.append_ne_nil_of_right_ne_nil _ (List.cons_ne_nil _ _), ?_⟩
        rw [List.forall_mem_append]
        exact ⟨fun d member => digits.2 d (List.mem_cons_of_mem _ member),
          List.forall_mem_singleton.mpr (digits.2 c List.mem_cons_self)⟩
      apply ih moved
      rw [List.append_assoc]
      exact rest

theorem Missing.append {left right : List (BitVec 8)} (missing : Missing left)
    (digits : ∀ c ∈ right, ∃ d, d < 10 ∧ c = digitChar d) : Missing (left ++ right) := by
  refine ⟨List.append_ne_nil_of_left_ne_nil missing.1 _, ?_⟩
  rw [List.forall_mem_append]
  exact ⟨missing.2, digits⟩

theorem digitChar_ne_x : ∀ d, d < 10 → digitChar d ≠ 120 := by
  decide

theorem Missing.ne_sign {missing before after : List (BitVec 8)} (digits : Missing missing) :
    [48, 120] ++ before ≠ missing ++ ([48, 120] ++ after) := by
  intro same
  match missing, digits with
  | [c], _ => exact absurd (List.cons.inj (List.cons.inj same).2).1 (by decide)
  | c :: d :: missing, digits =>
    obtain ⟨e, small, equal⟩ := digits.2 d (List.mem_cons_of_mem _ List.mem_cons_self)
    have second : 120 = d := (List.cons.inj (List.cons.inj same).2).1
    exact digitChar_ne_x e small (equal ▸ second.symm)

theorem written_ne_missing {conv : Memory} {missing junk : List (BitVec 8)} (valid : ∀ item ∈ items, item.Valid)
    (digits : Missing missing) : written conv items ≠ missing ++ (expansion items ++ 0 :: junk) := by
  intro same
  induction items generalizing missing with
  | nil => exact absurd same.symm (List.append_ne_nil_of_left_ne_nil digits.1 _)
  | cons item items ih =>
    have rest : ∀ item ∈ items, item.Valid := fun item member => valid item (List.mem_cons_of_mem _ member)
    rw [written_cons, expansion_cons, List.append_assoc] at same
    cases item with
    | literal _ | char _ | string _ =>
      obtain ⟨later, digits, same⟩ := digits.shift same
      exact ih rest digits same
    | decimal n =>
      rw [Item.written, Item.expansion] at same
      by_cases short : n.toNat < 10 ^ 7
      · obtain ⟨tail, copy⟩ := copied_short conv short
        rw [copy, List.append_assoc, List.cons_append, ← List.append_assoc, ← List.append_assoc] at same
        have whole := terminated_inj (numeral_ne_zero (by decide) (by decide)) ?_ same
        · have length := congrArg List.length whole
          rw [List.length_append, List.length_append] at length
          have positive := List.length_pos_of_ne_nil digits.1
          omega
        · rw [List.forall_mem_append, List.forall_mem_append]
          exact ⟨⟨digits.ne_zero, numeral_ne_zero (by decide) (by decide)⟩, expansion_ne_zero rest⟩
      · have split : (numeral 10 n.toNat).take 8 ++ written conv items = missing ++
            ((numeral 10 n.toNat).take 8 ++ ((numeral 10 n.toNat).drop 8 ++ (expansion items ++ 0 :: junk))) := by
          rwa [← List.append_assoc (List.take _ _), List.take_append_drop, ← copied_long conv (by omega)]
        obtain ⟨later, digits, same⟩ := digits.shift split
        rw [← List.append_assoc] at same
        exact ih rest (digits.append fun c member => mem_numeral (by decide) (List.mem_of_mem_drop member)) same
    | hexadecimal n =>
      rw [Item.written, Item.expansion, List.append_assoc, List.append_assoc] at same
      exact digits.ne_sign same

theorem take_digits_ne {conv : Memory} {junk : List (BitVec 8)} {n : Nat} (valid : ∀ item ∈ items, item.Valid)
    (many : ¬n < 10 ^ 8) :
    (numeral 10 n).take 8 ++ written conv items ≠ numeral 10 n ++ (expansion items ++ 0 :: junk) := by
  intro same
  have length : ¬(numeral 10 n).length ≤ 8 := by rwa [length_numeral_le_iff (by decide) _ (by decide)]
  have missing : Missing ((numeral 10 n).drop 8) :=
    ⟨mt List.drop_eq_nil_iff.mp length, fun c member => mem_numeral (by decide) (List.mem_of_mem_drop member)⟩
  have later : written conv items = (numeral 10 n).drop 8 ++ (expansion items ++ 0 :: junk) := by
    apply List.append_cancel_left
    rw [same, ← List.append_assoc (List.take _ _), List.take_append_drop]
  exact written_ne_missing valid missing later

theorem toNat_lt_of_nonneg {n : BitVec 32} (nonneg : 0 ≤ n.toInt) : n.toNat < 2 ^ 31 := by
  have equal := (Text.toNat_signExtend nonneg).2
  have bound : n.toInt < 2 ^ 31 := BitVec.toInt_lt
  omega

/-- A text that comes out right ends at the first terminator that is copied. -/
theorem terminates_of_written {conv : Memory} {junk : List (BitVec 8)} (valid : ∀ item ∈ items, item.Valid)
    (same : written conv items = expansion items ++ 0 :: junk) : Terminates items := by
  induction items with
  | nil => cases same
  | cons item items ih =>
    have rest : ∀ item ∈ items, item.Valid := fun item member => valid item (List.mem_cons_of_mem _ member)
    have here : item.Valid := valid item List.mem_cons_self
    rw [written_cons, expansion_cons, List.append_assoc] at same
    cases item with
    | literal _ | char _ | string _ => exact ih rest (List.append_cancel_left same)
    | decimal n =>
      rw [Item.written, Item.expansion] at same
      by_cases short : n.toNat < 10 ^ 7
      · obtain ⟨tail, copy⟩ := copied_short conv short
        rw [copy, List.append_assoc] at same
        have ended : [] ++ 0 :: (tail ++ written conv items) = expansion items ++ 0 :: junk :=
          List.append_cancel_left same
        exact Or.inl ⟨short, (terminated_inj (List.forall_mem_nil _) (expansion_ne_zero rest) ended).symm⟩
      · rw [copied_long conv (by omega)] at same
        by_cases small : n.toNat < 10 ^ 8
        · have whole : (numeral 10 n.toNat).length ≤ 8 :=
            (length_numeral_le_iff (by decide) _ (by decide)).mpr small
          rw [List.take_of_length_le whole] at same
          exact Or.inr ⟨by omega, small, ih rest (List.append_cancel_left same)⟩
        · exact absurd same (take_digits_ne rest small)
    | hexadecimal n =>
      rw [Item.written, Item.expansion, List.append_assoc, List.append_assoc] at same
      have digits := List.append_cancel_left same
      by_cases short : n.toNat < 10 ^ 7
      · obtain ⟨tail, copy⟩ := copied_short conv short
        rw [copy, List.append_assoc, List.cons_append, ← List.append_assoc (numeral 16 _)] at digits
        refine ⟨short, terminated_inj (numeral_ne_zero (by decide) (by decide)) ?_ digits⟩
        rw [List.forall_mem_append]
        exact ⟨numeral_ne_zero (by decide) (by decide), expansion_ne_zero rest⟩
      · rw [copied_long conv (by omega)] at digits
        exact absurd digits (numeral_not_leading (by omega) (toNat_lt_of_nonneg here))

theorem written_length_le (conv : Memory) : (written conv items).length ≤ width items := by
  induction items with
  | nil => exact Nat.le_refl 0
  | cons item items ih =>
    have here : (item.written conv).length ≤ item.width := by
      cases item with
      | literal c => exact Nat.le_refl 1
      | char i => exact Nat.le_refl 1
      | string s => exact Nat.le_refl _
      | decimal n => exact copied_length conv
      | hexadecimal n => exact Nat.add_le_add_right (copied_length conv) 2
    rw [written_cons, List.length_append]
    exact Nat.add_le_add here ih

def filled : Memory := fun _ => 1

theorem copied_filled (n : Nat) : (copied filled n).length = 8 := by
  have kept : ((numeral 10 n ++ 0 :: (List.range 8).map fun k => filled (65 + k)).take 8).filter (· ≠ 32) =
      (numeral 10 n ++ 0 :: (List.range 8).map fun k => filled (65 + k)).take 8 := by
    apply List.filter_eq_self.mpr
    intro c member
    rcases List.mem_append.mp (List.mem_of_mem_take member) with digit | behind
    · obtain ⟨d, small, rfl⟩ := mem_numeral (by decide) digit
      exact decide_eq_true (digitChar_ne_space d small)
    · have plain : ∀ c ∈ 0 :: (List.range 8).map fun k => filled (65 + k), c ≠ 32 := by decide
      exact decide_eq_true (plain c behind)
  rw [copied, kept, List.length_take, List.length_append, List.length_cons, List.length_map, List.length_range]
  omega

theorem written_filled_length : (written filled items).length = width items := by
  induction items with
  | nil => rfl
  | cons item items ih =>
    have here : (item.written filled).length = item.width := by
      cases item with
      | literal c => rfl
      | char i => rfl
      | string s => rfl
      | decimal n => exact copied_filled n.toNat
      | hexadecimal n => exact congrArg (· + 2) (copied_filled n.toNat)
    rw [written_cons, List.length_append, here, ih]
    rfl

theorem cString_filled {text string : List (BitVec 8)} (read : cString (place filled 0 text) 0 = some string) :
    ∃ junk, text = string ++ 0 :: junk := by
  obtain ⟨placed, noNul, ended⟩ := cString_spec read
  rw [place_add] at ended
  have inside : string.length < text.length := by
    by_contra outside
    rw [List.getElem?_eq_none (by omega)] at ended
    exact absurd (show (1 : BitVec 8) = 0 from ended) (by decide)
  rw [List.getElem?_eq_getElem inside, Option.getD_some] at ended
  refine ⟨text.drop (string.length + 1), ?_⟩
  rw [← ended, ← List.drop_eq_getElem_cons inside]
  have first : text.take string.length = string := by
    apply List.ext_getElem
    · rw [List.length_take]
      omega
    · intro k left right
      have here := placed k right
      rw [place_add, List.getElem?_eq_getElem (by omega), List.getD_eq_getElem?_getD,
        List.getElem?_eq_getElem right] at here
      rw [List.getElem_take]
      exact here
  rw [← first, List.length_take, Nat.min_eq_left (Nat.le_of_lt inside), List.take_append_drop]

end Terminated

/-- `printf` passes on what it should, whatever its memory held before, exactly where a terminator copied with a number
ends the text and the characters fit the buffer. -/
theorem printf_formats_iff (items : List Item) (valid : ∀ item ∈ items, item.Valid) :
    (∀ buf conv, printf buf conv (format items) (arguments items) = some (expansion items)) ↔
      Terminates items ∧ width items ≤ 100 := by
  constructor
  · intro formats
    have right := formats filled filled
    rw [printf_eq valid] at right
    split at right
    case isTrue room =>
      obtain ⟨junk, same⟩ := cString_filled right
      exact ⟨terminates_of_written valid same, written_filled_length ▸ room⟩
    case isFalse full => cases right
  · rintro ⟨terminates, fits⟩ buf conv
    obtain ⟨junk, same⟩ := terminates.written conv
    rw [printf_eq valid, if_pos (Nat.le_trans (written_length_le conv) fits), same]
    exact cString_place junk (expansion_ne_zero valid)

def valueItems : List Item := [118, 97, 108, 117, 101, 32, 97, 32, 61, 32].map Item.literal ++ [.decimal 22]

theorem printf_last_number :
    Terminates valueItems ∧
      ∀ buf conv, printf buf conv (format valueItems) (arguments valueItems) = some (expansion valueItems) := by
  have terminates : Terminates valueItems := by decide
  exact ⟨terminates, (printf_formats_iff valueItems (by decide)).mpr ⟨terminates, by decide⟩⟩

/-- What `printf("value a = %d\n", 22)` passes on lacks the end of the line. -/
theorem printf_loses_newline :
    printf (fun _ => 0) (fun _ => 0) (format (valueItems ++ [.literal 10]))
        (arguments (valueItems ++ [.literal 10])) =
      some [118, 97, 108, 117, 101, 32, 97, 32, 61, 32, 50, 50] ∧
    expansion (valueItems ++ [.literal 10]) = [118, 97, 108, 117, 101, 32, 97, 32, 61, 32, 50, 50, 10] := by
  have bytes : written (fun _ => 0) (valueItems ++ [.literal 10]) =
      [118, 97, 108, 117, 101, 32, 97, 32, 61, 32, 50, 50] ++ 0 :: [0, 0, 0, 0, 0, 10] := by decide
  refine ⟨?_, by decide⟩
  rw [printf_eq (by decide), bytes, if_pos (by decide)]
  exact cString_place _ (by decide)

end Sbunix.Libc
