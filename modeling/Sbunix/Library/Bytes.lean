import Mathlib.Algebra.GroupWithZero.Nat
import Mathlib.Data.List.Basic
import Mathlib.Logic.Function.Basic

namespace Library

variable {Element : Type}

abbrev Bytes := Nat → BitVec 8

def blit (target : Nat → Element) (start : Nat) (source : Nat → Element) (count : Nat) : Nat → Element :=
  fun i => if start ≤ i ∧ i < start + count then source (i - start) else target i

theorem blit_inside {target source : Nat → Element} {start count i : Nat} (low : start ≤ i)
    (high : i < start + count) : blit target start source count i = source (i - start) :=
  if_pos ⟨low, high⟩

theorem blit_outside {target source : Nat → Element} {start count i : Nat}
    (outside : i < start ∨ start + count ≤ i) : blit target start source count i = target i := by
  apply if_neg
  omega

theorem blit_add {target source : Nat → Element} {start count i : Nat} (bound : i < count) :
    blit target start source count (start + i) = source i := by
  rw [blit_inside (by omega) (by omega), Nat.add_sub_cancel_left]

theorem blit_zero {target source : Nat → Element} {count i : Nat} (bound : i < count) :
    blit target 0 source count i = source i :=
  blit_inside (Nat.zero_le i) (by omega)

theorem blit_congr {target left right : Nat → Element} {start count : Nat}
    (same : ∀ i, i < count → left i = right i) : blit target start left count = blit target start right count := by
  funext i
  by_cases inside : start ≤ i ∧ i < start + count
  · rw [blit_inside inside.1 inside.2, blit_inside inside.1 inside.2, same _ (by omega)]
  · rw [blit_outside (by omega), blit_outside (by omega)]

theorem blit_eq_self {target source : Nat → Element} {start count : Nat} :
    blit target start source count = target ↔ ∀ i, i < count → source i = target (start + i) := by
  constructor
  · intro same i bound
    rw [← same, blit_add bound]
  · intro same
    funext i
    by_cases inside : start ≤ i ∧ i < start + count
    · rw [blit_inside inside.1 inside.2, same _ (by omega)]
      congr 1
      omega
    · exact blit_outside (by omega)

/-- Two transfers, the second over the first, find the bytes as they leave them. -/
theorem blit_blit_eq_self {target first second : Nat → Element} {start count later length : Nat} :
    blit (blit target start first count) later second length = target ↔
      (∀ k, k < length → target (later + k) = second k) ∧
        ∀ k, k < count → start + k < later ∨ later + length ≤ start + k → target (start + k) = first k := by
  constructor
  · intro same
    constructor
    · intro k bound
      rw [← same, blit_add bound]
    · intro k bound apart
      rw [← same, blit_outside apart, blit_add bound]
  · rintro ⟨above, below⟩
    funext m
    by_cases inside : later ≤ m ∧ m < later + length
    · rw [blit_inside inside.1 inside.2, ← above _ (by omega)]
      congr 1
      omega
    rw [blit_outside (by omega)]
    by_cases before : start ≤ m ∧ m < start + count
    · rw [blit_inside before.1 before.2, ← below _ (by omega) (by omega)]
      congr 1
      omega
    · exact blit_outside (by omega)

/-- Of a copy that a later one runs over, only what lies before the later one is left. -/
theorem blit_shadow {target first second : Nat → Element} {start count later length : Nat} (low : start ≤ later)
    (high : start + count ≤ later + length) :
    blit (blit target start first count) later second length =
      blit (blit target start first (min count (later - start))) later second length := by
  funext i
  by_cases inside : later ≤ i ∧ i < later + length
  · rw [blit_inside inside.1 inside.2, blit_inside inside.1 inside.2]
  · have kept : ∀ earlier : Nat → Element, blit earlier later second length i = earlier i :=
      fun _ => blit_outside (by omega)
    rw [kept, kept]
    by_cases before : start ≤ i ∧ i < start + min count (later - start)
    · rw [blit_inside before.1 (by omega), blit_inside before.1 before.2]
    · rw [blit_outside (by omega), blit_outside (by omega)]

theorem blit_again {target first second : Nat → Element} {start count : Nat} :
    blit (blit target start first count) start second count = blit target start second count := by
  have empty : blit target start first 0 = target := blit_eq_self.mpr fun i bound => absurd bound (Nat.not_lt_zero i)
  rw [blit_shadow (Nat.le_refl start) (Nat.le_refl _), Nat.sub_self, Nat.min_zero, empty]

def place (target : Nat → Element) (start : Nat) (text : List Element) : Nat → Element :=
  fun i => if start ≤ i then text[i - start]?.getD (target i) else target i

theorem place_add {target : Nat → Element} {start : Nat} {text : List Element} (k : Nat) :
    place target start text (start + k) = text[k]?.getD (target (start + k)) := by
  rw [place, if_pos (Nat.le_add_right start k), Nat.add_sub_cancel_left]

theorem place_outside {target : Nat → Element} {start i : Nat} {text : List Element}
    (outside : i < start ∨ start + text.length ≤ i) : place target start text i = target i := by
  rw [place]
  split
  · rw [List.getElem?_eq_none (by omega), Option.getD_none]
  · rfl

theorem place_nil {target : Nat → Element} {start : Nat} : place target start [] = target := by
  funext i
  apply place_outside
  rw [List.length_nil]
  omega

theorem place_append {target : Nat → Element} {start : Nat} (first second : List Element) :
    place (place target start first) (start + first.length) second = place target start (first ++ second) := by
  funext i
  by_cases low : i < start + first.length
  · rw [place_outside (Or.inl low)]
    by_cases before : i < start
    · rw [place_outside (Or.inl before), place_outside (Or.inl before)]
    · rw [place, place, if_pos (by omega), if_pos (by omega), List.getElem?_append_left (by omega)]
  · obtain ⟨k, rfl⟩ := Nat.exists_eq_add_of_le (Nat.le_of_not_lt low)
    rw [place_add, place_outside (Or.inr (Nat.le_add_right _ k)), Nat.add_assoc, place_add,
      List.getElem?_append_right (Nat.le_add_right _ k), Nat.add_sub_cancel_left]

theorem place_singleton {target : Nat → Element} {start : Nat} {element : Element} :
    place target start [element] = Function.update target start element := by
  funext i
  by_cases here : i = start
  · rw [here, Function.update_self]
    exact place_add 0
  · rw [Function.update_of_ne here, place_outside]
    rw [List.length_singleton]
    omega

theorem place_concat {target : Nat → Element} {start : Nat} (text : List Element) (element : Element) :
    place (Function.update target (start + text.length) element) start text =
      place target start (text ++ [element]) := by
  rw [← place_append, place_singleton]
  funext i
  by_cases here : i = start + text.length
  · rw [here, Function.update_self, place_outside (Or.inr (Nat.le_refl _)), Function.update_self]
  · rw [Function.update_of_ne here, place, place, Function.update_of_ne here]

def littleEndian (bytes : Nat → BitVec 8) : (count : Nat) → BitVec (8 * count)
  | 0 => 0
  | count + 1 => (bytes count ++ littleEndian bytes count).cast (by omega)

theorem getLsbD_littleEndian (bytes : Nat → BitVec 8) (count bit : Nat) :
    (littleEndian bytes count).getLsbD bit =
      (decide (bit < 8 * count) && (bytes (bit / 8)).getLsbD (bit % 8)) := by
  induction count with
  | zero => simp [littleEndian]
  | succ count ih =>
    rw [littleEndian, BitVec.getLsbD_cast, BitVec.getLsbD_append, ih]
    by_cases low : bit < 8 * count
    · have bound : bit < 8 * (count + 1) := by omega
      simp [low, bound]
    · simp only [low, if_false]
      by_cases bound : bit < 8 * (count + 1)
      · have byte : bit / 8 = count := by omega
        have rest : bit - 8 * count = bit % 8 := by omega
        simp [bound, byte, rest]
      · have high : 8 ≤ bit - 8 * count := by omega
        simp [bound, BitVec.getLsbD_of_ge _ _ high]

theorem littleEndian_congr {left right : Nat → BitVec 8} {count : Nat}
    (same : ∀ i, i < count → left i = right i) : littleEndian left count = littleEndian right count := by
  induction count with
  | zero => rfl
  | succ count ih =>
    rw [littleEndian, littleEndian, ih fun i bound => same i (by omega), same count (by omega)]

def byteAt {width : Nat} (word : BitVec width) (i : Nat) : BitVec 8 := word.extractLsb' (8 * i) 8

theorem littleEndian_byteAt {count : Nat} (word : BitVec (8 * count)) :
    littleEndian (byteAt word) count = word := by
  apply BitVec.eq_of_getLsbD_eq
  intro bit bound
  have split : 8 * (bit / 8) + bit % 8 = bit := Nat.div_add_mod bit 8
  have low : bit % 8 < 8 := Nat.mod_lt _ (by decide)
  rw [getLsbD_littleEndian, byteAt, BitVec.getLsbD_extractLsb', split]
  simp [bound, low]

theorem byteAt_littleEndian {bytes : Nat → BitVec 8} {count i : Nat} (bound : i < count) :
    byteAt (littleEndian bytes count) i = bytes i := by
  apply BitVec.eq_of_getLsbD_eq
  intro bit small
  have inside : 8 * i + bit < 8 * count := by omega
  rw [byteAt, BitVec.getLsbD_extractLsb', getLsbD_littleEndian, show (8 * i + bit) / 8 = i by omega,
    show (8 * i + bit) % 8 = bit by omega]
  simp [inside, small]

def loadWord (bytes : Nat → BitVec 8) (start count : Nat) : BitVec (8 * count) :=
  littleEndian (fun i => bytes (start + i)) count

def storeWord {width : Nat} (bytes : Nat → BitVec 8) (start : Nat) (word : BitVec width) (count : Nat) :
    Nat → BitVec 8 :=
  blit bytes start (byteAt word) count

theorem loadWord_congr {left right : Nat → BitVec 8} {start count : Nat}
    (same : ∀ i, start ≤ i → i < start + count → left i = right i) :
    loadWord left start count = loadWord right start count :=
  littleEndian_congr fun i bound => same (start + i) (by omega) (by omega)

theorem loadWord_storeWord {bytes : Nat → BitVec 8} {start : Nat} (count : Nat) (word : BitVec (8 * count)) :
    loadWord (storeWord bytes start word count) start count = word := by
  rw [loadWord, ← littleEndian_byteAt word]
  apply littleEndian_congr
  intro i bound
  rw [littleEndian_byteAt, storeWord, blit_add bound]

theorem storeWord_eq_self {bytes : Nat → BitVec 8} {start count : Nat} {word : BitVec (8 * count)} :
    storeWord bytes start word count = bytes ↔ word = loadWord bytes start count := by
  constructor
  · intro same
    rw [← same, loadWord_storeWord]
  · rintro rfl
    exact blit_eq_self.mpr fun i bound => byteAt_littleEndian bound

theorem loadWord_blit_outside {bytes source : Nat → BitVec 8} {start count first length : Nat}
    (apart : start + count ≤ first ∨ first + length ≤ start) :
    loadWord (blit bytes first source length) start count = loadWord bytes start count := by
  apply loadWord_congr
  intro i low high
  exact blit_outside (by omega)

theorem loadWord_storeWord_outside {bytes : Nat → BitVec 8} {width start count first length : Nat}
    {word : BitVec width} (apart : start + count ≤ first ∨ first + length ≤ start) :
    loadWord (storeWord bytes first word length) start count = loadWord bytes start count :=
  loadWord_blit_outside apart

theorem loadWord_of_zero {bytes : Nat → BitVec 8} {start count : Nat}
    (clear : ∀ i, start ≤ i → i < start + count → bytes i = 0) : loadWord bytes start count = 0 := by
  apply BitVec.eq_of_getLsbD_eq
  intro bit bound
  rw [loadWord, getLsbD_littleEndian, clear _ (by omega) (by omega)]
  simp

theorem byte_of_loadWord_zero {bytes : Nat → BitVec 8} {start count i : Nat} (zero : loadWord bytes start count = 0)
    (bound : i < count) : bytes (start + i) = 0 := by
  have byte : byteAt (loadWord bytes start count) i = bytes (start + i) := byteAt_littleEndian bound
  rw [← byte, zero]
  exact BitVec.extractLsb'_zero

/-- Nonzero bytes over a part of a word do not make it zero. -/
theorem loadWord_blit_ne_zero {bytes source : Nat → BitVec 8} {start count first length : Nat}
    (nonzero : ∀ k, k < length → source k ≠ 0) (before : loadWord bytes start count ≠ 0) :
    loadWord (blit bytes first source length) start count ≠ 0 := by
  intro zero
  apply before
  apply loadWord_of_zero
  intro i low high
  have byte := byte_of_loadWord_zero zero (show i - start < count by omega)
  rw [Nat.add_sub_cancel' low] at byte
  by_cases inside : first ≤ i ∧ i < first + length
  · rw [blit_inside inside.1 inside.2] at byte
    exact absurd byte (nonzero _ (by omega))
  · rwa [blit_outside (by omega)] at byte

def Bytes.cString (bytes : Bytes) (start : Nat) : Option (List (BitVec 8)) :=
  if bytes start = 0 then some []
  else do
    let rest ← bytes |>.cString (start + 1)
    return bytes start :: rest
partial_fixpoint

export Bytes (cString)

theorem cString_of_zero {bytes : Nat → BitVec 8} {start : Nat} (ended : bytes start = 0) :
    cString bytes start = some [] := by
  rw [cString, if_pos ended]

theorem cString_eq {bytes : Nat → BitVec 8} {text : List (BitVec 8)} {start : Nat}
    (placed : ∀ k, k < text.length → bytes (start + k) = text.getD k 0) (noNul : ∀ character ∈ text, character ≠ 0)
    (ended : bytes (start + text.length) = 0) : cString bytes start = some text := by
  induction text generalizing start with
  | nil => exact cString_of_zero ended
  | cons character text ih =>
    have here : bytes start = character := placed 0 (Nat.zero_lt_succ _)
    have nonzero : bytes start ≠ 0 := here ▸ noNul character List.mem_cons_self
    have rest : cString bytes (start + 1) = some text := by
      apply ih
      · intro k bound
        rw [Nat.add_assoc, Nat.add_comm 1 k]
        exact placed (k + 1) (Nat.succ_lt_succ bound)
      · intro other member
        exact noNul other (List.mem_cons_of_mem _ member)
      · rw [Nat.add_assoc, Nat.add_comm 1]
        exact ended
    rw [cString, if_neg nonzero, rest, here]
    rfl

theorem cString_spec {bytes : Nat → BitVec 8} {start : Nat} {text : List (BitVec 8)}
    (read : cString bytes start = some text) :
    (∀ k, k < text.length → bytes (start + k) = text.getD k 0) ∧ (∀ character ∈ text, character ≠ 0) ∧
      bytes (start + text.length) = 0 := by
  refine Bytes.cString.partial_correctness bytes (fun start text =>
    (∀ k, k < text.length → bytes (start + k) = text.getD k 0) ∧ (∀ character ∈ text, character ≠ 0) ∧
      bytes (start + text.length) = 0) ?_ start text read
  intro recurse ih start text read
  split at read
  · rename_i ended
    cases read
    refine ⟨?_, ?_, ended⟩
    · intro k inside
      cases inside
    · intro character member
      cases member
  · rename_i nonzero
    simp only [Option.bind_eq_bind, Option.bind_eq_some_iff, Option.pure_def, Option.some.injEq] at read
    obtain ⟨rest, later, rfl⟩ := read
    obtain ⟨placed, noNul, ended⟩ := ih (start + 1) rest later
    refine ⟨?_, ?_, ?_⟩
    · intro k inside
      cases k with
      | zero => rfl
      | succ k =>
        rw [show start + (k + 1) = start + 1 + k by omega]
        exact placed k (Nat.lt_of_succ_lt_succ inside)
    · intro character member
      rcases List.mem_cons.mp member with rfl | later
      · exact nonzero
      · exact noNul character later
    · rw [List.length_cons, show start + (rest.length + 1) = start + 1 + rest.length by omega]
      exact ended

theorem cString_cons {bytes : Nat → BitVec 8} {start : Nat} {character : BitVec 8} {text : List (BitVec 8)}
    (read : cString bytes start = some (character :: text)) :
    bytes start = character ∧ character ≠ 0 ∧ cString bytes (start + 1) = some text := by
  rw [cString] at read
  split at read
  · cases read
  · rename_i nonzero
    simp only [Option.bind_eq_bind, Option.bind_eq_some_iff, Option.pure_def, Option.some.injEq,
      List.cons.injEq] at read
    obtain ⟨rest, later, rfl, rfl⟩ := read
    exact ⟨rfl, nonzero, later⟩

theorem cString_congr {left right : Nat → BitVec 8} {start : Nat} (same : ∀ m, start ≤ m → left m = right m) :
    cString left start = cString right start := by
  have transfer : ∀ first second : Nat → BitVec 8, (∀ m, start ≤ m → first m = second m) → ∀ text,
      cString first start = some text → cString second start = some text := by
    intro first second agree text read
    obtain ⟨placed, noNul, ended⟩ := cString_spec read
    apply cString_eq _ noNul
    · rw [← agree _ (by omega)]
      exact ended
    · intro k inside
      rw [← agree _ (by omega)]
      exact placed k inside
  apply Option.ext
  intro text
  exact ⟨transfer left right same text, transfer right left (fun m low => (same m low).symm) text⟩

theorem cString_place {bytes : Nat → BitVec 8} {start : Nat} {text : List (BitVec 8)} (rest : List (BitVec 8))
    (noNul : ∀ character ∈ text, character ≠ 0) :
    cString (place bytes start (text ++ 0 :: rest)) start = some text := by
  apply cString_eq _ noNul
  · rw [place_add, List.getElem?_append_right (Nat.le_refl _), Nat.sub_self]
    rfl
  · intro k inside
    rw [place_add, List.getElem?_append_left inside, List.getD_eq_getElem?_getD, List.getElem?_eq_getElem inside]
    rfl

end Library
