import Sbunix.Library.Run
import Mathlib.Algebra.GroupWithZero.Nat
import Mathlib.Data.Int.ModEq
import Mathlib.Logic.Function.Basic

namespace Sbunix.Terminal

open Library

/-- The console. Pointers into the text memory are offsets from `START_MEMORY`. -/
structure Console where
  /-- The page at `START_MEMORY`. -/
  bytes : Nat → BitVec 8
  videoMemory : Nat
  /-- The ports written so far, with the bytes sent to them. -/
  ports : List (BitVec 16 × BitVec 8)

/-- Only the page at `START_MEMORY` is mapped. An access to another page has no result. -/
def pageBytes : Nat := 4096

/-- The bytes from `START_MEMORY` to the end of the address space. A pointer beyond it has no result. -/
def spaceBytes : Nat := 0x7FF00000

def store (bytes : Nat → BitVec 8) (offset : Nat) (value : BitVec 8) : Option (Nat → BitVec 8) :=
  if offset < pageBytes then some (Function.update bytes offset value) else none

def load (bytes : Nat → BitVec 8) (offset : Nat) : Option (BitVec 8) :=
  if offset < pageBytes then some (bytes offset) else none

def memcpy (bytes : Nat → BitVec 8) (dest src : Nat) : Nat → Option (Nat → BitVec 8)
  | 0 => some bytes
  | n + 1 => do
    let value ← load bytes src
    let bytes ← store bytes dest value
    memcpy bytes (dest + 1) (src + 1) n

def storeCell (bytes : Nat → BitVec 8) (video : Nat) (c color : BitVec 8) : Option (Nat → BitVec 8) := do
  let bytes ← store bytes video c
  store bytes (video + 1) color

def blank (bytes : Nat → BitVec 8) (video : Nat) : Nat → Option (Nat → BitVec 8)
  | 0 => some bytes
  | n + 1 => do
    let bytes ← storeCell bytes video 0x20 0x0
    blank bytes (video + 2) n

def cursorOutput (position : BitVec 16) : List (BitVec 16 × BitVec 8) :=
  [(0x3D4, 0x0F), (0x3D5, position.setWidth 8), (0x3D4, 0x0E), (0x3D5, (position >>> 8).setWidth 8)]

def Console.sendCursor (s : Console) (row1 col1 : Nat) : Console :=
  { s with ports := s.ports ++ cursorOutput (BitVec.ofNat 16 (row1 * 80 + col1)) }

def passedLength (tempRow : Nat) : Int := (24 - tempRow) * 80 * 2

def copyLength (tempRow : Nat) : Nat := (BitVec.ofInt 32 (passedLength tempRow)).toNat

def updateCursor (s : Console) : Option Console := do
  let diff := s.videoMemory
  let row1 := diff / 80 / 2
  let col1 := (diff - row1 * 80 * 2) / 2 % 80
  if row1 ≥ 24 then
    let tempRow := row1 - 24 + 1
    let bytes ← memcpy s.bytes 0 (tempRow * 80 * 2) (copyLength tempRow)
    let bytes ← blank bytes (23 * 80 * 2) 80
    return Console.sendCursor { s with bytes, videoMemory := 23 * 80 * 2 } 23 0
  else
    return s.sendCursor row1 col1

def cls (s : Console) : Option Console := do
  let bytes ← blank s.bytes 0 (25 * 80)
  updateCursor { s with bytes, videoMemory := 0 }

def newline (video : Nat) : Option Nat :=
  if video + 0xA0 < spaceBytes then
    let col1 := (video + 0xA0) / 0xA0
    some (0xA0 * col1)
  else none

def writeChar (s : Console) (color : BitVec 32) (c : BitVec 8) : Option Console := do
  if c = 10 ∨ c = 13 then
    updateCursor { s with videoMemory := ← newline s.videoMemory }
  else
    let bytes ← storeCell s.bytes s.videoMemory c (color.setWidth 8)
    updateCursor { s with bytes, videoMemory := s.videoMemory + 2 }

def writeText (color : BitVec 32) (bytes : Nat → BitVec 8) (video : Nat) :
    List (BitVec 8) → Option ((Nat → BitVec 8) × Nat)
  | [] => some (bytes, video)
  | c :: string => do
    if c = 0 then return (bytes, video)
    else if c = 10 then writeText color bytes (← newline video) string
    else writeText color (← storeCell bytes video c (color.setWidth 8)) (video + 2) string

def writeString (s : Console) (color : BitVec 32) (string : List (BitVec 8)) : Option Console := do
  let (bytes, videoMemory) ← writeText color s.bytes s.videoMemory string
  updateCursor { s with bytes, videoMemory }

abbrev Cell := BitVec 8 × BitVec 8

def blankCell : Cell := (0x20, 0x00)

def cells (bytes : Nat → BitVec 8) (n : Nat) : Cell := (bytes (2 * n), bytes (2 * n + 1))

theorem bytes_eq_of_cells {left right : Nat → BitVec 8} {offset : Nat}
    (same : cells left (offset / 2) = cells right (offset / 2)) : left offset = right offset := by
  obtain ⟨even, odd⟩ := Prod.mk.inj same
  rcases Nat.mod_two_eq_zero_or_one offset with parity | parity
  · rwa [show 2 * (offset / 2) = offset by omega] at even
  · rwa [show 2 * (offset / 2) + 1 = offset by omega] at odd

theorem storeCell_spec (bytes : Nat → BitVec 8) {n : Nat} (inside : n < 2048) (c color : BitVec 8) :
    ∃ stored, storeCell bytes (2 * n) c color = some stored ∧
      cells stored = Function.update (cells bytes) n (c, color) := by
  have first : 2 * n < pageBytes := by
    change 2 * n < 4096
    omega
  have second : 2 * n + 1 < pageBytes := by
    change 2 * n + 1 < 4096
    omega
  refine ⟨Function.update (Function.update bytes (2 * n) c) (2 * n + 1) color, ?_, ?_⟩
  · rw [storeCell, store, if_pos first, Option.bind_eq_bind, Option.bind_some, store, if_pos second]
  · funext m
    by_cases here : m = n
    · subst here
      simp [cells]
    · have other : 2 * m ≠ 2 * n + 1 := by omega
      have other' : 2 * m + 1 ≠ 2 * n := by omega
      simp [cells, here, other, other']

theorem storeCell_outside (bytes : Nat → BitVec 8) {n : Nat} (outside : 2048 ≤ n) (c color : BitVec 8) :
    storeCell bytes (2 * n) c color = none := by
  have beyond : ¬ 2 * n < pageBytes := by
    change ¬ 2 * n < 4096
    omega
  rw [storeCell, store, if_neg beyond]
  rfl

theorem blank_spec (bytes : Nat → BitVec 8) {n count : Nat} (inside : n + count ≤ 2048) :
    ∃ blanked, blank bytes (2 * n) count = some blanked ∧
      ∀ m, cells blanked m = if n ≤ m ∧ m < n + count then blankCell else cells bytes m := by
  induction count generalizing bytes n with
  | zero => exact ⟨bytes, rfl, fun m => (if_neg (by omega)).symm⟩
  | succ count ih =>
    obtain ⟨stored, executed, first⟩ := storeCell_spec bytes (show n < 2048 by omega) 0x20 0x0
    obtain ⟨blanked, rest, others⟩ := ih stored (show n + 1 + count ≤ 2048 by omega)
    refine ⟨blanked, ?_, ?_⟩
    · rw [blank, executed, Option.bind_eq_bind, Option.bind_some]
      exact rest
    · intro m
      rw [others, first]
      by_cases here : m = n
      · subst here
        rw [if_neg (by omega), Function.update_self, if_pos (by omega)]
        rfl
      · rw [Function.update_of_ne here]
        by_cases within : n + 1 ≤ m ∧ m < n + 1 + count
        · rw [if_pos within, if_pos (by omega)]
        · rw [if_neg within, if_neg (by omega)]

/-- A forward copy to lower addresses reads every byte before it is overwritten. -/
theorem memcpy_spec (bytes : Nat → BitVec 8) {dest src n : Nat} (lower : dest ≤ src) (inside : src + n ≤ pageBytes) :
    ∃ copied, memcpy bytes dest src n = some copied ∧
      ∀ x, copied x = if dest ≤ x ∧ x < dest + n then bytes (x + (src - dest)) else bytes x := by
  induction n generalizing bytes dest src with
  | zero => exact ⟨bytes, rfl, fun x => (if_neg (by omega)).symm⟩
  | succ n ih =>
    obtain ⟨copied, executed, spec⟩ := ih (Function.update bytes dest (bytes src))
      (show dest + 1 ≤ src + 1 by omega) (by omega)
    refine ⟨copied, ?_, ?_⟩
    · rw [memcpy, load, if_pos (by omega), Option.bind_eq_bind, Option.bind_some, store, if_pos (by omega)]
      exact executed
    · intro x
      rw [spec, show src + 1 - (dest + 1) = src - dest by omega]
      by_cases first : x = dest
      · subst first
        rw [if_neg (by omega), if_pos (by omega), Function.update_self, show x + (src - x) = src by omega]
      · by_cases within : dest + 1 ≤ x ∧ x < dest + 1 + n
        · rw [if_pos within, if_pos (by omega), Function.update_of_ne (by omega)]
        · rw [if_neg within, if_neg (by omega), Function.update_of_ne first]

theorem memcpy_outside (bytes : Nat → BitVec 8) {dest src n : Nat} (outside : pageBytes < src + n) (some : 0 < n) :
    memcpy bytes dest src n = none := by
  induction n generalizing bytes dest src with
  | zero => omega
  | succ n ih =>
    rw [memcpy, load]
    by_cases inside : src < pageBytes
    · rw [if_pos inside, Option.bind_eq_bind, Option.bind_some, store]
      split
      · exact ih _ (by omega) (by omega)
      · rfl
    · rw [if_neg inside]
      rfl

def scrolled (screen : Nat → Cell) (rows n : Nat) : Cell :=
  if n < (24 - rows) * 80 then screen (n + rows * 80)
  else if 23 * 80 ≤ n ∧ n < 24 * 80 then blankCell
  else screen n

theorem copyLength_of_le {rows : Nat} (few : rows ≤ 24) : copyLength rows = (24 - rows) * 160 := by
  rw [copyLength, passedLength, BitVec.toNat_ofInt, Int.emod_eq_of_lt (by omega) (by omega)]
  omega

/-- From row 48 on the length is negative. -/
theorem copyLength_of_lt {rows : Nat} (many : 24 < rows) (bound : rows < 0x1000000) : pageBytes < copyLength rows := by
  have modulus : ((2 ^ 32 : Nat) : Int) = 4294967296 := by simp
  have wrapped : ((24 - (rows : Int)) * 80 * 2) % ((2 ^ 32 : Nat) : Int) = 4294967296 - (rows - 24) * 160 := by
    rw [modulus]
    omega
  rw [copyLength, passedLength, BitVec.toNat_ofInt, wrapped, pageBytes]
  omega

theorem updateCursor_within {s : Console} {n : Nat} (video : s.videoMemory = 2 * n) (low : n < 24 * 80) :
    updateCursor s = some { s with ports := s.ports ++ cursorOutput (BitVec.ofNat 16 n) } := by
  have row : 2 * n / 80 / 2 = n / 80 := by omega
  have position : n / 80 * 80 + (2 * n - n / 80 * 80 * 2) / 2 % 80 = n := by omega
  obtain ⟨bytes, videoMemory, ports⟩ := s
  dsimp only at video
  subst videoMemory
  unfold updateCursor
  dsimp only
  rw [row, if_neg (by omega), Console.sendCursor, position]
  rfl

theorem updateCursor_scroll {s : Console} {n : Nat} (video : s.videoMemory = 2 * n) (low : 24 ≤ n / 80)
    (high : n / 80 ≤ 47) :
    ∃ next, updateCursor s = some next ∧ next.videoMemory = 2 * (23 * 80) ∧
      next.ports = s.ports ++ cursorOutput (BitVec.ofNat 16 (23 * 80)) ∧
      cells next.bytes = scrolled (cells s.bytes) (n / 80 - 23) := by
  have row : 2 * n / 80 / 2 = n / 80 := by omega
  obtain ⟨rows, split⟩ : ∃ rows, n / 80 = rows + 23 := ⟨n / 80 - 23, by omega⟩
  have length := copyLength_of_le (show rows ≤ 24 by omega)
  obtain ⟨copied, copy, moved⟩ := memcpy_spec s.bytes (Nat.zero_le (rows * 80 * 2))
    (show rows * 80 * 2 + (24 - rows) * 160 ≤ 4096 by omega)
  obtain ⟨blanked, clear, last⟩ := blank_spec copied (show 23 * 80 + 80 ≤ 2048 by omega)
  refine ⟨⟨blanked, 23 * 80 * 2, s.ports ++ cursorOutput (BitVec.ofNat 16 (23 * 80))⟩, ?_, rfl, rfl, ?_⟩
  · rw [updateCursor, video]
    dsimp only
    rw [row, split, if_pos (by omega), show rows + 23 - 24 + 1 = rows by omega, length, copy, Option.bind_eq_bind,
      Option.bind_some, show 23 * 80 * 2 = 2 * (23 * 80) from rfl, clear]
    rfl
  · funext m
    have even (x : Nat) : copied x = if x < (24 - rows) * 160 then s.bytes (x + rows * 160) else s.bytes x := by
      rw [moved]
      simp [Nat.mul_assoc]
    have kept : cells copied m = if m < (24 - rows) * 80 then cells s.bytes (m + rows * 80) else cells s.bytes m := by
      rw [cells, even, even]
      by_cases within : m < (24 - rows) * 80
      · rw [if_pos within, if_pos (by omega), if_pos (by omega), cells]
        congr 2
        · omega
        · omega
      · rw [if_neg within, if_neg (by omega), if_neg (by omega), cells]
    rw [last, split, Nat.add_sub_cancel, scrolled, kept]
    by_cases bottom : 23 * 80 ≤ m ∧ m < 24 * 80
    · rw [if_pos bottom, if_neg (by omega), if_pos bottom]
    · rw [if_neg bottom, if_neg bottom]

theorem updateCursor_lost {s : Console} {n : Nat} (video : s.videoMemory = 2 * n) (low : 48 ≤ n / 80)
    (high : 2 * n < spaceBytes) : updateCursor s = none := by
  have row : 2 * n / 80 / 2 = n / 80 := by omega
  change 2 * n < 0x7FF00000 at high
  have length := copyLength_of_lt (show 24 < n / 80 - 24 + 1 by omega) (by omega)
  unfold updateCursor
  rw [video]
  dsimp only
  rw [row, if_pos (by omega), memcpy_outside s.bytes (by omega) (by omega)]
  rfl

theorem newline_spec {n : Nat} (bound : 2 * n + 0xA0 < spaceBytes) :
    newline (2 * n) = some (2 * ((n / 80 + 1) * 80)) := by
  have start : 0xA0 * ((2 * n + 0xA0) / 0xA0) = 2 * ((n / 80 + 1) * 80) := by omega
  rw [newline, if_pos bound]
  exact congrArg some start

theorem newline_outside {n : Nat} (outside : spaceBytes ≤ 2 * n + 0xA0) : newline (2 * n) = none :=
  if_neg (by omega)

structure Display where
  cell : Fin 24 → Fin 80 → Cell
  row : Fin 24
  col : Fin 80

namespace Display

def clear : Display := ⟨fun _ _ => blankCell, 0, 0⟩

def scroll (t : Display) : Display where
  cell i j := if below : i.val + 1 < 24 then t.cell ⟨i.val + 1, below⟩ j else blankCell
  row := 23
  col := 0

def nextRow (t : Display) : Display :=
  if below : t.row.val + 1 < 24 then { t with row := ⟨t.row.val + 1, below⟩, col := 0 } else t.scroll

def put (t : Display) (cell : Cell) : Display :=
  { t with cell := Function.update t.cell t.row (Function.update (t.cell t.row) t.col cell) }

def write (t : Display) (cell : Cell) : Display :=
  if cell.1 = 10 ∨ cell.1 = 13 then t.nextRow
  else if beside : t.col.val + 1 < 80 then { t.put cell with col := ⟨t.col.val + 1, beside⟩ }
  else (t.put cell).nextRow

def cursor (t : Display) : Nat := t.row.val * 80 + t.col.val

theorem cursor_lt (t : Display) : t.cursor < 24 * 80 := by
  have row := t.row.isLt
  have col := t.col.isLt
  rw [cursor]
  omega

theorem cursor_row (t : Display) : t.cursor / 80 = t.row.val := by
  have col := t.col.isLt
  rw [cursor]
  omega

end Display

def SameRows (screen : Nat → Cell) (t : Display) : Prop :=
  ∀ (i : Fin 24) (j : Fin 80), screen (i.val * 80 + j.val) = t.cell i j

structure Shows (s : Console) (t : Display) : Prop where
  rows : SameRows (cells s.bytes) t
  video : s.videoMemory = 2 * t.cursor
  sent : ∃ earlier, s.ports = earlier ++ cursorOutput (BitVec.ofNat 16 t.cursor)

theorem SameRows.put {screen : Nat → Cell} {t : Display} (rows : SameRows screen t) (cell : Cell) :
    SameRows (Function.update screen t.cursor cell) (t.put cell) := by
  intro i j
  have col := j.isLt
  have column := t.col.isLt
  rw [Display.put]
  dsimp only
  by_cases sameRow : i = t.row
  · subst sameRow
    rw [Function.update_self]
    by_cases sameCol : j = t.col
    · subst sameCol
      rw [Function.update_self, Display.cursor, Function.update_self]
    · have different : j.val ≠ t.col.val := fun same => sameCol (Fin.ext same)
      rw [Function.update_of_ne sameCol, Display.cursor, Function.update_of_ne (by omega), rows]
  · have different : i.val ≠ t.row.val := fun same => sameRow (Fin.ext same)
    rw [Function.update_of_ne sameRow, Display.cursor, Function.update_of_ne (by omega), rows]

theorem SameRows.scroll {screen : Nat → Cell} {t : Display} (rows : SameRows screen t) :
    SameRows (scrolled screen 1) t.scroll := by
  intro i j
  have row := i.isLt
  have col := j.isLt
  rw [scrolled, Display.scroll]
  dsimp only
  by_cases above : i.val + 1 < 24
  · rw [if_pos (by omega), dif_pos above, ← rows]
    dsimp only
    rw [Nat.add_mul, Nat.add_right_comm]
  · rw [if_neg (by omega), if_pos (by omega), dif_neg above]

theorem SameRows.nextRow {s : Console} {t : Display} (rows : SameRows (cells s.bytes) t)
    (video : s.videoMemory = 2 * ((t.row.val + 1) * 80)) :
    ∃ next, updateCursor s = some next ∧ Shows next t.nextRow ∧
      ∀ n, 24 * 80 ≤ n → cells next.bytes n = cells s.bytes n := by
  have bound := t.row.isLt
  by_cases below : t.row.val + 1 < 24
  · refine ⟨_, updateCursor_within video (by omega), ?_, fun n _ => rfl⟩
    rw [Display.nextRow, dif_pos below]
    exact ⟨rows, video, s.ports, rfl⟩
  · rw [show t.row.val + 1 = 24 by omega] at video
    obtain ⟨next, executed, moved, sent, after⟩ := updateCursor_scroll video (by decide) (by decide)
    change cells next.bytes = scrolled (cells s.bytes) 1 at after
    refine ⟨next, executed, ?_, ?_⟩
    · rw [Display.nextRow, dif_neg below]
      exact ⟨after ▸ rows.scroll, moved, s.ports, sent⟩
    · intro n beyond
      rw [after, scrolled, if_neg (by omega), if_neg (by omega)]

theorem Shows.writeChar {s : Console} {t : Display} (shows : Shows s t) (color : BitVec 32) (c : BitVec 8) :
    ∃ next, writeChar s color c = some next ∧ Shows next (t.write (c, color.setWidth 8)) ∧
      ∀ n, 24 * 80 ≤ n → cells next.bytes n = cells s.bytes n := by
  have low := t.cursor_lt
  unfold Terminal.writeChar Display.write
  rw [shows.video]
  by_cases control : c = 10 ∨ c = 13
  · have start := newline_spec (show 2 * t.cursor + 0xA0 < 0x7FF00000 by omega)
    rw [t.cursor_row] at start
    rw [if_pos control, if_pos control, start, Option.bind_eq_bind, Option.bind_some]
    exact SameRows.nextRow shows.rows rfl
  · obtain ⟨stored, executed, written⟩ :=
      storeCell_spec s.bytes (show t.cursor < 2048 by omega) c (color.setWidth 8)
    have rows : SameRows (cells stored) (t.put (c, color.setWidth 8)) := written ▸ shows.rows.put _
    have kept (n : Nat) (beyond : 24 * 80 ≤ n) : cells stored n = cells s.bytes n := by
      rw [written, Function.update_of_ne (by omega)]
    rw [if_neg control, if_neg control, executed, Option.bind_eq_bind, Option.bind_some]
    have column := t.col.isLt
    by_cases beside : t.col.val + 1 < 80
    · rw [dif_pos beside]
      have moved : 2 * t.cursor + 2 = 2 * (t.row.val * 80 + (t.col.val + 1)) := by
        rw [Display.cursor]
        omega
      refine ⟨_, updateCursor_within moved ?_, ⟨rows, moved, s.ports, rfl⟩, kept⟩
      have row := t.row.isLt
      omega
    · rw [dif_neg beside]
      have moved : 2 * t.cursor + 2 = 2 * ((t.row.val + 1) * 80) := by
        rw [Display.cursor]
        omega
      obtain ⟨next, updated, shown, beyond⟩ := SameRows.nextRow
        (s := ⟨stored, 2 * t.cursor + 2, s.ports⟩) rows moved
      exact ⟨next, updated, shown, fun n above => (beyond n above).trans (kept n above)⟩

theorem cls_spec (s : Console) : ∃ cleared, cls s = some cleared ∧ Shows cleared Display.clear := by
  obtain ⟨blanked, executed, clear⟩ := blank_spec s.bytes (show 0 + 25 * 80 ≤ 2048 by decide)
  have video : Console.videoMemory { s with bytes := blanked, videoMemory := 0 } = 2 * 0 := rfl
  have updated := updateCursor_within video (by decide)
  refine ⟨⟨blanked, 0, s.ports ++ cursorOutput 0⟩, ?_, ⟨?_, rfl, s.ports, rfl⟩⟩
  · rw [cls, executed, Option.bind_eq_bind, Option.bind_some]
    exact updated
  · intro i j
    have row := i.isLt
    have col := j.isLt
    exact (clear _).trans (if_pos (by omega))

def output (s : Console) (call : BitVec 32 × BitVec 8) : Option Console := writeChar s call.1 call.2

def Display.output (t : Display) (call : BitVec 32 × BitVec 8) : Display := t.write (call.2, call.1.setWidth 8)

theorem Shows.output {s : Console} {t : Display} (shows : Shows s t) (calls : List (BitVec 32 × BitVec 8)) :
    ∃ final, run output s calls = some final ∧ Shows final (calls.foldl Display.output t) ∧
      ∀ n, 24 * 80 ≤ n → cells final.bytes n = cells s.bytes n := by
  induction calls generalizing s t with
  | nil => exact ⟨s, rfl, shows, fun n _ => rfl⟩
  | cons call calls ih =>
    obtain ⟨next, first, shown, kept⟩ := shows.writeChar call.1 call.2
    obtain ⟨final, others, last, after⟩ := ih shown
    exact ⟨final, run_cons.mpr ⟨next, first, others⟩, last, fun n beyond => (after n beyond).trans (kept n beyond)⟩

def Console.below (s : Console) (bytes : Nat → BitVec 8) : Console :=
  { s with bytes := fun offset => if offset < 24 * 160 then s.bytes offset else bytes offset }

theorem Shows.below {s : Console} {t : Display} (shows : Shows s t) (bytes : Nat → BitVec 8) :
    Shows (s.below bytes) t := by
  refine ⟨?_, shows.video, shows.sent⟩
  intro i j
  have row := i.isLt
  have col := j.isLt
  rw [← shows.rows]
  exact Prod.ext (if_pos (by omega)) (if_pos (by omega))

/-- `write_char` is a scrolling terminal, and it leaves the row of the clock and all behind it alone. -/
theorem write_char_is_scrolling_terminal (before : Console) :
    ∃ cleared, cls before = some cleared ∧
      ∀ (clock : Nat → BitVec 8) (calls : List (BitVec 32 × BitVec 8)),
        ∃ final, run output (cleared.below clock) calls = some final ∧
          Shows final (calls.foldl Display.output Display.clear) ∧
          ∀ offset, 24 * 160 ≤ offset → final.bytes offset = clock offset := by
  obtain ⟨cleared, executed, shows⟩ := cls_spec before
  refine ⟨cleared, executed, ?_⟩
  intro clock calls
  obtain ⟨final, ran, shown, kept⟩ := (shows.below clock).output calls
  refine ⟨final, ran, shown, ?_⟩
  intro offset beyond
  rw [bytes_eq_of_cells (kept (offset / 2) (by omega))]
  exact if_neg (by omega)

end Sbunix.Terminal
