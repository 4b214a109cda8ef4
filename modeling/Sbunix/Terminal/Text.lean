import Sbunix.Terminal.Screen

namespace Sbunix.Terminal

open Library

structure Sheet where
  cell : Nat → Cell
  cursor : Nat

namespace Sheet

def newline (p : Sheet) : Sheet := { p with cursor := (p.cursor / 80 + 1) * 80 }

def write (p : Sheet) (cell : Cell) : Sheet :=
  if cell.1 = 10 ∨ cell.1 = 13 then p.newline
  else ⟨Function.update p.cell p.cursor cell, p.cursor + 1⟩

def layout (p : Sheet) (color : BitVec 32) (text : List (BitVec 8)) : Sheet :=
  text.foldl (fun p c => p.write (c, color.setWidth 8)) p

def top (p : Sheet) : Nat := (p.cursor / 80 - 23) * 80

def advance (cursor : Nat) (c : BitVec 8) : Nat := if c = 10 ∨ c = 13 then (cursor / 80 + 1) * 80 else cursor + 1

theorem layout_cursor (p : Sheet) (color : BitVec 32) (text : List (BitVec 8)) :
    (p.layout color text).cursor = text.foldl advance p.cursor := by
  induction text generalizing p with
  | nil => rfl
  | cons c text ih =>
    have step : (p.write (c, color.setWidth 8)).cursor = advance p.cursor c := by
      unfold write advance
      split
      · rfl
      · rfl
    rw [layout, List.foldl_cons, List.foldl_cons, ← step]
    exact ih _

theorem cursor_write (p : Sheet) (cell : Cell) : p.cursor < (p.write cell).cursor := by
  unfold write newline
  split
  · dsimp only
    omega
  · exact Nat.lt_succ_self _

theorem cursor_layout (p : Sheet) (color : BitVec 32) (text : List (BitVec 8)) :
    p.cursor ≤ (p.layout color text).cursor := by
  induction text generalizing p with
  | nil => exact Nat.le_refl _
  | cons c text ih => exact Nat.le_trans (Nat.le_of_lt (p.cursor_write _)) (ih _)

end Sheet

/-- The display shows the last rows of the page, up to the row of the cursor. -/
structure Window (t : Display) (p : Sheet) : Prop where
  rows : SameRows (fun n => p.cell (n + p.top)) t
  cursor : t.cursor + p.top = p.cursor
  blank : ∀ n, p.cursor ≤ n → 24 * 80 ≤ n → p.cell n = blankCell

theorem Window.nextRow {t : Display} {p : Sheet} (rows : SameRows (fun n => p.cell (n + p.top)) t)
    (cursor : t.cursor + p.top = p.cursor)
    (blank : ∀ n, (p.cursor / 80 + 1) * 80 ≤ n → 24 * 80 ≤ n → p.cell n = blankCell) :
    Window t.nextRow p.newline := by
  have row := t.cursor_row
  have low := t.row.isLt
  rw [Sheet.top] at cursor
  unfold Display.nextRow
  by_cases below : t.row.val + 1 < 24
  · rw [dif_pos below]
    have first : p.top = 0 ∧ p.newline.top = 0 := by
      simp only [Sheet.top, Sheet.newline]
      omega
    refine ⟨?_, ?_, blank⟩
    · rw [first.2]
      rw [first.1] at rows
      exact rows
    · rw [first.2, Display.cursor, Sheet.newline]
      dsimp only
      omega
  · rw [dif_neg below]
    have next : p.newline.top = p.top + 80 := by
      simp only [Sheet.top, Sheet.newline]
      omega
    refine ⟨?_, ?_, blank⟩
    · intro i j
      rw [← rows.scroll i j, next, scrolled]
      have row := i.isLt
      have col := j.isLt
      by_cases above : i.val + 1 < 24
      · rw [if_pos (by omega)]
        exact congrArg p.cell (by omega)
      · rw [if_neg (by omega), if_pos (by omega)]
        apply blank
        · rw [Sheet.top]
          omega
        · omega
    · rw [next, Display.scroll, Display.cursor, Sheet.top, Sheet.newline]
      change 23 * 80 + 0 + _ = (_ + 1) * 80
      omega

theorem Window.write {t : Display} {p : Sheet} (window : Window t p) (cell : Cell) :
    Window (t.write cell) (p.write cell) := by
  have cursor := window.cursor
  have row := t.cursor_row
  have low := t.row.isLt
  unfold Display.write Sheet.write
  by_cases control : cell.1 = 10 ∨ cell.1 = 13
  · rw [if_pos control, if_pos control]
    exact Window.nextRow window.rows cursor fun n after => window.blank n (by omega)
  · rw [if_neg control, if_neg control]
    let put : Sheet := { p with cell := Function.update p.cell p.cursor cell }
    have rows : SameRows (fun n => put.cell (n + p.top)) (t.put cell) := by
      have shifted := window.rows.put cell
      intro i j
      rw [← shifted i j]
      by_cases here : i.val * 80 + j.val = t.cursor
      · dsimp only [put]
        rw [here, cursor, Function.update_self, Function.update_self]
      · dsimp only [put]
        rw [Function.update_of_ne here, Function.update_of_ne (by omega)]
    have blank (n : Nat) (after : p.cursor + 1 ≤ n) (beyond : 24 * 80 ≤ n) : put.cell n = blankCell := by
      dsimp only [put]
      rw [Function.update_of_ne (by omega)]
      exact window.blank n (by omega) beyond
    have column := t.col.isLt
    rw [Display.cursor, Sheet.top] at cursor
    by_cases beside : t.col.val + 1 < 80
    · rw [dif_pos beside]
      have same : Sheet.top ⟨put.cell, p.cursor + 1⟩ = p.top := by
        simp only [Sheet.top]
        omega
      refine ⟨?_, ?_, blank⟩
      · rw [same]
        exact rows
      · rw [same, Display.cursor, Sheet.top]
        dsimp only
        change t.row.val * 80 + _ + _ = _
        omega
    · rw [dif_neg beside]
      have next : (p.cursor / 80 + 1) * 80 = p.cursor + 1 := by omega
      have moved := Window.nextRow (p := put) rows window.cursor fun n after => blank n (next ▸ after)
      rwa [Sheet.newline, show put.cursor = p.cursor from rfl, next] at moved

def Plain (text : List (BitVec 8)) : Prop := ∀ c ∈ text, c ≠ 0 ∧ c ≠ 13

def Fits : Nat → List (BitVec 8) → Prop
  | _, [] => True
  | cursor, c :: text =>
    if c = 10 then Fits ((cursor / 80 + 1) * 80) text else cursor < 2048 ∧ Fits (cursor + 1) text

section WriteText

variable {color : BitVec 32} {c : BitVec 8} {text : List (BitVec 8)}

theorem Plain.tail (plain : Plain (c :: text)) : Plain text := fun other member => plain other (by simp [member])

theorem Plain.control_iff (plain : Plain (c :: text)) : c = 10 ∨ c = 13 ↔ c = 10 :=
  or_iff_left (plain c List.mem_cons_self).2

theorem writeText_cons (plain : Plain (c :: text)) (bytes : Nat → BitVec 8) (video : Nat) :
    writeText color bytes video (c :: text) =
      if c = 10 then (newline video).bind fun video => writeText color bytes video text
      else (storeCell bytes video c (color.setWidth 8)).bind fun bytes => writeText color bytes (video + 2) text := by
  rw [writeText, if_neg (plain c List.mem_cons_self).1]
  rfl

theorem layout_cons (plain : Plain (c :: text)) (p : Sheet) :
    p.layout color (c :: text) =
      if c = 10 then p.newline.layout color text
      else Sheet.layout ⟨Function.update p.cell p.cursor (c, color.setWidth 8), p.cursor + 1⟩ color text := by
  rw [Sheet.layout, List.foldl_cons, Sheet.write]
  by_cases control : c = 10
  · rw [if_pos (plain.control_iff.mpr control), if_pos control, Sheet.layout]
  · rw [if_neg (mt plain.control_iff.mp control), if_neg control, Sheet.layout]

theorem writeText_some {p : Sheet} {bytes written : Nat → BitVec 8} {video : Nat} (plain : Plain text)
    (same : ∀ n, n < 24 * 80 → cells bytes n = p.cell n) (low : 2 * p.cursor < spaceBytes)
    (executed : writeText color bytes (2 * p.cursor) text = some (written, video)) :
    Fits p.cursor text ∧ video = 2 * (p.layout color text).cursor ∧ video < spaceBytes ∧
      ∀ n, n < 24 * 80 → cells written n = (p.layout color text).cell n := by
  induction text generalizing p bytes with
  | nil =>
    cases executed
    exact ⟨trivial, rfl, low, same⟩
  | cons c text ih =>
    rw [writeText_cons plain] at executed
    rw [layout_cons plain, Fits]
    by_cases control : c = 10
    · rw [if_pos control] at executed ⊢
      rw [if_pos control]
      by_cases inside : 2 * p.cursor + 0xA0 < spaceBytes
      · rw [newline_spec inside, Option.bind_some] at executed
        exact ih plain.tail (p := p.newline) same (by rw [Sheet.newline]; dsimp only; omega) executed
      · rw [newline_outside (by omega)] at executed
        cases executed
    · rw [if_neg control] at executed ⊢
      rw [if_neg control]
      by_cases inside : p.cursor < 2048
      · obtain ⟨stored, put, after⟩ := storeCell_spec bytes inside c (color.setWidth 8)
        rw [put, Option.bind_some] at executed
        have kept (n : Nat) (above : n < 24 * 80) :
            cells stored n = Function.update p.cell p.cursor (c, color.setWidth 8) n := by
          rw [after]
          by_cases here : n = p.cursor
          · rw [here, Function.update_self, Function.update_self]
          · rw [Function.update_of_ne here, Function.update_of_ne here, same n above]
        obtain ⟨fits, rest⟩ := ih plain.tail (p := ⟨_, p.cursor + 1⟩) kept
          (show 2 * (p.cursor + 1) < 0x7FF00000 by omega) executed
        exact ⟨⟨inside, fits⟩, rest⟩
      · rw [storeCell_outside _ (by omega)] at executed
        cases executed

theorem writeText_returns {p : Sheet} (bytes : Nat → BitVec 8) (plain : Plain text) (fits : Fits p.cursor text)
    (low : (p.layout color text).cursor < 48 * 80) :
    ∃ written video, writeText color bytes (2 * p.cursor) text = some (written, video) := by
  induction text generalizing p bytes with
  | nil => exact ⟨_, _, rfl⟩
  | cons c text ih =>
    rw [writeText_cons plain]
    rw [layout_cons plain] at low
    rw [Fits] at fits
    by_cases control : c = 10
    · rw [if_pos control] at fits low ⊢
      have before := p.newline.cursor_layout color text
      rw [Sheet.newline] at before
      dsimp only at before
      rw [newline_spec (show _ < 0x7FF00000 by rw [Sheet.newline] at low; omega), Option.bind_some]
      exact ih (p := p.newline) bytes plain.tail fits low
    · rw [if_neg control] at fits low ⊢
      obtain ⟨stored, put, _⟩ := storeCell_spec bytes fits.1 c (color.setWidth 8)
      rw [put, Option.bind_some]
      exact ih (p := ⟨_, p.cursor + 1⟩) stored plain.tail fits.2 low

end WriteText

def Console.sheet (s : Console) : Sheet where
  cell n := if n < 24 * 80 then cells s.bytes n else blankCell
  cursor := s.videoMemory / 2

theorem Shows.cursor {s : Console} {t : Display} (shows : Shows s t) : s.sheet.cursor = t.cursor := by
  rw [Console.sheet, shows.video]
  exact Nat.mul_div_cancel_left _ (by decide)

theorem Shows.window {s : Console} {t : Display} (shows : Shows s t) : Window t s.sheet := by
  have low := t.cursor_lt
  have top : s.sheet.top = 0 := by
    rw [Sheet.top, shows.cursor]
    omega
  refine ⟨?_, by rw [top, shows.cursor, Nat.add_zero], fun n _ beyond => if_neg (by omega)⟩
  intro i j
  have row := i.isLt
  have col := j.isLt
  rw [top, ← shows.rows]
  exact if_pos (by omega)

def charCalls (color : BitVec 32) (text : List (BitVec 8)) : List (BitVec 32 × BitVec 8) := text.map (color, ·)

theorem Window.layout {t : Display} {p : Sheet} (window : Window t p) (color : BitVec 32) (text : List (BitVec 8)) :
    Window ((charCalls color text).foldl Display.output t) (p.layout color text) := by
  induction text generalizing t p with
  | nil => exact window
  | cons c text ih => exact ih (window.write (c, color.setWidth 8))

/-- `write_string` and `write_char` leave the same rows 0 to 23 and the same `video_memory`. -/
def Agree (s : Console) (color : BitVec 32) (text : List (BitVec 8)) : Prop :=
  ∃ left right, writeString s color text = some left ∧ run output s (charCalls color text) = some right ∧
    left.videoMemory = right.videoMemory ∧ ∀ offset, offset < 24 * 160 → left.bytes offset = right.bytes offset

/-- The text ends above the clock, or it ends at the start of a row and the rows of the page that a single
    scroll leaves in place are the ones that should have come there. -/
def ScrollsOnce (p : Sheet) : Prop :=
  p.cursor / 80 < 24 ∨ p.cursor / 80 ≤ 47 ∧ p.cursor % 80 = 0 ∧
    ∀ n, (47 - p.cursor / 80) * 80 ≤ n → n < 23 * 80 → p.cell n = p.cell (n + p.top)

theorem same_bytes_iff {left right : Nat → BitVec 8} :
    (∀ offset, offset < 24 * 160 → left offset = right offset) ↔
      ∀ n, n < 24 * 80 → cells left n = cells right n := by
  constructor
  · intro same n above
    exact Prod.ext (same _ (by omega)) (same _ (by omega))
  · intro same offset above
    exact bytes_eq_of_cells (same _ (by omega))

theorem Window.cells {s : Console} {t : Display} {p : Sheet} (window : Window t p) (shows : Shows s t) {n : Nat}
    (above : n < 24 * 80) : Terminal.cells s.bytes n = p.cell (n + p.top) := by
  have split : n / 80 * 80 + n % 80 = n := by omega
  have shown := shows.rows ⟨n / 80, by omega⟩ ⟨n % 80, by omega⟩
  rw [← window.rows] at shown
  dsimp only at shown
  rwa [split] at shown

/-- One scroll of a text that ends in row 24 or below it. -/
theorem scrolled_iff {p : Sheet} {screen : Nat → Cell} (same : ∀ n, n < 24 * 80 → screen n = p.cell n)
    (low : 24 ≤ p.cursor / 80) (high : p.cursor / 80 ≤ 47) (start : p.cursor % 80 = 0)
    (blank : ∀ n, p.cursor ≤ n → 24 * 80 ≤ n → p.cell n = blankCell) :
    (∀ n, n < 24 * 80 → scrolled screen (p.cursor / 80 - 23) n = p.cell (n + p.top)) ↔
      ∀ n, (47 - p.cursor / 80) * 80 ≤ n → n < 23 * 80 → p.cell n = p.cell (n + p.top) := by
  have bottom : p.cursor = p.top + 23 * 80 := by
    rw [Sheet.top]
    omega
  have kept : 24 - (p.cursor / 80 - 23) = 47 - p.cursor / 80 := by omega
  constructor
  · intro all n above below
    have cell := all n (by omega)
    rwa [scrolled, kept, if_neg (by omega), if_neg (by omega), same n (by omega)] at cell
  · intro all n above
    rw [scrolled, kept]
    by_cases moved : n < (47 - p.cursor / 80) * 80
    · rw [if_pos moved, same _ (by omega), Sheet.top]
    · rw [if_neg moved]
      by_cases last : 23 * 80 ≤ n ∧ n < 24 * 80
      · rw [if_pos last, blank _ (by omega) (by omega)]
      · rw [if_neg last, same n above]
        exact all n (by omega) (by omega)

theorem Window.updateCursor_iff {left right : Console} {t : Display} {p : Sheet} (window : Window t p)
    (shows : Shows right t) (video : left.videoMemory = 2 * p.cursor) (space : 2 * p.cursor < spaceBytes)
    (same : ∀ n, n < 24 * 80 → Terminal.cells left.bytes n = p.cell n) :
    (∃ next, updateCursor left = some next ∧ next.videoMemory = right.videoMemory ∧
      ∀ n, n < 24 * 80 → Terminal.cells next.bytes n = Terminal.cells right.bytes n) ↔ ScrollsOnce p := by
  have cursor := window.cursor
  have other (n : Nat) (above : n < 24 * 80) := window.cells shows above
  rw [shows.video]
  -- the only `update_cursor` finds the cursor on the screen, scrolls once, or copies from behind the page
  by_cases low : p.cursor / 80 < 24
  · have top : p.top = 0 := by
      rw [Sheet.top]
      omega
    refine iff_of_true ⟨_, updateCursor_within video (by omega), ?_, ?_⟩ (Or.inl low)
    · rw [video]
      omega
    · intro n above
      rw [other n above, top, Nat.add_zero]
      exact same n above
  by_cases high : p.cursor / 80 ≤ 47
  · obtain ⟨next, executed, moved, _, after⟩ := updateCursor_scroll video (by omega) high
    rw [executed]
    have column : 2 * (23 * 80) = 2 * t.cursor ↔ p.cursor % 80 = 0 := by
      rw [Sheet.top] at cursor
      omega
    constructor
    · rintro ⟨_, found, position, rows⟩
      cases found
      have start := column.mp (moved ▸ position)
      refine Or.inr ⟨high, start, ?_⟩
      rw [← scrolled_iff same (by omega) high start window.blank, ← after]
      intro n above
      rw [rows n above, other n above]
    · rintro (above | ⟨_, start, rows⟩)
      · exact absurd above low
      · refine ⟨next, rfl, moved.trans (column.mpr start), ?_⟩
        rw [← scrolled_iff same (by omega) high start window.blank, ← after] at rows
        intro n above
        rw [rows n above, other n above]
  · rw [updateCursor_lost video (by omega) space]
    refine iff_of_false ?_ ?_
    · rintro ⟨_, found, _⟩
      cases found
    · rintro (above | ⟨few, _⟩)
      · exact low above
      · exact high few

theorem writeString_eq {s : Console} {color : BitVec 32} {text : List (BitVec 8)} {bytes : Nat → BitVec 8} {video : Nat}
    (executed : writeText color s.bytes s.videoMemory text = some (bytes, video)) :
    writeString s color text = updateCursor ⟨bytes, video, s.ports⟩ := by
  rw [writeString, executed]
  rfl

theorem Shows.agree_iff {s : Console} {t : Display} (shows : Shows s t) (color : BitVec 32) {text : List (BitVec 8)}
    (plain : Plain text) :
    Agree s color text ↔ Fits s.sheet.cursor text ∧ ScrollsOnce (s.sheet.layout color text) := by
  have low := t.cursor_lt
  obtain ⟨right, chars, shown, _⟩ := shows.output (charCalls color text)
  have window := shows.window.layout color text
  have start : s.videoMemory = 2 * s.sheet.cursor := by rw [shows.video, shows.cursor]
  have screen (n : Nat) (above : n < 24 * 80) : cells s.bytes n = s.sheet.cell n := (if_pos above).symm
  have space : 2 * s.sheet.cursor < spaceBytes := by
    rw [shows.cursor]
    change _ < 0x7FF00000
    omega
  have finish {bytes : Nat → BitVec 8} {video : Nat}
      (executed : writeText color s.bytes s.videoMemory text = some (bytes, video)) :
      Fits s.sheet.cursor text ∧ (Agree s color text ↔ ScrollsOnce (s.sheet.layout color text)) := by
    have string := writeString_eq executed
    rw [start] at executed
    obtain ⟨fits, moved, inside, rows⟩ := writeText_some plain screen space executed
    let left : Console := ⟨bytes, video, s.ports⟩
    have last := window.updateCursor_iff shown (show left.videoMemory = _ from moved) (moved ▸ inside) rows
    refine ⟨fits, Iff.trans ?_ last⟩
    constructor
    · rintro ⟨next, other, written, typed, position, bytes⟩
      cases chars.symm.trans typed
      exact ⟨next, string ▸ written, position, same_bytes_iff.mp bytes⟩
    · rintro ⟨next, updated, position, bytes⟩
      exact ⟨next, right, string.trans updated, chars, position, same_bytes_iff.mpr bytes⟩
  constructor
  · intro agree
    have ⟨left, _, written, _⟩ := agree
    obtain ⟨⟨bytes, video⟩, executed, _⟩ := Option.bind_eq_some_iff.mp written
    exact ⟨(finish executed).1, (finish executed).2.mp agree⟩
  · rintro ⟨fits, once⟩
    have bound : (s.sheet.layout color text).cursor < 48 * 80 := by
      rcases once with above | ⟨few, _⟩
      · omega
      · omega
    obtain ⟨bytes, video, executed⟩ := writeText_returns s.bytes plain fits bound
    rw [← start] at executed
    exact (finish executed).2.mpr once

inductive Print where
  | char (color : BitVec 32) (c : BitVec 8)
  | string (color : BitVec 32) (text : List (BitVec 8))

def print (s : Console) : Print → Option Console
  | .char color c => writeChar s color c
  | .string color text => writeString s color text

def Reachable (s : Console) : Prop :=
  ∃ before cleared prints, cls before = some cleared ∧ run print cleared prints = some s

theorem updateCursor_shows {s next : Console} {n : Nat} (video : s.videoMemory = 2 * n) (space : 2 * n < spaceBytes)
    (executed : updateCursor s = some next) : ∃ t, Shows next t := by
  by_cases low : n < 24 * 80
  · rw [updateCursor_within video low] at executed
    cases executed
    let t : Display := ⟨fun i j => cells s.bytes (i.val * 80 + j.val), ⟨n / 80, by omega⟩, ⟨n % 80, by omega⟩⟩
    have cursor : t.cursor = n := by
      change n / 80 * 80 + n % 80 = n
      omega
    exact ⟨t, fun _ _ => rfl, by rw [cursor]; exact video, s.ports, by rw [cursor]⟩
  by_cases high : n / 80 ≤ 47
  · obtain ⟨scrolled, updated, moved, sent, _⟩ := updateCursor_scroll video (by omega) high
    cases updated.symm.trans executed
    exact ⟨⟨fun i j => cells next.bytes (i.val * 80 + j.val), 23, 0⟩, fun _ _ => rfl, moved, s.ports, sent⟩
  · rw [updateCursor_lost video (by omega) space] at executed
    cases executed

theorem writeText_video {color : BitVec 32} {bytes written : Nat → BitVec 8} {n video : Nat} {text : List (BitVec 8)}
    (space : 2 * n < spaceBytes) (executed : writeText color bytes (2 * n) text = some (written, video)) :
    ∃ last, video = 2 * last ∧ 2 * last < spaceBytes := by
  induction text generalizing bytes n with
  | nil =>
    cases executed
    exact ⟨n, rfl, space⟩
  | cons c text ih =>
    rw [writeText] at executed
    by_cases ends : c = 0
    · rw [if_pos ends] at executed
      cases executed
      exact ⟨n, rfl, space⟩
    rw [if_neg ends] at executed
    by_cases control : c = 10
    · rw [if_pos control] at executed
      by_cases inside : 2 * n + 0xA0 < spaceBytes
      · rw [newline_spec inside] at executed
        exact ih (by omega) executed
      · rw [newline_outside (by omega)] at executed
        cases executed
    · rw [if_neg control] at executed
      by_cases inside : n < 2048
      · obtain ⟨stored, put, _⟩ := storeCell_spec bytes inside c (color.setWidth 8)
        rw [put] at executed
        exact ih (show 2 * (n + 1) < 0x7FF00000 by omega) executed
      · rw [storeCell_outside _ (by omega)] at executed
        cases executed

theorem Shows.print {s next : Console} {t : Display} (shows : Shows s t) {call : Print}
    (executed : print s call = some next) : ∃ t, Shows next t := by
  cases call with
  | char color c =>
    obtain ⟨written, returned, shown, _⟩ := shows.writeChar color c
    cases returned.symm.trans executed
    exact ⟨_, shown⟩
  | string color text =>
    obtain ⟨⟨bytes, video⟩, looped, updated⟩ := Option.bind_eq_some_iff.mp executed
    have low := t.cursor_lt
    rw [shows.video] at looped
    obtain ⟨last, rfl, space⟩ := writeText_video (show 2 * t.cursor < 0x7FF00000 by omega) looped
    exact updateCursor_shows rfl space updated

theorem Reachable.shows {s : Console} (reachable : Reachable s) : ∃ t, Shows s t := by
  obtain ⟨before, cleared, prints, start, executed⟩ := reachable
  obtain ⟨blank, returned, shown⟩ := cls_spec before
  cases returned.symm.trans start
  exact run_preserves (fun s => ∃ t, Shows s t)
    (fun _ _ _ shows stepped => shows.elim fun _ shows => shows.print stepped) ⟨_, shown⟩ executed

/-- `write_string` scrolls once for the whole string. -/
theorem write_string_agrees_iff (s : Console) (reachable : Reachable s) (color : BitVec 32) (text : List (BitVec 8))
    (plain : Plain text) :
    Agree s color text ↔ Fits s.sheet.cursor text ∧ ScrollsOnce (s.sheet.layout color text) := by
  obtain ⟨t, shows⟩ := reachable.shows
  exact shows.agree_iff color plain

theorem cleared_reachable (before : Console) : ∃ s, Reachable s ∧ Shows s Display.clear ∧ s.sheet.cursor = 0 := by
  obtain ⟨cleared, executed, shown⟩ := cls_spec before
  exact ⟨cleared, ⟨before, cleared, [], executed, rfl⟩, shown, shown.cursor⟩

theorem greeting_agrees :
    ∃ s, Reachable s ∧ Plain [72, 105, 10] ∧ Agree s 0x1F [72, 105, 10] := by
  obtain ⟨s, reachable, _, cursor⟩ := cleared_reachable ⟨fun _ => 0, 0, []⟩
  have plain : Plain [72, 105, 10] := by unfold Plain; decide
  refine ⟨s, reachable, plain, (write_string_agrees_iff s reachable 0x1F _ plain).mpr ⟨?_, Or.inl ?_⟩⟩
  · rw [cursor]
    exact ⟨by decide, by decide, trivial⟩
  · rw [Sheet.layout_cursor, cursor]
    decide

/-- A character after the last newline of a full screen stays in the row of the clock. -/
theorem string_past_last_row_disagrees :
    ∃ s, Reachable s ∧ Plain (List.replicate 24 10 ++ [65]) ∧ ¬ Agree s 0x1F (List.replicate 24 10 ++ [65]) := by
  obtain ⟨s, reachable, shown, cursor⟩ := cleared_reachable ⟨fun _ => 0, 0, []⟩
  have plain : Plain (List.replicate 24 10 ++ [65]) := by unfold Plain; decide
  refine ⟨s, reachable, plain, ?_⟩
  rw [shown.agree_iff 0x1F plain, ScrollsOnce, Sheet.layout_cursor, cursor]
  rintro ⟨_, low | ⟨_, start, _⟩⟩
  · exact absurd low (by decide)
  · exact absurd start (by decide)

end Sbunix.Terminal
