import Sbunix.Terminal.Text

namespace Sbunix.Terminal

def screenBytes : Nat := 4000

def scrollLength (video : Nat) : Int := passedLength (video / 80 / 2 - 24 + 1)

/-- The call returns, changes no byte behind the screen, and scrolls by a number of rows that is not negative. -/
def Stays (s : Console) (color : BitVec 32) (string : List (BitVec 8)) : Prop :=
  ∃ written video next, writeText color s.bytes s.videoMemory string = some (written, video) ∧
    writeString s color string = some next ∧ (∀ offset, screenBytes ≤ offset → next.bytes offset = s.bytes offset) ∧
    (24 ≤ video / 80 / 2 → ∃ rows : Nat, scrollLength video = rows * (80 * 2))

/-- Every character has its cell on the screen, and the cursor ends in row 47 or above. -/
def OnScreen : Nat → List (BitVec 8) → Prop
  | cursor, [] => cursor / 80 ≤ 47
  | cursor, c :: string =>
    if c = 10 then OnScreen ((cursor / 80 + 1) * 80) string else cursor < 2000 ∧ OnScreen (cursor + 1) string

theorem scrollLength_iff {n : Nat} (low : 24 ≤ n / 80) :
    (∃ rows : Nat, scrollLength (2 * n) = rows * (80 * 2)) ↔ n / 80 ≤ 47 := by
  have row : 2 * n / 80 / 2 = n / 80 := by omega
  rw [scrollLength, passedLength, row]
  constructor
  · rintro ⟨rows, length⟩
    omega
  · intro high
    exact ⟨47 - n / 80, by omega⟩

section Text

variable {color : BitVec 32} {bytes written : Nat → BitVec 8} {n video : Nat} {string : List (BitVec 8)}

theorem OnScreen.row (inside : OnScreen n string) : n / 80 ≤ 47 := by
  induction string generalizing n with
  | nil => exact inside
  | cons c string ih =>
    rw [OnScreen] at inside
    split at inside
    · have below := ih inside
      omega
    · omega

/-- The loop goes forward, so that it leaves the cells before the cursor. -/
theorem writeText_before (chars : ∀ c ∈ string, c ≠ 0)
    (executed : writeText color bytes (2 * n) string = some (written, video)) :
    ∀ m, m < n → cells written m = cells bytes m := by
  induction string generalizing bytes n with
  | nil =>
    cases executed
    exact fun _ _ => rfl
  | cons c string ih =>
    intro m before
    obtain ⟨nonzero, rest⟩ := List.forall_mem_cons.mp chars
    rw [writeText, if_neg nonzero] at executed
    by_cases control : c = 10
    · rw [if_pos control] at executed
      by_cases space : 2 * n + 0xA0 < spaceBytes
      · rw [newline_spec space] at executed
        exact ih rest executed m (by omega)
      · rw [newline_outside (by omega)] at executed
        cases executed
    · rw [if_neg control] at executed
      by_cases inside : n < 2048
      · obtain ⟨stored, put, changed⟩ := storeCell_spec bytes inside c (color.setWidth 8)
        rw [put] at executed
        rw [ih rest (n := n + 1) executed m (by omega), changed, Function.update_of_ne (by omega)]
      · rw [storeCell_outside _ (by omega)] at executed
        cases executed

theorem onScreen_of_writeText (chars : ∀ c ∈ string, c ≠ 0)
    (executed : writeText color bytes (2 * n) string = some (written, video))
    (clear : ∀ m, 2000 ≤ m → (cells written m).1 = 0) (last : video / 160 ≤ 47) : OnScreen n string := by
  induction string generalizing bytes n with
  | nil =>
    cases executed
    rw [OnScreen]
    omega
  | cons c string ih =>
    obtain ⟨nonzero, rest⟩ := List.forall_mem_cons.mp chars
    rw [writeText, if_neg nonzero] at executed
    rw [OnScreen]
    by_cases control : c = 10
    · rw [if_pos control] at executed ⊢
      by_cases space : 2 * n + 0xA0 < spaceBytes
      · rw [newline_spec space] at executed
        exact ih rest executed
      · rw [newline_outside (by omega)] at executed
        cases executed
    · rw [if_neg control] at executed ⊢
      by_cases inside : n < 2048
      · obtain ⟨stored, put, changed⟩ := storeCell_spec bytes inside c (color.setWidth 8)
        rw [put] at executed
        refine ⟨?_, ih rest executed⟩
        by_contra beyond
        have kept := writeText_before (n := n + 1) rest executed n (Nat.lt_succ_self n)
        rw [changed, Function.update_self] at kept
        have zero := clear n (by omega)
        rw [kept] at zero
        exact nonzero zero
      · rw [storeCell_outside _ (by omega)] at executed
        cases executed

theorem OnScreen.writeText (chars : ∀ c ∈ string, c ≠ 0) (inside : OnScreen n string) (bytes : Nat → BitVec 8) :
    ∃ written last, writeText color bytes (2 * n) string = some (written, 2 * last) ∧ last / 80 ≤ 47 ∧
      ∀ m, 2000 ≤ m → cells written m = cells bytes m := by
  induction string generalizing bytes n with
  | nil => exact ⟨bytes, n, rfl, inside, fun _ _ => rfl⟩
  | cons c string ih =>
    obtain ⟨nonzero, rest⟩ := List.forall_mem_cons.mp chars
    have row := inside.row
    rw [OnScreen] at inside
    rw [Terminal.writeText, if_neg nonzero]
    by_cases control : c = 10
    · rw [if_pos control] at inside ⊢
      rw [newline_spec (show 2 * n + 0xA0 < 0x7FF00000 by omega)]
      exact ih rest inside bytes
    · rw [if_neg control] at inside ⊢
      obtain ⟨stored, put, changed⟩ := storeCell_spec bytes (show n < 2048 by omega) c (color.setWidth 8)
      obtain ⟨written, last, executed, below, kept⟩ := ih rest inside.2 stored
      rw [put]
      refine ⟨written, last, executed, below, ?_⟩
      intro m beyond
      rw [kept m beyond, changed, Function.update_of_ne (by omega)]

end Text

/-- Scrolling leaves what lies below row 23. -/
theorem updateCursor_returns {s : Console} {n : Nat} (video : s.videoMemory = 2 * n) (high : n / 80 ≤ 47) :
    ∃ next, updateCursor s = some next ∧ ∀ m, 24 * 80 ≤ m → cells next.bytes m = cells s.bytes m := by
  by_cases low : n < 24 * 80
  · exact ⟨_, updateCursor_within video low, fun _ _ => rfl⟩
  · obtain ⟨next, updated, _, _, after⟩ := updateCursor_scroll video (by omega) high
    refine ⟨next, updated, ?_⟩
    intro m beyond
    rw [after, scrolled, if_neg (by omega), if_neg (by omega)]

/-- `write_string` stays on the screen, whatever the memory holds, exactly where the text does. -/
theorem write_string_stays_iff (cursor : Nat) (rows : cursor / 80 ≤ 23) (color : BitVec 32)
    (string : List (BitVec 8)) (chars : ∀ c ∈ string, c ≠ 0) :
    (∀ bytes ports, Stays ⟨bytes, 2 * cursor, ports⟩ color string) ↔ OnScreen cursor string := by
  constructor
  · intro stays
    obtain ⟨written, video, next, executed, returned, kept, length⟩ := stays (fun _ => 0) []
    obtain ⟨last, rfl, _⟩ := writeText_video (show 2 * cursor < 0x7FF00000 by omega) executed
    rw [show 2 * last / 80 / 2 = last / 80 by omega] at length
    have below : last / 80 ≤ 47 := by
      by_contra beyond
      exact beyond ((scrollLength_iff (by omega)).mp (length (by omega)))
    obtain ⟨other, updated, same⟩ := updateCursor_returns (s := ⟨written, 2 * last, []⟩) rfl below
    cases (writeString_eq executed).symm.trans returned |>.symm.trans updated
    apply onScreen_of_writeText chars executed _ (by omega)
    intro m beyond
    rw [← same m (by omega)]
    exact kept (2 * m) (show 4000 ≤ 2 * m by omega)
  · intro inside bytes ports
    obtain ⟨written, last, executed, below, kept⟩ := inside.writeText chars bytes
    obtain ⟨next, updated, same⟩ := updateCursor_returns (s := ⟨written, 2 * last, ports⟩) rfl below
    refine ⟨written, 2 * last, next, executed, (writeString_eq executed).trans updated, ?_, ?_⟩
    · intro offset beyond
      change 4000 ≤ offset at beyond
      apply bytes_eq_of_cells
      exact (same _ (by omega)).trans (kept _ (by omega))
    · intro low
      exact (scrollLength_iff (by omega)).mpr below

theorem write_string_stays_last_row :
    OnScreen 1840 [104, 105, 10] ∧ ∀ bytes ports, Stays ⟨bytes, 2 * 1840, ports⟩ 0x1F [104, 105, 10] := by
  have inside : OnScreen 1840 [104, 105, 10] := by simp [OnScreen]
  exact ⟨inside, (write_string_stays_iff 1840 (by decide) 0x1F _ (by decide)).mpr inside⟩

/-- From row 23 a character behind two ends of lines is stored behind the screen, and 25 ends of lines make the length
negative. -/
theorem write_string_leaves_screen :
    (∃ next, writeString ⟨fun _ => 0, 2 * 1840, []⟩ 0x1F [10, 10, 97] = some next ∧ next.bytes screenBytes = 97) ∧
      writeText 0x1F (fun _ => 0) (2 * 1840) (List.replicate 25 10) = some (fun _ => 0, 7680) ∧
      scrollLength 7680 = -160 := by
  refine ⟨?_, rfl, rfl⟩
  obtain ⟨stored, put, changed⟩ := storeCell_spec (fun _ => 0) (show 2000 < 2048 by decide) 97 0x1F
  have executed : writeText 0x1F (fun _ => 0) (2 * 1840) [10, 10, 97] = some (stored, 2 * 2001) := by
    change (storeCell (fun _ => 0) (2 * 2000) 97 0x1F).bind (fun bytes => some (bytes, 2 * 2001)) = _
    rw [put]
    rfl
  obtain ⟨next, updated, same⟩ := updateCursor_returns (s := ⟨stored, 2 * 2001, []⟩) rfl (by decide)
  refine ⟨next, (writeString_eq executed).trans updated, ?_⟩
  have cell := same 2000 (by decide)
  dsimp only at cell
  rw [changed, Function.update_self] at cell
  exact congrArg Prod.fst cell

end Sbunix.Terminal
