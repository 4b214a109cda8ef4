import Mathlib.Algebra.Order.Ring.Int
import Sbunix.Fs.ReadBack

namespace Sbunix.Fs

open Library

theorem word_sum_turns (position d : BitVec 32) :
    ∃ turns : Int, ((d + position).toNat : Int) = position.toNat + d.toInt + turns * 2 ^ 32 ∧
      (turns = 0 ↔ 0 ≤ position.toNat + d.toInt ∧ position.toNat + d.toInt < 2 ^ 32) ∧
      (turns = -1 ∨ turns = 0 ∨ turns = 1) := by
  have value : d.toInt = if 2 * d.toNat < 2 ^ 32 then (d.toNat : Int) else d.toNat - 2 ^ 32 :=
    BitVec.toInt_eq_toNat_cond d
  have bound := position.isLt
  have small := d.isLt
  rw [BitVec.toNat_add]
  refine ⟨if position.toNat + d.toInt < 0 then 1 else if position.toNat + d.toInt < 2 ^ 32 then 0 else -1, ?_⟩
  split at value <;> split
  · omega
  · split <;> omega
  · omega
  · split <;> omega

theorem dvd_turns_iff {size : Nat} {turns : Int} (few : turns = -1 ∨ turns = 0 ∨ turns = 1) :
    (size : Int) ∣ turns * 2 ^ 32 ↔ turns = 0 ∨ size ∣ 2 ^ 32 := by
  have cast : (size : Int) ∣ 2 ^ 32 ↔ size ∣ 2 ^ 32 := Int.natCast_dvd_natCast (n := 2 ^ 32)
  rcases few with rfl | rfl | rfl
  · rw [Int.neg_one_mul, Int.dvd_neg, cast]
    simp
  · simp
  · rw [Int.one_mul, cast]
    simp

theorem residue_iff {position d size : BitVec 32} :
    (((d + position) % size).toNat : Int) = (position.toNat + d.toInt) % size.toNat ↔
      (0 ≤ position.toNat + d.toInt ∧ position.toNat + d.toInt < 2 ^ 32) ∨ size.toNat ∣ 2 ^ 32 := by
  obtain ⟨turns, equal, inside, few⟩ := word_sum_turns position d
  rw [BitVec.toNat_umod, Int.natCast_mod, equal, Int.emod_eq_emod_iff_emod_sub_eq_zero,
    show position.toNat + d.toInt + turns * 2 ^ 32 - (position.toNat + d.toInt) = turns * 2 ^ 32 by omega,
    ← Int.dvd_iff_emod_eq_zero, dvd_turns_iff few, inside]

inductive FileCall where
  | write (contents : List (BitVec 8))
  | move (step : Move)

def fileCall (i : Nat) (s : State) : FileCall → Option State
  | .write contents => (writeFile s contents (inflate i)).map Prod.snd
  | .move step => move (inflate i) s step

def Inside (s : State) (i : Nat) : Prop := (s.position i).toNat < (s.size i).toNat

def CallCorrect (i : Nat) (s next : State) : FileCall → Prop
  | .move (.seek d) =>
    Inside next i ∧ ((next.position i).toNat : Int) = ((s.position i).toNat + d.toInt) % (s.size i).toNat
  | _ => Inside next i

/-- What `rsync` leaves of the cursor and the size. Entries behind the first sector come from the read buffer. -/
def syncedPosition (s : State) (i : Nat) : BitVec 32 :=
  if i < 4 then s.position i else loadWord s.readBuffer (inodeSize * i + 100) 4

def syncedSize (s : State) (i : Nat) (contents : List (BitVec 8)) : BitVec 32 :=
  if i < 4 then stringLength contents else loadWord s.readBuffer (inodeSize * i + 104) 4

/-- A write is longer than the cursor is far. The target of a seek fits a word, or the size divides its range. -/
def CallFits (i : Nat) (s : State) : FileCall → Prop
  | .write contents => (syncedPosition s i).toNat < (syncedSize s i contents).toNat
  | .move (.seek d) =>
    (0 ≤ (s.position i).toNat + d.toInt ∧ (s.position i).toNat + d.toInt < 2 ^ 32) ∨ (s.size i).toNat ∣ 2 ^ 32
  | .move (.read _ _) => True

section Calls

variable {s : State} {i : Nat}

theorem write_entry (located : Located s.sb) (inside : i < 100) (contents : List (BitVec 8)) :
    ∃ next, fileCall i s (.write contents) = some next ∧ Located next.sb ∧
      next.position i = syncedPosition s i ∧ next.size i = syncedSize s i contents := by
  obtain ⟨notMinus, entry⟩ := entryOf_inflate inside
  generalize sizedEq : s.setField i 104 (stringLength contents) 4 = sized
  have placed : Located sized.sb := by
    rw [← sizedEq]
    exact located
  have result : ∃ block, fileCall i s (.write contents) = some (flushBlocks (rsync sized) block contents) := by
    rw [fileCall, writeFile, if_neg notMinus, entry, ← sizedEq]
    exact ⟨_, rfl⟩
  obtain ⟨block, result⟩ := result
  refine ⟨_, result, rsync_located placed, ?_, ?_⟩
  · change loadWord (rsync sized).inodeList (128 * i + 100) 4 = _
    rw [rsync_load placed inside 100 4 (by decide), syncedPosition, ← sizedEq]
    split
    · apply loadWord_storeWord_outside
      change 128 * i + 100 + 4 ≤ 128 * i + 104 ∨ 128 * i + 104 + 4 ≤ 128 * i + 100
      omega
    · rfl
  · change loadWord (rsync sized).inodeList (128 * i + 104) 4 = _
    rw [rsync_load placed inside 104 4 (by decide), syncedSize, ← sizedEq]
    split
    · exact loadWord_storeWord 4 (stringLength contents)
    · rfl

theorem moveCursor_entry (s : State) (i : Nat) (value : BitVec 32) (buffer : Bytes) :
    (moveCursor s i value buffer).position i = value ∧ (moveCursor s i value buffer).size i = s.size i :=
  ⟨loadWord_storeWord 4 value, moveCursor_load s i value buffer i 104 4 (by decide) (by decide)⟩

theorem moveCursor_inside {amount : BitVec 32} {buffer : Bytes} (positive : s.size i ≠ 0) :
    Inside (moveCursor s i (amount % s.size i) buffer) i := by
  obtain ⟨cursor, size⟩ := moveCursor_entry s i (amount % s.size i) buffer
  rw [Inside, cursor, size, BitVec.toNat_umod]
  apply Nat.mod_lt
  exact Nat.pos_of_ne_zero fun zero => positive (BitVec.eq_of_toNat_eq zero)

/-- A call on a file with its cursor inside returns, and is correct exactly if it fits. So does any write. -/
theorem fileCall_step (located : Located s.sb) (inside : i < 100) {call : FileCall}
    (ready : Inside s i ∨ ∃ contents, call = .write contents) :
    ∃ next, fileCall i s call = some next ∧ Located next.sb ∧ (CallCorrect i s next call ↔ CallFits i s call) := by
  cases call with
  | write contents =>
    obtain ⟨next, written, placed, cursor, size⟩ := write_entry located inside contents
    refine ⟨next, written, placed, ?_⟩
    change (next.position i).toNat < (next.size i).toNat ↔ _
    rw [cursor, size]
    rfl
  | move step =>
    have positive : s.size i ≠ 0 := by
      rcases ready with before | ⟨contents, equal⟩
      · intro zero
        rw [Inside, zero] at before
        exact Nat.not_lt_zero _ before
      · cases equal
    cases step with
    | read count buf =>
      obtain ⟨delivered, buffer, done, _⟩ := readFile_result inside positive count buf
      have kept : Inside (moveCursor s i ((s.position i + count) % s.size i) buffer) i := moveCursor_inside positive
      refine ⟨moveCursor s i ((s.position i + count) % s.size i) buffer, ?_, located, iff_of_true kept trivial⟩
      rw [fileCall, move, done]
      rfl
    | seek d =>
      have kept : Inside (moveCursor s i ((d + s.position i) % s.size i) s.readBuffer) i := moveCursor_inside positive
      refine ⟨moveCursor s i ((d + s.position i) % s.size i) s.readBuffer, ?_, located, ?_⟩
      · rw [fileCall, move, seekFile_result inside positive d]
      · rw [CallCorrect, and_iff_right kept, (moveCursor_entry s i _ _).1, CallFits]
        exact residue_iff

end Calls

def CallsCorrect (i : Nat) : State → List FileCall → Prop
  | _, [] => True
  | s, call :: calls => ∃ next, fileCall i s call = some next ∧ CallCorrect i s next call ∧ CallsCorrect i next calls

theorem CallCorrect.inside {i : Nat} {s next : State} {call : FileCall} (correct : CallCorrect i s next call) :
    Inside next i := by
  cases call with
  | write contents => exact correct
  | move step =>
    cases step with
    | read count buf => exact correct
    | seek d => exact correct.1

theorem callsCorrect_iff {i : Nat} (inside : i < 100) {calls : List FileCall} {s : State} (located : Located s.sb)
    (ready : Inside s i ∨ ∃ contents rest, calls = .write contents :: rest) :
    CallsCorrect i s calls ↔ Admitted (fileCall i) (CallFits i) s calls := by
  induction calls generalizing s with
  | nil => exact Iff.rfl
  | cons call calls ih =>
    have first : Inside s i ∨ ∃ contents, call = .write contents := by
      rcases ready with before | ⟨contents, rest, equal⟩
      · exact Or.inl before
      · cases equal
        exact Or.inr ⟨contents, rfl⟩
    obtain ⟨next, called, placed, correct⟩ := fileCall_step located inside first
    constructor
    · rintro ⟨other, same, holds, rest⟩
      cases called.symm.trans same
      refine ⟨correct.mp holds, ?_⟩
      intro other same
      cases called.symm.trans same
      exact (ih placed (Or.inl holds.inside)).mp rest
    · rintro ⟨fits, rest⟩
      have holds := correct.mpr fits
      exact ⟨next, called, holds, (ih placed (Or.inl holds.inside)).mpr (rest next called)⟩

/-- From its first write on the cursor stays inside the file exactly as long as every call fits. -/
theorem cursor_inside_iff {s : State} {i : Nat} (located : Located s.sb) (inside : i < inodeCount)
    (contents : List (BitVec 8)) (calls : List FileCall) :
    CallsCorrect i s (.write contents :: calls) ↔
      Admitted (fileCall i) (CallFits i) s (.write contents :: calls) :=
  callsCorrect_iff inside located (Or.inr ⟨contents, calls, rfl⟩)

theorem syncedPosition_first {s : State} (contents : List (BitVec 8)) (fresh : s.position 0 = 0) :
    syncedPosition s 0 = 0 ∧ syncedSize s 0 contents = stringLength contents := by
  rw [syncedPosition, syncedSize, if_pos (by decide), if_pos (by decide)]
  exact ⟨fresh, rfl⟩

theorem last_character_sought :
    ∃ s, Located s.sb ∧ s.type 0 = typeFile ∧ CallsCorrect 0 s [.write [120, 121, 122], .move (.seek 2)] := by
  obtain ⟨_, created, _, _, table, fresh⟩ := first_file_created
  obtain ⟨cursor, size⟩ := syncedPosition_first [120, 121, 122] fresh
  refine ⟨created, table.located, (table.files 0 (by decide)).type, ?_⟩
  refine (cursor_inside_iff table.located (by decide) [120, 121, 122] [.move (.seek 2)]).mpr ⟨?_, ?_⟩
  · rw [CallFits, cursor, size]
    decide
  · intro next written
    refine ⟨Or.inl ?_, fun _ _ => trivial⟩
    obtain ⟨other, same, _, moved, _⟩ := write_entry table.located (show 0 < 100 by decide) [120, 121, 122]
    cases written.symm.trans same
    rw [moved, cursor]
    decide

def FileCall.Allowed : FileCall → Prop
  | .write contents => contents ≠ []
  | .move (.read count _) => 0 ≤ count.toInt
  | .move (.seek _) => True

/-- A step back from the start of three characters does not lead to the last of them. -/
theorem step_back_leaves_cursor :
    ¬ ∀ (formatted created : State) (name contents : List (BitVec 8)) (i : Nat) (calls : List FileCall),
      setSb unformatted = some formatted → createFile formatted name = some (inflate i, created) → contents ≠ [] →
        (∀ call ∈ calls, call.Allowed) → CallsCorrect i created (.write contents :: calls) := by
  intro inside
  obtain ⟨formatted, created, set, createdNow, table, fresh⟩ := first_file_created
  obtain ⟨cursor, size⟩ := syncedPosition_first [120, 121, 122] fresh
  have correct := inside formatted created [97] [120, 121, 122] 0 [.move (.seek (-1))] set createdNow (by decide)
    (by
      intro call member
      rw [List.mem_singleton.mp member]
      trivial)
  have admitted := (callsCorrect_iff (show 0 < 100 by decide) table.located (Or.inr ⟨_, _, rfl⟩)).mp correct
  obtain ⟨next, written, _, moved, resized⟩ := write_entry table.located (show 0 < 100 by decide) [120, 121, 122]
  have fits := (admitted.2 next written).1
  rw [CallFits, moved, resized, cursor, size] at fits
  exact absurd fits (by decide)

end Sbunix.Fs
