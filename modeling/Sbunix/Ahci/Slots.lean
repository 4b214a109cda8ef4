import Sbunix.Ahci.Complete
import Sbunix.Ahci.Rebase

namespace Sbunix.Ahci

open Library Library.Ahci
open Library.X86 (Same)

def Outstanding (h : Hba) (slot : Nat) : Prop := (h.port.sact ||| h.port.ci).getLsbD slot = true

section Find

variable {remaining i slot : Nat} {slots : BitVec 32}

theorem first_free (slots : BitVec 32) : slots &&& 1 = 0 ↔ slots.getLsbD 0 = false := by
  rw [show (1 : BitVec 32) = slotBit 0 from rfl]
  constructor
  · intro free
    have bit := congrArg (BitVec.getLsbD · 0) free
    rw [BitVec.getLsbD_and, getLsbD_slotBit 0 (by decide), decide_eq_true rfl, Bool.and_true] at bit
    exact bit
  · intro free
    apply BitVec.eq_of_getLsbD_eq
    intro bit bound
    rw [BitVec.getLsbD_and, getLsbD_slotBit 0 bound]
    by_cases first : bit = 0
    · rw [first, free]
      rfl
    · rw [decide_eq_false first, Bool.and_false]
      exact BitVec.getLsbD_zero.symm

theorem all_taken {count : Nat} (first : slots.getLsbD 0 = true)
    (later : ∀ lower, lower < count → (slots >>> 1).getLsbD lower = true) :
    ∀ lower, lower < count + 1 → slots.getLsbD lower = true := by
  intro lower bound
  cases lower with
  | zero => exact first
  | succ lower =>
    have taken := later lower (Nat.lt_of_succ_lt_succ bound)
    rwa [BitVec.getLsbD_ushiftRight, Nat.add_comm] at taken

/-- The loop ends at the first free slot. The bits are shifted once for each slot that is not free. -/
theorem findCmdslotFrom_some (found : findCmdslotFrom remaining i slots = some slot) :
    ∃ k, slot = i + k ∧ k < remaining ∧ slots.getLsbD k = false ∧ ∀ lower, lower < k → slots.getLsbD lower = true := by
  induction remaining generalizing i slots with
  | zero => cases found
  | succ remaining ih =>
    unfold findCmdslotFrom at found
    split at found
    · rename_i free
      cases found
      exact ⟨0, rfl, Nat.succ_pos _, (first_free slots).mp free, fun _ below => absurd below (Nat.not_lt_zero _)⟩
    · rename_i taken
      rw [first_free, Bool.not_eq_false] at taken
      obtain ⟨k, rfl, bound, free, lower⟩ := ih found
      rw [BitVec.getLsbD_ushiftRight, Nat.add_comm] at free
      exact ⟨k + 1, by omega, Nat.succ_lt_succ bound, free, all_taken taken lower⟩

theorem findCmdslotFrom_none (full : findCmdslotFrom remaining i slots = none) :
    ∀ lower, lower < remaining → slots.getLsbD lower = true := by
  induction remaining generalizing i slots with
  | zero => exact fun _ below => absurd below (Nat.not_lt_zero _)
  | succ remaining ih =>
    unfold findCmdslotFrom at full
    split at full
    · cases full
    · rename_i taken
      rw [first_free, Bool.not_eq_false] at taken
      exact all_taken taken (ih full)

end Find

theorem findCmdslot_some {h : Hba} {slot : Nat} (found : findCmdslot h = some slot) :
    slot < numOfSlots h.cap ∧ ¬ Outstanding h slot ∧ ∀ lower, lower < slot → Outstanding h lower := by
  obtain ⟨k, rfl, bound, free, lower⟩ := findCmdslotFrom_some found
  rw [Nat.zero_add]
  exact ⟨bound, fun taken => Bool.false_ne_true (free.symm.trans taken), lower⟩

/-- Four bits of the register count. -/
theorem numOfSlots_lt (cap : BitVec 32) : numOfSlots cap < 16 := by
  have masked : (cap &&& 0x0f00).toNat ≤ 0x0f00 := by
    rw [BitVec.toNat_and]
    exact Nat.and_le_right
  rw [numOfSlots, BitVec.toNat_ushiftRight, Nat.shiftRight_eq_div_pow]
  omega

section Issue

variable {start buf : BitVec 64} {h : Hba} {slot other : Nat} {w : Bool} {countl : BitVec 8} {startl starth : BitVec 32}

def issuedAt (h : Hba) (slot : Nat) (w : Bool) (countl : BitVec 8) (startl starth : BitVec 32) (buf : BitVec 64) :
    Hba :=
  { (h.writeIs 0xffff).writeCi (slotBit slot) with
    memory := setCommand h.memory (h.commandHeader slot) w (if w then 0x35 else 0x25) countl startl starth buf }

theorem issuedAt_outstanding (bound : slot < 32) :
    Outstanding (issuedAt h slot w countl startl starth buf) other ↔ Outstanding h other ∨ other = slot := by
  change (h.port.sact ||| (h.port.ci ||| slotBit slot)).getLsbD other = true ↔ _
  rw [← BitVec.or_assoc, BitVec.getLsbD_or, Bool.or_eq_true]
  apply or_congr Iff.rfl
  by_cases inside : other < 32
  · rw [getLsbD_slotBit slot inside, decide_eq_true_eq]
  · rw [BitVec.getLsbD_of_ge _ _ (Nat.le_of_not_lt inside)]
    exact iff_of_false Bool.false_ne_true (by omega)

theorem issuedAt_decode (rebased : Rebased start h) (bound : slot < 32) (sectors : countl ≠ 0) :
    decode (issuedAt h slot w countl startl starth buf) slot =
      some ⟨w, starth.setWidth 16 ++ startl, countl.toNat, [(buf, 4096)]⟩ :=
  decode_written (h := (h.writeIs 0xffff).writeCi (slotBit slot)) (rebased.tables slot bound) (rebased.apart bound)
    sectors rfl

theorem issuedAt_header (rebased : Rebased start h) (bound : slot < 32) (inside : other < 32)
    (different : other ≠ slot) :
    Same (issuedAt h slot w countl startl starth buf).memory h.memory (h.commandHeader other) 16 := by
  intro x near
  rw [rebased.header] at near
  obtain ⟨lower, upper⟩ := offset_inside near (by omega)
  exact rebased.setCommand_outside bound (by omega) (by unfold tableOffset; omega)

theorem issuedAt_rebased (rebased : Rebased start h) (bound : slot < 32) :
    Rebased start (issuedAt h slot w countl startl starth buf) := by
  refine rebased.congr rebased.list rebased.fis ?_
  intro other x inside lower upper
  exact rebased.setCommand_outside bound (by omega) (by unfold tableOffset; omega)

def Fits (h : Hba) (slot : Nat) : Prop := (load h.memory (h.commandHeader slot + 2) 2).toNat ≤ 8

theorem issuedAt_fits (rebased : Rebased start h) (bound : slot < 32) :
    Fits (issuedAt h slot w countl startl starth buf) slot := by
  obtain ⟨_, _, regions⟩ := written_flags (rebased.tables slot bound)
    (show (issuedAt h slot w countl startl starth buf).memory = _ from rfl) (rebased.apart bound)
  change (load (issuedAt h slot w countl startl starth buf).memory (h.commandHeader slot + 2) 2).toNat ≤ 8
  rw [regions]
  decide

theorem Fits.issuedAt (rebased : Rebased start h) (bound : slot < 32) (inside : other < 32) (different : other ≠ slot)
    (fits : Fits h other) : Fits (issuedAt h slot w countl startl starth buf) other := by
  have regions : load (Ahci.issuedAt h slot w countl startl starth buf).memory (h.commandHeader other + 2) 2 =
      load h.memory (h.commandHeader other + 2) 2 :=
    load_congr ((issuedAt_header rebased bound inside different).part (show 2 + 2 ≤ 16 by decide) (by decide))
      (by decide)
  exact (congrArg BitVec.toNat regions).trans_le fits

theorem issuedAt_others (rebased : Rebased start h) (bound : slot < 32) (inside : other < 32) (different : other ≠ slot)
    (fits : Fits h other) : decode (issuedAt h slot w countl startl starth buf) other = decode h other := by
  refine decode_congr rfl (issuedAt_header rebased bound inside different) ?_
  intro x near
  rw [rebased.tables other inside] at near
  unfold Fits at fits
  obtain ⟨lower, upper⟩ := offset_inside near (by unfold tableOffset; omega)
  unfold tableOffset at lower upper
  exact rebased.setCommand_outside bound (by omega) (by unfold tableOffset tableSize; omega)

end Issue

/-- The lists are where `port_rebase` has put them, and each outstanding command stays inside its own table. -/
structure Kept (start : BitVec 64) (h : Hba) : Prop where
  rebased : Rebased start h
  fits : ∀ slot, Outstanding h slot → Fits h slot

theorem Kept.issuedAt {start buf : BitVec 64} {h : Hba} {slot : Nat} {w : Bool} {countl : BitVec 8}
    {startl starth : BitVec 32} (kept : Kept start h) (bound : slot < 32) :
    Kept start (issuedAt h slot w countl startl starth buf) := by
  refine ⟨issuedAt_rebased kept.rebased bound, ?_⟩
  intro other taken
  by_cases same : other = slot
  · rw [same]
    exact issuedAt_fits kept.rebased bound
  · rcases (issuedAt_outstanding bound).mp taken with old | new
    · exact Fits.issuedAt kept.rebased bound (BitVec.lt_of_getLsbD old) same (kept.fits other old)
    · exact absurd new same

/-- A request takes the first slot without an outstanding command, and the commands outstanding in other slots are still
    those that were written there. Where all slots are taken, the request fails and issues nothing. -/
theorem request_keeps_outstanding (h : Hba) (start : BitVec 64) (w : Bool) (countl : BitVec 8)
    (activities : List (Activity × Activity)) (startl starth : BitVec 32) (buf : BitVec 64) (kept : Kept start h)
    (sectors : countl ≠ 0) :
    (∃ slot issued, slot < numOfSlots h.cap ∧ ¬ Outstanding h slot ∧ (∀ lower, lower < slot → Outstanding h lower) ∧
        interface w (if w then 0x35 else 0x25) countl activities h startl starth buf = poll slot activities issued ∧
        Kept start issued ∧ (∀ other, Outstanding issued other ↔ Outstanding h other ∨ other = slot) ∧
        decode issued slot = some ⟨w, starth.setWidth 16 ++ startl, countl.toNat, [(buf, 4096)]⟩ ∧
        ∀ other, Outstanding h other → decode issued other = decode h other) ∨
      ((∀ slot, slot < numOfSlots h.cap → Outstanding h slot) ∧
        interface w (if w then 0x35 else 0x25) countl activities h startl starth buf =
          some (0, h.writeIs 0xffff)) := by
  unfold interface
  dsimp only
  cases found : findCmdslot (h.writeIs 0xffff) with
  | none => exact Or.inr ⟨findCmdslotFrom_none found, rfl⟩
  | some slot =>
    obtain ⟨seen, free, lower⟩ := findCmdslot_some found
    have bound : slot < 32 := Nat.lt_trans seen (Nat.lt_trans (numOfSlots_lt h.cap) (by decide))
    refine Or.inl ⟨slot, issuedAt h slot w countl startl starth buf, seen, free, lower, rfl, kept.issuedAt bound,
      fun _ => issuedAt_outstanding bound, issuedAt_decode kept.rebased bound sectors, ?_⟩
    intro other taken
    have different : other ≠ slot := by
      rintro rfl
      exact free taken
    exact issuedAt_others kept.rebased bound (BitVec.lt_of_getLsbD taken) different (kept.fits other taken)

theorem portRebase_kept {start : BitVec 64} {h : Hba} (reachable : start.toNat < 2 ^ 32) (sact : h.port.sact = 0)
    (ci : h.port.ci = 0) : Kept start (portRebase h start) := by
  refine ⟨portRebase_rebased h reachable, ?_⟩
  intro slot taken
  change (h.port.sact ||| h.port.ci).getLsbD slot = true at taken
  rw [sact, ci] at taken
  exact absurd taken (by simp)

def emptyHba : Hba := ⟨0x0f00, ⟨0, 0, 0, 0, 0, 0, 0⟩, fun _ => 0, fun _ => 0⟩

theorem outstanding_write_kept :
    ∃ issued, interface false 0x25 1 [] (issuedAt (portRebase emptyHba 0x200000) 0 true 2 7 0 0x205000) 9 0 0x201000 =
        poll 1 [] issued ∧
      decode issued 0 = some ⟨true, 7, 2, [(0x205000, 4096)]⟩ := by
  have rebased : Kept 0x200000 (portRebase emptyHba 0x200000) := portRebase_kept (by decide) rfl rfl
  have kept : Kept 0x200000 (issuedAt (portRebase emptyHba 0x200000) 0 true 2 7 0 0x205000) :=
    rebased.issuedAt (by decide)
  have first : Outstanding (issuedAt (portRebase emptyHba 0x200000) 0 true 2 7 0 0x205000) 0 :=
    (issuedAt_outstanding (by decide)).mpr (Or.inr rfl)
  have second : ¬ Outstanding (issuedAt (portRebase emptyHba 0x200000) 0 true 2 7 0 0x205000) 1 := Bool.false_ne_true
  rcases request_keeps_outstanding _ _ false 1 [] 9 0 0x201000 kept (by decide) with
    ⟨slot, issued, _, free, lower, result, _, _, _, others⟩ | ⟨full, _⟩
  · have position : slot = 1 := by
      by_contra other
      rcases Nat.lt_or_gt_of_ne other with below | above
      · exact free (Nat.lt_one_iff.mp below ▸ first)
      · exact second (lower 1 above)
    subst position
    exact ⟨issued, result, (others 0 first).trans (issuedAt_decode rebased.rebased (by decide) (by decide))⟩
  · exact absurd (full 1 (by decide)) second

end Sbunix.Ahci
