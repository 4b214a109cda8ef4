import Sbunix.Ahci.Command

namespace Sbunix.Ahci

open Library Library.Ahci
open Library.X86 (Memory Same Apart)
open Fs.Controller (low high)

def Gentle : Activity → Prop
  | .idle => True
  | .complete _ _ status => status &&& taskFileError = 0
  | .fail _ => False

/-- The controller works without errors, and it completes the command in a slot before a read of `ci`. -/
structure Serving (slot : Nat) (activities : List (Activity × Activity)) : Prop where
  gentle : ∀ pair ∈ activities, Gentle pair.1 ∧ Gentle pair.2
  completes : ∃ pair ∈ activities, ∃ fis status, pair.1 = .complete slot fis status

def Clear (h : Hba) : Prop := h.port.is &&& taskFileError = 0

theorem Clear.passes {h : Hba} (clear : Clear h) : ¬ h.port.is &&& taskFileError ≠ 0 := fun failed => failed clear

section Slots

theorem getLsbD_slotBit (slot : Nat) {bit : Nat} (bound : bit < 32) :
    (slotBit slot).getLsbD bit = decide (bit = slot) := by
  rw [slotBit, BitVec.getLsbD_shiftLeft, show (1 : BitVec 32) = 1#32 from rfl, BitVec.getLsbD_one]
  simp only [bound, decide_true, Bool.true_and, ← Bool.decide_and, ← decide_not, decide_eq_decide]
  omega

theorem slotBit_ne_zero {slot : Nat} (small : slot < 32) : slotBit slot ≠ 0 := by
  intro zero
  have bit := getLsbD_slotBit slot small
  rw [zero] at bit
  simp at bit

theorem slotBit_and {slot other : Nat} (different : slot ≠ other) : slotBit slot &&& slotBit other = 0 := by
  apply BitVec.eq_of_getLsbD_eq
  intro bit bound
  rw [BitVec.getLsbD_and, getLsbD_slotBit slot bound, getLsbD_slotBit other bound, ← Bool.decide_and,
    show (0 : BitVec 32).getLsbD bit = false from BitVec.getLsbD_zero, decide_eq_false_iff_not]
  omega

theorem zero_and_slotBit (slot : Nat) : (0 : BitVec 32) &&& slotBit slot = 0 := BitVec.zero_and

end Slots

section Poll

variable {h : Hba} {slot : Nat} {activities : List (Activity × Activity)} {t : Transfer}

theorem apply_done {activity : Activity} (done : h.port.ci = 0) : activity.apply h = h := by
  cases activity with
  | idle => rfl
  | complete slot fis status =>
    rw [Activity.apply, done, if_pos (zero_and_slotBit slot)]
  | fail slot =>
    rw [Activity.apply, done, if_pos (zero_and_slotBit slot)]

theorem poll_done (done : h.port.ci = 0) (clear : Clear h) (more : activities ≠ []) :
    poll slot activities h = some (1, h) := by
  cases activities with
  | nil => exact absurd rfl more
  | cons pair rest =>
    obtain ⟨first, second⟩ := pair
    rw [poll, apply_done done, apply_done done, done, if_pos (zero_and_slotBit slot), if_neg clear.passes]

def Over (h : Hba) (slot : Nat) (t : Transfer) (after : Hba) : Prop :=
  ∃ fis status, status &&& taskFileError = 0 ∧ after = finish (transfer h t) slot t.size fis status

theorem port_transfer (h : Hba) (t : Transfer) : (transfer h t).port = h.port := by
  unfold transfer
  split
  · rfl
  · rfl

theorem Over.done {after : Hba} (ended : Over h slot t after) (issued : h.port.ci = slotBit slot) (clear : Clear h) :
    after.port.ci = 0 ∧ Clear after := by
  obtain ⟨fis, status, gentle, rfl⟩ := ended
  constructor
  · change (transfer h t).port.ci &&& ~~~slotBit slot = 0
    rw [port_transfer, issued, BitVec.and_not_self]
  · change ((transfer h t).port.is ||| status) &&& taskFileError = 0
    rw [port_transfer, BitVec.and_or_distrib_right, clear, gentle]
    rfl

variable (issued : h.port.ci = slotBit slot) (small : slot < 32) (decoded : decode h slot = some t)

include issued small decoded

theorem apply_complete {fis : Nat → BitVec 8} {status : BitVec 32} (gentle : status &&& taskFileError = 0) :
    Over h slot t ((Activity.complete slot fis status).apply h) := by
  refine ⟨fis, status, gentle, ?_⟩
  rw [Activity.apply, issued, BitVec.and_self, if_neg (slotBit_ne_zero small), decoded]

theorem apply_gentle {activity : Activity} (gentle : Gentle activity) :
    activity.apply h = h ∨ Over h slot t (activity.apply h) := by
  cases activity with
  | idle => exact Or.inl rfl
  | complete other fis status =>
    by_cases same : slot = other
    · subst same
      exact Or.inr (apply_complete issued small decoded gentle)
    · refine Or.inl ?_
      rw [Activity.apply, issued, slotBit_and same, if_pos rfl]
  | fail other => exact absurd gentle id

/-- A command that was issued alone is completed once, and then the loop ends. -/
theorem poll_serves (clear : Clear h) (serving : Serving slot activities) :
    ∃ after, Over h slot t after ∧ poll slot activities h = some (1, after) := by
  induction activities with
  | nil =>
    obtain ⟨_, member, _⟩ := serving.completes
    exact absurd member List.not_mem_nil
  | cons pair rest ih =>
    obtain ⟨first, second⟩ := pair
    obtain ⟨gentle, pair, member, fis, status, completes⟩ := serving
    have gentleFirst : Gentle first := (gentle _ List.mem_cons_self).1
    have gentleSecond : Gentle second := (gentle _ List.mem_cons_self).2
    have busy : ¬ h.port.ci &&& slotBit slot = 0 := by
      rw [issued, BitVec.and_self]
      exact slotBit_ne_zero small
    rcases List.mem_cons.mp member with rfl | later
    · -- the command has ended before `ci` is read
      obtain rfl : first = .complete slot fis status := completes
      have ended : Over h slot t ((Activity.complete slot fis status).apply h) :=
        apply_complete issued small decoded gentleFirst
      obtain ⟨done, cleared⟩ := ended.done issued clear
      refine ⟨_, ended, ?_⟩
      rw [poll, apply_done done, done, if_pos (zero_and_slotBit slot), if_neg cleared.passes]
    · have more : rest ≠ [] := List.ne_nil_of_mem later
      have served : Serving slot rest :=
        ⟨fun other member => gentle other (List.mem_cons_of_mem _ member), pair, later, fis, status, completes⟩
      rcases apply_gentle issued small decoded gentleFirst with same | ended
      · rcases apply_gentle issued small decoded gentleSecond with still | ended
        · obtain ⟨after, ended, polled⟩ := ih served
          refine ⟨after, ended, ?_⟩
          rw [poll, same, still, if_neg busy, if_neg clear.passes, polled]
        · obtain ⟨done, cleared⟩ := ended.done issued clear
          refine ⟨_, ended, ?_⟩
          rw [poll, same, if_neg busy, if_neg cleared.passes, poll_done done cleared more]
      · obtain ⟨done, cleared⟩ := ended.done issued clear
        refine ⟨_, ended, ?_⟩
        rw [poll, apply_done done, done, if_pos (zero_and_slotBit slot), if_neg cleared.passes]

end Poll

end Sbunix.Ahci
