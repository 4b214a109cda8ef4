import Sbunix.Switch.Call
import Sbunix.Switch.Fork

namespace Sbunix.Switch

open Library Library.X86

/-- `_isr80`, up to its jump to `isr_common_stub`. The calls for an exit are not meant to return. -/
def isr80 (sysExit schedule : Machine → Machine) (m : Machine) : Machine :=
  let m := m.cli
  let m := m.cmp (m.regs .rax) 0x1
  let m := if m.zf then schedule (sysExit m) else m
  let m := m.push 0x0
  m.push 0x80

/-- The function of a system call, called with the stack pointer at the frame, keeps to the calling convention and
    leaves the frame and the kind of the thread alone. A call that blocks returns when the thread runs again, and its
    saved stack pointers may have changed. -/
structure Serves (sym : Symbols) (frame thread : BitVec 64) (f : Machine → Machine) : Prop where
  rsp : ∀ m, m.regs .rsp = frame → (f m).regs .rsp = frame
  saved : ∀ m, m.regs .rsp = frame → Same (f m).mem m.mem frame frameBytes
  kind : ∀ m, m.regs .rsp = frame → Same (f m).mem m.mem (thread + 0x8) 8
  current : ∀ m, m.regs .rsp = frame → Same (f m).mem m.mem sym.currentThread 8
  on : ∀ m, m.regs .rsp = frame → Same (f m).mem m.mem sym.isSchedulerOn 4

def callNumber (m : Machine) : BitVec 16 := (m.regs .rax).setWidth 16

def callerField (m : Machine) : RegsField → BitVec 64
  | .general r => m.regs r
  | .intNo => 0x80
  | .errCode => 0
  | .rip => m.rip
  | .cs => m.cs
  | .rflags => m.rflags
  | .rsp => m.regs .rsp
  | .ss => m.ss

structure Returned (m : Machine) (value : BitVec 64) (final : Machine) : Prop where
  regs : final.regs = Function.update m.regs .rax value
  rip : final.rip = m.rip
  cs : final.cs = m.cs
  rflags : final.rflags = m.rflags
  ss : final.ss = m.ss

section Call

variable {sym : Symbols} {calls : Calls} {m entered : Machine} {frame thread : BitVec 64} {words : List (BitVec 64)}
  {sysExit schedule : Machine → Machine}

theorem isr80_framed {before : Memory} {size : Nat} {values : List (BitVec 64)} (call : m.regs .rax ≠ 1)
    (framed : Framed before frame size m values) (room : values.length + 2 ≤ size) :
    Framed before frame size (isr80 sysExit schedule m) (0x80 :: 0x0 :: values) ∧
      ∀ r, r ≠ .rsp → (isr80 sysExit schedule m).regs r = m.regs r := by
  have compared : Framed before frame size (m.cli.cmp (m.cli.regs .rax) 0x1) values := framed.congr rfl rfl
  have other : ¬ (m.cli.cmp (m.cli.regs .rax) 0x1).zf = true := by
    rw [Machine.zf_cmp, beq_iff_eq]
    exact call
  unfold isr80
  dsimp only
  rw [if_neg other]
  refine ⟨(compared.push (by omega) 0x0).push (by rw [List.length_cons]; omega) 0x80, ?_⟩
  intro r general
  rw [Machine.regs_push_other _ _ _ general, Machine.regs_push_other _ _ _ general]
  rfl

theorem entered_of_serves (interrupted : Interrupted sym m frame thread) {f : Machine → Machine}
    (serves : Serves sym frame thread f) (length : words.length = frameWords)
    (framed : Framed m.mem frame frameWords entered words) : Entered sym m (f entered) frame thread words := by
  have room := interrupted.room
  have rsp : entered.regs .rsp = frame := by
    rw [framed.rsp, length, Nat.sub_self]
    exact BitVec.add_zero frame
  have stacked := framed.stacked
  rw [rsp] at stacked
  refine ⟨serves.rsp entered rsp, stacked.congr (length ▸ serves.saved entered rsp) (length ▸ by decide), ?_, ?_, ?_⟩
  · exact (word_congr ((serves.current entered rsp).trans (framed.same room.stackCurrent))).trans interrupted.current
  · rw [word_congr (serves.kind entered rsp), word_kind_congr (framed.same room.fields)]
    exact interrupted.kind
  · exact dword_congr ((serves.on entered rsp).trans (framed.same room.stackOn))

theorem Entered.storeRax {intNo value : BitVec 64} (room : Room sym frame frameBytes thread)
    (entry : Entered sym m entered frame thread (savedWords m m.regs intNo)) :
    Entered sym m ((entered.set .rax value).store ((entered.set .rax value).regs .rsp + 0x70)
      ((entered.set .rax value).regs .rax)) frame thread (savedWords m (Function.update m.regs .rax value) intNo) := by
  obtain ⟨front, back, length, before, after⟩ := savedWords_rax m value intNo
  have result : Entered sym m (entered.set .rax value) frame thread (front ++ m.regs .rax :: back) := by
    rw [← before]
    exact entry.congr (Machine.regs_set_other _ _ _ (by decide)) rfl
  have stored : Entered sym m ((entered.set .rax value).store (frame + BitVec.ofNat 64 (8 * front.length)) value) frame
      thread (front ++ value :: back) := result.store room (before ▸ rfl)
  rw [← after, length] at stored
  rw [result.rsp, Machine.regs_set_self]
  exact stored

theorem savedWords_registers (m : Machine) : savedWords m m.regs 0x80 = registers.map (callerField m) := rfl

theorem word_idxOf {mem : Memory} {sp : BitVec 64} {value : RegsField → BitVec 64} {fields : List RegsField}
    {field : RegsField} (stacked : Stacked mem sp (fields.map value)) (member : field ∈ fields) :
    word mem (sp + BitVec.ofNat 64 (8 * fields.idxOf field)) = value field := by
  induction fields generalizing sp with
  | nil => exact absurd member List.not_mem_nil
  | cons first fields ih =>
    by_cases here : first = field
    · subst here
      rw [List.idxOf_cons_self]
      exact (congrArg (word mem) (BitVec.add_zero sp)).trans stacked.1
    · have later := ih stacked.2 ((List.mem_cons.mp member).resolve_left (Ne.symm here))
      rw [List.idxOf_cons_ne fields here, Nat.succ_eq_add_one]
      have address : sp + BitVec.ofNat 64 (8 * (fields.idxOf field + 1)) =
          sp + 8 + BitVec.ofNat 64 (8 * fields.idxOf field) := by bv_omega
      rw [address]
      exact later

structure Passed (m : Machine) (frame : BitVec 64) (given : Machine) : Prop where
  rdi : given.regs .rdi = frame
  fields : ∀ field ∈ registers, readField given.mem frame field = callerField m field

def callResult (calls : Calls) (m given : Machine) : BitVec 64 :=
  (systemCallValue (callNumber m) (calls.systemCall (callNumber m) given).1).setWidth 64

theorem isrEnter_call (interrupted : Interrupted sym m frame thread)
    (serves : Serves sym frame thread fun given => (calls.systemCall (callNumber m) given).2)
    (framed : Framed m.mem frame frameWords entered [0x80, 0, m.rip, m.cs, m.rflags, m.regs .rsp, m.ss])
    (regs : ∀ r, r ≠ .rsp → entered.regs r = m.regs r) :
    ∃ given stored, Passed m frame given ∧ isrEnter calls entered = some stored ∧
      Entered sym m stored frame thread (savedWords m (Function.update m.regs .rax (callResult calls m given))
        0x80) := by
  have pushed := pushaq_framed framed regs
  unfold isrEnter
  dsimp only
  generalize entered.pushRegs pushaq = full at pushed
  have passed : Framed m.mem frame frameWords (full.set .rdi (full.regs .rsp)) (savedWords m m.regs 0x80) :=
    pushed.congr (Machine.regs_set_other _ _ _ (by decide)) rfl
  have rsp : full.regs .rsp = frame := pushed.rsp.trans (BitVec.add_zero frame)
  have rdi : (full.set .rdi (full.regs .rsp)).regs .rdi = frame := by rw [Machine.regs_set_self, rsp]
  have stacked : Stacked (full.set .rdi (full.regs .rsp)).mem frame (registers.map (callerField m)) := by
    rw [← savedWords_registers, ← rsp]
    exact pushed.stacked
  generalize full.set .rdi (full.regs .rsp) = given at passed rdi stacked
  have fields (field : RegsField) (member : field ∈ registers) :
      readField given.mem frame field = callerField m field := word_idxOf stacked member
  have number : word given.mem (frame + 0x78) = 0x80 := fields .intNo (by decide)
  have call : (word given.mem (frame + 0x70)).setWidth 16 = callNumber m :=
    congrArg (BitVec.setWidth 16) (fields (.general .rax) (by decide))
  have handled := entered_of_serves interrupted serves rfl passed
  rw [faultHandler, rdi, number, if_pos (by decide), if_neg (by decide), if_neg (by decide), if_pos rfl, call]
  exact ⟨given, _, ⟨rdi, fields⟩, rfl, handled.storeRax interrupted.room⟩

theorem systemCall_entered (handler : BitVec 64) (interrupted : Interrupted sym m (interruptFrame sym m) thread)
    (call : m.regs .rax ≠ 1)
    (serves : Serves sym (interruptFrame sym m) thread fun given => (calls.systemCall (callNumber m) given).2) :
    ∃ given stored, Passed m (interruptFrame sym m) given ∧
      isrEnter calls (isr80 sysExit schedule (deliver sym m handler)) = some stored ∧
      Entered sym m stored (interruptFrame sym m) thread
        (savedWords m (Function.update m.regs .rax (callResult calls m given)) 0x80) := by
  have delivered : Framed m.mem (interruptFrame sym m) frameWords (deliver sym m handler)
      [m.rip, m.cs, m.rflags, m.regs .rsp, m.ss] := interrupt_framed m _ 0x8 handler (by decide) (by decide)
  have rax : (deliver sym m handler).regs .rax = m.regs .rax := regs_interrupt m _ _ _ (by decide)
  obtain ⟨framed, regs⟩ := isr80_framed (rax ▸ call) delivered (show 5 + 2 ≤ frameWords by decide)
  exact isrEnter_call interrupted serves framed fun r general =>
    (regs r general).trans (regs_interrupt m _ _ _ general)

theorem returned_restore {value intNo : BitVec 64} {paused : Machine} (stacked : Stacked paused.mem (paused.regs .rsp)
    (savedWords m (Function.update m.regs .rax value) intNo)) : Returned m value (restore paused) := by
  obtain ⟨general, rsp, rip, cs, rflags, ss⟩ := restore_spec stacked
  refine ⟨?_, rip, cs, rflags, ss⟩
  funext r
  by_cases stack : r = .rsp
  · subst stack
    rw [rsp, Function.update_of_ne (by decide)]
  · exact general r stack

end Call

/-- A system call other than `exit` is a call: its function finds the registers of the caller, and the caller goes on
    behind the instruction with its own registers and the result in `rax`, whatever runs in between. -/
theorem system_call_returns (sym : Symbols) (calls : Calls) (sysExit schedule : Machine → Machine) (m : Machine)
    (thread handler : BitVec 64) (interrupted : Interrupted sym m (interruptFrame sym m) thread)
    (call : m.regs .rax ≠ 1)
    (serves : Serves sym (interruptFrame sym m) thread fun given => (calls.systemCall (callNumber m) given).2)
    (runnable : Behaves sym (interruptFrame sym m) thread calls.runnableKthread)
    (next : Behaves sym (interruptFrame sym m) thread calls.nextRunnableKthread) :
    ∃ given, Passed m (interruptFrame sym m) given ∧
      (dword m.mem sym.isSchedulerOn ≠ 1 →
        ∃ final, isrCommonStub sym calls (isr80 sysExit schedule (deliver sym m handler)) = some final ∧
          Returned m (callResult calls m given) final) ∧
      (dword m.mem sym.isSchedulerOn = 1 →
        ∃ picked, isrCommonStub sym calls (isr80 sysExit schedule (deliver sym m handler)) =
            some (switchIn sym picked) ∧
          ∀ turns later final, Admitted turn (leaves thread (interruptFrame sym m)) picked turns →
            run turn picked turns = some later → Restored sym thread later final →
              Returned m (callResult calls m given) final) := by
  obtain ⟨given, stored, passed, stub, entry⟩ := systemCall_entered handler interrupted call serves
  have compared : Entered sym m (stored.cmp (dword stored.mem sym.isSchedulerOn) 1) (interruptFrame sym m) thread
      (savedWords m (Function.update m.regs .rax (callResult calls m given)) 0x80) := entry.congr rfl rfl
  refine ⟨given, passed, ?_⟩
  rw [isrCommonStub_eq stub, ← entry.on]
  constructor
  · intro off
    have stacked := compared.stacked
    rw [← compared.rsp] at stacked
    exact ⟨_, if_neg off, returned_restore stacked⟩
  · intro on
    refine ⟨_, if_pos on, ?_⟩
    intro turns later final admitted executed restored
    have saved := (compared.picked interrupted.room rfl runnable next).turns rfl admitted executed
    obtain ⟨paused, rfl, stacked⟩ := restored.paused interrupted.room rfl saved
    exact returned_restore stacked

def pidCalls : Calls := { countingCalls with systemCall := fun _ m => (5, counting m) }

theorem Behaves.serves {sym : Symbols} {frame thread : BitVec 64} {f : Machine → Machine}
    (behaves : Behaves sym frame thread f) : Serves sym frame thread f where
  rsp := behaves.rsp
  saved m rsp := (behaves.untouched m rsp).1
  kind m rsp := (behaves.untouched m rsp).2.part (show 8 + 8 ≤ 0x18 by decide) (by decide)
  current := behaves.current
  on := behaves.on

theorem example_call_returns :
    ∃ picked, isrCommonStub exampleSymbols pidCalls (isr80 id id (deliver exampleSymbols (exampleMachine 0 0x1B 7) 0)) =
        some (switchIn exampleSymbols picked) ∧
      (switchIn exampleSymbols (picked.set .rax 0x2000)).regs .rax = 5 := by
  have counts := user_counting (show (7 : BitVec 64) = 1 ∨ 7 = 7 by decide)
  obtain ⟨given, _, _, on⟩ := system_call_returns exampleSymbols pidCalls id id (exampleMachine 0 0x1B 7) 0x2000 0
    (user_interrupted (by decide)) (by decide) counts.serves counts counts
  obtain ⟨picked, stub, returns⟩ := on (by decide)
  refine ⟨picked, stub, ?_⟩
  rw [(returns [fun m => m.set .rax 0x2000] _ _ ⟨Untouched.refl _ _ _, fun _ _ => trivial⟩ rfl
    (.stub (Machine.regs_set_self _ _ _))).regs, Function.update_self]
  show (systemCallValue 7 5).setWidth 64 = 5
  decide

end Sbunix.Switch
