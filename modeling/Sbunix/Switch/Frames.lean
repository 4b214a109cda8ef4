import Sbunix.Library.Run
import Sbunix.Switch.Model

namespace Sbunix.Switch

open Library Library.X86

/-- What the stubs leave on the stack of a machine that an interrupt has stopped, with the values that the general
    registers are to have. -/
def savedWords (m : Machine) (f : Reg → BitVec 64) (intNo : BitVec 64) : List (BitVec 64) :=
  popaq.map f ++ [intNo, 0, m.rip, m.cs, m.rflags, m.regs .rsp, m.ss]

def frameWords : Nat := 22

def frameBytes : Nat := 8 * frameWords

/-- The machine goes on as it was when the interrupt stopped it. -/
structure Resumed (m final : Machine) : Prop where
  regs : final.regs = m.regs
  rip : final.rip = m.rip
  cs : final.cs = m.cs
  rflags : final.rflags = m.rflags
  ss : final.ss = m.ss

theorem rsp_not_mem_popaq : Reg.rsp ∉ popaq := by decide

theorem mem_popaq {r : Reg} (general : r ≠ .rsp) : r ∈ popaq := by
  revert general
  cases r <;> decide

theorem popaq_eq : popaq = pushaq.reverse := rfl

section Restore

variable {m paused : Machine} {f : Reg → BitVec 64} {intNo : BitVec 64}

theorem restore_words {intNo errCode rip cs rflags rsp ss : BitVec 64} (stacked : Stacked paused.mem (paused.regs .rsp)
    (popaq.map f ++ [intNo, errCode, rip, cs, rflags, rsp, ss])) :
    (∀ r, r ≠ .rsp → (restore paused).regs r = f r) ∧ (restore paused).regs .rsp = rsp ∧
      (restore paused).rip = rip ∧ (restore paused).cs = cs ∧ (restore paused).rflags = rflags ∧
      (restore paused).ss = ss := by
  obtain ⟨values, mem, left⟩ := popRegs_spec rsp_not_mem_popaq stacked
  rw [restore]
  generalize paused.popRegs popaq = popped at values mem left
  have words : Stacked (popped.add .rsp 0x10).mem ((popped.add .rsp 0x10).regs .rsp) [rip, cs, rflags, rsp, ss] := by
    rw [Machine.mem_add, Machine.regs_add_self, mem,
      show popped.regs .rsp + 0x10 = popped.regs .rsp + 8 + 8 by bv_omega]
    exact left.2.2
  rw [iretq_spec words]
  refine ⟨?_, Machine.regs_set_self (popped.add .rsp 0x10) .rsp rsp, rfl, rfl, rfl, rfl⟩
  intro r general
  rw [← values r (mem_popaq general), ← Machine.regs_add_other popped .rsp 0x10 general]
  exact Machine.regs_set_other (popped.add .rsp 0x10) .rsp rsp general

theorem restore_spec (stacked : Stacked paused.mem (paused.regs .rsp) (savedWords m f intNo)) :
    (∀ r, r ≠ .rsp → (restore paused).regs r = f r) ∧ (restore paused).regs .rsp = m.regs .rsp ∧
      (restore paused).rip = m.rip ∧ (restore paused).cs = m.cs ∧ (restore paused).rflags = m.rflags ∧
      (restore paused).ss = m.ss :=
  restore_words stacked

/-- Of all registers only those with another value on the stack can differ. -/
theorem resumed_restore_iff (stacked : Stacked paused.mem (paused.regs .rsp) (savedWords m f intNo)) :
    Resumed m (restore paused) ↔ ∀ r, r ≠ .rsp → f r = m.regs r := by
  obtain ⟨general, rsp, rip, cs, rflags, ss⟩ := restore_spec stacked
  constructor
  · intro resumed r different
    rw [← general r different, resumed.regs]
  · intro same
    refine ⟨?_, rip, cs, rflags, ss⟩
    funext r
    by_cases stack : r = .rsp
    · rw [stack, rsp]
    · rw [general r stack, same r stack]

end Restore

structure Room (sym : Symbols) (stack : BitVec 64) (length : Nat) (thread : BitVec 64) : Prop where
  fields : Apart stack length thread 0x18
  stackCurrent : Apart stack length sym.currentThread 8
  stackOn : Apart stack length sym.isSchedulerOn 4
  stackTss : Apart stack length (sym.tss + 4) 8
  fieldsCurrent : Apart thread 0x18 sym.currentThread 8
  fieldsTss : Apart thread 0x18 (sym.tss + 4) 8

theorem Room.part {sym : Symbols} {stack thread : BitVec 64} {length shorter offset : Nat}
    (room : Room sym stack length thread) (inside : offset + shorter ≤ length) (nonempty : 0 < shorter) :
    Room sym (stack + BitVec.ofNat 64 offset) shorter thread where
  fields := (room.fields.symm.part inside nonempty).symm
  stackCurrent := (room.stackCurrent.symm.part inside nonempty).symm
  stackOn := (room.stackOn.symm.part inside nonempty).symm
  stackTss := (room.stackTss.symm.part inside nonempty).symm
  fieldsCurrent := room.fieldsCurrent
  fieldsTss := room.fieldsTss

/-- A thread that does not run: its frame is where its saved stack pointer says, in `krsp` for a user thread and in
    `rsp` for a kernel thread. -/
structure Saved (mem : Memory) (thread frame : BitVec 64) (words : List (BitVec 64)) : Prop where
  kind : word mem (thread + 0x8) = 0 ∧ word mem (thread + 0x10) = frame ∨
    word mem (thread + 0x8) = 1 ∧ word mem thread = frame
  stacked : Stacked mem frame words

def Untouched (thread frame : BitVec 64) (before after : Memory) : Prop :=
  Same after before frame frameBytes ∧ Same after before thread 0x18

section Fields

variable {left right : Memory} {thread : BitVec 64} (same : Same left right thread 0x18)

include same

theorem word_rsp_congr : word left thread = word right thread := word_congr fun x inside => same x (by omega)

theorem word_kind_congr : word left (thread + 0x8) = word right (thread + 0x8) :=
  word_congr (same.part (show 8 + 8 ≤ 0x18 by decide) (by decide))

theorem word_krsp_congr : word left (thread + 0x10) = word right (thread + 0x10) :=
  word_congr (same.part (show 16 + 8 ≤ 0x18 by decide) (by decide))

end Fields

theorem Saved.untouched {before after : Memory} {thread frame : BitVec 64} {words : List (BitVec 64)}
    (saved : Saved before thread frame words) (length : words.length = frameWords)
    (untouched : Untouched thread frame before after) : Saved after thread frame words := by
  refine ⟨?_, saved.stacked.congr ?_ ?_⟩
  · rw [word_rsp_congr untouched.2, word_kind_congr untouched.2, word_krsp_congr untouched.2]
    exact saved.kind
  · rw [length]
    exact untouched.1
  · rw [length]
    decide

theorem Untouched.store {thread frame address value : BitVec 64} {mem : Memory}
    (frameApart : Apart frame frameBytes address 8) (fieldsApart : Apart thread 0x18 address 8) :
    Untouched thread frame mem (setWord mem address value) :=
  ⟨Same.setWord frameApart.symm, Same.setWord fieldsApart.symm⟩

theorem Untouched.refl (thread frame : BitVec 64) (mem : Memory) : Untouched thread frame mem mem :=
  ⟨fun _ _ => rfl, fun _ _ => rfl⟩

theorem Untouched.trans {thread frame : BitVec 64} {first second third : Memory}
    (earlier : Untouched thread frame first second) (later : Untouched thread frame second third) :
    Untouched thread frame first third :=
  ⟨later.1.trans earlier.1, later.2.trans earlier.2⟩

section SwitchIn

variable {sym : Symbols} {m : Machine}

theorem regs_storeTss {r : Reg} (first : r ≠ .rbx) (second : r ≠ .rcx) : (storeTss sym m).regs r = m.regs r := by
  unfold storeTss
  dsimp only
  split
  · simp [first, second]
  · rfl

theorem regs_changeThread (chosen : Reg) {r : Reg} (first : r ≠ .rbx) (second : r ≠ .rcx) :
    (changeThread sym chosen m).regs r = m.regs r := by
  unfold changeThread
  dsimp only
  split
  · simp [first, second]
  · simp [first, second]

theorem mem_changeThread (chosen : Reg) :
    (changeThread sym chosen m).mem = setWord m.mem sym.currentThread (m.regs chosen) := by
  unfold changeThread
  dsimp only
  split
  · rfl
  · rfl

theorem storeTss_same {start : BitVec 64} {length : Nat} (apart : Apart (sym.tss + 4) 8 start length) :
    Same (storeTss sym m).mem m.mem start length := by
  unfold storeTss
  dsimp only
  split
  · simp only [Machine.mem_store, Machine.mem_set, Machine.mem_cmp]
    rw [Machine.regs_set_other _ _ _ (by decide), Machine.regs_set_self, Machine.regs_set_self]
    exact Same.setWord apart
  · exact fun _ _ => rfl

variable {thread frame : BitVec 64} (room : Room sym frame frameBytes thread)

include room

theorem storeTss_untouched : Untouched thread frame m.mem (storeTss sym m).mem :=
  ⟨storeTss_same room.stackTss.symm, storeTss_same room.fieldsTss.symm⟩

/-- The switch loads the stack pointer that was saved for the thread, and leaves its frame and its fields alone. -/
theorem switchIn_saved {words : List (BitVec 64)} (length : words.length = frameWords)
    (saved : Saved m.mem thread frame words) (chosen : m.regs .rax = thread) :
    ∃ paused, switchIn sym m = restore paused ∧ Stacked paused.mem (paused.regs .rsp) words := by
  refine ⟨_, rfl, ?_⟩
  have entered : Untouched thread frame m.mem (changeThread sym .rax (storeTss sym m)).mem := by
    rw [mem_changeThread]
    exact (storeTss_untouched room).trans (Untouched.store room.stackCurrent room.fieldsCurrent)
  have rax : (changeThread sym .rax (storeTss sym m)).regs .rax = thread := by
    rw [regs_changeThread .rax (by decide) (by decide), regs_storeTss (by decide) (by decide), chosen]
  generalize changeThread sym .rax (storeTss sym m) = current at entered rax
  have kept := saved.untouched length entered
  unfold loadRsp
  simp only [Machine.zf_cmp, Machine.regs_cmp, Machine.mem_cmp, rax, dword_eq]
  rcases kept.kind with ⟨user, pointer⟩ | ⟨kernel, pointer⟩
  · rw [user, if_pos (by decide), Machine.regs_set_self, pointer]
    exact kept.stacked
  · rw [kernel, if_neg (by decide), Machine.regs_set_self, pointer]
    exact kept.stacked

end SwitchIn

structure Interrupted (sym : Symbols) (m : Machine) (frame thread : BitVec 64) : Prop where
  current : word m.mem sym.currentThread = thread
  kind : word m.mem (thread + 0x8) = 0 ∨ word m.mem (thread + 0x8) = 1
  room : Room sym frame frameBytes thread

/-- A compiled function that is called with the stack pointer at the frame keeps to the calling convention and leaves
    the frame, the first fields of the thread and the variables of the stubs alone. -/
structure Behaves (sym : Symbols) (frame thread : BitVec 64) (f : Machine → Machine) : Prop where
  rsp : ∀ m, m.regs .rsp = frame → (f m).regs .rsp = frame
  untouched : ∀ m, m.regs .rsp = frame → Untouched thread frame m.mem (f m).mem
  current : ∀ m, m.regs .rsp = frame → Same (f m).mem m.mem sym.currentThread 8
  on : ∀ m, m.regs .rsp = frame → Same (f m).mem m.mem sym.isSchedulerOn 4

structure Entered (sym : Symbols) (m entered : Machine) (frame thread : BitVec 64) (words : List (BitVec 64)) :
    Prop where
  rsp : entered.regs .rsp = frame
  stacked : Stacked entered.mem frame words
  current : word entered.mem sym.currentThread = thread
  kind : word entered.mem (thread + 0x8) = 0 ∨ word entered.mem (thread + 0x8) = 1
  on : dword entered.mem sym.isSchedulerOn = dword m.mem sym.isSchedulerOn

section Save

variable {sym : Symbols} {m entered : Machine} {frame thread : BitVec 64} {words : List (BitVec 64)}

theorem Entered.congr {other : Machine} (entry : Entered sym m entered frame thread words)
    (rsp : other.regs .rsp = entered.regs .rsp) (mem : other.mem = entered.mem) :
    Entered sym m other frame thread words := by
  obtain ⟨stack, stacked, current, kind, on⟩ := entry
  rw [← mem] at stacked current kind on
  exact ⟨rsp.trans stack, stacked, current, kind, on⟩

theorem pushaq_framed {intNo : BitVec 64}
    (framed : Framed m.mem frame frameWords entered [intNo, 0, m.rip, m.cs, m.rflags, m.regs .rsp, m.ss])
    (regs : ∀ r, r ≠ .rsp → entered.regs r = m.regs r) :
    Framed m.mem frame frameWords (entered.pushRegs pushaq) (savedWords m m.regs intNo) := by
  have pushed := framed.pushRegs (show Reg.rsp ∉ pushaq by decide) (Nat.le_refl 22)
  have same : pushaq.map entered.regs = pushaq.map m.regs := by
    apply List.map_congr_left
    intro r member
    apply regs
    rintro rfl
    exact absurd member (by decide)
  rwa [same, ← List.map_reverse, ← popaq_eq] at pushed

theorem entered_of_framed (interrupted : Interrupted sym m frame thread) {f : Machine → Machine}
    (behaves : Behaves sym frame thread f) (length : words.length = frameWords)
    (framed : Framed m.mem frame frameWords entered words) :
    Entered sym m (f entered) frame thread words := by
  have room := interrupted.room
  have rsp : entered.regs .rsp = frame := by
    rw [framed.rsp, length, Nat.sub_self]
    exact BitVec.add_zero frame
  have same := behaves.untouched entered rsp
  have stacked := framed.stacked
  rw [rsp] at stacked
  refine ⟨behaves.rsp entered rsp, stacked.congr (length ▸ same.1) (length ▸ by decide), ?_, ?_, ?_⟩
  · exact (word_congr ((behaves.current entered rsp).trans (framed.same room.stackCurrent))).trans interrupted.current
  · rw [word_kind_congr (same.2.trans (framed.same room.fields))]
    exact interrupted.kind
  · exact dword_congr ((behaves.on entered rsp).trans (framed.same room.stackOn))

def pointerField (mem : Memory) (thread : BitVec 64) : BitVec 64 :=
  if word mem (thread + 0x8) = 0 then thread + 0x10 else thread

theorem mem_saveRsp (m : Machine) :
    (saveRsp sym m).mem =
      setWord m.mem (pointerField m.mem (word m.mem sym.currentThread)) (m.regs .rsp) := by
  unfold saveRsp pointerField
  simp only [Machine.zf_cmp, Machine.mem_cmp, Machine.mem_set, Machine.regs_cmp, Machine.regs_set_self, beq_iff_eq]
  split
  · simp
  · simp

theorem rsp_saveRsp (m : Machine) : (saveRsp sym m).regs .rsp = m.regs .rsp := by
  unfold saveRsp
  dsimp only
  split
  · simp
  · simp

theorem Entered.saved (room : Room sym frame frameBytes thread) (length : words.length = frameWords)
    (entry : Entered sym m entered frame thread words) :
    Saved (saveRsp sym entered).mem thread frame words := by
  have stays {address : BitVec 64} (apart : Apart frame frameBytes address 8) :
      Stacked (setWord entered.mem address frame) frame words :=
    entry.stacked.congr (length ▸ Same.setWord apart.symm) (length ▸ by decide)
  have kindKept {address : BitVec 64} (apart : Apart address 8 (thread + 0x8) 8) :
      word (setWord entered.mem address frame) (thread + 0x8) = word entered.mem (thread + 0x8) :=
    word_congr (Same.setWord apart)
  rw [mem_saveRsp, entry.current, entry.rsp, pointerField]
  rcases entry.kind with user | kernel
  · rw [if_pos user]
    refine ⟨Or.inl ⟨?_, word_setWord⟩, stays (room.fields.part (show 0x10 + 8 ≤ 0x18 by decide) (by decide))⟩
    rw [kindKept, user]
    constructor
    · bv_omega
    · bv_omega
  · rw [if_neg (by rw [kernel]; decide)]
    refine ⟨Or.inr ⟨?_, word_setWord⟩, stays ?_⟩
    · rw [kindKept, kernel]
      constructor
      · bv_omega
      · bv_omega
    · have start := room.fields.part (show 0 + 8 ≤ 0x18 by decide) (by decide)
      rwa [show thread + BitVec.ofNat 64 0 = thread from BitVec.add_zero thread] at start

theorem mem_irq0Debug (m : Machine) : (irq0Debug sym m).mem = m.mem := by
  unfold irq0Debug
  dsimp only
  split
  · split
    · rfl
    · rfl
  · rfl

theorem regs_irq0Debug (m : Machine) {r : Reg} (other : r ≠ .rax) : (irq0Debug sym m).regs r = m.regs r := by
  unfold irq0Debug
  dsimp only
  split
  · split
    · simp [other]
    · exact Machine.regs_set_other _ _ _ other
  · rfl

variable (sym) in
/-- `_irq0` adds the error code and the interrupt number, and it gives `rax` back. -/
theorem irq0_framed {before : Memory} {size : Nat} {values : List (BitVec 64)}
    (framed : Framed before frame size m values) (room : values.length + 2 ≤ size) :
    Framed before frame size (irq0 sym m) (0x32 :: 0x0 :: values) ∧
      ∀ r, r ≠ .rsp → (irq0 sym m).regs r = m.regs r := by
  have started : Framed before frame size m.cli values := framed.congr rfl rfl
  have saved : Framed before frame size (m.cli.pushReg .rax) (m.regs .rax :: values) :=
    started.push (by omega) (m.regs .rax)
  have checked : Framed before frame size (irq0Debug sym (m.cli.pushReg .rax)) (m.regs .rax :: values) :=
    saved.congr (regs_irq0Debug _ (by decide)) (mem_irq0Debug _)
  have popped := checked.pop (show Reg.rax ≠ .rsp by decide)
  refine ⟨(popped.push (by omega) 0x0).push (by rw [List.length_cons]; omega) 0x32, ?_⟩
  intro r general
  unfold irq0
  rw [Machine.regs_push_other _ _ _ general, Machine.regs_push_other _ _ _ general]
  by_cases scratch : r = .rax
  · subst scratch
    exact checked.pop_value
  · rw [Machine.regs_pop_other _ _ scratch general, regs_irq0Debug _ scratch]
    exact Machine.regs_push_other m.cli r _ general

theorem irqEnter_entered {calls : Calls} (interrupted : Interrupted sym m frame thread)
    (behaves : Behaves sym frame thread calls.irqHandler)
    (framed : Framed m.mem frame frameWords entered [0x32, 0, m.rip, m.cs, m.rflags, m.regs .rsp, m.ss])
    (regs : ∀ r, r ≠ .rsp → entered.regs r = m.regs r) :
    Entered sym m (irqEnter calls entered) frame thread (savedWords m m.regs 0x32) ∧
      (irqEnter calls entered).regs .rax = 0x32 := by
  have pushed := pushaq_framed framed regs
  unfold irqEnter
  dsimp only
  generalize entered.pushRegs pushaq = full at pushed
  have passed : Framed m.mem frame frameWords (full.set .rdi (full.regs .rsp)) (savedWords m m.regs 0x32) :=
    pushed.congr (Machine.regs_set_other _ _ _ (by decide)) rfl
  have handled := entered_of_framed interrupted behaves rfl passed
  generalize calls.irqHandler (full.set .rdi (full.regs .rsp)) = returned at handled
  refine ⟨handled.congr (Machine.regs_set_other _ _ _ (by decide)) rfl, ?_⟩
  have stacked := handled.stacked
  rw [savedWords] at stacked
  rw [Machine.regs_set_self, handled.rsp]
  exact stacked.word

end Save

/-- The processor goes on with other threads until `next_runnable_kthread` returns once more. -/
def turn (m : Machine) (others : Machine → Machine) : Option Machine := some (others m)

/-- The others do not write to what was saved for the thread. -/
def leaves (thread frame : BitVec 64) (m : Machine) (others : Machine → Machine) : Prop :=
  Untouched thread frame m.mem (others m).mem

theorem Saved.turns {picked later : Machine} {thread frame : BitVec 64} {words : List (BitVec 64)}
    {turns : List (Machine → Machine)} (length : words.length = frameWords)
    (saved : Saved picked.mem thread frame words) (admitted : Admitted turn (leaves thread frame) picked turns)
    (executed : run turn picked turns = some later) : Saved later.mem thread frame words := by
  apply run_preserves_admitted (fun m => Saved m.mem thread frame words) _ saved admitted executed
  intro m others next saved kept stepped
  cases stepped
  exact saved.untouched length kept

theorem Entered.picked {sym : Symbols} {calls : Calls} {m entered : Machine} {frame thread : BitVec 64}
    {words : List (BitVec 64)} (room : Room sym frame frameBytes thread) (length : words.length = frameWords)
    (runnable : Behaves sym frame thread calls.runnableKthread)
    (next : Behaves sym frame thread calls.nextRunnableKthread)
    (entry : Entered sym m entered frame thread words) :
    Saved (pickNext sym calls (saveRsp sym entered)).mem thread frame words := by
  have saved := entry.saved room length
  have rsp : ((saveRsp sym entered).set .rdi (word (saveRsp sym entered).mem sym.currentThread)).regs .rsp = frame :=
    (Machine.regs_set_other _ _ _ (by decide)).trans ((rsp_saveRsp entered).trans entry.rsp)
  unfold pickNext
  generalize saveRsp sym entered = current at saved rsp
  have queued := saved.untouched length
    (runnable.untouched (current.set .rdi (word current.mem sym.currentThread)) rsp)
  exact queued.untouched length (next.untouched _ (runnable.rsp _ rsp))

/-- A saved thread that is chosen again later goes on with the words of its frame. -/
theorem Entered.resumed_iff {sym : Symbols} {calls : Calls} {m entered later : Machine} {frame thread intNo : BitVec 64}
    {f : Reg → BitVec 64} {turns : List (Machine → Machine)} (room : Room sym frame frameBytes thread)
    (runnable : Behaves sym frame thread calls.runnableKthread)
    (next : Behaves sym frame thread calls.nextRunnableKthread)
    (entry : Entered sym m entered frame thread (savedWords m f intNo))
    (admitted : Admitted turn (leaves thread frame) (pickNext sym calls (saveRsp sym entered)) turns)
    (executed : run turn (pickNext sym calls (saveRsp sym entered)) turns = some later)
    (chosen : later.regs .rax = thread) :
    Resumed m (switchIn sym later) ↔ ∀ r, r ≠ .rsp → f r = m.regs r := by
  have saved := (entry.picked room rfl runnable next).turns rfl admitted executed
  obtain ⟨paused, switched, stacked⟩ := switchIn_saved room rfl saved chosen
  rw [switched, resumed_restore_iff stacked]

theorem irqCommonStub_switch {sym : Symbols} {calls : Calls} {m : Machine}
    (number : (irqEnter calls m).regs .rax = 0x32) (on : dword (irqEnter calls m).mem sym.isSchedulerOn = 1) :
    irqCommonStub sym calls m = switchIn sym (pickNext sym calls (saveRsp sym
      (((irqEnter calls m).cmp ((irqEnter calls m).regs .rax) 0x32).cmp
        (dword (irqEnter calls m).mem sym.isSchedulerOn) 1))) := by
  unfold irqCommonStub
  dsimp only
  rw [Machine.zf_cmp, number, if_pos (by decide), Machine.zf_cmp, Machine.mem_cmp, on, if_pos (by decide)]

def interruptFrame (sym : Symbols) (m : Machine) : BitVec 64 :=
  m.handlerStack (word m.mem (sym.tss + 4)) - BitVec.ofNat 64 frameBytes

def deliver (sym : Symbols) (m : Machine) (handler : BitVec 64) : Machine :=
  m.interrupt (word m.mem (sym.tss + 4)) 0x8 handler

/-- A preempted thread goes on as if nothing had happened. -/
theorem preemption_is_transparent (sym : Symbols) (calls : Calls) (m : Machine) (thread handler : BitVec 64)
    (interrupted : Interrupted sym m (interruptFrame sym m) thread) (on : dword m.mem sym.isSchedulerOn = 1)
    (irq : Behaves sym (interruptFrame sym m) thread calls.irqHandler)
    (runnable : Behaves sym (interruptFrame sym m) thread calls.runnableKthread)
    (next : Behaves sym (interruptFrame sym m) thread calls.nextRunnableKthread) :
    ∃ picked, irqCommonStub sym calls (irq0 sym (deliver sym m handler)) = switchIn sym picked ∧
      ∀ turns later, Admitted turn (leaves thread (interruptFrame sym m)) picked turns →
        run turn picked turns = some later → later.regs .rax = thread → Resumed m (switchIn sym later) := by
  have delivered : Framed m.mem (interruptFrame sym m) frameWords (deliver sym m handler)
      [m.rip, m.cs, m.rflags, m.regs .rsp, m.ss] := interrupt_framed m _ 0x8 handler (by decide) (by decide)
  obtain ⟨framed, regs⟩ := irq0_framed sym delivered (show 5 + 2 ≤ frameWords by decide)
  have kept (r : Reg) (general : r ≠ .rsp) : (irq0 sym (deliver sym m handler)).regs r = m.regs r :=
    (regs r general).trans (regs_interrupt m _ _ _ general)
  obtain ⟨entry, number⟩ := irqEnter_entered interrupted irq framed kept
  have stub := irqCommonStub_switch number (entry.on.trans on)
  generalize irqEnter calls (irq0 sym (deliver sym m handler)) = entered at entry stub
  refine ⟨_, stub, ?_⟩
  intro turns later admitted executed chosen
  have compared : Entered sym m ((entered.cmp (entered.regs .rax) 0x32).cmp (dword entered.mem sym.isSchedulerOn) 1)
      (interruptFrame sym m) thread (savedWords m m.regs 0x32) := entry.congr rfl rfl
  exact (compared.resumed_iff interrupted.room runnable next admitted executed chosen).mpr fun _ _ => rfl

def exampleSymbols : Symbols := ⟨0x1000, 0x1010, 0x1020, 0x1030, 0x1038, 0x1040, 0x1048⟩

def exampleMemory (kernelThread : BitVec 8) : Memory := fun x =>
  if x = 0x1001 then 0x20 else if x = 0x1010 then 1 else if x = 0x1025 then 0x70 else if x = 0x2008 then kernelThread
  else 0

def exampleMachine (kernelThread : BitVec 8) (cs value : BitVec 64) : Machine where
  regs r := if r = .rsp then 0x9000 else value
  rip := 0x400000
  rflags := 0x202
  cs := cs
  ss := 0x10
  cr3 := 0
  mem := exampleMemory kernelThread

def counting (m : Machine) : Machine :=
  let m := m.pushReg .rbx
  let m := m.set .rbx 0x1100
  let m := m.store (m.regs .rbx) (word m.mem (m.regs .rbx) + 1)
  m.pop .rbx

def countingCalls : Calls := ⟨counting, counting, counting, counting, counting, fun _ m => (0, counting m)⟩

structure Spaced (frame start : BitVec 64) (length : Nat) : Prop where
  below : Apart (frame - 8) 8 start length
  own : Apart 0x1100 8 start length

theorem counting_same {m : Machine} {frame start : BitVec 64} {length : Nat} (rsp : m.regs .rsp = frame)
    (spaced : Spaced frame start length) : Same (counting m).mem m.mem start length := by
  have below := spaced.below
  rw [← rsp] at below
  exact (Same.setWord spaced.own).trans (Same.setWord below)

theorem rsp_counting (m : Machine) : (counting m).regs .rsp = m.regs .rsp := by
  unfold counting
  dsimp only
  rw [Machine.regs_pop_rsp _ _ (by decide)]
  change m.regs .rsp - 8 + 8 = m.regs .rsp
  exact BitVec.sub_add_cancel _ _

theorem behaves_counting {sym : Symbols} {frame thread : BitVec 64} (stack : Spaced frame frame frameBytes)
    (fields : Spaced frame thread 0x18) (current : Spaced frame sym.currentThread 8)
    (on : Spaced frame sym.isSchedulerOn 4) : Behaves sym frame thread counting where
  rsp m rsp := (rsp_counting m).trans rsp
  untouched _ rsp := ⟨counting_same rsp stack, counting_same rsp fields⟩
  current _ rsp := counting_same rsp current
  on _ rsp := counting_same rsp on

theorem kernel_counting : Behaves exampleSymbols (interruptFrame exampleSymbols (exampleMachine 1 0x8 7)) 0x2000
    counting :=
  behaves_counting ⟨by decide, by decide⟩ ⟨by decide, by decide⟩ ⟨by decide, by decide⟩ ⟨by decide, by decide⟩

theorem user_counting {value : BitVec 64} (values : value = 1 ∨ value = 7) :
    Behaves exampleSymbols (interruptFrame exampleSymbols (exampleMachine 0 0x1B value)) 0x2000 counting := by
  rcases values with rfl | rfl
  · exact behaves_counting ⟨by decide, by decide⟩ ⟨by decide, by decide⟩ ⟨by decide, by decide⟩ ⟨by decide, by decide⟩
  · exact behaves_counting ⟨by decide, by decide⟩ ⟨by decide, by decide⟩ ⟨by decide, by decide⟩ ⟨by decide, by decide⟩

theorem kernel_interrupted :
    Interrupted exampleSymbols (exampleMachine 1 0x8 7) (interruptFrame exampleSymbols (exampleMachine 1 0x8 7))
      0x2000 :=
  ⟨by decide, by decide, ⟨by decide, by decide, by decide, by decide, by decide, by decide⟩⟩

theorem user_interrupted {value : BitVec 64} (values : value = 1 ∨ value = 7) :
    Interrupted exampleSymbols (exampleMachine 0 0x1B value)
      (interruptFrame exampleSymbols (exampleMachine 0 0x1B value)) 0x2000 := by
  rcases values with rfl | rfl
  · exact ⟨by decide, by decide, ⟨by decide, by decide, by decide, by decide, by decide, by decide⟩⟩
  · exact ⟨by decide, by decide, ⟨by decide, by decide, by decide, by decide, by decide, by decide⟩⟩

theorem kernel_thread_preempted :
    ∃ picked, irqCommonStub exampleSymbols countingCalls (irq0 exampleSymbols
        (deliver exampleSymbols (exampleMachine 1 0x8 7) 0)) = switchIn exampleSymbols picked ∧
      Resumed (exampleMachine 1 0x8 7) (switchIn exampleSymbols (picked.set .rax 0x2000)) := by
  obtain ⟨picked, stub, resumes⟩ := preemption_is_transparent exampleSymbols countingCalls
    (exampleMachine 1 0x8 7) 0x2000 0 kernel_interrupted (by decide) kernel_counting kernel_counting kernel_counting
  refine ⟨picked, stub, resumes [fun m => m.set .rax 0x2000] _ ⟨Untouched.refl _ _ _, fun _ _ => trivial⟩ rfl ?_⟩
  exact Machine.regs_set_self _ _ _

section PageFault

variable {sym : Symbols} {calls : Calls} {m entered : Machine} {frame thread : BitVec 64}

def deliverFault (sym : Symbols) (m : Machine) (handler errorCode : BitVec 64) : Machine :=
  (deliver sym m handler).push errorCode

theorem isr14_framed {before : Memory} {size : Nat} {errorCode : BitVec 64} {values : List (BitVec 64)}
    (framed : Framed before frame size m (errorCode :: values)) (room : values.length + 2 ≤ size) :
    Framed before frame size (isr14 m) (0xE :: 0x0 :: values) ∧ ∀ r, r ≠ .rsp → (isr14 m).regs r = m.regs r := by
  have started : Framed before frame size m.cli (errorCode :: values) := framed.congr rfl rfl
  refine ⟨(started.drop.push (by omega) 0x0).push (by rw [List.length_cons]; omega) 0xE, ?_⟩
  intro r general
  unfold isr14
  rw [Machine.regs_push_other _ _ _ general, Machine.regs_push_other _ _ _ general,
    Machine.regs_add_other _ _ _ general]
  rfl

/-- A store into the frame changes one word of it and nothing else that the stubs read. -/
theorem Entered.store {front back : List (BitVec 64)} {old value : BitVec 64} (room : Room sym frame frameBytes thread)
    (length : (front ++ old :: back).length = frameWords)
    (entry : Entered sym m entered frame thread (front ++ old :: back)) :
    Entered sym m (entered.store (frame + BitVec.ofNat 64 (8 * front.length)) value) frame thread
      (front ++ value :: back) := by
  have inside : 8 * front.length + 8 ≤ frameBytes := by
    rw [List.length_append, List.length_cons] at length
    change front.length + (back.length + 1) = 22 at length
    change _ ≤ 8 * 22
    omega
  have outside {start : BitVec 64} {n : Nat} (apart : Apart frame frameBytes start n) :
      Same (setWord entered.mem (frame + BitVec.ofNat 64 (8 * front.length)) value) entered.mem start n :=
    Same.setWord (apart.symm.part inside (by decide)).symm
  refine ⟨entry.rsp, entry.stacked.store old (length ▸ by decide), ?_, ?_, ?_⟩
  · exact (word_congr (outside room.stackCurrent)).trans entry.current
  · rw [Machine.mem_store, word_kind_congr (outside room.fields)]
    exact entry.kind
  · exact (dword_congr (outside room.stackOn)).trans entry.on

theorem savedWords_rax (m : Machine) (value intNo : BitVec 64) :
    ∃ front back, front.length = 14 ∧ savedWords m m.regs intNo = front ++ m.regs .rax :: back ∧
      savedWords m (Function.update m.regs .rax value) intNo = front ++ value :: back :=
  ⟨(popaq.take 14).map m.regs, [intNo, 0, m.rip, m.cs, m.rflags, m.regs .rsp, m.ss], rfl, rfl, rfl⟩

theorem isrEnter_entered (interrupted : Interrupted sym m frame thread)
    (behaves : Behaves sym frame thread calls.pageFaultHandler)
    (framed : Framed m.mem frame frameWords entered [0xE, 0, m.rip, m.cs, m.rflags, m.regs .rsp, m.ss])
    (regs : ∀ r, r ≠ .rsp → entered.regs r = m.regs r) :
    ∃ stored, isrEnter calls entered = some stored ∧
      Entered sym m stored frame thread (savedWords m (Function.update m.regs .rax 1) 0xE) := by
  have pushed := pushaq_framed framed regs
  unfold isrEnter
  dsimp only
  generalize entered.pushRegs pushaq = full at pushed
  have passed : Framed m.mem frame frameWords (full.set .rdi (full.regs .rsp)) (savedWords m m.regs 0xE) :=
    pushed.congr (Machine.regs_set_other _ _ _ (by decide)) rfl
  have number :
      word (full.set .rdi (full.regs .rsp)).mem ((full.set .rdi (full.regs .rsp)).regs .rdi + 0x78) = 0xE := by
    have stacked := pushed.stacked
    rw [savedWords] at stacked
    rw [Machine.regs_set_self]
    exact stacked.word
  have handled := entered_of_framed interrupted behaves rfl passed
  rw [faultHandler, number, if_pos (by decide), if_pos rfl, Option.bind_eq_bind, Option.bind_some]
  generalize calls.pageFaultHandler (full.set .rdi (full.regs .rsp)) = returned at handled
  obtain ⟨front, back, length, before, after⟩ := savedWords_rax m 1 0xE
  have result : Entered sym m (returned.set .rax 1) frame thread (front ++ m.regs .rax :: back) := by
    rw [← before]
    exact handled.congr (Machine.regs_set_other _ _ _ (by decide)) rfl
  have stored : Entered sym m ((returned.set .rax 1).store (frame + BitVec.ofNat 64 (8 * front.length)) 1) frame
      thread (front ++ 1 :: back) := result.store interrupted.room (before ▸ rfl)
  rw [← after, length] at stored
  refine ⟨_, rfl, ?_⟩
  change Entered sym m ((returned.set .rax 1).store ((returned.set .rax 1).regs .rsp + 0x70)
    ((returned.set .rax 1).regs .rax)) frame thread _
  rw [result.rsp, Machine.regs_set_self]
  exact stored

theorem pageFault_entered (handler errorCode : BitVec 64)
    (interrupted : Interrupted sym m (interruptFrame sym m) thread)
    (fault : Behaves sym (interruptFrame sym m) thread calls.pageFaultHandler) :
    ∃ stored, isrEnter calls (isr14 (deliverFault sym m handler errorCode)) = some stored ∧
      Entered sym m stored (interruptFrame sym m) thread (savedWords m (Function.update m.regs .rax 1) 0xE) := by
  have delivered : Framed m.mem (interruptFrame sym m) frameWords (deliverFault sym m handler errorCode)
      [errorCode, m.rip, m.cs, m.rflags, m.regs .rsp, m.ss] :=
    (interrupt_framed m _ 0x8 handler (by decide) (by decide)).push (show 5 < frameWords by decide) errorCode
  obtain ⟨framed, regs⟩ := isr14_framed delivered (show 5 + 2 ≤ frameWords by decide)
  apply isrEnter_entered interrupted fault framed
  intro r general
  exact (regs r general).trans ((Machine.regs_push_other _ _ _ general).trans (regs_interrupt m _ _ _ general))

theorem isrCommonStub_eq {stored : Machine} (stub : isrEnter calls entered = some stored) :
    isrCommonStub sym calls entered =
      if dword stored.mem sym.isSchedulerOn = 1 then
        some (switchIn sym (pickNext sym calls (saveRsp sym (stored.cmp (dword stored.mem sym.isSchedulerOn) 1))))
      else some (restore (stored.cmp (dword stored.mem sym.isSchedulerOn) 1)) := by
  unfold isrCommonStub
  rw [stub, Option.bind_eq_bind, Option.bind_some]
  simp only [Machine.zf_cmp, beq_iff_eq]
  rfl

theorem update_rax_iff {value : BitVec 64} :
    (∀ r, r ≠ .rsp → Function.update m.regs .rax value r = m.regs r) ↔ m.regs .rax = value := by
  constructor
  · intro same
    rw [← same .rax (by decide), Function.update_self]
  · intro equal r _
    by_cases here : r = .rax
    · rw [here, Function.update_self, equal]
    · rw [Function.update_of_ne here]

end PageFault

/-- A handled page fault is transparent exactly when `rax` held the value that `fault_handler` returns. -/
theorem page_fault_transparent_iff (sym : Symbols) (calls : Calls) (m : Machine) (thread handler errorCode : BitVec 64)
    (interrupted : Interrupted sym m (interruptFrame sym m) thread)
    (fault : Behaves sym (interruptFrame sym m) thread calls.pageFaultHandler)
    (runnable : Behaves sym (interruptFrame sym m) thread calls.runnableKthread)
    (next : Behaves sym (interruptFrame sym m) thread calls.nextRunnableKthread) :
    (dword m.mem sym.isSchedulerOn ≠ 1 →
      ∃ final, isrCommonStub sym calls (isr14 (deliverFault sym m handler errorCode)) = some final ∧
        (Resumed m final ↔ m.regs .rax = 1)) ∧
    (dword m.mem sym.isSchedulerOn = 1 →
      ∃ picked, isrCommonStub sym calls (isr14 (deliverFault sym m handler errorCode)) = some (switchIn sym picked) ∧
        ∀ turns later, Admitted turn (leaves thread (interruptFrame sym m)) picked turns →
          run turn picked turns = some later → later.regs .rax = thread →
            (Resumed m (switchIn sym later) ↔ m.regs .rax = 1)) := by
  obtain ⟨stored, stub, entry⟩ := pageFault_entered handler errorCode interrupted fault
  have compared : Entered sym m (stored.cmp (dword stored.mem sym.isSchedulerOn) 1) (interruptFrame sym m) thread
      (savedWords m (Function.update m.regs .rax 1) 0xE) := entry.congr rfl rfl
  rw [isrCommonStub_eq stub, ← entry.on, ← update_rax_iff]
  constructor
  · intro off
    refine ⟨_, if_neg off, ?_⟩
    have stacked := compared.stacked
    rw [← compared.rsp] at stacked
    exact resumed_restore_iff stacked
  · intro on
    refine ⟨_, if_pos on, ?_⟩
    intro turns later admitted executed chosen
    exact compared.resumed_iff interrupted.room runnable next admitted executed chosen

theorem page_fault_with_one_in_rax :
    ∃ picked, isrCommonStub exampleSymbols countingCalls (isr14
        (deliverFault exampleSymbols (exampleMachine 0 0x1B 1) 0 7)) = some (switchIn exampleSymbols picked) ∧
      Resumed (exampleMachine 0 0x1B 1) (switchIn exampleSymbols (picked.set .rax 0x2000)) := by
  obtain ⟨_, resumes⟩ := page_fault_transparent_iff exampleSymbols countingCalls (exampleMachine 0 0x1B 1) 0x2000 0 7
    (user_interrupted (by decide)) (user_counting (by decide)) (user_counting (by decide)) (user_counting (by decide))
  obtain ⟨picked, stub, iff⟩ := resumes (by decide)
  refine ⟨picked, stub, (iff [fun m => m.set .rax 0x2000] _ ⟨Untouched.refl _ _ _, fun _ _ => trivial⟩ rfl ?_).mpr ?_⟩
  · exact Machine.regs_set_self _ _ _
  · decide

/-- A process that faults with 7 in `rax` goes on with 1 in it. -/
theorem page_fault_changes_rax :
    ∃ picked, isrCommonStub exampleSymbols countingCalls (isr14
        (deliverFault exampleSymbols (exampleMachine 0 0x1B 7) 0 7)) = some (switchIn exampleSymbols picked) ∧
      ¬ Resumed (exampleMachine 0 0x1B 7) (switchIn exampleSymbols (picked.set .rax 0x2000)) := by
  have interrupted := user_interrupted (show (7 : BitVec 64) = 1 ∨ 7 = 7 by decide)
  have counts := user_counting (show (7 : BitVec 64) = 1 ∨ 7 = 7 by decide)
  obtain ⟨stored, stub, entry⟩ := pageFault_entered 0 7 interrupted
    (show Behaves exampleSymbols _ 0x2000 countingCalls.pageFaultHandler from counts)
  have compared : Entered exampleSymbols (exampleMachine 0 0x1B 7)
      (stored.cmp (dword stored.mem exampleSymbols.isSchedulerOn) 1) _ 0x2000 _ := entry.congr rfl rfl
  refine ⟨_, (isrCommonStub_eq stub).trans (if_pos (entry.on.trans (by decide))), ?_⟩
  let chooses : List (Machine → Machine) := [fun m => m.set .rax 0x2000]
  have admitted (picked : Machine) :
      Admitted turn (leaves 0x2000 (interruptFrame exampleSymbols (exampleMachine 0 0x1B 7))) picked chooses :=
    ⟨Untouched.refl _ _ _, fun _ _ => trivial⟩
  rw [compared.resumed_iff interrupted.room counts counts (admitted _) rfl (Machine.regs_set_self _ _ _),
    update_rax_iff]
  decide

end Sbunix.Switch
