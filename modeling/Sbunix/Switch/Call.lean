import Sbunix.Switch.Frames

namespace Sbunix.Switch

open Library Library.X86

/-- `Switch_To_Thread` uses 23 words below the return address, one of them only for a user thread. -/
def callWords : Nat := 23

def callFrame (m : Machine) : BitVec 64 := m.regs .rsp - BitVec.ofNat 64 (8 * callWords)

structure Caller (sym : Symbols) (m : Machine) (thread : BitVec 64) : Prop where
  current : word m.mem sym.currentThread = thread
  kernel : word m.mem (thread + 0x8) = 1
  room : Room sym (callFrame m) (8 * callWords) thread
  kernDs : Apart (callFrame m) (8 * callWords) sym.kernDs 8
  kernCs : Apart (callFrame m) (8 * callWords) sym.kernCs 8
  tssCurrent : Apart (sym.tss + 4) 8 sym.currentThread 8

def calleeSaved : List Reg := [.rbx, .rbp, .r12, .r13, .r14, .r15]

section Save

variable {sym : Symbols} {m called : Machine} {thread : BitVec 64} {values : List (BitVec 64)}

/-- A kernel thread pushes the selector for kernel threads, and `rax` is given back. -/
theorem pushSelector_framed (caller : Caller sym m thread) {selector : BitVec 64} (user : BitVec 64)
    (apart : Apart (callFrame m) (8 * callWords) selector 8)
    (framed : Framed m.mem (callFrame m) callWords called values) (room : values.length < callWords) :
    Framed m.mem (callFrame m) callWords (pushSelector sym selector user called) (word m.mem selector :: values) ∧
      (∀ r, r ≠ .rsp → (pushSelector sym selector user called).regs r = called.regs r) ∧
      ∀ k, k + 1 < callWords - values.length →
        word (pushSelector sym selector user called).mem (callFrame m + BitVec.ofNat 64 (8 * k)) =
          word called.mem (callFrame m + BitVec.ofNat 64 (8 * k)) := by
  have saved : Framed m.mem (callFrame m) callWords (called.pushReg .rax) (called.regs .rax :: values) :=
    framed.push room _
  have current : word (called.pushReg .rax).mem sym.currentThread = thread :=
    (word_congr (saved.same caller.room.stackCurrent)).trans caller.current
  have kind : word (called.pushReg .rax).mem (thread + 0x8) = 1 :=
    (word_kind_congr (saved.same caller.room.fields)).trans caller.kernel
  have below (k : Nat) (free : k + 1 < callWords - values.length) :
      word (called.pushReg .rax).mem (callFrame m + BitVec.ofNat 64 (8 * k)) =
        word called.mem (callFrame m + BitVec.ofNat 64 (8 * k)) := framed.word_push free (called.regs .rax)
  have others (r : Reg) (general : r ≠ .rsp) : (called.pushReg .rax).regs r = called.regs r :=
    Machine.regs_push_other _ _ _ general
  unfold pushSelector
  generalize called.pushReg .rax = pushed at saved current kind below others
  simp only [Machine.zf_cmp, Machine.mem_set, Machine.regs_set_self, current, kind]
  rw [if_neg (by decide)]
  let asked := ((pushed.set .rax sym.currentThread).set .rax thread).cmp (1 : BitVec 64) 0
  have asking : Framed m.mem (callFrame m) callWords asked (called.regs .rax :: values) := saved.congr rfl rfl
  have popped := asking.pop (show Reg.rax ≠ .rsp by decide)
  have selected : word (asked.pop .rax).mem selector = word m.mem selector := word_congr (popped.same apart)
  refine ⟨?_, ?_, ?_⟩
  · rw [← selected]
    exact popped.push room _
  · intro r general
    refine (Machine.regs_push_other (asked.pop .rax) r _ general).trans ?_
    by_cases scratch : r = .rax
    · subst scratch
      exact asking.pop_value
    · rw [Machine.regs_pop_other _ _ scratch general, Machine.regs_cmp, Machine.regs_set_other _ _ _ scratch,
        Machine.regs_set_other _ _ _ scratch, others r general]
  · intro k free
    exact (popped.word_push free _).trans (below k free)

theorem callFrame_framed (m : Machine) : Framed m.mem (callFrame m) callWords m [] := by
  refine ⟨by decide, by decide, ?_, trivial, fun _ _ => rfl⟩
  rw [callFrame, List.length_nil, Nat.sub_zero, BitVec.sub_add_cancel]

theorem callFrame_rsp (framed : Framed m.mem (callFrame m) callWords called values) :
    called.regs .rsp = m.regs .rsp - BitVec.ofNat 64 (8 * values.length) := by
  have room := framed.room
  rw [framed.rsp, callFrame, callWords]
  change values.length ≤ 23 at room
  bv_omega

/-- The return address lies above the frame, and it is copied to a word that is free until the code is pushed. -/
theorem moveReturn_framed {scratch pointer selector : BitVec 64}
    (framed : Framed m.mem (callFrame m) callWords called [scratch, pointer, selector]) :
    Framed m.mem (callFrame m) callWords (moveReturn called) [scratch, pointer, selector] ∧
      word (moveReturn called).mem (callFrame m + BitVec.ofNat 64 (8 * 18)) = word m.mem (m.regs .rsp) ∧
      ∀ r, r ≠ .rsp → r ≠ .rax → (moveReturn called).regs r = called.regs r := by
  have stack : called.regs .rsp = m.regs .rsp - BitVec.ofNat 64 (8 * 3) := callFrame_rsp framed
  have above : called.regs .rsp + 0x18 = m.regs .rsp := by
    rw [stack]
    bv_omega
  have free : called.regs .rsp - 0x10 = callFrame m + BitVec.ofNat 64 (8 * 18) := by
    rw [stack, callFrame, callWords]
    bv_omega
  have found : word called.mem (m.regs .rsp) = word m.mem (m.regs .rsp) := by
    apply word_congr
    apply framed.same
    rw [callFrame, callWords]
    constructor
    · bv_omega
    · bv_omega
  unfold moveReturn
  dsimp only
  rw [Machine.regs_set_other _ _ _ (by decide), Machine.regs_set_self, above, free, found]
  refine ⟨?_, word_setWord, ?_⟩
  · exact (framed.storeFree (show 18 < callWords - 3 by decide) _).congr
      (Machine.regs_set_other _ _ _ (by decide)) rfl
  · intro r general scratch
    rw [Machine.regs_set_other _ _ _ scratch, Machine.regs_store, Machine.regs_set_other _ _ _ scratch]

/-- `Switch_To_Thread` builds what `iretq` takes. The stack pointer in it is the one after the first push. -/
theorem switchFrame_framed (caller : Caller sym m thread) :
    ∃ rflags, Framed m.mem (callFrame m) callWords (switchFrame sym m)
        [0x0, 0x0, word m.mem (m.regs .rsp), word m.mem sym.kernCs, rflags, m.regs .rsp - 8, word m.mem sym.kernDs] ∧
      ∀ r, r ≠ .rsp → r ≠ .rax → (switchFrame sym m).regs r = m.regs r := by
  obtain ⟨selected, regs₁, _⟩ := pushSelector_framed caller sym.userDs caller.kernDs (callFrame_framed m)
    (show 0 < callWords by decide)
  unfold switchFrame
  dsimp only
  generalize pushSelector sym sym.kernDs sym.userDs m = first at selected regs₁ ⊢
  have stack : first.regs .rsp = m.regs .rsp - 8 := callFrame_rsp selected
  have pointed : Framed m.mem (callFrame m) callWords (first.pushReg .rsp)
      [m.regs .rsp - 8, word m.mem sym.kernDs] := by
    rw [← stack]
    exact selected.push (show 1 < callWords by decide) _
  have regs₂ (r : Reg) (general : r ≠ .rsp) : (first.pushReg .rsp).regs r = m.regs r :=
    (Machine.regs_push_other first r _ general).trans (regs₁ r general)
  generalize first.pushReg .rsp = second at pointed regs₂ ⊢
  have kept : Framed m.mem (callFrame m) callWords (second.pushReg .rax)
      [second.regs .rax, m.regs .rsp - 8, word m.mem sym.kernDs] := pointed.push (show 2 < callWords by decide) _
  have regs₃ (r : Reg) (general : r ≠ .rsp) : (second.pushReg .rax).regs r = m.regs r :=
    (Machine.regs_push_other second r _ general).trans (regs₂ r general)
  generalize second.pushReg .rax = third at kept regs₃ ⊢
  obtain ⟨moved, returnWord, regs₄⟩ := moveReturn_framed kept
  generalize moveReturn third = fourth at moved returnWord regs₄ ⊢
  have dropped : Framed m.mem (callFrame m) callWords (fourth.add .rsp 0x8)
      [m.regs .rsp - 8, word m.mem sym.kernDs] := moved.drop
  have regs₅ (r : Reg) (general : r ≠ .rsp) (scratch : r ≠ .rax) : (fourth.add .rsp 0x8).regs r = m.regs r :=
    (Machine.regs_add_other _ _ _ general).trans ((regs₄ r general scratch).trans (regs₃ r general))
  have return₅ : word (fourth.add .rsp 0x8).mem (callFrame m + BitVec.ofNat 64 (8 * 18)) = word m.mem (m.regs .rsp) :=
    returnWord
  generalize fourth.add .rsp 0x8 = fifth at dropped regs₅ return₅ ⊢
  have flagged := dropped.push (show 2 < callWords by decide) fifth.rflags
  have return₆ := (dropped.word_push (show 18 + 1 < callWords - 2 by decide) fifth.rflags).trans return₅
  obtain ⟨coded, regs₆, below⟩ := pushSelector_framed caller sym.userCs caller.kernCs flagged
    (show 3 < callWords by decide)
  have return₇ := (below 18 (show 18 + 1 < callWords - 3 by decide)).trans return₆
  generalize pushSelector sym sym.kernCs sym.userCs (fifth.push fifth.rflags) = sixth at coded regs₆ return₇ ⊢
  have extended := coded.extend (show 4 < callWords by decide) return₇
  refine ⟨fifth.rflags, (extended.push (show 5 < callWords by decide) 0x0).push (show 6 < callWords by decide) 0x0, ?_⟩
  intro r general scratch
  rw [Machine.regs_push_other _ _ _ general, Machine.regs_push_other _ _ _ general,
    Machine.regs_sub_other _ _ _ general, regs₆ r general, Machine.regs_push_other _ _ _ general,
    regs₅ r general scratch]

/-- The frame that the thread is resumed from begins above the word that is not always used. -/
def callerFrame (m : Machine) : BitVec 64 := callFrame m + BitVec.ofNat 64 8

def resumption (sym : Symbols) (m : Machine) (rflags : BitVec 64) : Machine :=
  { m.set .rsp (m.regs .rsp - 8) with
    rip := word m.mem (m.regs .rsp)
    cs := word m.mem sym.kernCs
    rflags := rflags
    ss := word m.mem sym.kernDs }

theorem callerFrame_eq (framed : Framed m.mem (callFrame m) callWords called values)
    (length : values.length = frameWords) : called.regs .rsp = callerFrame m := by
  rw [framed.rsp, length]
  rfl

structure Ready (sym : Symbols) (m : Machine) (thread : BitVec 64) (mem : Memory) (words : List (BitVec 64)) :
    Prop where
  stacked : Stacked mem (callerFrame m) words
  current : word mem sym.currentThread = thread
  kernel : word mem (thread + 0x8) = 1

theorem ready_of_framed (caller : Caller sym m thread) (length : values.length = frameWords)
    (framed : Framed m.mem (callFrame m) callWords called values) : Ready sym m thread called.mem values where
  stacked := callerFrame_eq framed length ▸ framed.stacked
  current := (word_congr (framed.same caller.room.stackCurrent)).trans caller.current
  kernel := (word_kind_congr (framed.same caller.room.fields)).trans caller.kernel

theorem Ready.same {mem other : Memory} (ready : Ready sym m thread mem values) (length : values.length = frameWords)
    (frame : Same other mem (callerFrame m) frameBytes) (current : Same other mem sym.currentThread 8)
    (fields : Same other mem thread 0x18) : Ready sym m thread other values where
  stacked := ready.stacked.congr (length ▸ frame) (length ▸ by decide)
  current := (word_congr current).trans ready.current
  kernel := (word_kind_congr fields).trans ready.kernel

theorem Caller.callerRoom (caller : Caller sym m thread) : Room sym (callerFrame m) frameBytes thread :=
  caller.room.part (show 8 + frameBytes ≤ 8 * callWords by decide) (by decide)

theorem switchTss_ready (caller : Caller sym m thread) (length : values.length = frameWords)
    (framed : Framed m.mem (callFrame m) callWords called values) :
    Ready sym m thread (switchTss sym called).mem values ∧ (switchTss sym called).regs .rsp = callerFrame m := by
  unfold switchTss
  dsimp only
  have compared : Framed m.mem (callFrame m) callWords (called.cmp (word called.mem (called.regs .rdi + 0x8)) 0)
      values :=
    framed.congr rfl rfl
  generalize called.cmp (word called.mem (called.regs .rdi + 0x8)) 0 = asked at compared ⊢
  split
  · have pushed : Framed m.mem (callFrame m) callWords (asked.pushReg .rbx) (asked.regs .rbx :: values) :=
      compared.push (length ▸ by decide) _
    generalize asked.pushReg .rbx = saving at pushed ⊢
    have popped := pushed.pop (show Reg.rbx ≠ .rsp by decide)
    have ready := ready_of_framed caller length popped
    have rsp := callerFrame_eq popped length
    rw [Machine.regs_pop_rsp _ _ (by decide)] at rsp ⊢
    simp only [Machine.mem_pop, Machine.mem_store, Machine.mem_set, Machine.regs_store, Machine.regs_set_self]
    rw [Machine.regs_set_other _ _ _ (by decide), Machine.regs_set_self, Machine.regs_set_other _ _ _ (by decide),
      Machine.regs_set_other _ _ _ (by decide), Machine.regs_set_other _ _ _ (by decide)]
    refine ⟨ready.same length (Same.setWord ?_) (Same.setWord caller.tssCurrent) (Same.setWord ?_), rsp⟩
    · exact caller.callerRoom.stackTss.symm
    · exact caller.room.fieldsTss.symm
  · exact ⟨ready_of_framed caller length compared, callerFrame_eq compared length⟩

theorem switchSave_saved (caller : Caller sym m thread) :
    ∃ rflags f, (∀ r ∈ calleeSaved, f r = m.regs r) ∧
      Saved (switchSave sym m).mem thread (callerFrame m) (savedWords (resumption sym m rflags) f 0) := by
  obtain ⟨rflags, framed, regs⟩ := switchFrame_framed caller
  have pushed := framed.pushRegs (show Reg.rsp ∉ pushaq by decide) (show 7 + 15 ≤ callWords by decide)
  rw [← List.map_reverse, ← popaq_eq] at pushed
  obtain ⟨ready, rsp⟩ := switchTss_ready caller rfl pushed
  refine ⟨rflags, (switchFrame sym m).regs, ?_, ?_⟩
  · intro r member
    apply regs
    · rintro rfl
      exact absurd member (by decide)
    · rintro rfl
      exact absurd member (by decide)
  · unfold switchSave
    dsimp only
    generalize switchTss sym ((switchFrame sym m).pushRegs pushaq) = switched at ready rsp ⊢
    rw [Machine.regs_set_self, Machine.regs_set_other _ _ _ (by decide), ready.current, rsp]
    have start := caller.callerRoom.fields.part (show 0 + 8 ≤ 0x18 by decide) (by decide)
    rw [show thread + BitVec.ofNat 64 0 = thread from BitVec.add_zero thread] at start
    refine ⟨Or.inr ⟨(word_congr (Same.setWord ?_)).trans ready.kernel, word_setWord⟩, ?_⟩
    · constructor
      · bv_omega
      · bv_omega
    · exact ready.stacked.congr (Same.setWord start.symm) (show 22 < 2 ^ 60 by decide)

end Save

theorem switchTo_saved {sym : Symbols} {m : Machine} {thread frame : BitVec 64} {words : List (BitVec 64)}
    (room : Room sym frame frameBytes thread) (length : words.length = frameWords)
    (saved : Saved m.mem thread frame words) (chosen : m.regs .rdi = thread) :
    ∃ paused, switchTo sym m = restore paused ∧ Stacked paused.mem (paused.regs .rsp) words := by
  refine ⟨_, rfl, ?_⟩
  have mem : (changeThread sym .rdi m).mem = setWord m.mem sym.currentThread (m.regs .rdi) := mem_changeThread .rdi
  have rdi : (changeThread sym .rdi m).regs .rdi = thread := by
    rw [regs_changeThread .rdi (by decide) (by decide), chosen]
  have current : word (changeThread sym .rdi m).mem sym.currentThread = thread := by
    rw [mem, word_setWord, chosen]
  have kept := saved.untouched length
    (mem ▸ Untouched.store room.stackCurrent room.fieldsCurrent : Untouched _ _ _ (changeThread sym .rdi m).mem)
  generalize changeThread sym .rdi m = entered at rdi current kept ⊢
  simp only [Machine.zf_cmp, Machine.regs_cmp, Machine.mem_cmp, Machine.mem_set, Machine.regs_set_self, current,
    dword_eq]
  rw [Machine.regs_set_other _ _ _ (by decide), rdi]
  rcases kept.kind with ⟨user, pointer⟩ | ⟨kernel, pointer⟩
  · rw [user, if_neg (by decide), Machine.regs_set_self, pointer]
    exact kept.stacked
  · rw [kernel, if_pos (by decide), Machine.regs_set_self, pointer]
    exact kept.stacked

inductive Restored (sym : Symbols) (thread : BitVec 64) (later : Machine) : Machine → Prop
  | stub : later.regs .rax = thread → Restored sym thread later (switchIn sym later)
  | switch : later.regs .rdi = thread → Restored sym thread later (switchTo sym later)

theorem Restored.paused {sym : Symbols} {m final : Machine} {thread frame : BitVec 64} {words : List (BitVec 64)}
    (restored : Restored sym thread m final) (room : Room sym frame frameBytes thread)
    (length : words.length = frameWords) (saved : Saved m.mem thread frame words) :
    ∃ paused, final = restore paused ∧ Stacked paused.mem (paused.regs .rsp) words := by
  cases restored with
  | stub chosen => exact switchIn_saved room length saved chosen
  | switch chosen => exact switchTo_saved room length saved chosen

theorem Caller.restored {sym : Symbols} {m later final : Machine} {thread : BitVec 64}
    {turns : List (Machine → Machine)} (caller : Caller sym m thread)
    (admitted : Admitted turn (leaves thread (callerFrame m)) (switchSave sym m) turns)
    (executed : run turn (switchSave sym m) turns = some later) (restored : Restored sym thread later final) :
    final.rip = word m.mem (m.regs .rsp) ∧ (∀ r ∈ calleeSaved, final.regs r = m.regs r) ∧
      final.regs .rsp = m.regs .rsp - 8 := by
  obtain ⟨rflags, f, kept, saved⟩ := switchSave_saved caller
  obtain ⟨paused, rfl, stacked⟩ := restored.paused caller.callerRoom rfl (saved.turns rfl admitted executed)
  obtain ⟨general, rsp, rip, _⟩ := restore_spec stacked
  refine ⟨rip, ?_, rsp⟩
  intro r member
  rw [general r (by rintro rfl; exact absurd member (by decide)), kept r member]

/-- A thread that called `Switch_To_Thread` never finds the stack as after a return: it goes on at the return address
    with the right registers, but its stack pointer is 16 too low. -/
theorem switch_to_thread_is_no_call (sym : Symbols) (m later final : Machine) (thread : BitVec 64)
    (turns : List (Machine → Machine)) (caller : Caller sym m thread)
    (admitted : Admitted turn (leaves thread (callerFrame m)) (switchSave sym m) turns)
    (executed : run turn (switchSave sym m) turns = some later) (restored : Restored sym thread later final) :
    final.rip = word m.mem (m.regs .rsp) ∧ (∀ r ∈ calleeSaved, final.regs r = m.regs r) ∧
      final.regs .rsp = m.regs .rsp - 8 ∧
      ¬ (final.rip = word m.mem (m.regs .rsp) ∧ (∀ r ∈ calleeSaved, final.regs r = m.regs r) ∧
        final.regs .rsp = m.regs .rsp + 8) := by
  obtain ⟨rip, kept, rsp⟩ := caller.restored admitted executed restored
  refine ⟨rip, kept, rsp, ?_⟩
  rintro ⟨_, _, returned⟩
  rw [rsp] at returned
  bv_omega

theorem example_caller : Caller exampleSymbols (exampleMachine 1 0x8 7) 0x2000 :=
  ⟨by decide, by decide, ⟨by decide, by decide, by decide, by decide, by decide, by decide⟩, by decide, by decide,
    by decide⟩

def chooses : List (Machine → Machine) := [fun m => m.set .rax 0x2000]

theorem chooses_admitted (frame : BitVec 64) (m : Machine) : Admitted turn (leaves 0x2000 frame) m chooses :=
  ⟨Untouched.refl _ _ _, fun _ _ => trivial⟩

def chosenAgain : Machine := (switchSave exampleSymbols (exampleMachine 1 0x8 7)).set .rax 0x2000

theorem chosenAgain_restored : Restored exampleSymbols 0x2000 chosenAgain (switchIn exampleSymbols chosenAgain) :=
  .stub (Machine.regs_set_self _ _ _)

theorem example_switch_resumed : (switchIn exampleSymbols chosenAgain).regs .rsp = 0x8FF8 :=
  (switch_to_thread_is_no_call exampleSymbols (exampleMachine 1 0x8 7) _ _ 0x2000 chooses
    example_caller (chooses_admitted _ _) rfl chosenAgain_restored).2.2.1

/-- The return address stood at `0x9000`, so a return leaves `0x9008`. -/
theorem switch_leaves_stack_too_low :
    (switchIn exampleSymbols chosenAgain).regs .rsp ≠ (exampleMachine 1 0x8 7).regs .rsp + 8 := by
  rw [(example_caller.restored (chooses_admitted _ _) rfl chosenAgain_restored).2.2]
  decide

end Sbunix.Switch
