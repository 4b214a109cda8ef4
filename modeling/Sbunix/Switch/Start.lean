import Sbunix.Switch.Call
import Sbunix.Switch.Fork

namespace Sbunix.Switch

open Library Library.X86

def push (mem : Memory) (thread value : BitVec 64) : Memory := pushAt thread mem value

def generalRegisters : List (BitVec 64) := List.replicate 15 0

def pushGeneralRegisters (mem : Memory) (thread : BitVec 64) : Memory :=
  generalRegisters.foldl (fun mem value => push mem thread value) mem

def pushUGeneralRegisters (mem : Memory) (thread : BitVec 64) : Memory :=
  generalRegisters.foldl (fun mem value => pushU mem thread value) mem

def pcr3Field (thread : BitVec 64) : BitVec 64 := thread + 0x18

def kstackField (thread : BitVec 64) : BitVec 64 := thread + 0x28

def initThread (mem : Memory) (thread stackPage cr3 : BitVec 64) : Memory :=
  let mem := setWord mem thread (stackPage + 0x1000)
  let mem := setWord mem (thread + 0x8) 1
  setWord mem (pcr3Field thread) cr3

def setupKthread (sym : Symbols) (launchThread threadExit : BitVec 64) (mem : Memory) (thread startFunc : BitVec 64)
    (arg : BitVec 16) : Memory :=
  let mem := push mem thread (arg.setWidth 64)
  let mem := push mem thread threadExit
  let mem := push mem thread startFunc
  let mem := push mem thread (word mem sym.kernDs)
  let mem := push mem thread (word mem thread + 0x8)
  let mem := push mem thread 0
  let mem := push mem thread (word mem sym.kernCs)
  let mem := push mem thread launchThread
  let mem := push mem thread 0
  let mem := push mem thread 0
  pushGeneralRegisters mem thread

def launchThread (m : Machine) : Machine := { m with rflags := m.rflags ||| 0x200 }.ret

def initThreadUser (mem : Memory) (thread stackPage cr3 : BitVec 64) (current : Bool) : Memory :=
  let mem := setWord mem thread (stackPage + 0x1000 - 0x8)
  let kstack := word mem (kstackField thread)
  let mem :=
    if current then setWord mem (krspField thread) (kstack - 0x8)
    else
      let mem := setWord mem (krspField thread) (kstack + 2 * 0x1000 - 0x8)
      setWord mem (kstackField thread) (kstack + 2 * 0x1000 - 0x8)
  let mem := setWord mem (thread + 0x8) 0
  setWord mem (pcr3Field thread) cr3

def setupKthreadUser (sym : Symbols) (mem : Memory) (thread startFunc : BitVec 64) : Memory :=
  let mem := pushU mem thread (word mem sym.userDs)
  let mem := pushU mem thread (word mem thread)
  let mem := pushU mem thread 0x200
  let mem := pushU mem thread (word mem sym.userCs)
  let mem := pushU mem thread startFunc
  let mem := pushU mem thread 0
  let mem := pushU mem thread 0
  pushUGeneralRegisters mem thread

structure StartRoom (sym : Symbols) (stack : BitVec 64) (length : Nat) (thread cs ds : BitVec 64) : Prop where
  room : Room sym stack length thread
  fields : Apart stack length thread 0x30
  current : Apart thread 0x30 sym.currentThread 8
  tss : Apart thread 0x30 (sym.tss + 4) 8
  stackCs : Apart stack length cs 8
  stackDs : Apart stack length ds 8
  fieldsCs : Apart thread 0x30 cs 8
  fieldsDs : Apart thread 0x30 ds 8

structure StartsAt (m : Machine) (rip cs rflags rsp ss cr3 : BitVec 64) : Prop where
  regs : ∀ r, r ≠ .rsp → m.regs r = 0
  rip : m.rip = rip
  cs : m.cs = cs
  rflags : m.rflags = rflags
  rsp : m.regs .rsp = rsp
  ss : m.ss = ss
  cr3 : m.cr3 = cr3

def keeps (ranges : List (BitVec 64 × Nat)) (m : Machine) (others : Machine → Machine) : Prop :=
  ∀ range ∈ ranges, Same (others m).mem m.mem range.1 range.2

theorem keeps_run {ranges : List (BitVec 64 × Nat)} {start later : Machine} {turns : List (Machine → Machine)}
    (admitted : Admitted turn (keeps ranges) start turns) (executed : run turn start turns = some later) :
    ∀ range ∈ ranges, Same later.mem start.mem range.1 range.2 := by
  apply run_preserves_admitted (fun m => ∀ range ∈ ranges, Same m.mem start.mem range.1 range.2) _ _ admitted executed
  · intro m others next same kept stepped range member
    cases stepped
    exact (kept range member).trans (same range member)
  · exact fun _ _ _ _ => rfl

section Restored

variable {sym : Symbols} {m final : Machine} {thread : BitVec 64}

theorem cr3_changeThread (r : Reg) : (changeThread sym r m).cr3 =
    word (setWord m.mem sym.currentThread (m.regs r)) (m.regs r + 0x18) := by
  have current : word (setWord m.mem sym.currentThread (m.regs r)) sym.currentThread = m.regs r := word_setWord
  unfold changeThread
  simp only [Machine.zf_cmp, Machine.mem_store, Machine.mem_set, current, beq_iff_eq]
  split
  · rename_i same
    rw [Machine.regs_set_self, Machine.regs_set_other _ _ _ (by decide), Machine.regs_set_self] at same
    exact same.symm
  · rw [Machine.regs_set_self, Machine.regs_cmp, Machine.regs_set_other _ _ _ (by decide), Machine.regs_set_self]
    rfl

theorem iretq_kept (m : Machine) : (m.add .rsp 0x10).iretq.mem = m.mem ∧ (m.add .rsp 0x10).iretq.cr3 = m.cr3 :=
  ⟨rfl, rfl⟩

theorem restore_kept (m : Machine) : (restore m).mem = m.mem ∧ (restore m).cr3 = m.cr3 := by
  obtain ⟨mem, cr3⟩ := iretq_kept (m.popRegs popaq)
  obtain ⟨poppedMem, poppedCr3⟩ := popRegs_kept m popaq
  exact ⟨mem.trans poppedMem, cr3.trans poppedCr3⟩

theorem loadRsp_kept (m : Machine) : (loadRsp m).mem = m.mem ∧ (loadRsp m).cr3 = m.cr3 := by
  unfold loadRsp
  dsimp only
  split
  · exact ⟨rfl, rfl⟩
  · exact ⟨rfl, rfl⟩

/-- The restore sequences write the current thread and the stack for interrupts only. -/
theorem Restored.same (restored : Restored sym thread m final) {start : BitVec 64} {length : Nat}
    (current : Apart sym.currentThread 8 start length) (tss : Apart (sym.tss + 4) 8 start length) :
    Same final.mem m.mem start length := by
  cases restored with
  | stub _ =>
    rw [switchIn, (restore_kept _).1, (loadRsp_kept _).1, mem_changeThread]
    exact (Same.setWord current).trans (storeTss_same tss)
  | switch _ =>
    unfold switchTo
    dsimp only
    rw [(restore_kept _).1]
    split
    · rw [Machine.mem_set, Machine.mem_cmp, Machine.mem_set, mem_changeThread]
      exact Same.setWord current
    · rw [Machine.mem_set, Machine.mem_cmp, Machine.mem_set, mem_changeThread]
      exact Same.setWord current

theorem Restored.cr3 (restored : Restored sym thread m final) (current : Apart sym.currentThread 8 (pcr3Field thread) 8)
    (tss : Apart (sym.tss + 4) 8 (pcr3Field thread) 8) : final.cr3 = word m.mem (pcr3Field thread) := by
  cases restored with
  | stub chosen =>
    have rax : (storeTss sym m).regs .rax = thread := (regs_storeTss (by decide) (by decide)).trans chosen
    rw [switchIn, (restore_kept _).2, (loadRsp_kept _).2, cr3_changeThread, rax]
    exact word_congr ((Same.setWord current).trans (storeTss_same tss))
  | switch chosen =>
    have entered : (changeThread sym .rdi m).cr3 = word m.mem (pcr3Field thread) := by
      rw [cr3_changeThread, chosen]
      exact word_congr (Same.setWord current)
    unfold switchTo
    dsimp only
    rw [(restore_kept _).2]
    split
    · exact entered
    · exact entered

theorem Restored.startsAt (restored : Restored sym thread m final) {frame rip cs rflags rsp ss : BitVec 64}
    (room : Room sym frame frameBytes thread) (current : Apart sym.currentThread 8 (pcr3Field thread) 8)
    (tss : Apart (sym.tss + 4) 8 (pcr3Field thread) 8)
    (saved : Saved m.mem thread frame (generalRegisters ++ [0, 0, rip, cs, rflags, rsp, ss])) :
    StartsAt final rip cs rflags rsp ss (word m.mem (pcr3Field thread)) := by
  have space := restored.cr3 current tss
  obtain ⟨paused, rfl, stacked⟩ := restored.paused room rfl saved
  have zeros : generalRegisters = popaq.map fun _ => 0 := rfl
  rw [zeros] at stacked
  obtain ⟨general, stack, rip, cs, rflags, ss⟩ := restore_words stacked
  exact ⟨general, rip, cs, rflags, stack, ss, space⟩

end Restored

section Setup

variable {sym : Symbols} {mem : Memory} {thread : BitVec 64}

variable (thread) in
theorem apart_first {offset : BitVec 64} (apart : Apart 0 8 offset 8) : Apart thread 8 (thread + offset) 8 := by
  have field := apart.add thread
  rwa [show thread + 0 = thread from BitVec.add_zero thread] at field

theorem word_setField {offset other value : BitVec 64} (apart : Apart offset 8 other 8) :
    word (setWord mem (thread + offset) value) (thread + other) = word mem (thread + other) :=
  word_congr (Same.setWord (apart.add thread))

theorem word_setField_first {offset value : BitVec 64} (apart : Apart 0 8 offset 8) :
    word (setWord mem (thread + offset) value) thread = word mem thread :=
  word_congr (Same.setWord (apart_first thread apart).symm)

theorem word_setFirst {offset value : BitVec 64} (apart : Apart 0 8 offset 8) :
    word (setWord mem thread value) (thread + offset) = word mem (thread + offset) :=
  word_congr (Same.setWord (apart_first thread apart))

theorem word_setField_outside {address offset value : BitVec 64} (apart : Apart thread 0x30 address 8)
    (inside : offset.toNat + 8 ≤ 0x30) : word (setWord mem (thread + offset) value) address = word mem address := by
  have field := (apart.symm.part inside (by decide)).symm
  rw [BitVec.ofNat_toNat, BitVec.setWidth_eq] at field
  exact word_congr (Same.setWord field)

theorem word_setFirst_outside {address value : BitVec 64} (apart : Apart thread 0x30 address 8) :
    word (setWord mem thread value) address = word mem address := by
  have first : Apart thread 8 address 8 := ⟨by have := apart.1; omega, apart.2⟩
  exact word_congr (Same.setWord first)

theorem StartRoom.field {stack cs ds : BitVec 64} {length offset : Nat} (room : StartRoom sym stack length thread cs ds)
    (inside : offset + 8 ≤ 0x30) : Apart stack length (thread + BitVec.ofNat 64 offset) 8 :=
  room.fields.part inside (by decide)

theorem StartRoom.rspField {stack cs ds : BitVec 64} {length : Nat} (room : StartRoom sym stack length thread cs ds) :
    Apart stack length thread 8 := by
  have field := room.field (show 0 + 8 ≤ 0x30 by decide)
  rwa [show thread + BitVec.ofNat 64 0 = thread from BitVec.add_zero thread] at field

/-- `setup_kthread` pushes what the switch restores, and above it what `Launch_Thread` and the function return to. -/
theorem setupKthread_filled (launch threadExit startFunc : BitVec 64) (arg : BitVec 16)
    (room : StartRoom sym (word mem thread - 200) 200 thread sym.kernCs sym.kernDs) :
    Filled mem thread (word mem thread - 200) 25 (setupKthread sym launch threadExit mem thread startFunc arg)
      (generalRegisters ++ [0, 0, launch, word mem sym.kernCs, 0, word mem thread - 24, word mem sym.kernDs,
        startFunc, threadExit, arg.setWidth 64]) := by
  have apart : Apart (word mem thread - 200) (8 * 25) thread 8 := room.rspField
  have fieldCs : Apart thread 8 sym.kernCs 8 := ⟨by have := room.fieldsCs.1; omega, by exact room.fieldsCs.2⟩
  have fieldDs : Apart thread 8 sym.kernDs 8 := ⟨by have := room.fieldsDs.1; omega, by exact room.fieldsDs.2⟩
  have first : Filled mem thread (word mem thread - 200) 25
      (pushAt thread (pushAt thread (pushAt thread mem (arg.setWidth 64)) threadExit) startFunc)
      [startFunc, threadExit, arg.setWidth 64] :=
    (Filled.start mem thread (show 25 < 2 ^ 60 by decide)).pushAll apart [arg.setWidth 64, threadExit, startFunc]
      (show 0 + 3 ≤ 25 by decide)
  unfold setupKthread push
  dsimp only
  generalize pushAt thread (pushAt thread (pushAt thread mem (arg.setWidth 64)) threadExit) startFunc = mem₁ at first ⊢
  rw [word_congr (first.same room.stackDs fieldDs)]
  have second := first.push apart (show 3 < 25 by decide) (word mem sym.kernDs)
  generalize pushAt thread mem₁ (word mem sym.kernDs) = mem₂ at second ⊢
  have pointer : word mem₂ thread + 0x8 = word mem thread - 24 := by
    rw [second.pointer]
    change word mem thread - 200 + BitVec.ofNat 64 (8 * (25 - 4)) + 0x8 = _
    bv_omega
  rw [pointer]
  have third := second.pushAll apart [word mem thread - 24, 0] (show 4 + 2 ≤ 25 by decide)
  change Filled _ _ _ _ (pushAt thread (pushAt thread mem₂ (word mem thread - 24)) 0) _ at third
  generalize pushAt thread (pushAt thread mem₂ (word mem thread - 24)) 0 = mem₃ at third ⊢
  rw [word_congr (third.same room.stackCs fieldCs)]
  have fourth := third.pushAll apart [word mem sym.kernCs, launch, 0, 0] (show 6 + 4 ≤ 25 by decide)
  exact fourth.pushAll apart generalRegisters (show 10 + 15 ≤ 25 by decide)

theorem setupKthreadUser_filled (startFunc : BitVec 64)
    (room : StartRoom sym (word mem (krspField thread) - 176) 176 thread sym.userCs sym.userDs) :
    Filled mem (krspField thread) (word mem (krspField thread) - 176) 22 (setupKthreadUser sym mem thread startFunc)
      (generalRegisters ++ [0, 0, startFunc, word mem sym.userCs, 0x200, word mem thread, word mem sym.userDs]) := by
  have apart : Apart (word mem (krspField thread) - 176) (8 * 22) (krspField thread) 8 :=
    room.field (show 0x10 + 8 ≤ 0x30 by decide)
  have fieldCs : Apart (krspField thread) 8 sym.userCs 8 :=
    (room.fieldsCs.symm.part (show 0x10 + 8 ≤ 0x30 by decide) (by decide)).symm
  have fieldRsp : Apart (krspField thread) 8 thread 8 := (apart_first thread (by decide)).symm
  have first := pushU_filled (Filled.start mem (krspField thread) (show 22 < 2 ^ 60 by decide)) apart
    (show 0 < 22 by decide) (word mem sym.userDs)
  unfold setupKthreadUser
  dsimp only
  generalize pushU mem thread (word mem sym.userDs) = mem₁ at first ⊢
  rw [word_congr (first.same room.rspField fieldRsp)]
  have second := first.pushAll apart [word mem thread, 0x200] (show 1 + 2 ≤ 22 by decide)
  change Filled _ _ _ _ (pushU (pushU mem₁ thread (word mem thread)) thread 0x200) _ at second
  generalize pushU (pushU mem₁ thread (word mem thread)) thread 0x200 = mem₂ at second ⊢
  rw [word_congr (second.same room.stackCs fieldCs)]
  have third := second.pushAll apart [word mem sym.userCs, startFunc, 0, 0] (show 3 + 4 ≤ 22 by decide)
  exact third.pushAll apart generalRegisters (show 7 + 15 ≤ 22 by decide)

theorem initThread_outside {address : BitVec 64} (stackPage cr3 : BitVec 64) (apart : Apart thread 0x30 address 8) :
    word (initThread mem thread stackPage cr3) address = word mem address := by
  unfold initThread pcr3Field
  simp (disch := decide) only [word_setField_outside apart, word_setFirst_outside apart]

theorem initThread_fields (mem : Memory) (thread stackPage cr3 : BitVec 64) :
    word (initThread mem thread stackPage cr3) thread = stackPage + 0x1000 ∧
      word (initThread mem thread stackPage cr3) (thread + 0x8) = 1 ∧
      word (initThread mem thread stackPage cr3) (pcr3Field thread) = cr3 := by
  unfold initThread pcr3Field
  refine ⟨?_, ?_, word_setWord⟩
  · simp (disch := decide) only [word_setField_first, word_setWord]
  · simp (disch := decide) only [word_setField, word_setWord]

theorem initThreadUser_outside {address : BitVec 64} (stackPage cr3 : BitVec 64) (current : Bool)
    (apart : Apart thread 0x30 address 8) :
    word (initThreadUser mem thread stackPage cr3 current) address = word mem address := by
  unfold initThreadUser pcr3Field krspField kstackField
  cases current with
  | true =>
    simp (disch := decide) only [if_true, word_setField_outside apart, word_setFirst_outside apart]
  | false =>
    simp (disch := decide) only [Bool.false_eq_true, if_false, word_setField_outside apart, word_setFirst_outside apart]

def initialKrsp (mem : Memory) (thread : BitVec 64) (current : Bool) : BitVec 64 :=
  if current then word mem (kstackField thread) - 0x8 else word mem (kstackField thread) + 2 * 0x1000 - 0x8

theorem initThreadUser_fields (mem : Memory) (thread stackPage cr3 : BitVec 64) (current : Bool) :
    word (initThreadUser mem thread stackPage cr3 current) thread = stackPage + 0x1000 - 0x8 ∧
      word (initThreadUser mem thread stackPage cr3 current) (thread + 0x8) = 0 ∧
      word (initThreadUser mem thread stackPage cr3 current) (krspField thread) = initialKrsp mem thread current ∧
      word (initThreadUser mem thread stackPage cr3 current) (pcr3Field thread) = cr3 := by
  unfold initThreadUser initialKrsp pcr3Field krspField kstackField
  refine ⟨?_, ?_, ?_, word_setWord⟩
  · cases current with
    | true => simp (disch := decide) only [if_true, word_setField_first, word_setWord]
    | false => simp (disch := decide) only [Bool.false_eq_true, if_false, word_setField_first, word_setWord]
  · simp (disch := decide) only [word_setField, word_setWord]
  · cases current with
    | true => simp (disch := decide) only [if_true, word_setField, word_setFirst, word_setWord]
    | false => simp (disch := decide) only [Bool.false_eq_true, if_false, word_setField, word_setFirst, word_setWord]

end Setup

section Starts

variable {sym : Symbols} {thread stack cs ds : BitVec 64} {length : Nat}

theorem StartRoom.currentPcr3 (room : StartRoom sym stack length thread cs ds) :
    Apart sym.currentThread 8 (pcr3Field thread) 8 :=
  room.current.symm.part (show 0x18 + 8 ≤ 0x30 by decide) (by decide)

theorem StartRoom.tssPcr3 (room : StartRoom sym stack length thread cs ds) :
    Apart (sym.tss + 4) 8 (pcr3Field thread) 8 :=
  room.tss.symm.part (show 0x18 + 8 ≤ 0x30 by decide) (by decide)

def kernelFrame (stackPage : BitVec 64) : BitVec 64 := stackPage + 0x1000 - 200

def startKthread (sym : Symbols) (launch threadExit : BitVec 64) (mem : Memory)
    (thread stackPage cr3 startFunc : BitVec 64) (arg : BitVec 16) : Memory :=
  setupKthread sym launch threadExit (initThread mem thread stackPage cr3) thread startFunc arg

theorem startKthread_filled (mem : Memory) {stackPage : BitVec 64} (launch threadExit cr3 startFunc : BitVec 64)
    (arg : BitVec 16) (room : StartRoom sym (kernelFrame stackPage) 200 thread sym.kernCs sym.kernDs) :
    Filled (initThread mem thread stackPage cr3) thread (kernelFrame stackPage) 25
      (startKthread sym launch threadExit mem thread stackPage cr3 startFunc arg)
      (generalRegisters ++ [0, 0, launch, word mem sym.kernCs, 0, stackPage + 0x1000 - 24, word mem sym.kernDs] ++
        [startFunc, threadExit, arg.setWidth 64]) := by
  have pointer : word (initThread mem thread stackPage cr3) thread = stackPage + 0x1000 :=
    (initThread_fields mem thread stackPage cr3).1
  rw [kernelFrame, ← pointer] at room
  have filled := setupKthread_filled launch threadExit startFunc arg room
  rw [initThread_outside stackPage cr3 room.fieldsCs, initThread_outside stackPage cr3 room.fieldsDs, pointer] at filled
  exact filled

theorem savedKernel_of_filled {before mem : Memory} {frame : BitVec 64} {size : Nat} {words rest : List (BitVec 64)}
    (filled : Filled before thread frame size mem (words ++ rest)) (full : (words ++ rest).length = size)
    (kind : word mem (thread + 0x8) = 1) : Saved mem thread frame words := by
  have pointer : word mem thread = frame := by
    rw [filled.pointer, full, Nat.sub_self]
    exact BitVec.add_zero frame
  have stacked := filled.stacked
  rw [pointer] at stacked
  exact ⟨Or.inr ⟨kind, pointer⟩, stacked.split.1⟩

theorem StartsAt.launch {m : Machine} {launch startFunc rsp ss cr3 : BitVec 64}
    (starts : StartsAt m launch cs 0 rsp ss cr3)
    (next : word m.mem rsp = startFunc) : StartsAt (launchThread m) startFunc cs 0x200 (rsp + 8) ss cr3 where
  regs r general := (Machine.regs_set_other _ _ _ general).trans (starts.regs r general)
  rip := by
    rw [← next, ← starts.rsp]
    rfl
  cs := starts.cs
  rflags := by
    change m.rflags ||| 0x200 = _
    rw [starts.rflags]
    rfl
  rsp := by
    rw [← starts.rsp]
    exact Machine.regs_set_self { m with rflags := m.rflags ||| 0x200 } .rsp _
  ss := starts.ss
  cr3 := starts.cr3

/-- A new kernel thread begins in `Launch_Thread`, which enables interrupts and returns to its function. The function
    returns to `thread_exit`. Its argument is on the stack only, and `rdi` is 0. -/
theorem kernel_thread_starts (sym : Symbols) (launch threadExit : BitVec 64) (mem : Memory)
    (thread stackPage cr3 startFunc : BitVec 64) (arg : BitVec 16) (start later final : Machine)
    (turns : List (Machine → Machine))
    (room : StartRoom sym (kernelFrame stackPage) 200 thread sym.kernCs sym.kernDs)
    (created : start.mem = startKthread sym launch threadExit mem thread stackPage cr3 startFunc arg)
    (admitted : Admitted turn (keeps [(kernelFrame stackPage, 200), (thread, 0x20)]) start turns)
    (executed : run turn start turns = some later) (restored : Restored sym thread later final) :
    StartsAt final launch (word mem sym.kernCs) 0 (stackPage + 0x1000 - 24) (word mem sym.kernDs) cr3 ∧
      StartsAt (launchThread final) startFunc (word mem sym.kernCs) 0x200 (stackPage + 0x1000 - 16)
        (word mem sym.kernDs) cr3 ∧
      Stacked (launchThread final).mem ((launchThread final).regs .rsp) [threadExit, arg.setWidth 64] := by
  have kept := keeps_run admitted executed
  have frameKept : Same later.mem start.mem (kernelFrame stackPage) 200 := kept (_, _) List.mem_cons_self
  have fieldsKept : Same later.mem start.mem thread 0x20 :=
    kept (_, _) (List.mem_cons_of_mem _ List.mem_cons_self)
  obtain ⟨_, kind, space⟩ := initThread_fields mem thread stackPage cr3
  have filled := startKthread_filled mem launch threadExit cr3 startFunc arg room
  rw [← created] at filled
  have startKind : word start.mem (thread + 0x8) = 1 :=
    (word_congr (filled.same (room.field (show 8 + 8 ≤ 0x30 by decide)) (apart_first thread (by decide)))).trans kind
  have startSpace : word start.mem (pcr3Field thread) = cr3 :=
    (word_congr (filled.same (room.field (show 0x18 + 8 ≤ 0x30 by decide))
      (apart_first thread (by decide)))).trans space
  have laterSpace : word later.mem (pcr3Field thread) = cr3 :=
    (word_congr (fieldsKept.part (show 0x18 + 8 ≤ 0x20 by decide) (by decide))).trans startSpace
  have saved := (savedKernel_of_filled filled rfl startKind).untouched rfl
    ⟨fun x inside => frameKept x (by unfold frameBytes frameWords at inside; omega),
      fun x inside => fieldsKept x (by omega)⟩
  have frameRoom := room.room.part (show 0 + frameBytes ≤ 200 by decide) (by decide)
  rw [show kernelFrame stackPage + BitVec.ofNat 64 0 = kernelFrame stackPage from BitVec.add_zero _] at frameRoom
  have starts := restored.startsAt frameRoom room.currentPcr3 room.tssPcr3 saved
  rw [laterSpace] at starts
  have finalKept : Same final.mem start.mem (kernelFrame stackPage) 200 :=
    (restored.same room.room.stackCurrent.symm room.room.stackTss.symm).trans frameKept
  have above := filled.above rfl finalKept
  change Stacked final.mem (kernelFrame stackPage + BitVec.ofNat 64 (8 * 22)) _ at above
  rw [show kernelFrame stackPage + BitVec.ofNat 64 (8 * 22) = stackPage + 0x1000 - 24 by
    unfold kernelFrame; bv_omega] at above
  have launched := starts.launch above.1
  rw [show stackPage + 0x1000 - 24 + 8 = stackPage + 0x1000 - 16 by bv_omega] at launched
  refine ⟨starts, launched, ?_⟩
  rw [launched.rsp, show stackPage + 0x1000 - 16 = stackPage + 0x1000 - 24 + 8 by bv_omega]
  exact above.2

theorem exampleStart_room :
    StartRoom exampleSymbols (kernelFrame 0x5000) 200 0x4000 exampleSymbols.kernCs exampleSymbols.kernDs :=
  ⟨⟨by decide, by decide, by decide, by decide, by decide, by decide⟩, by decide, by decide, by decide, by decide,
    by decide, by decide, by decide⟩

theorem keeps_set (ranges : List (BitVec 64 × Nat)) (m : Machine) (r : Reg) (value : BitVec 64) :
    Admitted turn (keeps ranges) m [fun m => m.set r value] :=
  ⟨fun _ _ _ _ => rfl, fun _ _ => trivial⟩

theorem exists_mem (mem : Memory) : ∃ m : Machine, m.mem = mem := ⟨{ exampleMachine 1 0x8 7 with mem }, rfl⟩

theorem exampleStart_runs : ∃ start : Machine,
    start.mem = startKthread exampleSymbols 0x3000 0x3100 (exampleMemory 1) 0x4000 0x5000 0x7000 0x3200 9 ∧
      (launchThread (switchIn exampleSymbols (start.set .rax 0x4000))).rip = 0x3200 := by
  obtain ⟨start, created⟩ :=
    exists_mem (startKthread exampleSymbols 0x3000 0x3100 (exampleMemory 1) 0x4000 0x5000 0x7000 0x3200 9)
  exact ⟨start, created, (kernel_thread_starts exampleSymbols 0x3000 0x3100 (exampleMemory 1) 0x4000 0x5000 0x7000
    0x3200 9 start _ _ [fun m => m.set .rax 0x4000] exampleStart_room created (keeps_set _ _ _ _) rfl
    (.stub (Machine.regs_set_self _ _ _))).2.1.rip⟩

def userRanges (thread frame : BitVec 64) : List (BitVec 64 × Nat) := [(frame, frameBytes), (thread + 0x8, 0x18)]

/-- A user thread that has been set up and is chosen begins at its entry point, also when the field `rsp` has been
    written in the meantime. -/
theorem Restored.startsUser {before : Memory} {start later final : Machine} {frame entry : BitVec 64}
    (restored : Restored sym thread later final)
    (room : StartRoom sym frame 176 thread sym.userCs sym.userDs)
    (pointer : word before (krspField thread) - 176 = frame)
    (kind : word before (thread + 0x8) = 0) (created : start.mem = setupKthreadUser sym before thread entry)
    (kept : ∀ range ∈ userRanges thread frame, Same later.mem start.mem range.1 range.2) :
    StartsAt final entry (word before sym.userCs) 0x200 (word before thread) (word before sym.userDs)
      (word before (pcr3Field thread)) := by
  have frameKept : Same later.mem start.mem frame frameBytes := kept (_, _) List.mem_cons_self
  have fieldsKept : Same later.mem start.mem (thread + 0x8) 0x18 :=
    kept (_, _) (List.mem_cons_of_mem _ List.mem_cons_self)
  subst pointer
  have filled := setupKthreadUser_filled entry room
  rw [← created] at filled
  have krsp : word start.mem (krspField thread) = word before (krspField thread) - 176 :=
    filled.pointer.trans (BitVec.add_zero _)
  have startKind : word start.mem (thread + 0x8) = 0 :=
    (word_congr (filled.same (room.field (show 8 + 8 ≤ 0x30 by decide)) (Apart.add thread (by decide)))).trans kind
  have startSpace : word start.mem (pcr3Field thread) = word before (pcr3Field thread) :=
    word_congr (filled.same (room.field (show 0x18 + 8 ≤ 0x30 by decide)) (Apart.add thread (by decide)))
  have keptKind : word later.mem (thread + 0x8) = word start.mem (thread + 0x8) :=
    word_congr fun x inside => fieldsKept x (by omega)
  have keptKrsp : word later.mem (krspField thread) = word start.mem (krspField thread) := by
    have same := word_congr (fieldsKept.part (show 8 + 8 ≤ 0x18 by decide) (by decide))
    rwa [show thread + 0x8 + BitVec.ofNat 64 8 = krspField thread by unfold krspField; bv_omega] at same
  have keptSpace : word later.mem (pcr3Field thread) = word start.mem (pcr3Field thread) := by
    have same := word_congr (fieldsKept.part (show 16 + 8 ≤ 0x18 by decide) (by decide))
    rwa [show thread + 0x8 + BitVec.ofNat 64 16 = pcr3Field thread by unfold pcr3Field; bv_omega] at same
  have stacked := filled.stacked
  rw [krsp] at stacked
  have saved : Saved later.mem thread (word before (krspField thread) - 176) _ :=
    ⟨Or.inl ⟨keptKind.trans startKind, keptKrsp.trans krsp⟩, stacked.congr frameKept (show 22 < 2 ^ 60 by decide)⟩
  have starts := restored.startsAt room.room room.currentPcr3 room.tssPcr3 saved
  rwa [keptSpace, startSpace] at starts

/-- The loader of a program leaves the thread and the selectors alone. -/
structure Loads (sym : Symbols) (thread : BitVec 64) (before loaded : Memory) : Prop where
  fields : Same loaded before thread 0x30
  userCs : Same loaded before sym.userCs 8
  userDs : Same loaded before sym.userDs 8

theorem Loads.refl (sym : Symbols) (thread : BitVec 64) (mem : Memory) : Loads sym thread mem mem :=
  ⟨fun _ _ => rfl, fun _ _ => rfl, fun _ _ => rfl⟩

theorem Restored.startsProgram {mem loaded : Memory} {start later final : Machine} {stackPage cr3 entry : BitVec 64}
    {current : Bool} (restored : Restored sym thread later final)
    (room : StartRoom sym (initialKrsp mem thread current - 176) 176 thread sym.userCs sym.userDs)
    (loads : Loads sym thread (initThreadUser mem thread stackPage cr3 current) loaded)
    (created : start.mem = setupKthreadUser sym loaded thread entry)
    (kept : ∀ range ∈ userRanges thread (initialKrsp mem thread current - 176),
      Same later.mem start.mem range.1 range.2) :
    StartsAt final entry (word mem sym.userCs) 0x200 (stackPage + 0x1000 - 0x8) (word mem sym.userDs) cr3 := by
  obtain ⟨rsp, kind, krsp, space⟩ := initThreadUser_fields mem thread stackPage cr3 current
  have field {offset : Nat} (inside : offset + 8 ≤ 0x30) := word_congr (loads.fields.part inside (by decide))
  have loadedKind : word loaded (thread + 0x8) = 0 := (field (show 0x8 + 8 ≤ 0x30 by decide)).trans kind
  have loadedKrsp : word loaded (krspField thread) = initialKrsp mem thread current :=
    (field (show 0x10 + 8 ≤ 0x30 by decide)).trans krsp
  have loadedSpace : word loaded (pcr3Field thread) = cr3 := (field (show 0x18 + 8 ≤ 0x30 by decide)).trans space
  have loadedRsp : word loaded thread = stackPage + 0x1000 - 0x8 :=
    (word_congr fun x inside => loads.fields x (by omega)).trans rsp
  have starts := restored.startsUser room (congrArg (· - 176) loadedKrsp) loadedKind created kept
  rwa [loadedSpace, loadedRsp, word_congr loads.userCs, word_congr loads.userDs,
    initThreadUser_outside stackPage cr3 current room.fieldsCs,
    initThreadUser_outside stackPage cr3 current room.fieldsDs] at starts

/-- A new user thread begins at the entry point of its program, in user mode, with interrupts enabled, with its own
    address space and at the top of the user stack. -/
theorem user_thread_starts (sym : Symbols) (mem loaded : Memory) (thread stackPage cr3 entry : BitVec 64)
    (start later final : Machine) (turns : List (Machine → Machine))
    (room : StartRoom sym (initialKrsp mem thread false - 176) 176 thread sym.userCs sym.userDs)
    (loads : Loads sym thread (initThreadUser mem thread stackPage cr3 false) loaded)
    (created : start.mem = setupKthreadUser sym loaded thread entry)
    (admitted : Admitted turn (keeps (userRanges thread (initialKrsp mem thread false - 176))) start turns)
    (executed : run turn start turns = some later) (restored : Restored sym thread later final) :
    StartsAt final entry (word mem sym.userCs) 0x200 (stackPage + 0x1000 - 0x8) (word mem sym.userDs) cr3 :=
  restored.startsProgram room loads created (keeps_run admitted executed)

theorem exampleUser_room : StartRoom exampleSymbols (initialKrsp (exampleMemory 1) 0x4000 false - 176) 176 0x4000
    exampleSymbols.userCs exampleSymbols.userDs :=
  ⟨⟨by decide, by decide, by decide, by decide, by decide, by decide⟩, by decide, by decide, by decide, by decide,
    by decide, by decide, by decide⟩

theorem exampleUser_runs : ∃ start : Machine,
    start.mem = setupKthreadUser exampleSymbols (initThreadUser (exampleMemory 1) 0x4000 0xBFF000 0x7000 false) 0x4000
        0x400000 ∧
      (switchIn exampleSymbols (start.set .rax 0x4000)).rip = 0x400000 := by
  obtain ⟨start, created⟩ := exists_mem
    (setupKthreadUser exampleSymbols (initThreadUser (exampleMemory 1) 0x4000 0xBFF000 0x7000 false) 0x4000 0x400000)
  exact ⟨start, created, (user_thread_starts exampleSymbols (exampleMemory 1) _ 0x4000 0xBFF000 0x7000 0x400000
    start _ _ [fun m => m.set .rax 0x4000] exampleUser_room (Loads.refl _ _ _) created (keeps_set _ _ _ _) rfl
    (.stub (Machine.regs_set_self _ _ _))).rip⟩

end Starts

section Replaced

variable {sym : Symbols} {m called : Machine} {before : Memory} {frame : BitVec 64} {size : Nat}
  {values : List (BitVec 64)}

variable (sym) in
theorem pushSelector_pushes (kernel user : BitVec 64) (framed : Framed before frame size called values)
    (room : values.length < size) :
    ∃ value, Framed before frame size (pushSelector sym kernel user called) (value :: values) := by
  have saved : Framed before frame size (called.pushReg .rax) (called.regs .rax :: values) := framed.push room _
  unfold pushSelector
  dsimp only
  generalize called.pushReg .rax = pushed at saved
  let current := (pushed.set .rax sym.currentThread).set .rax
    (word (pushed.set .rax sym.currentThread).mem ((pushed.set .rax sym.currentThread).regs .rax))
  have asking : Framed before frame size (current.cmp (word current.mem (current.regs .rax + 0x8)) 0)
      (called.regs .rax :: values) := saved.congr rfl rfl
  have popped := asking.pop (show Reg.rax ≠ .rsp by decide)
  split
  · exact ⟨_, popped.push room _⟩
  · exact ⟨_, popped.push room _⟩

/-- `Switch_To_Thread` writes its frame only, up to `PUSHAQ`. -/
theorem switchFrame_pushes (sym : Symbols) (m : Machine) :
    ∃ words, words.length = 7 ∧ Framed m.mem (callFrame m) callWords (switchFrame sym m) words := by
  obtain ⟨selector, selected⟩ := pushSelector_pushes sym sym.kernDs sym.userDs (callFrame_framed m)
    (show 0 < callWords by decide)
  unfold switchFrame
  dsimp only
  generalize pushSelector sym sym.kernDs sym.userDs m = first at selected ⊢
  have pushed := (selected.push (show 1 < callWords by decide) (first.regs .rsp)).push (show 2 < callWords by decide)
    ((first.pushReg .rsp).regs .rax)
  have moved := (moveReturn_framed pushed).1
  have flagged := moved.drop.push (show 2 < callWords by decide) ((moveReturn ((first.pushReg .rsp).pushReg .rax)).add
    .rsp 0x8).rflags
  obtain ⟨code, coded⟩ := pushSelector_pushes sym sym.kernCs sym.userCs flagged (show 3 < callWords by decide)
  have extended := coded.extend (show 4 < callWords by decide) rfl
  exact ⟨_, rfl, (extended.push (show 5 < callWords by decide) 0x0).push (show 6 < callWords by decide) 0x0⟩

structure Spared (sym : Symbols) (m : Machine) (start : BitVec 64) (length : Nat) : Prop where
  frame : Apart (callFrame m) (8 * callWords) start length
  tss : Apart (sym.tss + 4) 8 start length

theorem switchTss_same {start : BitVec 64} {length : Nat} (spared : Spared sym m start length)
    (framed : Framed m.mem (callFrame m) callWords called values) (room : values.length < callWords) :
    Same (switchTss sym called).mem m.mem start length := by
  unfold switchTss
  dsimp only
  split
  · have pushed := framed.push room (called.regs .rbx)
    refine Same.trans ?_ (pushed.same spared.frame)
    simp only [Machine.mem_pop, Machine.mem_store, Machine.mem_set, Machine.regs_set_self]
    rw [Machine.regs_set_other _ _ _ (by decide), Machine.regs_set_self]
    exact Same.setWord spared.tss
  · exact framed.same spared.frame

/-- The stack pointer goes to the field `rsp`, also for a user thread. -/
theorem switchSave_same {start : BitVec 64} {length : Nat} (spared : Spared sym m start length)
    (current : Spared sym m sym.currentThread 8) (pointer : Apart (word m.mem sym.currentThread) 8 start length) :
    Same (switchSave sym m).mem m.mem start length := by
  obtain ⟨words, size, framed⟩ := switchFrame_pushes sym m
  have pushed := framed.pushRegs (show Reg.rsp ∉ pushaq by decide) (size ▸ show 7 + 15 ≤ callWords by decide)
  have room : ((pushaq.map (switchFrame sym m).regs).reverse ++ words).length < callWords := by
    rw [List.length_append, List.length_reverse, List.length_map, size]
    decide
  have found : word (switchTss sym ((switchFrame sym m).pushRegs pushaq)).mem sym.currentThread =
      word m.mem sym.currentThread := word_congr (switchTss_same current pushed room)
  have same := switchTss_same spared pushed room
  unfold switchSave
  dsimp only
  rw [Machine.mem_store, Machine.mem_set, Machine.regs_set_self, found]
  exact (Same.setWord pointer).trans same

structure Replacing (sym : Symbols) (m : Machine) (thread frame : BitVec 64) : Prop where
  current : word m.mem sym.currentThread = thread
  frame : Spared sym m frame frameBytes
  fields : Spared sym m (thread + 0x8) 0x18
  pointer : Spared sym m sym.currentThread 8

theorem Replacing.saves {thread : BitVec 64} {cs ds : BitVec 64} (replacing : Replacing sym m thread frame)
    (room : StartRoom sym frame frameBytes thread cs ds) :
    ∀ range ∈ userRanges thread frame, Same (switchSave sym m).mem m.mem range.1 range.2 := by
  intro range member
  rcases List.mem_cons.mp member with rfl | member
  · apply switchSave_same replacing.frame replacing.pointer
    rw [replacing.current]
    exact room.rspField.symm
  · rw [List.mem_singleton] at member
    subst member
    apply switchSave_same replacing.fields replacing.pointer
    rw [replacing.current]
    constructor
    · bv_omega
    · bv_omega

/-- The words that `execve` pushes for the new program replace the ones that the system call saved for the old one. -/
theorem initialKrsp_interruptFrame {mem : Memory} {thread : BitVec 64} (user : m.cs &&& 3 ≠ 0)
    (rsp0 : word m.mem (sym.tss + 4) = word mem (kstackField thread))
    (aligned : word mem (kstackField thread) &&& 0xF = 8) :
    initialKrsp mem thread true - 176 = interruptFrame sym m := by
  rw [interruptFrame, Machine.handlerStack, if_pos user, rsp0, initialKrsp, if_pos rfl]
  have whole := and_not_add_and (word mem (kstackField thread)) 0xF
  rw [aligned] at whole
  generalize word mem (kstackField thread) &&& ~~~0xF = base at whole
  rw [← whole, BitVec.add_sub_cancel]
  rfl

/-- A thread whose `execve` has loaded a program does not go on with the old one. When it is chosen again it begins the
    new one, from the words that the system call had saved for the old one. -/
theorem execve_starts_program (sym : Symbols) (mem loaded : Memory) (thread stackPage cr3 entry : BitVec 64)
    (start m later final : Machine) (earlier turns : List (Machine → Machine))
    (room : StartRoom sym (initialKrsp mem thread true - 176) 176 thread sym.userCs sym.userDs)
    (loads : Loads sym thread (initThreadUser mem thread stackPage cr3 true) loaded)
    (created : start.mem = setupKthreadUser sym loaded thread entry)
    (queued : Admitted turn (keeps (userRanges thread (initialKrsp mem thread true - 176))) start earlier)
    (called : run turn start earlier = some m) (replacing : Replacing sym m thread (initialKrsp mem thread true - 176))
    (admitted : Admitted turn (keeps (userRanges thread (initialKrsp mem thread true - 176))) (switchSave sym m) turns)
    (executed : run turn (switchSave sym m) turns = some later) (restored : Restored sym thread later final) :
    StartsAt final entry (word mem sym.userCs) 0x200 (stackPage + 0x1000 - 0x8) (word mem sym.userDs) cr3 ∧
      ∀ old : Machine, old.cs &&& 3 ≠ 0 → word old.mem (sym.tss + 4) = word mem (kstackField thread) →
        word mem (kstackField thread) &&& 0xF = 8 → initialKrsp mem thread true - 176 = interruptFrame sym old := by
  refine ⟨restored.startsProgram room loads created ?_, fun old => initialKrsp_interruptFrame⟩
  intro range member
  exact ((keeps_run admitted executed range member).trans (replacing.saves room range member)).trans
    (keeps_run queued called range member)

def exampleProcess : Memory := setWord (exampleMemory 0) 0x2028 0x8FF8

theorem exampleProcess_room : StartRoom exampleSymbols (initialKrsp exampleProcess 0x2000 true - 176) 176 0x2000
    exampleSymbols.userCs exampleSymbols.userDs :=
  ⟨⟨by decide, by decide, by decide, by decide, by decide, by decide⟩, by decide, by decide, by decide, by decide,
    by decide, by decide, by decide⟩

theorem exampleProcess_replacing {start : Machine}
    (created : start.mem = setupKthreadUser exampleSymbols
      (initThreadUser exampleProcess 0x2000 0xBFF000 0x7000 true) 0x2000 0x401000) :
    Replacing exampleSymbols (start.set .rsp 0x8800) 0x2000 (initialKrsp exampleProcess 0x2000 true - 176) := by
  have room := exampleProcess_room
  have krsp := (initThreadUser_fields exampleProcess 0x2000 0xBFF000 0x7000 true).2.2.1
  rw [← krsp] at room
  have filled := setupKthreadUser_filled 0x401000 room
  have field := (room.current.symm.part (show 0x10 + 8 ≤ 0x30 by decide) (by decide)).symm
  have frame : callFrame (start.set .rsp 0x8800) = 0x8748 := by
    rw [callFrame, Machine.regs_set_self]
    decide
  have spared {address : BitVec 64} {length : Nat} (apart : Apart 0x8748 (8 * callWords) address length)
      (tss : Apart (exampleSymbols.tss + 4) 8 address length) :
      Spared exampleSymbols (start.set .rsp 0x8800) address length := ⟨frame ▸ apart, tss⟩
  refine ⟨?_, spared (by decide) (by decide), spared (by decide) (by decide), spared (by decide) (by decide)⟩
  calc word start.mem exampleSymbols.currentThread
    _ = word (initThreadUser exampleProcess 0x2000 0xBFF000 0x7000 true) exampleSymbols.currentThread := by
      rw [created]
      exact word_congr (filled.same room.room.stackCurrent field)
    _ = word exampleProcess exampleSymbols.currentThread := initThreadUser_outside _ _ _ room.current
    _ = 0x2000 := by decide

theorem exampleProcess_runs : ∃ start : Machine,
    start.mem = setupKthreadUser exampleSymbols (initThreadUser exampleProcess 0x2000 0xBFF000 0x7000 true) 0x2000
        0x401000 ∧
      (switchIn exampleSymbols ((switchSave exampleSymbols (start.set .rsp 0x8800)).set .rax 0x2000)).rip =
        0x401000 := by
  obtain ⟨start, created⟩ := exists_mem
    (setupKthreadUser exampleSymbols (initThreadUser exampleProcess 0x2000 0xBFF000 0x7000 true) 0x2000 0x401000)
  exact ⟨start, created, (execve_starts_program exampleSymbols exampleProcess _ 0x2000 0xBFF000 0x7000 0x401000
    start _ _ _ [fun m => m.set .rsp 0x8800] [fun m => m.set .rax 0x2000] exampleProcess_room (Loads.refl _ _ _) created
    (keeps_set _ _ _ _) rfl (exampleProcess_replacing created) (keeps_set _ _ _ _) rfl
    (.stub (Machine.regs_set_self _ _ _))).1.rip⟩

end Replaced

end Sbunix.Switch
