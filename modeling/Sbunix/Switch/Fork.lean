import Sbunix.Switch.Frames

namespace Sbunix.Switch

open Library Library.X86

inductive RegsField where
  | general (r : Reg)
  | intNo | errCode | rip | cs | rflags | rsp | ss
  deriving DecidableEq

def registers : List RegsField :=
  popaq.map .general ++ [.intNo, .errCode, .rip, .cs, .rflags, .rsp, .ss]

def RegsField.offset (field : RegsField) : Nat := 8 * registers.idxOf field

def readField (mem : Memory) (r : BitVec 64) (field : RegsField) : BitVec 64 :=
  word mem (r + BitVec.ofNat 64 field.offset)

def krspField (thread : BitVec 64) : BitVec 64 := thread + 0x10

/-- The field is an `int` in a `uint64_t`. -/
def readPid (mem : Memory) (thread : BitVec 64) : BitVec 64 := (dword mem (thread + 0xA4)).signExtend 64

def pushU (mem : Memory) (thread value : BitVec 64) : Memory := pushAt (krspField thread) mem value

def pushFields (thread r : BitVec 64) (mem : Memory) (fields : List RegsField) : Memory :=
  fields.foldl (fun mem field => pushU mem thread (readField mem r field)) mem

def forkInt (mem : Memory) (thread r : BitVec 64) : Memory :=
  let pid := readPid mem thread
  let mem := pushU mem thread 0x23
  let mem := pushFields thread r mem [.rsp, .rflags, .cs, .rip, .intNo, .errCode]
  let mem := pushU mem thread pid
  pushFields thread r mem
    ([.rbx, .rcx, .rdx, .rbp, .rdi, .rsi, .r8, .r9, .r10, .r11, .r12, .r13, .r14, .r15].map .general)

structure ForkRoom (thread r frame : BitVec 64) : Prop where
  stackField : Apart frame frameBytes (krspField thread) 8
  stackRegs : Apart frame frameBytes r frameBytes
  fieldRegs : Apart (krspField thread) 8 r frameBytes

section Push

variable {before mem : Memory} {thread r frame : BitVec 64} {values : List (BitVec 64)}

theorem pushU_filled {size : Nat} (filled : Filled before (krspField thread) frame size mem values)
    (apart : Apart frame (8 * size) (krspField thread) 8) (room : values.length < size) (value : BitVec 64) :
    Filled before (krspField thread) frame size (pushU mem thread value) (value :: values) :=
  filled.push apart room value

theorem readField_filled (filled : Filled before (krspField thread) frame frameWords mem values)
    (room : ForkRoom thread r frame) {field : RegsField} (known : field ∈ registers) :
    readField mem r field = readField before r field := by
  have index := List.idxOf_lt_length_of_mem known
  change _ < 22 at index
  apply word_congr
  exact (filled.same room.stackRegs room.fieldRegs).part (show 8 * registers.idxOf field + 8 ≤ 176 by omega) (by decide)

/-- The fields are those of the parent, also while they are pushed. -/
theorem pushFields_filled (filled : Filled before (krspField thread) frame frameWords mem values)
    (room : ForkRoom thread r frame) (fields : List RegsField) (known : ∀ field ∈ fields, field ∈ registers)
    (free : values.length + fields.length ≤ frameWords) :
    Filled before (krspField thread) frame frameWords (pushFields thread r mem fields)
      ((fields.map (readField before r)).reverse ++ values) := by
  induction fields generalizing mem values with
  | nil => exact filled
  | cons field fields ih =>
    rw [List.length_cons] at free
    have first := pushU_filled filled room.stackField (by omega) (readField before r field)
    have rest := ih first (fun other member => known other (List.mem_cons_of_mem _ member))
      (by rw [List.length_cons]; omega)
    rw [List.map_cons, List.reverse_cons, List.append_assoc]
    change Filled before _ _ _ (pushFields thread r (pushU mem thread (readField mem r field)) fields) _
    rw [readField_filled filled room (known field List.mem_cons_self)]
    exact rest

end Push

def childRegs (mem : Memory) (thread r : BitVec 64) (reg : Reg) : BitVec 64 :=
  if reg = .rax then readPid mem thread else readField mem r (.general reg)

theorem forkInt_filled {mem : Memory} {thread r : BitVec 64}
    (room : ForkRoom thread r (word mem (krspField thread) - BitVec.ofNat 64 frameBytes)) :
    Filled mem (krspField thread) (word mem (krspField thread) - BitVec.ofNat 64 frameBytes) frameWords
      (forkInt mem thread r)
      (popaq.map (childRegs mem thread r) ++ [readField mem r .errCode, readField mem r .intNo, readField mem r .rip,
        readField mem r .cs, readField mem r .rflags, readField mem r .rsp, 0x23]) := by
  have start := Filled.start mem (krspField thread) (show frameWords < 2 ^ 60 by decide)
  have segment := pushU_filled start room.stackField (by decide) 0x23
  have state := pushFields_filled segment room [.rsp, .rflags, .cs, .rip, .intNo, .errCode] (by decide) (by decide)
  have result := pushU_filled state room.stackField (show 7 < 22 by decide) (readPid mem thread)
  have general := pushFields_filled result room ([.rbx, .rcx, .rdx, .rbp, .rdi, .rsi, .r8, .r9, .r10, .r11, .r12, .r13,
    .r14, .r15].map .general) (by decide) (show 8 + 14 ≤ 22 by decide)
  exact general

theorem rsp_popRegs {m : Machine} {rs : List Reg} (general : .rsp ∉ rs) :
    (m.popRegs rs).regs .rsp = m.regs .rsp + BitVec.ofNat 64 (8 * rs.length) := by
  induction rs generalizing m with
  | nil => exact (BitVec.add_zero _).symm
  | cons first rs ih =>
    rw [List.mem_cons, not_or] at general
    change ((m.pop first).popRegs rs).regs .rsp = _
    rw [ih general.2, Machine.regs_pop_rsp m first (Ne.symm general.1), List.length_cons]
    bv_omega

/-- A child that is restored from the frame of `fork_int` goes on with the registers of its parent, apart from its
    own `pid` in `rax`, and the frame is all that its kernel stack held. -/
theorem forked_child_resumes (mem : Memory) (thread r : BitVec 64) (m : Machine)
    (room : ForkRoom thread r (word mem (krspField thread) - BitVec.ofNat 64 frameBytes))
    (forked : m.mem = forkInt mem thread r) :
    let paused := m.set .rsp (word m.mem (krspField thread))
    (∀ reg, reg ≠ .rsp → reg ≠ .rax → (restore paused).regs reg = readField mem r (.general reg)) ∧
      (restore paused).regs .rax = readPid mem thread ∧ (restore paused).rip = readField mem r .rip ∧
      (restore paused).cs = readField mem r .cs ∧ (restore paused).rflags = readField mem r .rflags ∧
      (restore paused).regs .rsp = readField mem r .rsp ∧ (restore paused).ss = 0x23 ∧
      ((paused.popRegs popaq).add .rsp 0x10).regs .rsp + 40 = word mem (krspField thread) := by
  have filled := forkInt_filled room
  rw [← forked] at filled
  intro paused
  have rsp : paused.regs .rsp = word m.mem (krspField thread) := Machine.regs_set_self m .rsp _
  have stacked : Stacked paused.mem (word m.mem (krspField thread)) _ := filled.stacked
  rw [← rsp] at stacked
  obtain ⟨general, stack, rip, cs, rflags, ss⟩ := restore_words stacked
  refine ⟨?_, ?_, rip, cs, rflags, stack, ss, ?_⟩
  · intro reg notRsp notRax
    rw [general reg notRsp, childRegs, if_neg notRax]
  · rw [general .rax (by decide), childRegs, if_pos rfl]
  · rw [Machine.regs_add_self, rsp_popRegs rsp_not_mem_popaq, rsp, filled.pointer]
    change word mem (krspField thread) - 176 + BitVec.ofNat 64 (8 * (22 - 22)) + BitVec.ofNat 64 (8 * 15) + 16 + 40 = _
    bv_omega

def forkMemory : Memory := fun x =>
  if x = 0x1011 then 0x90 else if x = 0x10A4 then 7 else if x = 0x20068 then 5 else 0

def forkMachine : Machine := ⟨fun _ => 0, 0, 0, 0, 0, 0, forkInt forkMemory 0x1000 0x20000⟩

theorem forkMachine_resumes :
    (restore (forkMachine.set .rsp (word forkMachine.mem (krspField 0x1000)))).regs .rax = 7 ∧
      (restore (forkMachine.set .rsp (word forkMachine.mem (krspField 0x1000)))).regs .rbx = 5 ∧
      (restore (forkMachine.set .rsp (word forkMachine.mem (krspField 0x1000)))).ss = 0x23 := by
  have krsp : word forkMemory (krspField 0x1000) = 0x9000 := by decide +kernel
  have pid : readPid forkMemory 0x1000 = 7 := by decide +kernel
  have rbx : readField forkMemory 0x20000 (.general .rbx) = 5 := by decide +kernel
  have room : ForkRoom 0x1000 0x20000 (word forkMemory (krspField 0x1000) - BitVec.ofNat 64 frameBytes) := by
    rw [krsp]
    exact ⟨by decide, by decide, by decide⟩
  have forked : forkMachine.mem = forkInt forkMemory 0x1000 0x20000 := by rw [forkMachine]
  obtain ⟨general, rax, _, _, _, _, ss, _⟩ := forked_child_resumes forkMemory 0x1000 0x20000 forkMachine room forked
  exact ⟨rax.trans pid, (general .rbx (by decide) (by decide)).trans rbx, ss⟩

end Sbunix.Switch
