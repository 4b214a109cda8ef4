import Sbunix.Library.X86

namespace Sbunix.Switch

open Library.X86

structure Symbols where
  currentThread : BitVec 64
  isSchedulerOn : BitVec 64
  tss : BitVec 64
  kernCs : BitVec 64
  kernDs : BitVec 64
  userCs : BitVec 64
  userDs : BitVec 64

/-- The compiled functions that the assembly code calls, with the call and the return. Memory is the part that all
    address spaces share. -/
structure Calls where
  irqHandler : Machine → Machine
  runnableKthread : Machine → Machine
  nextRunnableKthread : Machine → Machine
  pageFaultHandler : Machine → Machine
  generalProtectionFaultHandler : Machine → Machine
  /-- The function of a system call, with its result. -/
  systemCall : BitVec 16 → Machine → BitVec 32 × Machine

def pushaq : List Reg :=
  [.rax, .rbx, .rcx, .rdx, .rbp, .rdi, .rsi, .r8, .r9, .r10, .r11, .r12, .r13, .r14, .r15]

def popaq : List Reg :=
  [.r15, .r14, .r13, .r12, .r11, .r10, .r9, .r8, .rsi, .rdi, .rbp, .rdx, .rcx, .rbx, .rax]

/-- The end of every restore sequence: `POPAQ`, `add $0x10, %rsp` and `iretq`. -/
def restore (m : Machine) : Machine := ((m.popRegs popaq).add .rsp 0x10).iretq

variable (sym : Symbols) (calls : Calls)

def irq0Debug (m : Machine) : Machine :=
  let m := m.cmp (dword m.mem sym.isSchedulerOn) 1
  if m.zf then
    let m := m.set .rax (word m.mem sym.currentThread)
    let m := m.cmp (dword m.mem (m.regs .rax + 0x8)) 1
    if m.zf then m else m.test .rax
  else m

def irq0 (m : Machine) : Machine :=
  let m := m.cli
  let m := m.pushReg .rax
  let m := irq0Debug sym m
  let m := m.pop .rax
  let m := m.push 0x0
  m.push 0x32

def saveRsp (m : Machine) : Machine :=
  let m := m.set .rax (word m.mem sym.currentThread)
  let m := m.cmp (word m.mem (m.regs .rax + 0x8)) 0
  if m.zf then
    let m := m.set .rax (m.regs .rsp)
    let m := m.set .rdi (word m.mem sym.currentThread)
    m.store (m.regs .rdi + 0x10) (m.regs .rax)
  else
    let m := m.set .rax (m.regs .rsp)
    let m := m.set .rdi (word m.mem sym.currentThread)
    m.store (m.regs .rdi) (m.regs .rax)

def pickNext (m : Machine) : Machine :=
  let m := m.set .rdi (word m.mem sym.currentThread)
  calls.nextRunnableKthread (calls.runnableKthread m)

def storeTss (m : Machine) : Machine :=
  let m := m.cmp (word m.mem (m.regs .rax + 0x8)) 0
  if m.zf then
    let m := m.set .rbx sym.tss
    let m := m.set .rbx (m.regs .rbx + 0x4)
    let m := m.set .rcx (word m.mem (m.regs .rax + 0x28))
    m.store (m.regs .rbx) (m.regs .rcx)
  else m

def changeThread (r : Reg) (m : Machine) : Machine :=
  let m := m.store sym.currentThread (m.regs r)
  let m := m.set .rbx (word m.mem sym.currentThread)
  let m := m.set .rcx m.cr3
  let m := m.cmp (word m.mem (m.regs .rbx + 0x18)) (m.regs .rcx)
  if m.zf then m
  else
    let m := m.set .rcx (word m.mem (m.regs .rbx + 0x18))
    { m with cr3 := m.regs .rcx }

/-- The stack pointer of the thread in `rax`. The comparison has no suffix and looks at four bytes of the field. -/
def loadRsp (m : Machine) : Machine :=
  let m := m.cmp (dword m.mem (m.regs .rax + 0x8)) 0
  if m.zf then m.set .rsp (word m.mem (m.regs .rax + 0x10))
  else m.set .rsp (word m.mem (m.regs .rax))

def switchIn (m : Machine) : Machine := restore (loadRsp (changeThread sym .rax (storeTss sym m)))

def irqEnter (m : Machine) : Machine :=
  let m := m.pushRegs pushaq
  let m := m.set .rdi (m.regs .rsp)
  let m := calls.irqHandler m
  m.set .rax (word m.mem (m.regs .rsp + 0x78))

def irqCommonStub (m : Machine) : Machine :=
  let m := irqEnter calls m
  let m := m.cmp (m.regs .rax) 0x32
  if m.zf then
    let m := m.cmp (dword m.mem sym.isSchedulerOn) 1
    if m.zf then switchIn sym (pickNext sym calls (saveRsp sym m)) else restore m
  else restore m

/-- `_isr14`, up to its jump to `isr_common_stub`. The error code of the processor is replaced. -/
def isr14 (m : Machine) : Machine :=
  let m := m.cli
  let m := m.add .rsp 0x8
  let m := m.push 0x0
  m.push 0xE

/-- The value that `fault_handler` returns for a system call: 0 for `fork`, the result of the functions that have
    one, and 1 for the others. -/
def systemCallValue (callNo : BitVec 16) (result : BitVec 32) : BitVec 32 :=
  if callNo = 3 then 0
  else if callNo ∈ [5, 7, 11, 12, 20, 21, 23, 24] then result
  else 1

/-- An unknown exception halts the system and has no result. -/
def faultHandler (m : Machine) : Option (BitVec 32 × Machine) :=
  let r := m.regs .rdi
  let intNo := word m.mem (r + 0x78)
  if intNo ≤ 0x80 then
    if intNo = 0xE then some (1, calls.pageFaultHandler m)
    else if intNo = 0xD then some (1, calls.generalProtectionFaultHandler m)
    else if intNo = 0x80 then
      let callNo := (word m.mem (r + 0x70)).setWidth 16
      let (result, m) := calls.systemCall callNo m
      some (systemCallValue callNo result, m)
    else none
  else some (1, m)

def isrEnter (m : Machine) : Option Machine := do
  let m := m.pushRegs pushaq
  let m := m.set .rdi (m.regs .rsp)
  let (val, m) ← faultHandler calls m
  -- an `int` is returned in `eax`, and a move to `eax` clears the upper half of `rax`
  let m := m.set .rax (val.setWidth 64)
  return m.store (m.regs .rsp + 0x70) (m.regs .rax)

def isrCommonStub (m : Machine) : Option Machine := do
  let m ← isrEnter calls m
  let m := m.cmp (dword m.mem sym.isSchedulerOn) 1
  if m.zf then return switchIn sym (pickNext sym calls (saveRsp sym m)) else return restore m

def pushSelector (kernel user : BitVec 64) (m : Machine) : Machine :=
  let m := m.pushReg .rax
  let m := m.set .rax sym.currentThread
  let m := m.set .rax (word m.mem (m.regs .rax))
  let m := m.cmp (word m.mem (m.regs .rax + 0x8)) 0
  if m.zf then
    let m := m.pop .rax
    m.push (word m.mem user)
  else
    let m := m.pop .rax
    m.push (word m.mem kernel)

/-- The return address is copied to where `iretq` will find it, below the stack pointer. -/
def moveReturn (m : Machine) : Machine :=
  let m := m.set .rax (word m.mem (m.regs .rsp + 0x18))
  let m := m.store (m.regs .rsp - 0x10) (m.regs .rax)
  m.set .rax (m.regs .rsp)

def switchFrame (m : Machine) : Machine :=
  let m := pushSelector sym sym.kernDs sym.userDs m
  let m := m.pushReg .rsp
  let m := m.pushReg .rax
  let m := moveReturn m
  let m := m.add .rsp 0x8
  let m := m.push m.rflags
  let m := pushSelector sym sym.kernCs sym.userCs m
  let m := m.sub .rsp 0x8
  let m := m.push 0x0
  m.push 0x0

def switchTss (m : Machine) : Machine :=
  let m := m.cmp (word m.mem (m.regs .rdi + 0x8)) 0
  if m.zf then
    let m := m.pushReg .rbx
    let m := m.set .rax sym.tss
    let m := m.set .rax (m.regs .rax + 0x4)
    let m := m.set .rbx (word m.mem (m.regs .rdi + 0x28))
    let m := m.store (m.regs .rax) (m.regs .rbx)
    m.pop .rbx
  else m

def switchSave (m : Machine) : Machine :=
  let m := switchTss sym ((switchFrame sym m).pushRegs pushaq)
  let m := m.set .rax (word m.mem sym.currentThread)
  m.store (m.regs .rax) (m.regs .rsp)

def switchTo (m : Machine) : Machine :=
  let m := changeThread sym .rdi m
  let m := m.set .rbx (word m.mem sym.currentThread)
  let m := m.cmp (dword m.mem (m.regs .rbx + 0x8)) 1
  let m :=
    if m.zf then m.set .rsp (word m.mem (m.regs .rdi))
    else m.set .rsp (word m.mem (m.regs .rdi + 0x10))
  restore m

end Sbunix.Switch
