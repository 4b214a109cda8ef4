import Sbunix.Library.Bytes
import Mathlib.Logic.Function.Basic

namespace Library.X86

inductive Reg where
  | rax | rbx | rcx | rdx | rbp | rdi | rsi | rsp | r8 | r9 | r10 | r11 | r12 | r13 | r14 | r15
  deriving DecidableEq

abbrev Memory := BitVec 64 → BitVec 8

structure Machine where
  regs : Reg → BitVec 64
  rip : BitVec 64
  rflags : BitVec 64
  cs : BitVec 64
  ss : BitVec 64
  cr3 : BitVec 64
  mem : Memory

section Words

def Same (left right : Memory) (start : BitVec 64) (length : Nat) : Prop :=
  ∀ x, (x - start).toNat < length → left x = right x

def word (mem : Memory) (address : BitVec 64) : BitVec 64 := littleEndian (fun i => mem (address + BitVec.ofNat 64 i)) 8

def dword (mem : Memory) (address : BitVec 64) : BitVec 32 :=
  littleEndian (fun i => mem (address + BitVec.ofNat 64 i)) 4

def setWord (mem : Memory) (address value : BitVec 64) : Memory :=
  fun x => if (x - address).toNat < 8 then byteAt value (x - address).toNat else mem x

def Apart (left : BitVec 64) (leftLength : Nat) (right : BitVec 64) (rightLength : Nat) : Prop :=
  leftLength ≤ (right - left).toNat ∧ rightLength ≤ (left - right).toNat

instance (left : BitVec 64) (leftLength : Nat) (right : BitVec 64) (rightLength : Nat) :
    Decidable (Apart left leftLength right rightLength) := inferInstanceAs (Decidable (_ ∧ _))

variable {mem other : Memory} {start address value : BitVec 64} {length : Nat}

theorem Apart.symm {left right : BitVec 64} {leftLength rightLength : Nat}
    (apart : Apart left leftLength right rightLength) : Apart right rightLength left leftLength :=
  ⟨apart.2, apart.1⟩

theorem Apart.outside {left right x : BitVec 64} {leftLength rightLength : Nat}
    (apart : Apart left leftLength right rightLength) (inside : (x - right).toNat < rightLength) :
    leftLength ≤ (x - left).toNat := by
  obtain ⟨after, before⟩ := apart
  bv_omega

theorem Apart.part {left right : BitVec 64} {leftLength rightLength shorter offset : Nat}
    (apart : Apart left leftLength right rightLength) (inside : offset + shorter ≤ rightLength)
    (nonempty : 0 < shorter) : Apart left leftLength (right + BitVec.ofNat 64 offset) shorter := by
  obtain ⟨after, before⟩ := apart
  constructor
  · bv_omega
  · bv_omega

theorem Apart.add {left right : BitVec 64} {leftLength rightLength : Nat} (base : BitVec 64)
    (apart : Apart left leftLength right rightLength) : Apart (base + left) leftLength (base + right) rightLength := by
  obtain ⟨after, before⟩ := apart
  constructor
  · bv_omega
  · bv_omega

theorem offset_toNat {i : Nat} (bound : i < 2 ^ 64) : (address + BitVec.ofNat 64 i - address).toNat = i := by
  bv_omega

theorem word_congr (same : Same mem other address 8) : word mem address = word other address :=
  littleEndian_congr fun i bound => same _ (by rw [offset_toNat (by omega)]; exact bound)

theorem dword_congr (same : Same mem other address 4) : dword mem address = dword other address :=
  littleEndian_congr fun i bound => same _ (by rw [offset_toNat (by omega)]; exact bound)

theorem dword_eq : dword mem address = (word mem address).setWidth 32 := by
  apply BitVec.eq_of_getLsbD_eq
  intro i bound
  rw [BitVec.getLsbD_setWidth, word, dword, getLsbD_littleEndian, getLsbD_littleEndian]
  have wide : i < 8 * 8 := by omega
  simp [bound, wide]

theorem word_setWord : word (setWord mem address value) address = value := by
  have bytes : word (setWord mem address value) address = littleEndian (byteAt value) 8 := by
    apply littleEndian_congr
    intro i bound
    rw [setWord, offset_toNat (by omega), if_pos bound]
  exact bytes.trans (@littleEndian_byteAt 8 value)

theorem setWord_outside {x : BitVec 64} (outside : 8 ≤ (x - address).toNat) : setWord mem address value x = mem x :=
  if_neg (by omega)

theorem Same.setWord (apart : Apart address 8 start length) : Same (setWord mem address value) mem start length :=
  fun _ inside => setWord_outside (apart.outside inside)

theorem Same.trans {third : Memory} (first : Same mem other start length) (second : Same other third start length) :
    Same mem third start length := fun x inside => (first x inside).trans (second x inside)

theorem Same.part {shorter offset : Nat} (same : Same mem other start length) (inside : offset + shorter ≤ length)
    (bound : length ≤ 2 ^ 64) : Same mem other (start + BitVec.ofNat 64 offset) shorter := by
  intro x within
  apply same
  bv_omega

end Words

section Flags

def flag (position : Nat) (value : Bool) : BitVec 64 := if value then (1 : BitVec 64) <<< position else 0

def arithmeticFlags (old : BitVec 64) (cf pf af zf sf overflow : Bool) : BitVec 64 :=
  old &&& ~~~0x8D5 ||| flag 0 cf ||| flag 2 pf ||| flag 4 af ||| flag 6 zf ||| flag 7 sf ||| flag 11 overflow

def evenParity {width : Nat} (result : BitVec width) : Bool :=
  ((List.range 8).filter fun i => result.getLsbD i).length % 2 == 0

def resultFlags {width : Nat} (old : BitVec 64) (left right result : BitVec width) (cf overflow : Bool) : BitVec 64 :=
  arithmeticFlags old cf (evenParity result) ((left ^^^ right ^^^ result).getLsbD 4) (result == 0) result.msb overflow

def addFlags {width : Nat} (old : BitVec 64) (left right : BitVec width) : BitVec 64 :=
  resultFlags old left right (left + right) (left + right < left)
    (left.msb == right.msb && (left + right).msb != left.msb)

def subFlags {width : Nat} (old : BitVec 64) (left right : BitVec width) : BitVec 64 :=
  resultFlags old left right (left - right) (left < right)
    (left.msb != right.msb && (left - right).msb != left.msb)

theorem getLsbD_flag (position : Nat) {i : Nat} (value : Bool) (bound : i < 64) :
    (flag position value).getLsbD i = (value && decide (i = position)) := by
  unfold flag
  cases value with
  | false => simp
  | true =>
    rw [if_pos rfl, BitVec.getLsbD_shiftLeft, show (1 : BitVec 64) = 1#64 from rfl, BitVec.getLsbD_one]
    simp only [bound, decide_true, Bool.true_and, ← Bool.decide_and, ← decide_not, decide_eq_decide]
    omega

theorem subFlags_zero {width : Nat} (old : BitVec 64) (left right : BitVec width) :
    (subFlags old left right).getLsbD 6 = (left == right) := by
  have equal : (left - right == 0) = (left == right) := by
    rw [Bool.eq_iff_iff, beq_iff_eq, beq_iff_eq]
    constructor
    · intro zero
      rw [← BitVec.sub_add_cancel left right, zero]
      exact BitVec.zero_add right
    · rintro rfl
      exact BitVec.sub_self left
  simp only [subFlags, resultFlags, arithmeticFlags, BitVec.getLsbD_or, getLsbD_flag _ _ (show 6 < 64 by decide),
    BitVec.getLsbD_and, equal]
  simp

end Flags

namespace Machine

def set (m : Machine) (r : Reg) (value : BitVec 64) : Machine := { m with regs := Function.update m.regs r value }

def store (m : Machine) (address value : BitVec 64) : Machine := { m with mem := setWord m.mem address value }

def push (m : Machine) (value : BitVec 64) : Machine :=
  (m.store (m.regs .rsp - 8) value).set .rsp (m.regs .rsp - 8)

/-- `push %rsp` stores the stack pointer as it was. -/
def pushReg (m : Machine) (r : Reg) : Machine := m.push (m.regs r)

def pop (m : Machine) (r : Reg) : Machine :=
  (m.set .rsp (m.regs .rsp + 8)).set r (word m.mem (m.regs .rsp))

def add (m : Machine) (r : Reg) (value : BitVec 64) : Machine :=
  { m.set r (m.regs r + value) with rflags := addFlags m.rflags (m.regs r) value }

def sub (m : Machine) (r : Reg) (value : BitVec 64) : Machine :=
  { m.set r (m.regs r - value) with rflags := subFlags m.rflags (m.regs r) value }

def cmp {width : Nat} (m : Machine) (left right : BitVec width) : Machine :=
  { m with rflags := subFlags m.rflags left right }

def test (m : Machine) (r : Reg) : Machine :=
  let value := m.regs r
  -- the auxiliary carry is undefined after `test`; it is left clear here
  { m with rflags := arithmeticFlags m.rflags false (evenParity value) false (value == 0) value.msb false }

def zf (m : Machine) : Bool := m.rflags.getLsbD 6

def cli (m : Machine) : Machine := { m with rflags := m.rflags &&& ~~~0x200 }

def pushRegs (m : Machine) (rs : List Reg) : Machine := rs.foldl pushReg m

def popRegs (m : Machine) (rs : List Reg) : Machine := rs.foldl pop m

def iretq (m : Machine) : Machine :=
  let sp := m.regs .rsp
  { m.set .rsp (word m.mem (sp + 24)) with
    rip := word m.mem sp
    cs := word m.mem (sp + 8)
    rflags := word m.mem (sp + 16)
    ss := word m.mem (sp + 32) }

/-- The stack of a handler in ring 0: an interrupt that comes from an outer ring changes to the stack at `rsp0`. -/
def handlerStack (m : Machine) (rsp0 : BitVec 64) : BitVec 64 :=
  (if m.cs &&& 3 ≠ 0 then rsp0 else m.regs .rsp) &&& ~~~0xF

def interrupt (m : Machine) (rsp0 selector handler : BitVec 64) : Machine :=
  let entered := m.set .rsp (m.handlerStack rsp0)
  let entered := entered.push m.ss
  let entered := entered.push (m.regs .rsp)
  let entered := entered.push m.rflags
  let entered := entered.push m.cs
  let entered := entered.push m.rip
  -- the interrupt, trap, nested-task and resume flags are cleared
  { entered with
    rip := handler
    rflags := m.rflags &&& ~~~0x14300
    cs := selector
    ss := if m.cs &&& 3 ≠ 0 then 0 else m.ss }

section Fields

variable (m : Machine) (r : Reg) (address value : BitVec 64)

@[simp] theorem regs_set_self : (m.set r value).regs r = value := Function.update_self _ _ _

@[simp] theorem regs_set_other {other : Reg} (different : other ≠ r) : (m.set r value).regs other = m.regs other :=
  Function.update_of_ne different _ _

@[simp] theorem mem_set : (m.set r value).mem = m.mem := rfl

@[simp] theorem regs_store : (m.store address value).regs = m.regs := rfl

@[simp] theorem mem_store : (m.store address value).mem = setWord m.mem address value := rfl

@[simp] theorem regs_push_rsp : (m.push value).regs .rsp = m.regs .rsp - 8 := regs_set_self _ _ _

@[simp] theorem regs_push_other (different : r ≠ .rsp) : (m.push value).regs r = m.regs r :=
  regs_set_other _ _ _ different

@[simp] theorem mem_push : (m.push value).mem = setWord m.mem (m.regs .rsp - 8) value := rfl

@[simp] theorem regs_pop_self : (m.pop r).regs r = word m.mem (m.regs .rsp) := Function.update_self _ _ _

@[simp] theorem regs_pop_rsp (different : r ≠ .rsp) : (m.pop r).regs .rsp = m.regs .rsp + 8 := by
  rw [pop, regs_set_other _ _ _ different.symm, regs_set_self]

@[simp] theorem regs_pop_other {other : Reg} (different : other ≠ r) (general : other ≠ .rsp) :
    (m.pop r).regs other = m.regs other := by
  rw [pop, regs_set_other _ _ _ different, regs_set_other _ _ _ general]

@[simp] theorem mem_pop : (m.pop r).mem = m.mem := rfl

@[simp] theorem regs_add_self : (m.add r value).regs r = m.regs r + value := Function.update_self _ _ _

@[simp] theorem regs_add_other {other : Reg} (different : other ≠ r) : (m.add r value).regs other = m.regs other :=
  Function.update_of_ne different _ _

@[simp] theorem mem_add : (m.add r value).mem = m.mem := rfl

@[simp] theorem regs_sub_self : (m.sub r value).regs r = m.regs r - value := Function.update_self _ _ _

@[simp] theorem regs_sub_other {other : Reg} (different : other ≠ r) : (m.sub r value).regs other = m.regs other :=
  Function.update_of_ne different _ _

@[simp] theorem mem_sub : (m.sub r value).mem = m.mem := rfl

@[simp] theorem regs_cmp {width : Nat} (left right : BitVec width) : (m.cmp left right).regs = m.regs := rfl

@[simp] theorem mem_cmp {width : Nat} (left right : BitVec width) : (m.cmp left right).mem = m.mem := rfl

@[simp] theorem zf_cmp {width : Nat} (left right : BitVec width) : (m.cmp left right).zf = (left == right) :=
  subFlags_zero m.rflags left right

end Fields

end Machine

section Stack

def Stacked (mem : Memory) : BitVec 64 → List (BitVec 64) → Prop
  | _, [] => True
  | sp, value :: values => word mem sp = value ∧ Stacked mem (sp + 8) values

variable {mem other : Memory} {sp value : BitVec 64} {values : List (BitVec 64)}

theorem Stacked.congr (stacked : Stacked mem sp values) (same : Same other mem sp (8 * values.length))
    (short : values.length < 2 ^ 60) : Stacked other sp values := by
  induction values generalizing sp with
  | nil => trivial
  | cons value values ih =>
    rw [List.length_cons] at same short
    refine ⟨(word_congr fun x inside => same x (by omega)).trans stacked.1, ih stacked.2 ?_ (by omega)⟩
    exact same.part (show 8 + 8 * values.length ≤ 8 * (values.length + 1) by omega) (by omega)

theorem Stacked.push (stacked : Stacked mem sp values) (short : values.length < 2 ^ 60) :
    Stacked (setWord mem (sp - 8) value) (sp - 8) (value :: values) := by
  refine ⟨word_setWord, ?_⟩
  rw [BitVec.sub_add_cancel]
  apply stacked.congr _ short
  apply Same.setWord
  constructor
  · bv_omega
  · bv_omega

theorem Stacked.word {front back : List (BitVec 64)} (stacked : Stacked mem sp (front ++ value :: back)) :
    word mem (sp + BitVec.ofNat 64 (8 * front.length)) = value := by
  induction front generalizing sp with
  | nil => exact (congrArg (X86.word mem) (BitVec.add_zero sp)).trans stacked.1
  | cons first front ih =>
    rw [← ih stacked.2, List.length_cons]
    congr 1
    bv_omega

theorem Stacked.split {front back : List (BitVec 64)} (stacked : Stacked mem sp (front ++ back)) :
    Stacked mem sp front ∧ Stacked mem (sp + BitVec.ofNat 64 (8 * front.length)) back := by
  induction front generalizing sp with
  | nil =>
    refine ⟨trivial, ?_⟩
    rw [List.length_nil, Nat.mul_zero, show sp + BitVec.ofNat 64 0 = sp from BitVec.add_zero sp]
    exact stacked
  | cons first front ih =>
    obtain ⟨below, above⟩ := ih stacked.2
    refine ⟨⟨stacked.1, below⟩, ?_⟩
    have address : sp + BitVec.ofNat 64 (8 * (front.length + 1)) = sp + 8 + BitVec.ofNat 64 (8 * front.length) := by
      bv_omega
    rw [List.length_cons, address]
    exact above

theorem Stacked.store {front back : List (BitVec 64)} (old : BitVec 64)
    (stacked : Stacked mem sp (front ++ old :: back)) (short : (front ++ old :: back).length < 2 ^ 60) :
    Stacked (setWord mem (sp + BitVec.ofNat 64 (8 * front.length)) value) sp (front ++ value :: back) := by
  induction front generalizing sp with
  | nil =>
    rw [List.length_nil, Nat.mul_zero, show sp + BitVec.ofNat 64 0 = sp from BitVec.add_zero sp]
    refine ⟨word_setWord, stacked.2.congr ?_ ?_⟩
    · apply Same.setWord
      simp only [List.nil_append, List.length_cons] at short
      constructor
      · bv_omega
      · bv_omega
    · simp only [List.nil_append, List.length_cons] at short
      omega
  | cons first front ih =>
    simp only [List.cons_append, List.length_cons, List.length_append] at short ih ⊢
    have address : sp + BitVec.ofNat 64 (8 * (front.length + 1)) = sp + 8 + BitVec.ofNat 64 (8 * front.length) := by
      bv_omega
    rw [address]
    refine ⟨?_, ih stacked.2 (by omega)⟩
    rw [← stacked.1]
    apply word_congr
    apply Same.setWord
    constructor
    · bv_omega
    · bv_omega

end Stack

/-- The values have been pushed into a frame of `size` words, and no byte outside the frame has been written. -/
structure Framed (before : Memory) (frame : BitVec 64) (size : Nat) (m : Machine) (values : List (BitVec 64)) :
    Prop where
  small : size < 2 ^ 60
  room : values.length ≤ size
  rsp : m.regs .rsp = frame + BitVec.ofNat 64 (8 * (size - values.length))
  stacked : Stacked m.mem (m.regs .rsp) values
  outside : ∀ x, 8 * size ≤ (x - frame).toNat → m.mem x = before x

namespace Framed

variable {before : Memory} {frame value : BitVec 64} {size : Nat} {m : Machine} {values : List (BitVec 64)} {r : Reg}

theorem congr {other : Machine} (framed : Framed before frame size m values) (rsp : other.regs .rsp = m.regs .rsp)
    (mem : other.mem = m.mem) : Framed before frame size other values where
  small := framed.small
  room := framed.room
  rsp := rsp.trans framed.rsp
  stacked := by
    rw [rsp, mem]
    exact framed.stacked
  outside := by
    rw [mem]
    exact framed.outside

theorem same {start : BitVec 64} {length : Nat} (framed : Framed before frame size m values)
    (apart : Apart frame (8 * size) start length) : Same m.mem before start length :=
  fun x inside => framed.outside x (apart.outside inside)

theorem push (framed : Framed before frame size m values) (room : values.length < size) (value : BitVec 64) :
    Framed before frame size (m.push value) (value :: values) := by
  have small := framed.small
  have rsp : m.regs .rsp - 8 = frame + BitVec.ofNat 64 (8 * (size - (values.length + 1))) := by
    rw [framed.rsp]
    bv_omega
  refine ⟨small, room, (Machine.regs_push_rsp m value).trans rsp, ?_, ?_⟩
  · rw [Machine.regs_push_rsp, Machine.mem_push]
    exact framed.stacked.push (by omega)
  · intro x outside
    rw [Machine.mem_push, setWord_outside, framed.outside x outside]
    rw [rsp]
    bv_omega

theorem pop (framed : Framed before frame size m (value :: values)) (general : r ≠ .rsp) :
    Framed before frame size (m.pop r) values := by
  have small := framed.small
  have room := framed.room
  rw [List.length_cons] at room
  have rsp := framed.rsp
  refine ⟨small, by omega, ?_, ?_, framed.outside⟩
  · rw [Machine.regs_pop_rsp m r general, rsp, List.length_cons]
    bv_omega
  · rw [Machine.regs_pop_rsp m r general]
    exact framed.stacked.2

theorem drop (framed : Framed before frame size m (value :: values)) :
    Framed before frame size (m.add .rsp 8) values := by
  have popped := framed.pop (show Reg.rax ≠ .rsp by decide)
  refine popped.congr ?_ rfl
  rw [Machine.regs_add_self, Machine.regs_pop_rsp _ _ (by decide)]

theorem pop_value (framed : Framed before frame size m (value :: values)) : (m.pop r).regs r = value :=
  (Machine.regs_pop_self m r).trans framed.stacked.1

theorem storeFree (framed : Framed before frame size m values) {k : Nat} (free : k < size - values.length)
    (value : BitVec 64) : Framed before frame size (m.store (frame + BitVec.ofNat 64 (8 * k)) value) values := by
  have small := framed.small
  have room := framed.room
  have rsp := framed.rsp
  refine ⟨small, room, rsp, framed.stacked.congr (Same.setWord ?_) (by omega), ?_⟩
  · rw [rsp]
    constructor
    · bv_omega
    · bv_omega
  · intro x outside
    rw [Machine.mem_store, setWord_outside (by bv_omega), framed.outside x outside]

/-- A push keeps the free words below the one that it takes. -/
theorem word_push (framed : Framed before frame size m values) {k : Nat} (free : k + 1 < size - values.length)
    (value : BitVec 64) : word (m.push value).mem (frame + BitVec.ofNat 64 (8 * k)) =
      word m.mem (frame + BitVec.ofNat 64 (8 * k)) := by
  have small := framed.small
  have rsp := framed.rsp
  apply word_congr
  apply Same.setWord
  rw [rsp]
  constructor
  · bv_omega
  · bv_omega

theorem extend (framed : Framed before frame size m values) (room : values.length < size)
    (stored : word m.mem (frame + BitVec.ofNat 64 (8 * (size - (values.length + 1)))) = value) :
    Framed before frame size (m.sub .rsp 8) (value :: values) := by
  have small := framed.small
  have rsp : (m.sub .rsp 8).regs .rsp = frame + BitVec.ofNat 64 (8 * (size - (values.length + 1))) := by
    rw [Machine.regs_sub_self, framed.rsp]
    bv_omega
  refine ⟨small, room, rsp, ⟨?_, ?_⟩, framed.outside⟩
  · rw [rsp]
    exact stored
  · rw [Machine.mem_sub, Machine.regs_sub_self, BitVec.sub_add_cancel]
    exact framed.stacked

theorem pushRegs (framed : Framed before frame size m values) {rs : List Reg} (general : .rsp ∉ rs)
    (room : values.length + rs.length ≤ size) :
    Framed before frame size (m.pushRegs rs) ((rs.map m.regs).reverse ++ values) := by
  induction rs generalizing m values with
  | nil => exact framed
  | cons r rs ih =>
    rw [List.length_cons] at room
    have kept : rs.map (m.pushReg r).regs = rs.map m.regs := by
      apply List.map_congr_left
      intro other member
      apply Machine.regs_push_other
      rintro rfl
      exact general (List.mem_cons_of_mem _ member)
    have pushed := ih (framed.push (by omega) (m.regs r)) (fun member => general (List.mem_cons_of_mem _ member))
      (by rw [List.length_cons]; omega)
    change Framed before frame size _ ((rs.map (m.pushReg r).regs).reverse ++ m.regs r :: values) at pushed
    rw [kept] at pushed
    rw [List.map_cons, List.reverse_cons, List.append_assoc]
    exact pushed

end Framed

theorem regs_popRegs_other {m : Machine} {rs : List Reg} {r : Reg} (absent : r ∉ rs) (general : r ≠ .rsp) :
    (m.popRegs rs).regs r = m.regs r := by
  induction rs generalizing m with
  | nil => rfl
  | cons first rs ih =>
    rw [List.mem_cons, not_or] at absent
    change ((m.pop first).popRegs rs).regs r = _
    rw [ih absent.2, Machine.regs_pop_other m first absent.1 general]

theorem popRegs_kept (m : Machine) (rs : List Reg) : (m.popRegs rs).mem = m.mem ∧ (m.popRegs rs).cr3 = m.cr3 := by
  induction rs generalizing m with
  | nil => exact ⟨rfl, rfl⟩
  | cons first rs ih => exact ih (m.pop first)

theorem popRegs_spec {m : Machine} {rs : List Reg} {values : List (BitVec 64)} {f : Reg → BitVec 64}
    (general : .rsp ∉ rs) (stacked : Stacked m.mem (m.regs .rsp) (rs.map f ++ values)) :
    (∀ r ∈ rs, (m.popRegs rs).regs r = f r) ∧ (m.popRegs rs).mem = m.mem ∧
      Stacked m.mem ((m.popRegs rs).regs .rsp) values := by
  induction rs generalizing m with
  | nil => exact ⟨fun r member => absurd member List.not_mem_nil, rfl, stacked⟩
  | cons first rs ih =>
    rw [List.mem_cons, not_or] at general
    have rsp := Machine.regs_pop_rsp m first (Ne.symm general.1)
    obtain ⟨value, rest⟩ := stacked
    obtain ⟨popped, mem, left⟩ := ih general.2 (by rw [Machine.mem_pop, rsp]; exact rest)
    refine ⟨?_, mem, left⟩
    intro r member
    by_cases later : r ∈ rs
    · exact popped r later
    · have here : r = first := (List.mem_cons.mp member).resolve_right later
      subst here
      change ((m.pop r).popRegs rs).regs r = f r
      rw [regs_popRegs_other later (Ne.symm general.1), Machine.regs_pop_self, value]

theorem iretq_spec {m : Machine} {rip cs rflags rsp ss : BitVec 64}
    (stacked : Stacked m.mem (m.regs .rsp) [rip, cs, rflags, rsp, ss]) :
    m.iretq = { m.set .rsp rsp with rip, cs, rflags, ss } := by
  have at16 : m.regs .rsp + 8 + 8 = m.regs .rsp + 16 := by bv_omega
  have at24 : m.regs .rsp + 16 + 8 = m.regs .rsp + 24 := by bv_omega
  have at32 : m.regs .rsp + 24 + 8 = m.regs .rsp + 32 := by bv_omega
  simp only [Stacked, at16, at24, at32, and_true] at stacked
  obtain ⟨rfl, rfl, rfl, rfl, rfl⟩ := stacked
  rfl

theorem interrupt_framed (m : Machine) (rsp0 selector handler : BitVec 64) {size : Nat} (room : 5 ≤ size)
    (small : size < 2 ^ 60) :
    Framed m.mem (m.handlerStack rsp0 - BitVec.ofNat 64 (8 * size)) size (m.interrupt rsp0 selector handler)
      [m.rip, m.cs, m.rflags, m.regs .rsp, m.ss] := by
  have start : Framed m.mem (m.handlerStack rsp0 - BitVec.ofNat 64 (8 * size)) size
      (m.set .rsp (m.handlerStack rsp0)) [] := by
    refine ⟨small, Nat.zero_le _, ?_, trivial, fun _ _ => rfl⟩
    rw [Machine.regs_set_self, List.length_nil, Nat.sub_zero, BitVec.sub_add_cancel]
  have first := start.push (show 0 < size by omega) m.ss
  have second := first.push (show 1 < size by omega) (m.regs .rsp)
  have third := second.push (show 2 < size by omega) m.rflags
  have fourth := third.push (show 3 < size by omega) m.cs
  exact (fourth.push (show 4 < size by omega) m.rip).congr rfl rfl

theorem regs_interrupt (m : Machine) (rsp0 selector handler : BitVec 64) {r : Reg} (general : r ≠ .rsp) :
    (m.interrupt rsp0 selector handler).regs r = m.regs r := by
  unfold Machine.interrupt
  simp only [Machine.regs_push_other _ _ _ general, Machine.regs_set_other _ _ _ general]

def pushAt (field : BitVec 64) (mem : Memory) (value : BitVec 64) : Memory :=
  let mem := setWord mem field (word mem field - 8)
  setWord mem (word mem field) value

/-- The values have been pushed into a frame of `size` words on a stack whose pointer is kept in memory. No byte outside
    the frame and the pointer has been written. -/
structure Filled (before : Memory) (field frame : BitVec 64) (size : Nat) (mem : Memory) (values : List (BitVec 64)) :
    Prop where
  small : size < 2 ^ 60
  room : values.length ≤ size
  pointer : word mem field = frame + BitVec.ofNat 64 (8 * (size - values.length))
  stacked : Stacked mem (word mem field) values
  outside : ∀ x, 8 * size ≤ (x - frame).toNat → 8 ≤ (x - field).toNat → mem x = before x

namespace Filled

variable {before mem : Memory} {field frame : BitVec 64} {size : Nat} {values : List (BitVec 64)}

theorem start (mem : Memory) (field : BitVec 64) {size : Nat} (small : size < 2 ^ 60) :
    Filled mem field (word mem field - BitVec.ofNat 64 (8 * size)) size mem [] where
  small := small
  room := Nat.zero_le _
  pointer := by
    rw [List.length_nil, Nat.sub_zero, BitVec.sub_add_cancel]
  stacked := trivial
  outside _ _ _ := rfl

theorem same {address : BitVec 64} {length : Nat} (filled : Filled before field frame size mem values)
    (apart : Apart frame (8 * size) address length) (fieldApart : Apart field 8 address length) :
    Same mem before address length :=
  fun x inside => filled.outside x (apart.outside inside) (fieldApart.outside inside)

theorem inside_frame {x : BitVec 64} {count : Nat} (small : size < 2 ^ 60) (room : count ≤ size)
    (inside : (x - (frame + BitVec.ofNat 64 (8 * (size - count)))).toNat < 8 * count) :
    (x - frame).toNat < 8 * size := by
  bv_omega

theorem outside_slot {x : BitVec 64} {count : Nat} (small : size < 2 ^ 60) (room : count < size)
    (outside : 8 * size ≤ (x - frame).toNat) :
    8 ≤ (x - (frame + BitVec.ofNat 64 (8 * (size - (count + 1))))).toNat := by
  bv_omega

theorem push (filled : Filled before field frame size mem values) (apart : Apart frame (8 * size) field 8)
    (room : values.length < size) (value : BitVec 64) :
    Filled before field frame size (pushAt field mem value) (value :: values) := by
  have small := filled.small
  have old := filled.pointer
  have top : word mem field - 8 = frame + BitVec.ofNat 64 (8 * (size - (values.length + 1))) := by
    rw [old]
    bv_omega
  have slotField : Apart (word mem field - 8) 8 field 8 := by
    rw [top]
    exact (apart.symm.part (show 8 * (size - (values.length + 1)) + 8 ≤ 8 * size by omega) (by decide)).symm
  have stored : pushAt field mem value =
      setWord (setWord mem field (word mem field - 8)) (word mem field - 8) value := by
    rw [pushAt, word_setWord]
  have moved : word (pushAt field mem value) field = word mem field - 8 := by
    rw [stored]
    exact (word_congr (Same.setWord slotField)).trans word_setWord
  have above : Same (setWord mem field (word mem field - 8)) mem (word mem field) (8 * values.length) := by
    intro x inside
    rw [old] at inside
    exact setWord_outside (apart.symm.outside (inside_frame small (Nat.le_of_lt room) inside))
  refine ⟨small, room, moved.trans top, ?_, ?_⟩
  · rw [moved, stored]
    exact (filled.stacked.congr above (by omega)).push (by omega)
  · intro x outside fieldOutside
    rw [stored, setWord_outside, setWord_outside fieldOutside, filled.outside x outside fieldOutside]
    rw [top]
    exact outside_slot small room outside

theorem pushAll (filled : Filled before field frame size mem values) (apart : Apart frame (8 * size) field 8)
    (more : List (BitVec 64)) (room : values.length + more.length ≤ size) :
    Filled before field frame size (more.foldl (pushAt field) mem) (more.reverse ++ values) := by
  induction more generalizing mem values with
  | nil => exact filled
  | cons value more ih =>
    rw [List.length_cons] at room
    rw [List.reverse_cons, List.append_assoc]
    have pushed := filled.push apart (by omega) value
    exact ih pushed (show values.length + 1 + more.length ≤ size by omega)

theorem above {after : Memory} {words rest : List (BitVec 64)}
    (filled : Filled before field frame size mem (words ++ rest)) (full : (words ++ rest).length = size)
    (same : Same after mem frame (8 * size)) :
    Stacked after (frame + BitVec.ofNat 64 (8 * words.length)) rest := by
  have small := filled.small
  have stacked := filled.stacked
  rw [filled.pointer, full, Nat.sub_self, show frame + BitVec.ofNat 64 (8 * 0) = frame from BitVec.add_zero frame]
    at stacked
  exact (stacked.congr (full ▸ same) (full ▸ small)).split.2

end Filled

theorem and_not_add_and {width : Nat} (x mask : BitVec width) : (x &&& ~~~mask) + (x &&& mask) = x := by
  rw [BitVec.add_eq_or_of_and_eq_zero]
  · ext i bound
    simp only [BitVec.getElem_or, BitVec.getElem_and, BitVec.getElem_not]
    cases x[i] <;> cases mask[i] <;> rfl
  · ext i bound
    simp only [BitVec.getElem_and, BitVec.getElem_not, BitVec.getElem_zero]
    cases x[i] <;> cases mask[i] <;> rfl

def Machine.ret (m : Machine) : Machine :=
  { m.set .rsp (m.regs .rsp + 8) with rip := word m.mem (m.regs .rsp) }

end Library.X86
