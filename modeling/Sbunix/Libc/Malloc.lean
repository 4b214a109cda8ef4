import Sbunix.Heap.Model

namespace Sbunix.Libc

open Library Heap

/-- The memory of a process and the variables of its allocator. The pages from `heapStart` to `brk` are those
    that `sbrk` has added. -/
structure Process where
  memory : Memory
  otherPages : Nat → Bool
  heapStart : Nat
  brk : Nat
  base : Option Nat
  start : BitVec 32

def Process.Accessible (p : Process) (address : Nat) : Prop :=
  p.otherPages address = true ∨ p.heapStart ≤ address ∧ address < p.brk

instance (p : Process) (address : Nat) : Decidable (p.Accessible address) := inferInstanceAs (Decidable (_ ∨ _))

/-- The process faults where it reads or writes other addresses. -/
def Process.load (p : Process) (address count : Nat) : Option (BitVec (8 * count)) :=
  if ∀ i < count, p.Accessible (address + i) then some (loadWord p.memory address count) else none

def Process.store (p : Process) (address : Nat) {width : Nat} (value : BitVec width) (count : Nat) : Option Process :=
  if ∀ i < count, p.Accessible (address + i) then some { p with memory := storeWord p.memory address value count }
  else none

def sbrk (p : Process) (n : BitVec 32) : Option (Nat × Process) :=
  if 0 ≤ n.toInt then some (p.brk, { p with brk := p.brk + n.toNat }) else none

/-- The `struct metadata_block` is 32 bytes long, with `size`, `next`, `free` and `beg` in this order. -/
def blockSize : Nat := 32

def nextField (b : Nat) : Nat := b + 8

def freeField (b : Nat) : Nat := b + 16

def begField (b : Nat) : Nat := b + 24

def align (x : BitVec 32) : BitVec 32 := ((x - 1).sshiftRight 3 <<< 3) + 8

/-- Whether `find_block` takes a block. The size is read only where the block is free. -/
def suits (p : Process) (size : BitVec 32) (b : Nat) : Option Bool := do
  let free ← p.load (freeField b) 4
  if free = 0 then return false
  let held ← p.load b 4
  return size.sle held

def Process.findBlock (p : Process) (size : BitVec 32) (last b : Option Nat) : Option (Option Nat × Option Nat) :=
  match b with
  | none => some (none, last)
  | some block => do
    let suited ← suits p size block
    if suited then some (some block, last)
    else do
      let link ← p.load (nextField block) 8
      p |>.findBlock size (some block) (pointer link)
partial_fixpoint

def linkLast (p : Process) (b : Nat) : Option Nat → Option Process
  | none => some p
  | some last => p.store (nextField last) (word (some b)) 8

def extendHeap (p : Process) (last : Option Nat) (size : BitVec 32) : Option (Nat × Process) := do
  let (b, p) ← sbrk p 0
  let (_, p) ← sbrk p (32 + size)
  let p ← p.store b size 4
  let p ← p.store (nextField b) (0 : BitVec 64) 8
  let p ← linkLast p b last
  let p ← p.store (freeField b) (0 : BitVec 32) 4
  return (b, p)

/-- The new header is put behind `beg`, which nothing has set. -/
def splitBlock (p : Process) (b : Nat) (size : BitVec 32) : Option Process := do
  let beg ← p.load (begField b) 8
  let new := (beg + size.signExtend 64).toNat
  let link ← p.load (nextField b) 8
  let p ← p.store (nextField new) link 8
  let held ← p.load b 4
  let p ← p.store new (held - size - 32) 4
  let p ← p.store (freeField new) (1 : BitVec 32) 4
  let p ← p.store b size 4
  p.store (nextField b) (word (some new)) 8

/-- A block that was found is split where the rest of it is large enough. The comparison is unsigned. -/
def trimBlock (p : Process) (b : Nat) (s : BitVec 32) : Option Process := do
  let held ← p.load b 4
  if blockSize + 4 ≤ ((held - s).signExtend 64).toNat then splitBlock p b s else some p

def mallocAgain (p : Process) (base : Nat) (s : BitVec 32) : Option (Nat × Process) := do
  let (found, last) ← p.findBlock s (some base) (some base)
  match found with
  | some b =>
    let p ← trimBlock p b s
    let p ← p.store (freeField b) (0 : BitVec 32) 4
    return (b, p)
  | none =>
    let tail ← last
    let p ← p.store (freeField tail) (0 : BitVec 32) 4
    let (b, p) ← extendHeap p last s
    let p ← splitBlock p b s
    return (b, p)

/-- The address that `malloc` returns is that of the header. -/
def malloc (p : Process) (size : BitVec 32) : Option (Nat × Process) :=
  let s := align size
  let p := if p.start ≠ 0 then { p with base := none, start := p.start + 1 } else p
  match p.base with
  | some base => mallocAgain p base s
  | none => do
    let (b, p) ← extendHeap p none s
    return (b, { p with base := some b })

structure Program where
  process : Process
  blocks : List (Nat × Nat)

inductive Event where
  | malloc (size : BitVec 32)
  /-- A store to a byte of a block. -/
  | store (p i : Nat) (byte : BitVec 8)

def step (program : Program) : Event → Option Program
  | .malloc size =>
    if 1 ≤ size.toInt then do
      let (p, process) ← malloc program.process size
      return ⟨process, (p, size.toNat) :: program.blocks⟩
    else none
  | .store p i byte =>
    if ∃ block ∈ program.blocks, block.1 = p ∧ i < block.2 then
      let memory := Function.update program.process.memory (p + i) byte
      some { program with process := { program.process with memory } }
    else none

def atStart (memory : Memory) (otherPages : Nat → Bool) (brk : Nat) : Program :=
  ⟨⟨memory, otherPages, brk, brk, none, 0⟩, []⟩

def Header (p : Process) (b : Nat) : Prop :=
  ∃ first, p.base = some first ∧ Relation.ReflTransGen
    (fun left right => pointer (loadWord p.memory (nextField left) 8) = some right) first b

structure Private (program : Program) : Prop where
  disjoint : program.blocks.Pairwise fun a b => a.1 + a.2 ≤ b.1 ∨ b.1 + b.2 ≤ a.1
  inside : ∀ a ∈ program.blocks, program.process.heapStart ≤ a.1 ∧ a.1 + a.2 ≤ program.process.brk
  offHeaders : ∀ b, Header program.process b → ∀ a ∈ program.blocks, a.1 + a.2 ≤ b ∨ b + blockSize ≤ a.1

def SameList (p next : Process) : Prop := next.base = p.base ∧ next.start = p.start

section SameList

variable {p next : Process}

theorem SameList.trans {middle : Process} (first : SameList p middle) (second : SameList middle next) :
    SameList p next :=
  ⟨second.1.trans first.1, second.2.trans first.2⟩

theorem store_sameList {address width count : Nat} {value : BitVec width}
    (executed : p.store address value count = some next) : SameList p next := by
  unfold Process.store at executed
  split at executed
  · cases executed
    exact ⟨rfl, rfl⟩
  · cases executed

theorem sbrk_sameList {n : BitVec 32} {old : Nat} (executed : sbrk p n = some (old, next)) : SameList p next := by
  unfold sbrk at executed
  split at executed
  · cases executed
    exact ⟨rfl, rfl⟩
  · cases executed

theorem linkLast_sameList {b : Nat} {last : Option Nat} (executed : linkLast p b last = some next) :
    SameList p next := by
  cases last with
  | none =>
    cases executed
    exact ⟨rfl, rfl⟩
  | some tail => exact store_sameList executed

theorem extendHeap_sameList {last : Option Nat} {size : BitVec 32} {b : Nat}
    (executed : extendHeap p last size = some (b, next)) : SameList p next := by
  simp only [extendHeap, Option.bind_eq_bind, Option.bind_eq_some_iff, Prod.exists] at executed
  obtain ⟨_, p₁, first, _, p₂, second, p₃, size, p₄, link, p₅, linked, p₆, free, equal⟩ := executed
  cases equal
  have moved := ((sbrk_sameList first).trans (sbrk_sameList second)).trans (store_sameList size)
  exact ((moved.trans (store_sameList link)).trans (linkLast_sameList linked)).trans (store_sameList free)

theorem splitBlock_sameList {b : Nat} {size : BitVec 32} (executed : splitBlock p b size = some next) :
    SameList p next := by
  simp only [splitBlock, Option.bind_eq_bind, Option.bind_eq_some_iff] at executed
  obtain ⟨beg, _, link, _, p₁, first, held, _, p₂, second, p₃, third, p₄, fourth, fifth⟩ := executed
  have new := ((store_sameList first).trans (store_sameList second)).trans (store_sameList third)
  exact (new.trans (store_sameList fourth)).trans (store_sameList fifth)

theorem trimBlock_sameList {b : Nat} {s : BitVec 32} (executed : trimBlock p b s = some next) : SameList p next := by
  simp only [trimBlock, Option.bind_eq_bind, Option.bind_eq_some_iff] at executed
  obtain ⟨held, _, executed⟩ := executed
  split at executed
  · exact splitBlock_sameList executed
  · cases executed
    exact ⟨rfl, rfl⟩

theorem mallocAgain_sameList {base b : Nat} {s : BitVec 32} (executed : mallocAgain p base s = some (b, next)) :
    SameList p next := by
  simp only [mallocAgain, Option.bind_eq_bind, Option.bind_eq_some_iff] at executed
  obtain ⟨⟨found, last⟩, _, executed⟩ := executed
  cases found with
  | some block =>
    simp only [Option.bind_eq_some_iff] at executed
    obtain ⟨p₁, trimmed, p₂, marked, equal⟩ := executed
    cases equal
    exact (trimBlock_sameList trimmed).trans (store_sameList marked)
  | none =>
    simp only [Option.bind_eq_some_iff, Prod.exists] at executed
    obtain ⟨tail, _, p₁, marked, block, p₂, extended, p₃, split, equal⟩ := executed
    cases equal
    exact ((store_sameList marked).trans (extendHeap_sameList extended)).trans (splitBlock_sameList split)

end SameList

structure Shared (program : Program) : Prop where
  start : program.process.start = 0
  empty : program.blocks = [] → program.process.base = none
  first : program.blocks ≠ [] → ∃ block ∈ program.blocks, program.process.base = some block.1 ∧ 1 ≤ block.2

theorem malloc_shared {program : Program} (shared : Shared program) {size : BitVec 32} (positive : 1 ≤ size.toInt)
    {b : Nat} {process : Process} (executed : malloc program.process size = some (b, process)) :
    Shared ⟨process, (b, size.toNat) :: program.blocks⟩ := by
  have amount : 1 ≤ size.toNat := by
    rw [BitVec.toInt_eq_toNat_cond] at positive
    split at positive <;> omega
  have unset : ¬ program.process.start ≠ 0 := fun set => set shared.start
  simp only [malloc, if_neg unset] at executed
  cases used : program.process.base with
  | none =>
    simp only [used, Option.bind_eq_bind, Option.bind_eq_some_iff, Prod.exists] at executed
    obtain ⟨block, extended, grown, equal⟩ := executed
    cases equal
    have same := extendHeap_sameList grown
    exact ⟨same.2.trans shared.start, fun empty => absurd empty (List.cons_ne_nil _ _),
      fun _ => ⟨_, List.mem_cons_self, rfl, amount⟩⟩
  | some base =>
    simp only [used] at executed
    have same := mallocAgain_sameList executed
    refine ⟨same.2.trans shared.start, fun empty => absurd empty (List.cons_ne_nil _ _), fun _ => ?_⟩
    have nonempty : program.blocks ≠ [] := by
      intro empty
      rw [shared.empty empty] at used
      cases used
    obtain ⟨block, member, start, held⟩ := shared.first nonempty
    exact ⟨block, List.mem_cons_of_mem _ member, same.1.trans start, held⟩

theorem step_shared (program : Program) (event : Event) (next : Program) (shared : Shared program)
    (stepped : step program event = some next) : Shared next := by
  cases event with
  | malloc size =>
    rw [step] at stepped
    split at stepped
    · rename_i positive
      simp only [Option.bind_eq_bind, Option.bind_eq_some_iff, Prod.exists] at stepped
      obtain ⟨b, process, executed, equal⟩ := stepped
      cases equal
      exact malloc_shared shared positive executed
    · cases stepped
  | store p i byte =>
    rw [step] at stepped
    split at stepped
    · cases stepped
      exact ⟨shared.start, shared.empty, shared.first⟩
    · cases stepped

/-- The memory that `malloc` returns is never private to the program. -/
theorem malloc_private_iff (memory : Memory) (otherPages : Nat → Bool) (brk : Nat) (events : List Event)
    (final : Program) (executed : run step (atStart memory otherPages brk) events = some final) :
    Private final ↔ final.blocks = [] := by
  have initial : Shared (atStart memory otherPages brk) := ⟨rfl, fun _ => rfl, fun nonempty => absurd rfl nonempty⟩
  have shared := run_preserves Shared step_shared initial executed
  constructor
  · intro safe
    by_contra nonempty
    obtain ⟨block, member, start, positive⟩ := shared.first nonempty
    have apart := safe.offHeaders block.1 ⟨block.1, start, Relation.ReflTransGen.refl⟩ block member
    change _ ∨ block.1 + 32 ≤ block.1 at apart
    omega
  · intro empty
    constructor
    · rw [empty]
      exact List.Pairwise.nil
    · intro a member
      rw [empty] at member
      cases member
    · intro b _ a member
      rw [empty] at member
      cases member

theorem written_block_shared : ∃ final,
    run step (atStart (fun _ => 0) (fun _ => false) 0x80000) [.malloc 10, .store 0x80000 3 7] = some final ∧
    ¬ Private final := by
  have obtained : (run step (atStart (fun _ => 0) (fun _ => false) 0x80000) [.malloc 10, .store 0x80000 3 7]).map
      (fun program => program.blocks) = some [(0x80000, 10)] := by
    decide +kernel
  obtain ⟨final, executed, blocks⟩ := Option.map_eq_some_iff.mp obtained
  refine ⟨final, executed, fun safe => ?_⟩
  have empty := (malloc_private_iff _ _ _ _ _ executed).mp safe
  rw [blocks] at empty
  cases empty

/-- The first block of a process is the header of its list. -/
theorem first_block_shared : ∃ final,
    run step (atStart (fun _ => 0) (fun _ => false) 0x80000) [.malloc 10] = some final ∧
    final.blocks = [(0x80000, 10)] ∧ Header final.process 0x80000 ∧ ¬ Private final := by
  have obtained : (run step (atStart (fun _ => 0) (fun _ => false) 0x80000) [.malloc 10]).map
      (fun program => (program.blocks, program.process.base)) = some ([(0x80000, 10)], some 0x80000) := by
    decide +kernel
  obtain ⟨final, executed, result⟩ := Option.map_eq_some_iff.mp obtained
  obtain ⟨blocks, base⟩ := Prod.mk.inj result
  have header : Header final.process 0x80000 := ⟨0x80000, base, Relation.ReflTransGen.refl⟩
  refine ⟨final, executed, blocks, header, fun safe => ?_⟩
  have apart := safe.offHeaders 0x80000 header (0x80000, 10) (by rw [blocks]; exact List.mem_cons_self)
  change 0x80000 + 10 ≤ 0x80000 ∨ 0x80000 + 32 ≤ 0x80000 at apart
  omega

end Sbunix.Libc
