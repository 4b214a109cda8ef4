import Sbunix.Library.Bytes
import Sbunix.Library.Chain
import Sbunix.Library.Run
import Sbunix.Paging.Bump
import Mathlib.Logic.Relation

namespace Sbunix.Heap

open Library Paging

abbrev Memory := Nat → BitVec 8

def pointer (word : BitVec 64) : Option Nat := if word = 0 then none else some word.toNat

def word : Option Nat → BitVec 64
  | none => 0
  | some address => BitVec.ofNat 64 address

def next (memory : Memory) (b : Nat) : Option Nat := pointer (loadWord memory b 8)

def size (memory : Memory) (b : Nat) : BitVec 16 := loadWord memory (b + 8) 2

def free (memory : Memory) (b : Nat) : BitVec 16 := loadWord memory (b + 10) 2

def setNext (memory : Memory) (b : Nat) (link : Option Nat) : Memory := storeWord memory b (word link) 8

def setSize (memory : Memory) (b : Nat) (value : BitVec 16) : Memory := storeWord memory (b + 8) value 2

def setFree (memory : Memory) (b : Nat) (value : BitVec 16) : Memory := storeWord memory (b + 10) value 2

def allocBlockSize : Nat := 16

def align (x : BitVec 16) : BitVec 16 := (((x - 1) >>> 3) <<< 3) + 8

structure Arena where
  memory : Memory
  base : Option Nat
  last : Option Nat
  bump : Bump
  /-- The pages that `extend_heap` has obtained. -/
  pages : List Nat

def suits (memory : Memory) (s : BitVec 16) (b : Nat) : Bool := free memory b != 0 && s ≤ size memory b

/-- `find_block` returns the block and leaves the one before it in `last`. -/
def Memory.findBlock (memory : Memory) (s : BitVec 16) (last b : Option Nat) : Option (Option Nat × Option Nat) :=
  match b with
  | none => some (none, last)
  | some block =>
    if suits memory s block then some (some block, last)
    else memory |>.findBlock s (some block) (next memory block)
partial_fixpoint

export Memory (findBlock)

/-- The kernel faults on a page that is not mapped. -/
def extendHeap (h : Arena) (last : Option Nat) : Option (Nat × Arena) :=
  let (page, bump) := vmmgrAllocPage h.bump 0
  if KernelMapped page then
    let b := page.toNat
    let memory := setNext (setSize h.memory b 0x1000) b none
    let memory := match last with
      | none => memory
      | some last => setNext memory last (some b)
    some (b, { h with memory := setFree memory b 1, bump, pages := b :: h.pages })
  else none

def subFree (h : Arena) (p : Nat) : Arena :=
  let b := p - allocBlockSize
  { h with memory := setFree h.memory b 1 }

/-- The address that `split_block` steps to, in whole headers. -/
def splitAddress (b : Nat) (s : BitVec 16) : Nat :=
  b + allocBlockSize * (1 + (s + 16).toNat / allocBlockSize)

def splitBlock (memory : Memory) (b : Nat) (s : BitVec 16) : Memory :=
  let totSize := s + 16
  let new := splitAddress b s
  let memory := storeWord memory new (loadWord memory b 8) 8
  let memory := setSize memory new (size memory b - totSize)
  let memory := setFree memory new 1
  let memory := setSize memory b s
  setNext memory b (some new)

def splits (memory : Memory) (b : Nat) (s : BitVec 16) : Bool :=
  allocBlockSize + 4 ≤ (size memory b).toNat - s.toNat

/-- `sub_malloc` without alignment to pages. -/
def subMalloc (h : Arena) (request : BitVec 16) : Option (Nat × Arena) :=
  let s := align request
  match h.base with
  | some base => do
    let (found, last) ← findBlock h.memory s (some base) (some base)
    match found with
    | some b =>
      let memory := if splits h.memory b s then splitBlock h.memory b s else h.memory
      some (b + allocBlockSize, { h with memory := setFree memory b 0, last })
    | none =>
      let tail ← last
      let (b, h) ← extendHeap { h with memory := setFree h.memory tail 0, last } last
      some (b + allocBlockSize, { h with memory := splitBlock h.memory b s })
  | none => do
    let (b, h) ← extendHeap h h.last
    some (b + allocBlockSize, { h with memory := splitBlock h.memory b s, base := some b })

structure State where
  heap : Arena
  live : List (Nat × Nat)

inductive Event where
  | malloc (request : BitVec 16)
  | free (p : Nat)
  /-- A store to a byte of a live allocation. -/
  | store (p i : Nat) (byte : BitVec 8)

def step (state : State) : Event → Option State
  | .malloc request =>
    if 1 ≤ request.toNat ∧ request.toNat ≤ 4000 then do
      let (p, heap) ← subMalloc state.heap request
      return ⟨heap, (p, request.toNat) :: state.live⟩
    else none
  | .free p =>
    if p ∈ state.live.map Prod.fst then
      some ⟨subFree state.heap p, state.live.filter fun allocation => allocation.1 ≠ p⟩
    else none
  | .store p i byte =>
    if ∃ allocation ∈ state.live, allocation.1 = p ∧ i < allocation.2 then
      let memory := Function.update state.heap.memory (p + i) byte
      some { state with heap := { state.heap with memory } }
    else none

def boot (memory : Memory) (bump : Bump) : State := ⟨⟨memory, none, none, bump, []⟩, []⟩

def Header (heap : Arena) (b : Nat) : Prop :=
  ∃ first, heap.base = some first ∧
    Relation.ReflTransGen (fun left right => next heap.memory left = some right) first b

def InPage (heap : Arena) (low high : Nat) : Prop := ∃ page ∈ heap.pages, page ≤ low ∧ high ≤ page + 4096

structure Safe (state : State) : Prop where
  disjoint : state.live.Pairwise fun a b => a.1 + a.2 ≤ b.1 ∨ b.1 + b.2 ≤ a.1
  offHeaders : ∀ b, Header state.heap b → ∀ a ∈ state.live, a.1 + a.2 ≤ b ∨ b + allocBlockSize ≤ a.1
  liveInside : ∀ a ∈ state.live, InPage state.heap a.1 (a.1 + a.2)
  headerInside : ∀ b, Header state.heap b → InPage state.heap b (b + allocBlockSize)

def extent (memory : Memory) (b : Nat) (request : BitVec 16) : Nat :=
  if splits memory b (align request) then splitAddress b (align request) + allocBlockSize
  else b + allocBlockSize + request.toNat

/-- A block that `find_block` returns is not in use, and the allocation ends before the next header and the end
    of the page. -/
def Admits (state : State) : Event → Prop
  | .malloc request => ∀ base b last, state.heap.base = some base →
      findBlock state.heap.memory (align request) (some base) (some base) = some (some b, last) →
      b + allocBlockSize ∉ state.live.map Prod.fst ∧
      (∀ other, Header state.heap other → b < other → extent state.heap.memory b request ≤ other) ∧
      InPage state.heap b (extent state.heap.memory b request)
  | _ => True

end Sbunix.Heap
