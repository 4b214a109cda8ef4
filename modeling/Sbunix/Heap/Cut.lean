import Sbunix.Heap.FreeBlocks

namespace Sbunix.Heap

open Library Paging

def subMallocs (h : Arena) (request : BitVec 16) : Nat → Option (List Nat × Arena)
  | 0 => some ([], h)
  | count + 1 => do
    let (p, h) ← subMalloc h request
    let (blocks, h) ← subMallocs h request count
    return (p :: blocks, h)

/-- The first two calls return the same block. -/
theorem subMallocs_repeat {h after : Arena} {request : BitVec 16} {count : Nat} {blocks : List Nat}
    (empty : h.base = none) (executed : subMallocs h request (count + 2) = some (blocks, after)) :
    blocks[0]? = blocks[1]? := by
  simp only [subMallocs, Option.bind_eq_bind, Option.bind_eq_some_iff, Option.pure_def] at executed
  obtain ⟨⟨p, grown⟩, first, ⟨rest, _⟩, ⟨⟨q, _⟩, second, ⟨_, _⟩, _, others⟩, whole⟩ := executed
  cases others
  cases whole
  simp only [subMalloc, empty, Option.bind_eq_bind, Option.bind_eq_some_iff] at first
  obtain ⟨⟨b, larger⟩, extended, equal⟩ := first
  cases equal
  obtain ⟨_, _, memory⟩ := extendHeap_some extended
  have again := subMalloc_reissue
    (h := { larger with memory := splitBlock larger.memory b (align request), base := some b }) request rfl
    (memory ▸ suits_fresh h.last) size_splitBlock_self
  cases again.symm.trans second
  rfl

/-- The last block of the list is the only one that serves the request, and it is split. -/
structure Cuttable (h : Arena) (s : BitVec 16) (front : List Nat) (b : Nat) : Prop where
  chain : Chain (next h.memory) h.base (front ++ [b])
  below : ∀ other ∈ front, other + 16 ≤ b
  taken : ∀ other ∈ front, suits h.memory s other = false
  free : free h.memory b = 1
  large : s.toNat + 20 ≤ (size h.memory b).toNat
  small : splitAddress b s < 2 ^ 64

theorem size_splitBlock_new {memory : Memory} {b : Nat} {s : BitVec 16} :
    size (splitBlock memory b s) (splitAddress b s) = size memory b - (s + 16) := by
  have low := splitAddress_low (b := b) (s := s)
  have kept : size (storeWord memory (splitAddress b s) (loadWord memory b 8) 8) b = size memory b := by
    rw [size, loadWord_storeWord_outside (by omega), size]
  rw [splitBlock, size, setNext, loadWord_storeWord_outside (by omega), setSize, loadWord_storeWord_outside (by omega),
    setFree, loadWord_storeWord_outside (by omega), setSize, kept]
  exact loadWord_storeWord 2 (size memory b - (s + 16))

def cutMemory (memory : Memory) (b : Nat) (s : BitVec 16) : Memory := setFree (splitBlock memory b s) b 0

theorem cutMemory_size (memory : Memory) (b : Nat) {s : BitVec 16} (large : s.toNat + 16 ≤ (size memory b).toNat) :
    (size memory b).toNat - (s.toNat + 16) ≤ (size (cutMemory memory b s) (splitAddress b s)).toNat := by
  have low := splitAddress_low (b := b) (s := s)
  have new := sameHeader_setFree (splitBlock memory b s)
    (show splitAddress b s + 16 ≤ b ∨ b + 16 ≤ splitAddress b s from Or.inr low) 0
  have total : (s + 16).toNat ≤ s.toNat + 16 := by
    rw [BitVec.toNat_add]
    exact Nat.mod_le _ _
  rw [cutMemory, new.size_eq, size_splitBlock_new, BitVec.toNat_sub_of_le (BitVec.le_def.mpr (by omega))]
  omega

section Cut

variable {h : Arena} {request : BitVec 16} {front : List Nat} {b : Nat}
  (cut : Cuttable h (align request) front b)

include cut

theorem Cuttable.subMalloc : ∃ last, subMalloc h request =
    some (b + 16, { h with memory := cutMemory h.memory b (align request), last }) := by
  have large := cut.large
  have suited : suits h.memory (align request) b = true := by
    rw [suits, cut.free]
    simp only [Bool.and_eq_true, decide_eq_true_eq, BitVec.le_def]
    exact ⟨rfl, by omega⟩
  have split : splits h.memory b (align request) = true := by
    rw [splits, decide_eq_true_eq]
    change 16 + 4 ≤ _
    omega
  have missed : front.find? (suits h.memory (align request)) = none := by
    rw [List.find?_eq_none]
    intro other listed
    rw [cut.taken other listed]
    exact Bool.false_ne_true
  have found : (front ++ [b]).find? (suits h.memory (align request)) = some b := by
    rw [List.find?_append, missed, Option.none_or, List.find?_cons, suited]
  have start := cut.chain.start_eq
  obtain ⟨first, base⟩ : ∃ first, h.base = some first := by
    rw [start]
    cases front with
    | nil => exact ⟨b, rfl⟩
    | cons first rest => exact ⟨first, rfl⟩
  have chain := cut.chain
  rw [base] at chain
  obtain ⟨last, searched⟩ := findBlock_find (s := align request) chain (some first)
  rw [found] at searched
  refine ⟨last, ?_⟩
  rw [Heap.subMalloc, base]
  simp only [searched, Option.bind_eq_bind, Option.bind_some, split, if_true]
  rfl

theorem Cuttable.next (last : Option Nat)
    (large : (align request).toNat + 20 + ((align request).toNat + 16) ≤ (size h.memory b).toNat)
    (small : splitAddress (splitAddress b (align request)) (align request) < 2 ^ 64) :
    Cuttable { h with memory := cutMemory h.memory b (align request), last } (align request) (front ++ [b])
      (splitAddress b (align request)) := by
  have low := splitAddress_low (b := b) (s := align request)
  have away : ∀ other ∈ front ++ [b], other ≠ b → other + 16 ≤ b ∨ splitAddress b (align request) + 16 ≤ other := by
    intro other listed different
    rcases List.mem_append.mp listed with old | here
    · exact Or.inl (cut.below other old)
    · exact absurd (List.mem_singleton.mp here) different
  have early {other : Nat} (old : other ∈ front) :
      SameHeader h.memory (cutMemory h.memory b (align request)) other := by
    have under := cut.below other old
    exact (sameHeader_splitBlock _ (Or.inl under)).trans (sameHeader_setFree _ (Or.inl under) 0)
  have new := sameHeader_setFree (splitBlock h.memory b (align request))
    (show splitAddress b (align request) + 16 ≤ b ∨ b + 16 ≤ splitAddress b (align request) from Or.inr low) 0
  have chained := chain_splitBlock cut.chain cut.small away
  constructor
  · rw [List.append_assoc]
    apply chained.congr
    intro other listed
    apply next_setFree
    rcases List.mem_append.mp listed with old | later
    · have under := cut.below other old
      omega
    · rcases List.mem_cons.mp later with rfl | later
      · exact Or.inl (Nat.le_refl _)
      · cases List.mem_singleton.mp later
        omega
  · intro other listed
    rcases List.mem_append.mp listed with old | here
    · have under := cut.below other old
      omega
    · cases List.mem_singleton.mp here
      exact low
  · intro other listed
    rcases List.mem_append.mp listed with old | here
    · have kept := cut.taken other old
      rw [suits] at kept ⊢
      rw [(early old).free_eq, (early old).size_eq]
      exact kept
    · cases List.mem_singleton.mp here
      rw [suits]
      change (Heap.free (setFree _ b 0) b != 0 && _) = false
      rw [free_setFree_self]
      rfl
  · change Heap.free (setFree _ b 0) _ = 1
    rw [new.free_eq, free_splitBlock_new]
  · change _ ≤ (size (cutMemory h.memory b (align request)) _).toNat
    have rest := cutMemory_size h.memory b (s := align request) (by omega)
    omega
  · exact small

end Cut

theorem splitAddress_add (b : Nat) (s : BitVec 16) : splitAddress b s = b + splitAddress 0 s := by
  rw [splitAddress, splitAddress, Nat.zero_add]

theorem subMallocs_succ {h middle after : Arena} {request : BitVec 16} {p count : Nat} {blocks : List Nat}
    (first : subMalloc h request = some (p, middle)) (later : subMallocs middle request count = some (blocks, after)) :
    subMallocs h request (count + 1) = some (p :: blocks, after) := by
  rw [subMallocs, first]
  simp only [Option.bind_eq_bind, Option.bind_some, later, Option.pure_def]

def parts (p distance : Nat) : Nat → List Nat
  | 0 => []
  | count + 1 => p :: parts (p + distance) distance count

/-- As long as the block lasts, the calls return its parts in order. -/
theorem Cuttable.subMallocs {h : Arena} {request : BitVec 16} {front : List Nat} {b : Nat} (count : Nat)
    (cut : Cuttable h (align request) front b)
    (large : (align request).toNat + 20 + count * ((align request).toNat + 16) ≤ (size h.memory b).toNat)
    (small : b + (count + 1) * splitAddress 0 (align request) < 2 ^ 64) :
    ∃ after, subMallocs h request (count + 1) =
      some (parts (b + 16) (splitAddress 0 (align request)) (count + 1), after) := by
  induction count generalizing h front b with
  | zero =>
    obtain ⟨last, first⟩ := cut.subMalloc
    exact ⟨_, subMallocs_succ first rfl⟩
  | succ count ih =>
    obtain ⟨last, first⟩ := cut.subMalloc
    have step := splitAddress_add b (align request)
    have again := splitAddress_add (splitAddress b (align request)) (align request)
    rw [Nat.succ_mul] at large small
    have next := cut.next last (by omega) (by
      rw [Nat.succ_mul] at small
      omega)
    have rest := cutMemory_size h.memory b (s := align request) (by omega)
    obtain ⟨after, later⟩ := ih next (Nat.le_trans (by omega) rest) (by omega)
    rw [step, Nat.add_right_comm] at later
    exact ⟨after, subMallocs_succ first later⟩

theorem size_linkPage (memory : Memory) (b : Nat) : size (linkPage memory none b) b = 0x1000 := by
  rw [linkPage, size, setFree, loadWord_storeWord_outside (by omega), setNext, loadWord_storeWord_outside (by omega),
    setSize]
  exact loadWord_storeWord 2 (0x1000 : BitVec 16)

theorem cuttable_page {h : Arena} {b : Nat} {memory : Memory} {s : BitVec 16} (base : h.base = some b)
    (page : h.memory = linkPage memory none b) (large : s.toNat + 20 ≤ 0x1000) (small : splitAddress b s < 2 ^ 64) :
    Cuttable h s [] b where
  chain := by
    refine ⟨base, ?_⟩
    rw [page]
    exact next_linkPage_self fun _ none => nomatch none
  below := fun _ member => absurd member List.not_mem_nil
  taken := fun _ member => absurd member List.not_mem_nil
  free := by rw [page, free_linkPage_self]
  large := by
    rw [page, size_linkPage]
    exact large
  small := small

/-- The calls on an empty heap return the first block twice, and then the other blocks of the page. -/
theorem boot_subMallocs (memory : Memory) {bump : Bump} (count : Nat) (few : count ≤ 10)
    (mapped : KernelMapped (vmmgrAllocPage bump 0).1) :
    ∃ after, subMallocs (boot memory bump).heap 304 (count + 3) =
      some (((vmmgrAllocPage bump 0).1.toNat + 16) :: parts ((vmmgrAllocPage bump 0).1.toNat + 16) 336 (count + 2),
        after) := by
  have extended : extendHeap (boot memory bump).heap none = some ((vmmgrAllocPage bump 0).1.toNat,
      ⟨linkPage memory none (vmmgrAllocPage bump 0).1.toNat, none, none, ⟨(vmmgrAllocPage bump 0).1, 0⟩,
        [(vmmgrAllocPage bump 0).1.toNat]⟩) := by
    rw [extendHeap_eq]
    exact if_pos mapped
  have high : (vmmgrAllocPage bump 0).1.toNat + 4096 ≤ 0xFFFFFFFF82C00000 := mapped.2
  generalize (vmmgrAllocPage bump 0).1 = page at extended high
  have first : subMalloc (boot memory bump).heap 304 = some (page.toNat + 16,
      ⟨splitBlock (linkPage memory none page.toNat) page.toNat (align 304), some page.toNat, none, ⟨page, 0⟩,
        [page.toNat]⟩) := by
    change (extendHeap (boot memory bump).heap none).bind _ = _
    rw [extended]
    rfl
  have second := subMalloc_reissue (b := page.toNat)
    (h := ⟨splitBlock (linkPage memory none page.toNat) page.toNat (align 304), some page.toNat, none, ⟨page, 0⟩,
      [page.toNat]⟩) 304 rfl (suits_fresh none) size_splitBlock_self
  have step (b : Nat) : splitAddress b (align 304) = b + 336 := rfl
  have bound : (align 304).toNat = 304 := rfl
  have whole := cuttable_page (h := ⟨linkPage memory none page.toNat, some page.toNat, none, ⟨page, 0⟩, [page.toNat]⟩)
    (s := align 304) rfl rfl (by decide) (by rw [step]; omega)
  -- without the mark of the second call, the page is cut as if the first call had taken the block
  have rest := whole.next (some page.toNat)
    (by rw [size_linkPage]; decide) (by rw [step, step]; omega)
  have left := cutMemory_size (linkPage memory none page.toNat) page.toNat (s := align 304)
    (by rw [size_linkPage]; decide)
  rw [size_linkPage] at left
  obtain ⟨after, later⟩ := rest.subMallocs count
    (Nat.le_trans (by rw [bound]; change _ ≤ 4096 - (304 + 16); omega) left) (by rw [step, step]; omega)
  rw [step, step, Nat.zero_add, Nat.add_right_comm] at later
  exact ⟨after, subMallocs_succ first (subMallocs_succ second later)⟩

end Sbunix.Heap
