import Sbunix.Heap.Safety

namespace Sbunix.Heap

open Library Paging

def SameHeader (left right : Memory) (b : Nat) : Prop := ∀ i, b ≤ i → i < b + 12 → right i = left i

section SameHeader

variable {left middle right : Memory} {b : Nat}

theorem SameHeader.trans (first : SameHeader left middle b) (second : SameHeader middle right b) :
    SameHeader left right b :=
  fun i low high => (second i low high).trans (first i low high)

theorem SameHeader.next_eq (same : SameHeader left right b) : next right b = next left b :=
  congrArg pointer (loadWord_congr fun i low high => same i low (by omega))

theorem SameHeader.size_eq (same : SameHeader left right b) : size right b = size left b :=
  loadWord_congr fun i low high => same i (by omega) (by omega)

theorem SameHeader.free_eq (same : SameHeader left right b) : free right b = free left b :=
  loadWord_congr fun i low high => same i (by omega) (by omega)

end SameHeader

section Writes

variable (memory : Memory) {b other : Nat}

theorem sameHeader_setFree (apart : other + 16 ≤ b ∨ b + 16 ≤ other) (value : BitVec 16) :
    SameHeader memory (setFree memory b value) other := by
  intro i low high
  exact blit_outside (by omega)

theorem sameHeader_splitBlock {s : BitVec 16} (apart : other + 16 ≤ b ∨ splitAddress b s + 16 ≤ other) :
    SameHeader memory (splitBlock memory b s) other := by
  have low := splitAddress_low (b := b) (s := s)
  intro i above below
  simp only [splitBlock, setNext, setSize, setFree, storeWord]
  rw [blit_outside (by omega), blit_outside (by omega), blit_outside (by omega), blit_outside (by omega),
    blit_outside (by omega)]

theorem sameHeader_linkPage {last : Option Nat} (below : other + 16 ≤ b)
    (apart : ∀ tail, last = some tail → other + 16 ≤ tail ∨ tail + 16 ≤ other) :
    SameHeader memory (linkPage memory last b) other := by
  intro i low high
  cases last with
  | none =>
    simp only [linkPage, setNext, setSize, setFree, storeWord]
    rw [blit_outside (by omega), blit_outside (by omega), blit_outside (by omega)]
  | some tail =>
    have place := apart tail rfl
    simp only [linkPage, setNext, setSize, setFree, storeWord]
    rw [blit_outside (by omega), blit_outside (by omega), blit_outside (by omega), blit_outside (by omega)]

theorem free_splitBlock_new {s : BitVec 16} : free (splitBlock memory b s) (splitAddress b s) = 1 := by
  have low := splitAddress_low (b := b) (s := s)
  rw [splitBlock, free, setNext, loadWord_storeWord_outside (by omega), setSize,
    loadWord_storeWord_outside (by omega), setFree, loadWord_storeWord 2 (1 : BitVec 16)]

theorem free_setFree_self (value : BitVec 16) : free (setFree memory b value) b = value := loadWord_storeWord 2 value

theorem free_linkPage_tail {tail : Nat} (below : tail + 16 ≤ b) :
    free (linkPage memory (some tail) b) tail = free memory tail := by
  simp only [linkPage, free, setNext, setSize, setFree]
  rw [loadWord_storeWord_outside (by omega), loadWord_storeWord_outside (by omega),
    loadWord_storeWord_outside (by omega), loadWord_storeWord_outside (by omega)]

end Writes

theorem findBlock_find {memory : Memory} {s : BitVec 16} {start : Option Nat} {blocks : List Nat}
    (chain : Chain (next memory) start blocks) (last : Option Nat) :
    ∃ tail, findBlock memory s last start = some (blocks.find? (suits memory s), tail) := by
  induction blocks generalizing start last with
  | nil =>
    rw [show start = none from chain, findBlock]
    exact ⟨last, rfl⟩
  | cons block rest ih =>
    rw [chain.1, findBlock, List.find?_cons]
    cases suits memory s block with
    | true => exact ⟨last, rfl⟩
    | false => exact ih chain.2 (some block)

/-- The list of a heap, its headers apart from each other, below the next page and off the place where a block
    that serves the request is split. -/
structure WellFormed (h : Arena) (blocks : List Nat) (s : BitVec 16) : Prop where
  chain : Chain (next h.memory) h.base blocks
  apart : ∀ b ∈ blocks, ∀ other ∈ blocks, b < other → b + 16 ≤ other
  mapped : ∀ b ∈ blocks, b + 16 ≤ 0xFFFFFFFF82C00000
  below : ∀ b ∈ blocks, b + 16 ≤ (vmmgrAllocPage h.bump 0).1.toNat
  room : ∀ b ∈ blocks, suits h.memory s b → splits h.memory b s → ∀ other ∈ blocks, b < other →
    splitAddress b s + 16 ≤ other

/-- Every free block but the one that is returned stays on the list as it is, and what is cut off the returned
    block is free. -/
structure KeepsFree (h after : Arena) (s : BitVec 16) (p : Nat) : Prop where
  kept : ∀ b, Header h b → free h.memory b ≠ 0 → p ≠ b + allocBlockSize →
    Header after b ∧ free after.memory b ≠ 0 ∧ size after.memory b = size h.memory b
  remainder : ∀ b, p = b + allocBlockSize → (Header h b → splits h.memory b s = true) →
    Header after (splitAddress b s) ∧ free after.memory (splitAddress b s) ≠ 0

theorem splitAddress_small {b : Nat} (s : BitVec 16) (mapped : b + 16 ≤ 0xFFFFFFFF82C00000) :
    splitAddress b s < 2 ^ 64 := by
  have bound := (s + 16).isLt
  change b + 16 * (1 + (s + 16).toNat / 16) < 2 ^ 64
  omega

def extended (memory : Memory) (tail page : Nat) (s : BitVec 16) : Memory :=
  splitBlock (linkPage (setFree memory tail 0) (some tail) page) page s

theorem extended_tail {memory : Memory} {tail page : Nat} (under : tail + 16 ≤ page) (s : BitVec 16) :
    free (extended memory tail page s) tail = 0 := by
  rw [extended, (sameHeader_splitBlock _ (Or.inl under)).free_eq, free_linkPage_tail _ under, free_setFree_self]

section WellFormed

variable {h : Arena} {blocks : List Nat} {s : BitVec 16} (formed : WellFormed h blocks s)

include formed

theorem WellFormed.header_iff {b : Nat} : Header h b ↔ b ∈ blocks := formed.chain.mem_iff.symm

theorem WellFormed.separate {b other : Nat} (member : b ∈ blocks) (listed : other ∈ blocks) (different : other ≠ b) :
    other + 16 ≤ b ∨ b + 16 ≤ other := by
  rcases Nat.lt_or_gt_of_ne different with before | behind
  · exact Or.inl (formed.apart other listed b member before)
  · exact Or.inr (formed.apart b member other listed behind)

/-- A free block keeps its state where its header does and it is still on the list. -/
theorem WellFormed.kept_of_same {after : Arena} {other : Nat} (header : Header h other)
    (marked : free h.memory other ≠ 0) (headers : ∀ b ∈ blocks, Header after b)
    (same : other ∈ blocks → SameHeader h.memory after.memory other) :
    Header after other ∧ free after.memory other ≠ 0 ∧ size after.memory other = size h.memory other := by
  have listed := formed.header_iff.mp header
  refine ⟨headers other listed, ?_, (same listed).size_eq⟩
  rw [(same listed).free_eq]
  exact marked

theorem WellFormed.fit_whole {b : Nat} (member : b ∈ blocks) (whole : ¬ splits h.memory b s = true)
    (last : Option Nat) : KeepsFree h { h with memory := setFree h.memory b 0, last } s (b + allocBlockSize) := by
  have same : ∀ other ∈ blocks, other ≠ b → SameHeader h.memory (setFree h.memory b 0) other :=
    fun other listed different => sameHeader_setFree _ (formed.separate member listed different) 0
  have links : ∀ other ∈ blocks, next (setFree h.memory b 0) other = next h.memory other := by
    intro other listed
    by_cases different : other = b
    · exact next_setFree (by omega) 0
    · exact (same other listed different).next_eq
  constructor
  · intro other header marked returned
    refine formed.kept_of_same header marked (fun _ listed => (formed.chain.congr links).mem_iff.mp listed) ?_
    exact fun listed => same other listed fun equal => returned (by rw [equal])
  · intro other place split
    obtain rfl : b = other := Nat.add_right_cancel place
    exact absurd (split (formed.header_iff.mpr member)) whole

theorem WellFormed.fit_split {b : Nat} (member : b ∈ blocks) (suited : suits h.memory s b = true)
    (split : splits h.memory b s = true) (last : Option Nat) :
    KeepsFree h { h with memory := setFree (splitBlock h.memory b s) b 0, last } s (b + allocBlockSize) := by
  have low := splitAddress_low (b := b) (s := s)
  have away : ∀ other ∈ blocks, other ≠ b → other + 16 ≤ b ∨ splitAddress b s + 16 ≤ other := by
    intro other listed different
    rcases Nat.lt_or_gt_of_ne different with before | behind
    · exact Or.inl (formed.apart other listed b member before)
    · exact Or.inr (formed.room b member suited split other listed behind)
  have same : ∀ other ∈ blocks, other ≠ b →
      SameHeader h.memory (setFree (splitBlock h.memory b s) b 0) other := by
    intro other listed different
    have place := away other listed different
    exact (sameHeader_splitBlock _ place).trans (sameHeader_setFree _ (by omega) 0)
  obtain ⟨front, back, whole⟩ := List.append_of_mem member
  have chain := formed.chain
  rw [whole] at chain
  have cut := chain_splitBlock chain (splitAddress_small s (formed.mapped b member)) (whole ▸ away)
  have links : ∀ other ∈ front ++ b :: splitAddress b s :: back,
      next (setFree (splitBlock h.memory b s) b 0) other = next (splitBlock h.memory b s) other := by
    intro other listed
    apply next_setFree
    by_cases new : other = splitAddress b s
    · omega
    · have old : other ∈ blocks := by
        rw [whole]
        simp only [List.mem_append, List.mem_cons, new, false_or] at listed ⊢
        exact listed
      by_cases here : other = b
      · exact Or.inl (Nat.le_of_eq here)
      · have place := away other old here
        omega
  have chained := cut.congr links
  constructor
  · intro other header marked returned
    refine formed.kept_of_same header marked ?_ fun listed => same other listed fun equal => returned (by rw [equal])
    intro block listed
    apply chained.mem_iff.mp
    rw [whole] at listed
    simp only [List.mem_append, List.mem_cons] at listed ⊢
    tauto
  · intro other place _
    obtain rfl : b = other := Nat.add_right_cancel place
    refine ⟨chained.mem_iff.mp (by simp), ?_⟩
    have new := sameHeader_setFree (splitBlock h.memory b s) (show splitAddress b s + 16 ≤ b ∨ b + 16 ≤ _ by omega) 0
    change free (setFree (splitBlock h.memory b s) b 0) (splitAddress b s) ≠ 0
    rw [new.free_eq, free_splitBlock_new]
    decide

section Extend

variable {tail page : Nat} (final : blocks.getLast? = some tail) (below : ∀ b ∈ blocks, b + 16 ≤ page)

include final below

theorem WellFormed.extended_same {other : Nat} (listed : other ∈ blocks) (different : other ≠ tail) :
    SameHeader h.memory (extended h.memory tail page s) other := by
  have place := formed.separate (List.mem_of_getLast? final) listed different
  have under := below other listed
  have marked := sameHeader_setFree h.memory place 0
  have linked := sameHeader_linkPage (setFree h.memory tail 0) under fun same (equal : some tail = some same) =>
    Option.some.inj equal ▸ place
  exact (marked.trans linked).trans (sameHeader_splitBlock _ (Or.inl under))

theorem WellFormed.extended_chain (mapped : page + 16 ≤ 0xFFFFFFFF82C00000) :
    Chain (next (extended h.memory tail page s)) h.base (blocks ++ [page, splitAddress page s]) := by
  have member := List.mem_of_getLast? final
  have marked : Chain (next (setFree h.memory tail 0)) h.base blocks := by
    apply formed.chain.congr
    intro other listed
    apply next_setFree
    by_cases here : other = tail
    · exact Or.inl (Nat.le_of_eq here)
    · have place := formed.separate member listed here
      omega
  have linked := chain_linkPage marked formed.apart below (by omega)
  rw [final, List.head?_append_of_ne_nil _ (List.ne_nil_of_mem member), ← formed.chain.start_eq] at linked
  have cut := chain_splitBlock (s := s) linked (splitAddress_small s mapped) (by
    intro other listed different
    rcases List.mem_append.mp listed with old | new
    · exact Or.inl (below other old)
    · exact absurd (List.mem_singleton.mp new) different)
  exact cut

/-- Without a block that suits, the last block is marked as used. -/
theorem WellFormed.extended_keeps (after : Arena) (memory : after.memory = extended h.memory tail page s)
    (base : after.base = h.base) (mapped : page + 16 ≤ 0xFFFFFFFF82C00000) :
    KeepsFree h after s (page + allocBlockSize) ↔ free h.memory tail = 0 := by
  have member := List.mem_of_getLast? final
  have chain := formed.extended_chain final below mapped
  have headers : ∀ b ∈ blocks ++ [page, splitAddress page s], Header after b := by
    intro b listed
    unfold Header
    rw [memory, base]
    exact chain.mem_iff.mp listed
  constructor
  · intro keeps
    by_contra marked
    have under := below tail member
    have kept := keeps.kept tail (formed.header_iff.mpr member) marked (by
      change page + 16 ≠ tail + 16
      omega)
    rw [memory] at kept
    exact kept.2.1 (extended_tail under s)
  · intro unmarked
    constructor
    · intro other header marked _
      refine formed.kept_of_same header marked (fun b listed => headers b (List.mem_append_left _ listed)) ?_
      intro listed
      rw [memory]
      exact formed.extended_same final below listed fun equal => marked (equal ▸ unmarked)
    · intro other place _
      obtain rfl : page = other := Nat.add_right_cancel place
      refine ⟨headers _ (by simp), ?_⟩
      rw [memory, extended, free_splitBlock_new]
      decide

end Extend

end WellFormed

theorem first_keeps {h grown : Arena} {s : BitVec 16} {b : Nat} (empty : h.base = none)
    (executed : extendHeap h h.last = some (b, grown)) :
    KeepsFree h { grown with memory := splitBlock grown.memory b s, base := some b } s (b + allocBlockSize) := by
  obtain ⟨mapped, rfl, _⟩ := extendHeap_some executed
  have nothing : ∀ other, ¬ Header h other := by
    intro other header
    obtain ⟨first, start, _⟩ := header
    rw [empty] at start
    cases start
  constructor
  · exact fun other header => absurd header (nothing other)
  · intro other place _
    obtain rfl := Nat.add_right_cancel place
    have bound := mapped.2
    have small := splitAddress_small s (show (vmmgrAllocPage h.bump 0).1.toNat + 16 ≤ _ by omega)
    refine ⟨⟨_, rfl, Relation.ReflTransGen.single (next_splitBlock_self small)⟩, ?_⟩
    change free (splitBlock _ _ s) _ ≠ 0
    rw [free_splitBlock_new]
    decide

/-- `sub_malloc` keeps the free blocks exactly where some block serves the request or the last one is in use. -/
theorem sub_malloc_keeps_free_iff (h after : Arena) (blocks : List Nat) (request : BitVec 16) (p : Nat)
    (formed : WellFormed h blocks (align request)) (executed : subMalloc h request = some (p, after)) :
    KeepsFree h after (align request) p ↔
      (∃ b ∈ blocks, suits h.memory (align request) b) ∨
        ∀ tail, blocks.getLast? = some tail → free h.memory tail = 0 := by
  rw [subMalloc] at executed
  have chain := formed.chain
  cases start : h.base with
  | none =>
    rw [start] at executed chain
    simp only [Option.bind_eq_bind, Option.bind_eq_some_iff] at executed
    obtain ⟨⟨b, grown⟩, extended, equal⟩ := executed
    cases equal
    have empty : blocks = [] := List.head?_eq_none_iff.mp chain.start_eq.symm
    refine iff_of_true (first_keeps start extended) (Or.inr ?_)
    intro tail final
    rw [empty] at final
    cases final
  | some base =>
    rw [start] at executed chain
    obtain ⟨last, searched⟩ := findBlock_find (s := align request) chain (some base)
    have missed := (findBlock_chain chain searched).2
    simp only [searched, Option.bind_eq_bind, Option.bind_some] at executed
    cases found : blocks.find? (suits h.memory (align request)) with
    | some b =>
      rw [found] at executed
      have suited := List.find?_some found
      have member := List.mem_of_find?_eq_some found
      obtain ⟨rfl, rfl⟩ := Prod.mk.inj (Option.some.inj executed)
      refine iff_of_true ?_ (Or.inl ⟨b, member, suited⟩)
      rw [← start]
      split
      · rename_i split
        exact formed.fit_split member suited split last
      · rename_i whole
        exact formed.fit_whole member whole last
    | none =>
      rw [found] at executed missed
      have none : ¬ ∃ b ∈ blocks, suits h.memory (align request) b = true := by
        rintro ⟨b, member, suited⟩
        exact List.find?_eq_none.mp found b member suited
      -- no block suits: `last->free = 0`, and the heap is extended
      simp only [Option.bind_eq_some_iff] at executed
      obtain ⟨tail, ended, ⟨page, grown⟩, extended, equal⟩ := executed
      obtain ⟨rfl, rfl⟩ := Prod.mk.inj (Option.some.inj equal)
      have nonempty : blocks ≠ [] := by
        rintro rfl
        cases chain
      have final : blocks.getLast? = some tail := by
        rw [← ended, missed rfl, List.getLast?_eq_some_getLast nonempty]
        rfl
      obtain ⟨mapped, rfl, memory⟩ := extendHeap_some extended
      have base := extendHeap_base extended
      have bound : (vmmgrAllocPage h.bump 0).1.toNat + 4096 ≤ 0xFFFFFFFF82C00000 := mapped.2
      rw [formed.extended_keeps final formed.below _ (by rw [memory, ended]; rfl) (by rw [start]; exact base)
        (by omega)]
      simp only [none, false_or, final, Option.some.injEq, forall_eq']

def twoFree : Arena where
  memory :=
    let first := setFree (setSize (setNext (fun _ => 0) 0xFFFFFFFF80201000 (some 0xFFFFFFFF80201080))
      0xFFFFFFFF80201000 80) 0xFFFFFFFF80201000 1
    setFree (setSize first 0xFFFFFFFF80201080 3952) 0xFFFFFFFF80201080 1
  base := some 0xFFFFFFFF80201000
  last := none
  bump := ⟨0xFFFFFFFF80201000, 0⟩
  pages := [0xFFFFFFFF80201000]

theorem twoFree_links : next twoFree.memory 0xFFFFFFFF80201000 = some 0xFFFFFFFF80201080 ∧
    next twoFree.memory 0xFFFFFFFF80201080 = none := by
  decide +kernel

theorem twoFree_formed : WellFormed twoFree [0xFFFFFFFF80201000, 0xFFFFFFFF80201080] (align 88) where
  chain := ⟨rfl, twoFree_links.1, twoFree_links.2⟩
  apart := by decide
  mapped := by decide
  below := by decide
  room := by decide +kernel

theorem second_block_served :
    ∃ p after, subMalloc twoFree 88 = some (p, after) ∧ KeepsFree twoFree after (align 88) p := by
  have unsuited : ¬ suits twoFree.memory (align 88) 0xFFFFFFFF80201000 = true := by decide +kernel
  have suited : suits twoFree.memory (align 88) 0xFFFFFFFF80201080 = true := by decide +kernel
  have search : findBlock twoFree.memory (align 88) (some 0xFFFFFFFF80201000) (some 0xFFFFFFFF80201000) =
      some (some 0xFFFFFFFF80201080, some 0xFFFFFFFF80201000) := by
    rw [findBlock, if_neg unsuited, twoFree_links.1, findBlock, if_pos suited]
  have served : (subMalloc twoFree 88).isSome := by
    rw [subMalloc]
    change ((findBlock _ _ (some 0xFFFFFFFF80201000) (some 0xFFFFFFFF80201000)).bind _).isSome
    rw [search]
    rfl
  obtain ⟨⟨p, after⟩, executed⟩ := Option.isSome_iff_exists.mp served
  exact ⟨p, after, executed, (sub_malloc_keeps_free_iff twoFree after _ 88 _ twoFree_formed executed).mpr
    (Or.inl ⟨_, List.mem_cons_of_mem _ List.mem_cons_self, suited⟩)⟩

def oneBlock : Arena where
  memory := fun i => if i = 0xFFFFFFFF80201008 then 80 else if i = 0xFFFFFFFF8020100A then 1 else 0
  base := some 0xFFFFFFFF80201000
  last := none
  bump := ⟨0xFFFFFFFF80201000, 0⟩
  pages := [0xFFFFFFFF80201000]

theorem oneBlock_fields : next oneBlock.memory 0xFFFFFFFF80201000 = none ∧
    size oneBlock.memory 0xFFFFFFFF80201000 = 80 ∧ free oneBlock.memory 0xFFFFFFFF80201000 = 1 := by
  decide +kernel

theorem oneBlock_formed : WellFormed oneBlock [0xFFFFFFFF80201000] (align 4000) where
  chain := ⟨rfl, oneBlock_fields.1⟩
  apart := by simp
  mapped := by simp
  below := by
    intro b member
    rw [List.mem_singleton.mp member]
    decide
  room := by
    intro b member _ _ other listed before
    rw [List.mem_singleton.mp member, List.mem_singleton.mp listed] at before
    exact absurd before (Nat.lt_irrefl _)

/-- A larger request marks the block as used and returns another one. -/
theorem free_block_lost : ∃ p after, WellFormed oneBlock [0xFFFFFFFF80201000] (align 4000) ∧
    subMalloc oneBlock 4000 = some (p, after) ∧ ¬ KeepsFree oneBlock after (align 4000) p := by
  have unsuited : ¬ suits oneBlock.memory (align 4000) 0xFFFFFFFF80201000 = true := by decide +kernel
  have search : findBlock oneBlock.memory (align 4000) (some 0xFFFFFFFF80201000) (some 0xFFFFFFFF80201000) =
      some (none, some 0xFFFFFFFF80201000) := by
    rw [findBlock, if_neg unsuited, oneBlock_fields.1, findBlock]
  let after : Arena :=
    { memory := extended oneBlock.memory 0xFFFFFFFF80201000 0xFFFFFFFF80202000 (align 4000)
      base := oneBlock.base
      last := some 0xFFFFFFFF80201000
      bump := ⟨0xFFFFFFFF80202000, 0⟩
      pages := [0xFFFFFFFF80202000, 0xFFFFFFFF80201000] }
  have executed : subMalloc oneBlock 4000 = some (0xFFFFFFFF80202000 + allocBlockSize, after) := by
    rw [subMalloc]
    change (findBlock _ _ (some 0xFFFFFFFF80201000) (some 0xFFFFFFFF80201000)).bind _ = _
    rw [search]
    rfl
  have final : [0xFFFFFFFF80201000].getLast? = some 0xFFFFFFFF80201000 := rfl
  refine ⟨_, after, oneBlock_formed, executed, ?_⟩
  rw [oneBlock_formed.extended_keeps final (by simp) after rfl rfl (by decide), oneBlock_fields.2.2]
  decide

end Sbunix.Heap
