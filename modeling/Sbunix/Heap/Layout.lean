import Sbunix.Heap.Model

namespace Sbunix.Heap

open Library Paging

theorem pointer_word {address : Nat} (positive : 0 < address) (small : address < 2 ^ 64) :
    pointer (word (some address)) = some address := by
  have value : (BitVec.ofNat 64 address).toNat = address := by
    rw [BitVec.toNat_ofNat, Nat.mod_eq_of_lt small]
  have nonzero : BitVec.ofNat 64 address ≠ 0 := by
    intro zero
    rw [zero] at value
    exact absurd value (Nat.ne_of_lt positive)
  rw [word, pointer, if_neg nonzero, value]

section Fields

variable {memory : Memory} {b other : Nat}

theorem next_setNext_self {address : Nat} (positive : 0 < address) (small : address < 2 ^ 64) :
    next (setNext memory b (some address)) b = some address := by
  rw [next, setNext, loadWord_storeWord 8 (word (some address))]
  exact pointer_word positive small

theorem next_setNext_none : next (setNext memory b none) b = none := by
  rw [next, setNext, loadWord_storeWord 8 (word none)]
  rfl

theorem next_setNext_other (apart : other + 8 ≤ b ∨ b + 8 ≤ other) (link : Option Nat) :
    next (setNext memory b link) other = next memory other := by
  rw [next, setNext, loadWord_storeWord_outside apart, next]

theorem next_setSize (apart : other ≤ b ∨ b + 10 ≤ other) (value : BitVec 16) :
    next (setSize memory b value) other = next memory other := by
  rw [next, setSize, loadWord_storeWord_outside (by omega), next]

theorem next_setFree (apart : other ≤ b ∨ b + 12 ≤ other) (value : BitVec 16) :
    next (setFree memory b value) other = next memory other := by
  rw [next, setFree, loadWord_storeWord_outside (by omega), next]

end Fields

section Split

variable {memory : Memory} {b : Nat} {s : BitVec 16}

theorem splitAddress_low : b + 16 ≤ splitAddress b s := by
  change b + 16 ≤ b + 16 * (1 + (s + 16).toNat / 16)
  omega

theorem next_splitBlock_new : next (splitBlock memory b s) (splitAddress b s) = next memory b := by
  have low := splitAddress_low (b := b) (s := s)
  rw [splitBlock, next_setNext_other (by omega), next_setSize (by omega), next_setFree (by omega),
    next_setSize (by omega), next, loadWord_storeWord 8 (loadWord memory b 8), next]

theorem next_splitBlock_self (small : splitAddress b s < 2 ^ 64) :
    next (splitBlock memory b s) b = some (splitAddress b s) := by
  have low := splitAddress_low (b := b) (s := s)
  rw [splitBlock, next_setNext_self (by omega) small]

theorem next_splitBlock_other {other : Nat} (apart : other + 16 ≤ b ∨ splitAddress b s + 16 ≤ other) :
    next (splitBlock memory b s) other = next memory other := by
  have low := splitAddress_low (b := b) (s := s)
  rw [splitBlock, next_setNext_other (by omega), next_setSize (by omega), next_setFree (by omega),
    next_setSize (by omega), next, loadWord_storeWord_outside (by omega), next]

end Split

theorem align_toNat {request : BitVec 16} (positive : 1 ≤ request.toNat) (small : request.toNat ≤ 4000) :
    (align request).toNat = 8 * ((request.toNat + 7) / 8) := by
  have one : (request - 1).toNat = request.toNat - 1 := by
    rw [BitVec.toNat_sub]
    change (2 ^ 16 - 1 + request.toNat) % 2 ^ 16 = _
    omega
  rw [align, BitVec.toNat_add, BitVec.toNat_shiftLeft, BitVec.toNat_ushiftRight, one, Nat.shiftRight_eq_div_pow,
    Nat.shiftLeft_eq]
  change ((request.toNat - 1) / 8 * 8 % 65536 + 8) % 65536 = _
  omega

theorem splitAddress_eq {b : Nat} {request : BitVec 16} (positive : 1 ≤ request.toNat)
    (small : request.toNat ≤ 4000) :
    splitAddress b (align request) = b + 32 + 16 * ((request.toNat + 7) / 8 / 2) := by
  have rounded := align_toNat positive small
  have total : (align request + 16).toNat = 8 * ((request.toNat + 7) / 8) + 16 := by
    rw [BitVec.toNat_add, rounded]
    change (8 * ((request.toNat + 7) / 8) + 16) % 65536 = _
    omega
  rw [splitAddress, total]
  change b + 16 * (1 + (8 * ((request.toNat + 7) / 8) + 16) / 16) = _
  omega

theorem findBlock_chain {memory : Memory} {s : BitVec 16} {start last found tail : Option Nat} {blocks : List Nat}
    (chain : Chain (next memory) start blocks) (executed : findBlock memory s last start = some (found, tail)) :
    (∀ b, found = some b → b ∈ blocks) ∧ (found = none → tail = blocks.getLast?.or last) := by
  induction blocks generalizing start last with
  | nil =>
    rw [show start = none from chain, findBlock] at executed
    cases executed
    exact ⟨fun b missing => absurd missing.symm (Option.some_ne_none b), fun _ => rfl⟩
  | cons block rest ih =>
    rw [chain.1, findBlock] at executed
    split at executed
    · cases executed
      refine ⟨?_, fun missing => absurd missing (Option.some_ne_none block)⟩
      intro b same
      cases same
      exact List.mem_cons_self
    · obtain ⟨member, ended⟩ := ih chain.2 executed
      refine ⟨fun b same => List.mem_cons_of_mem _ (member b same), ?_⟩
      intro missing
      rw [ended missing]
      cases rest with
      | nil => rfl
      | cons second rest =>
        rw [List.getLast?_cons_cons, List.getLast?_cons]
        rfl

/-- A block that is split is followed by its remainder. -/
theorem chain_splitBlock {memory : Memory} {start : Option Nat} {front back : List Nat} {b : Nat} {s : BitVec 16}
    (chain : Chain (next memory) start (front ++ b :: back)) (small : splitAddress b s < 2 ^ 64)
    (away : ∀ other ∈ front ++ b :: back, other ≠ b → other + 16 ≤ b ∨ splitAddress b s + 16 ≤ other) :
    Chain (next (splitBlock memory b s)) start (front ++ b :: splitAddress b s :: back) := by
  have nodup := chain.nodup
  rw [List.nodup_append, List.nodup_cons] at nodup
  obtain ⟨_, ⟨notBack, _⟩, separate⟩ := nodup
  apply chain.splice
  · intro other listed
    have known := List.mem_append_left (b :: back) listed
    exact next_splitBlock_other (away other known (separate other listed b List.mem_cons_self))
  · rw [next_splitBlock_self small]
    refine ⟨rfl, ?_⟩
    rw [next_splitBlock_new, chain.next_eq]
    have rest : Chain (next memory) back.head? back := by
      have tail := chain.suffix.2
      rwa [chain.next_eq] at tail
    apply rest.congr
    intro other listed
    have known := List.mem_append_right front (List.mem_cons_of_mem b listed)
    exact next_splitBlock_other (away other known fun same => notBack (same ▸ listed))

structure Layout (state : State) (blocks : List Nat) : Prop where
  chain : Chain (next state.heap.memory) state.heap.base blocks
  apart : ∀ b ∈ blocks, ∀ other ∈ blocks, b < other → b + 16 ≤ other
  inside : ∀ b ∈ blocks, InPage state.heap b (b + 16)
  pages : ∀ page ∈ state.heap.pages, 0xFFFFFFFF80200000 ≤ page ∧ page ≤ state.heap.bump.bumpAddr.toNat
  bound : state.heap.pages ≠ [] → state.heap.bump.bumpAddr.toNat + 4096 ≤ 0xFFFFFFFF82C00000
  held : ∀ a ∈ state.live, ∃ b ∈ blocks, a.1 = b + 16 ∧ (∀ other ∈ blocks, b < other → a.1 + a.2 ≤ other) ∧
    InPage state.heap a.1 (a.1 + a.2)
  distinct : state.live.Pairwise fun a b => a.1 ≠ b.1
  unused : state.heap.base = none → state.heap.last = none

theorem boot_layout (memory : Memory) (bump : Bump) : Layout (boot memory bump) [] where
  chain := rfl
  apart := fun _ member => absurd member List.not_mem_nil
  inside := fun _ member => absurd member List.not_mem_nil
  pages := fun _ member => absurd member List.not_mem_nil
  bound := fun nonempty => absurd rfl nonempty
  held := fun _ member => absurd member List.not_mem_nil
  distinct := List.Pairwise.nil
  unused := fun _ => rfl

section Layout

variable {state : State} {blocks : List Nat} (layout : Layout state blocks)

include layout

theorem Layout.header_iff {b : Nat} : Header state.heap b ↔ b ∈ blocks := layout.chain.mem_iff.symm

theorem Layout.inPage_bound {low high : Nat} (inside : InPage state.heap low high) :
    0xFFFFFFFF80200000 ≤ low ∧ high ≤ 0xFFFFFFFF82C00000 := by
  obtain ⟨page, member, above, below⟩ := inside
  have range := layout.pages page member
  have bound := layout.bound (List.ne_nil_of_mem member)
  omega

theorem Layout.safe : Safe state where
  disjoint := by
    apply List.Pairwise.imp_of_mem _ layout.distinct
    intro left right leftLive rightLive different
    obtain ⟨b, member, start, ended, _⟩ := layout.held left leftLive
    obtain ⟨other, otherMember, otherStart, otherEnded, _⟩ := layout.held right rightLive
    rcases Nat.lt_trichotomy b other with before | same | behind
    · have bound := ended other otherMember before
      omega
    · omega
    · have bound := otherEnded b member behind
      omega
  offHeaders := by
    intro other header a live
    have otherMember := layout.header_iff.mp header
    obtain ⟨b, member, start, ended, _⟩ := layout.held a live
    change a.1 + a.2 ≤ other ∨ other + 16 ≤ a.1
    rcases Nat.lt_trichotomy b other with before | same | behind
    · exact Or.inl (ended other otherMember before)
    · omega
    · have bound := layout.apart other otherMember b member behind
      omega
  liveInside := by
    intro a live
    obtain ⟨b, member, start, ended, inside⟩ := layout.held a live
    exact inside
  headerInside := by
    intro b header
    exact layout.inside b (layout.header_iff.mp header)

theorem Layout.memory {memory : Memory} (last : Option Nat)
    (same : ∀ b ∈ blocks, next memory b = next state.heap.memory b)
    (unused : state.heap.base = none → last = none) :
    Layout ⟨{ state.heap with memory, last }, state.live⟩ blocks where
  chain := layout.chain.congr same
  apart := layout.apart
  inside := layout.inside
  pages := layout.pages
  bound := layout.bound
  held := layout.held
  distinct := layout.distinct
  unused := unused

theorem Layout.links_kept {b : Nat} (member : b ∈ blocks) (value : BitVec 16) :
    ∀ other ∈ blocks, next (setFree state.heap.memory b value) other = next state.heap.memory other := by
  intro other listed
  apply next_setFree
  rcases Nat.lt_or_ge b other with before | behind
  · have bound := layout.apart b member other listed before
    omega
  · exact Or.inl behind

theorem Layout.grant {b amount : Nat} (member : b ∈ blocks) (unheld : b + 16 ∉ state.live.map Prod.fst)
    (ended : ∀ other ∈ blocks, b < other → b + 16 + amount ≤ other)
    (inside : InPage state.heap b (b + 16 + amount)) :
    Layout ⟨state.heap, (b + 16, amount) :: state.live⟩ blocks where
  chain := layout.chain
  apart := layout.apart
  inside := layout.inside
  pages := layout.pages
  bound := layout.bound
  held := by
    intro a live
    rcases List.mem_cons.mp live with rfl | old
    · obtain ⟨page, known, above, below⟩ := inside
      exact ⟨b, member, rfl, ended, page, known, Nat.le_add_right_of_le above, below⟩
    · exact layout.held a old
  distinct := by
    refine List.pairwise_cons.mpr ⟨?_, layout.distinct⟩
    intro a live same
    change b + 16 = a.1 at same
    exact unheld (List.mem_map.mpr ⟨a, live, same.symm⟩)
  unused := layout.unused

theorem Layout.split {b : Nat} {s : BitVec 16} (member : b ∈ blocks)
    (unheld : b + 16 ∉ state.live.map Prod.fst)
    (ended : ∀ other ∈ blocks, b < other → splitAddress b s + 16 ≤ other)
    (inside : InPage state.heap b (splitAddress b s + 16)) :
    ∃ longer, Layout ⟨{ state.heap with memory := splitBlock state.heap.memory b s }, state.live⟩ longer ∧
      ∀ other, other ∈ longer ↔ other = splitAddress b s ∨ other ∈ blocks := by
  have low := splitAddress_low (b := b) (s := s)
  have range := layout.inPage_bound inside
  have away : ∀ other ∈ blocks, other ≠ b → other + 16 ≤ b ∨ splitAddress b s + 16 ≤ other := by
    intro other listed different
    rcases Nat.lt_or_gt_of_ne different with before | behind
    · exact Or.inl (layout.apart other listed b member before)
    · exact Or.inr (ended other listed behind)
  obtain ⟨front, back, rfl⟩ := List.append_of_mem member
  have members : ∀ other, other ∈ front ++ b :: splitAddress b s :: back ↔
      other = splitAddress b s ∨ other ∈ front ++ b :: back := by
    intro other
    simp only [List.mem_append, List.mem_cons]
    tauto
  refine ⟨front ++ b :: splitAddress b s :: back, ?_, members⟩
  constructor
  · exact chain_splitBlock layout.chain (by omega) away
  · intro left leftMember right rightMember before
    rcases (members left).mp leftMember with rfl | leftOld
    · rcases (members right).mp rightMember with rfl | rightOld
      · omega
      · exact ended right rightOld (by omega)
    · rcases (members right).mp rightMember with rfl | rightOld
      · by_cases same : left = b
        · omega
        · have place := away left leftOld same
          omega
      · exact layout.apart left leftOld right rightOld before
  · intro other listed
    rcases (members other).mp listed with rfl | old
    · obtain ⟨page, known, above, below⟩ := inside
      exact ⟨page, known, by omega, below⟩
    · exact layout.inside other old
  · exact layout.pages
  · exact layout.bound
  · intro a live
    obtain ⟨holder, known, start, limit, within⟩ := layout.held a live
    refine ⟨holder, (members holder).mpr (Or.inr known), start, ?_, within⟩
    intro other listed before
    rcases (members other).mp listed with rfl | old
    · have different : holder ≠ b := by
        intro same
        exact unheld (List.mem_map.mpr ⟨a, live, by omega⟩)
      have place := away holder known different
      have bound := limit b member (by omega)
      omega
    · exact limit other old before
  · exact layout.distinct
  · exact layout.unused

end Layout

end Sbunix.Heap
