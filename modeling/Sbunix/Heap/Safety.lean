import Sbunix.Heap.Layout

namespace Sbunix.Heap

open Library Paging

def linkPage (memory : Memory) (last : Option Nat) (b : Nat) : Memory :=
  let memory := setNext (setSize memory b 0x1000) b none
  let memory := match last with
    | none => memory
    | some last => setNext memory last (some b)
  setFree memory b 1

theorem extendHeap_eq (h : Arena) (last : Option Nat) :
    extendHeap h last =
      let page := (vmmgrAllocPage h.bump 0).1
      if KernelMapped page then
        some (page.toNat, { h with memory := linkPage h.memory last page.toNat,
                                   bump := ⟨page, 0⟩, pages := page.toNat :: h.pages })
      else none := rfl

section LinkPage

variable {memory : Memory} {b : Nat}

theorem next_linkPage_self {last : Option Nat} (below : ∀ tail, last = some tail → tail + 16 ≤ b) :
    next (linkPage memory last b) b = none := by
  cases last with
  | none => rw [linkPage, next_setFree (Or.inl (Nat.le_refl b)), next_setNext_none]
  | some tail =>
    have bound := below tail rfl
    rw [linkPage, next_setFree (Or.inl (Nat.le_refl b)), next_setNext_other (by omega), next_setNext_none]

theorem next_linkPage_tail {tail : Nat} (below : tail + 16 ≤ b) (small : b < 2 ^ 64) :
    next (linkPage memory (some tail) b) tail = some b := by
  rw [linkPage, next_setFree (by omega)]
  exact next_setNext_self (by omega) small

theorem next_linkPage_other {last : Option Nat} {other : Nat} (below : other + 16 ≤ b)
    (apart : ∀ tail, last = some tail → other + 16 ≤ tail ∨ tail + 16 ≤ other) :
    next (linkPage memory last b) other = next memory other := by
  have kept : next (setNext (setSize memory b 0x1000) b none) other = next memory other := by
    rw [next_setNext_other (by omega), next_setSize (by omega)]
  cases last with
  | none => rw [linkPage, next_setFree (by omega), kept]
  | some tail =>
    have place := apart tail rfl
    rw [linkPage, next_setFree (by omega), next_setNext_other (by omega), kept]

theorem chain_linkPage {start : Option Nat} {blocks : List Nat} (chain : Chain (next memory) start blocks)
    (apart : ∀ left ∈ blocks, ∀ right ∈ blocks, left < right → left + 16 ≤ right)
    (below : ∀ other ∈ blocks, other + 16 ≤ b) (small : b < 2 ^ 64) :
    Chain (next (linkPage memory blocks.getLast? b)) (blocks ++ [b]).head? (blocks ++ [b]) := by
  have last : ∀ tail, blocks.getLast? = some tail → tail + 16 ≤ b := by
    intro tail equal
    exact below tail (List.mem_of_getLast? equal)
  have ended : Chain (next (linkPage memory blocks.getLast? b)) (some b) [b] :=
    ⟨rfl, next_linkPage_self last⟩
  rcases List.eq_nil_or_concat blocks with rfl | ⟨front, tail, whole⟩
  · exact ended
  · rw [List.concat_eq_append] at whole
    subst whole
    have nodup := chain.nodup
    rw [List.nodup_append] at nodup
    have tailMember : tail ∈ front ++ [tail] := List.mem_append_right front List.mem_cons_self
    have tailBelow := below tail tailMember
    have start : (front ++ [tail] ++ [b]).head? = start := by
      rw [chain.start_eq]
      cases front <;> rfl
    rw [List.getLast?_concat] at ended ⊢
    rw [start, List.append_assoc]
    apply chain.splice
    · intro other listed
      have known := List.mem_append_left [tail] listed
      apply next_linkPage_other (below other known)
      intro same equal
      cases equal
      have different := nodup.2.2 other listed tail List.mem_cons_self
      rcases Nat.lt_or_gt_of_ne different with before | behind
      · exact Or.inl (apart other known tail tailMember before)
      · exact Or.inr (apart tail tailMember other known behind)
    · rw [next_linkPage_tail tailBelow small]
      exact ended

end LinkPage

section Extend

variable {state : State} {blocks : List Nat} (layout : Layout state blocks)

include layout

theorem Layout.page_above :
    ∀ page ∈ state.heap.pages, page + 4096 ≤ (vmmgrAllocPage state.heap.bump 0).1.toNat := by
  intro page member
  have range := layout.pages page member
  have bound := layout.bound (List.ne_nil_of_mem member)
  have small := state.heap.bump.prevNoPages.isLt
  rw [vmmgrAllocPage_toNat 0 (by omega)]
  omega

theorem Layout.extend {b : Nat} {grown : Arena}
    (extended : extendHeap state.heap blocks.getLast? = some (b, grown)) :
    Layout ⟨{ grown with base := (blocks ++ [b]).head? }, state.live⟩ (blocks ++ [b]) ∧
      (∀ other ∈ blocks, other + 16 ≤ b) ∧ InPage grown b (b + 4096) := by
  have above := layout.page_above
  rw [extendHeap_eq] at extended
  dsimp only at extended
  generalize (vmmgrAllocPage state.heap.bump 0).1 = page at extended above
  split at extended
  · rename_i mapped
    cases extended
    have below : ∀ other ∈ blocks, other + 16 ≤ page.toNat := by
      intro other listed
      obtain ⟨old, known, _, high⟩ := layout.inside other listed
      have bound := above old known
      omega
    have older : ∀ low high, InPage state.heap low high →
        high ≤ page.toNat ∧ ∃ old ∈ page.toNat :: state.heap.pages, old ≤ low ∧ high ≤ old + 4096 := by
      intro low high inside
      obtain ⟨old, known, first, second⟩ := inside
      have bound := above old known
      exact ⟨by omega, old, List.mem_cons_of_mem _ known, first, second⟩
    refine ⟨?_, below, page.toNat, List.mem_cons_self, Nat.le_refl _, Nat.le_refl _⟩
    constructor
    · exact chain_linkPage layout.chain layout.apart below page.isLt
    · intro left leftMember right rightMember before
      rcases List.mem_append.mp leftMember with leftOld | leftNew
      · rcases List.mem_append.mp rightMember with rightOld | rightNew
        · exact layout.apart left leftOld right rightOld before
        · cases List.mem_singleton.mp rightNew
          exact below left leftOld
      · cases List.mem_singleton.mp leftNew
        rcases List.mem_append.mp rightMember with rightOld | rightNew
        · have bound := below right rightOld
          omega
        · cases List.mem_singleton.mp rightNew
          omega
    · intro other listed
      rcases List.mem_append.mp listed with old | new
      · exact (older _ _ (layout.inside other old)).2
      · cases List.mem_singleton.mp new
        exact ⟨page.toNat, List.mem_cons_self, Nat.le_refl _, by omega⟩
    · intro other known
      change 0xFFFFFFFF80200000 ≤ other ∧ other ≤ page.toNat
      rcases List.mem_cons.mp known with rfl | old
      · exact ⟨mapped.1, Nat.le_refl _⟩
      · have bound := above other old
        exact ⟨(layout.pages other old).1, by omega⟩
    · intro _
      exact mapped.2
    · intro a live
      obtain ⟨holder, known, start, limit, within⟩ := layout.held a live
      refine ⟨holder, List.mem_append_left _ known, start, ?_, (older _ _ within).2⟩
      intro other listed before
      rcases List.mem_append.mp listed with old | new
      · exact limit other old before
      · cases List.mem_singleton.mp new
        exact (older _ _ within).1
    · exact layout.distinct
    · intro missing
      cases blocks <;> cases missing
  · cases extended

/-- A new page is split for the request that it was obtained for. -/
theorem Layout.extend_split {b : Nat} {grown : Arena} {request : BitVec 16}
    (extended : extendHeap state.heap blocks.getLast? = some (b, grown)) (positive : 1 ≤ request.toNat)
    (small : request.toNat ≤ 4000) :
    ∃ longer, Layout ⟨{ grown with memory := splitBlock grown.memory b (align request),
                                   base := (blocks ++ [b]).head? }, (b + 16, request.toNat) :: state.live⟩ longer := by
  obtain ⟨longer, below, room⟩ := layout.extend extended
  have address := splitAddress_eq (b := b) positive small
  have member : b ∈ blocks ++ [b] := List.mem_append_right _ List.mem_cons_self
  have unheld : b + 16 ∉ state.live.map Prod.fst := by
    intro held
    obtain ⟨a, live, same⟩ := List.mem_map.mp held
    obtain ⟨holder, known, start, _⟩ := layout.held a live
    have bound := below holder known
    omega
  have top : ∀ other ∈ blocks ++ [b], ¬ b < other := by
    intro other listed
    rcases List.mem_append.mp listed with old | new
    · have bound := below other old
      omega
    · cases List.mem_singleton.mp new
      omega
  obtain ⟨page, known, low, high⟩ := room
  obtain ⟨blocks', split, members⟩ := longer.split (s := align request) member unheld
    (fun other listed before => absurd before (top other listed)) ⟨page, known, low, by omega⟩
  refine ⟨blocks', split.grant ((members b).mpr (Or.inr member)) unheld ?_ ⟨page, known, low, by omega⟩⟩
  intro other listed before
  rcases (members other).mp listed with rfl | old
  · omega
  · exact absurd before (top other old)

end Extend

theorem extendHeap_base {h grown : Arena} {last : Option Nat} {b : Nat}
    (extended : extendHeap h last = some (b, grown)) : grown.base = h.base := by
  rw [extendHeap_eq] at extended
  dsimp only at extended
  split at extended
  · cases extended
    rfl
  · cases extended

theorem extendHeap_some {h grown : Arena} {last : Option Nat} {b : Nat}
    (executed : extendHeap h last = some (b, grown)) :
    KernelMapped (vmmgrAllocPage h.bump 0).1 ∧ b = (vmmgrAllocPage h.bump 0).1.toNat ∧
      grown.memory = linkPage h.memory last b := by
  rw [extendHeap_eq] at executed
  dsimp only at executed
  split at executed
  · rename_i mapped
    cases executed
    exact ⟨mapped, rfl, rfl⟩
  · cases executed

section Steps

variable {state : State} {blocks : List Nat} (layout : Layout state blocks)

include layout

theorem Layout.take {b : Nat} {last : Option Nat} {request : BitVec 16} (positive : 1 ≤ request.toNat)
    (small : request.toNat ≤ 4000) (used : state.heap.base ≠ none) (member : b ∈ blocks)
    (unheld : b + 16 ∉ state.live.map Prod.fst)
    (ended : ∀ other ∈ blocks, b < other → extent state.heap.memory b request ≤ other)
    (inside : InPage state.heap b (extent state.heap.memory b request)) :
    let memory := if splits state.heap.memory b (align request) then
      splitBlock state.heap.memory b (align request) else state.heap.memory
    ∃ longer, Layout ⟨{ state.heap with memory := setFree memory b 0, last },
      (b + 16, request.toNat) :: state.live⟩ longer := by
  have address := splitAddress_eq (b := b) positive small
  dsimp only
  rw [extent] at ended inside
  split
  · rename_i split
    rw [if_pos split] at ended inside
    change ∀ other ∈ blocks, b < other → splitAddress b (align request) + 16 ≤ other at ended
    change InPage state.heap b (splitAddress b (align request) + 16) at inside
    obtain ⟨longer, cut, members⟩ := layout.split member unheld ended inside
    have here := (members b).mpr (Or.inr member)
    have cleared := cut.memory last (cut.links_kept here 0) (fun missing => absurd missing used)
    obtain ⟨page, known, low, high⟩ := inside
    refine ⟨longer, cleared.grant here unheld ?_ ⟨page, known, low, by omega⟩⟩
    intro other listed before
    rcases (members other).mp listed with rfl | old
    · omega
    · have bound := ended other old before
      omega
  · rename_i whole
    rw [if_neg whole] at ended inside
    have cleared := layout.memory last (layout.links_kept member 0) (fun missing => absurd missing used)
    exact ⟨blocks, cleared.grant member unheld ended inside⟩

theorem Layout.malloc {request : BitVec 16} {p : Nat} {heap : Arena} (positive : 1 ≤ request.toNat)
    (small : request.toNat ≤ 4000) (admitted : Admits state (.malloc request))
    (executed : subMalloc state.heap request = some (p, heap)) :
    ∃ longer, Layout ⟨heap, (p, request.toNat) :: state.live⟩ longer := by
  rw [subMalloc] at executed
  cases used : state.heap.base with
  | none =>
    have empty : blocks = [] := by
      have start := layout.chain.start_eq
      rw [used] at start
      exact List.head?_eq_none_iff.mp start.symm
    subst empty
    rw [used] at executed
    simp only [Option.bind_eq_bind, Option.bind_eq_some_iff] at executed
    obtain ⟨⟨b, grown⟩, extended, equal⟩ := executed
    cases equal
    rw [layout.unused used] at extended
    exact layout.extend_split extended positive small
  | some base =>
    rw [used] at executed
    simp only [Option.bind_eq_bind, Option.bind_eq_some_iff] at executed
    obtain ⟨⟨found, last⟩, search, executed⟩ := executed
    have chain := layout.chain
    rw [used] at chain
    obtain ⟨listed, missed⟩ := findBlock_chain chain search
    cases found with
    | some b =>
      cases executed
      rw [← used]
      obtain ⟨unheld, ended, inside⟩ := admitted base b last used search
      refine layout.take positive small ?_ (listed b rfl) unheld ?_ inside
      · rw [used]
        exact Option.some_ne_none base
      · intro other member before
        exact ended other (layout.header_iff.mpr member) before
    | none =>
      have nonempty : blocks ≠ [] := by
        rintro rfl
        cases chain
      have tail : last = blocks.getLast? := by
        rw [missed rfl, List.getLast?_eq_some_getLast nonempty]
        rfl
      simp only [Option.bind_eq_some_iff] at executed
      obtain ⟨block, final, ⟨b, grown⟩, extended, equal⟩ := executed
      cases equal
      rw [tail] at final
      have member := List.mem_of_getLast? final
      have cleared := layout.memory last (layout.links_kept member 0) (fun missing => by
        rw [used] at missing
        cases missing)
      rw [tail, ← used] at extended
      rw [tail] at cleared
      obtain ⟨longer, result⟩ := cleared.extend_split extended positive small
      refine ⟨longer, ?_⟩
      have start : grown.base = (blocks ++ [b]).head? := by
        rw [extendHeap_base extended]
        change state.heap.base = _
        rw [layout.chain.start_eq, List.head?_append_of_ne_nil _ nonempty]
      rw [← start] at result
      exact result

theorem Layout.free {p : Nat} (held : p ∈ state.live.map Prod.fst) :
    Layout ⟨subFree state.heap p, state.live.filter fun allocation => allocation.1 ≠ p⟩ blocks := by
  obtain ⟨a, live, rfl⟩ := List.mem_map.mp held
  obtain ⟨b, member, start, _⟩ := layout.held a live
  have position : a.1 - allocBlockSize = b := by
    change a.1 - 16 = b
    omega
  have freed := layout.memory state.heap.last (layout.links_kept member 1) layout.unused
  rw [subFree, position]
  exact
    { freed with
      held := fun other kept => freed.held other (List.mem_filter.mp kept).1
      distinct := freed.distinct.sublist List.filter_sublist }

theorem Layout.store {a : Nat × Nat} {i : Nat} (live : a ∈ state.live) (bound : i < a.2) (byte : BitVec 8) :
    Layout { state with
      heap := { state.heap with memory := Function.update state.heap.memory (a.1 + i) byte } } blocks := by
  apply layout.memory state.heap.last _ layout.unused
  intro b member
  have apart : a.1 + a.2 ≤ b ∨ b + 16 ≤ a.1 := layout.safe.offHeaders b (layout.header_iff.mpr member) a live
  apply congrArg pointer
  apply loadWord_congr
  intro j low high
  exact Function.update_of_ne (show j ≠ a.1 + i by omega) _ _

theorem Layout.step {event : Event} {after : State} (admitted : Admits state event)
    (stepped : step state event = some after) : ∃ longer, Layout after longer := by
  cases event with
  | malloc request =>
    rw [Heap.step] at stepped
    split at stepped
    · rename_i range
      simp only [Option.bind_eq_bind, Option.bind_eq_some_iff, Option.pure_def] at stepped
      obtain ⟨⟨p, heap⟩, executed, equal⟩ := stepped
      cases equal
      exact layout.malloc range.1 range.2 admitted executed
    · cases stepped
  | free p =>
    rw [Heap.step] at stepped
    split at stepped
    · rename_i held
      cases stepped
      exact ⟨blocks, layout.free held⟩
    · cases stepped
  | store p i byte =>
    rw [Heap.step] at stepped
    split at stepped
    · rename_i held
      obtain ⟨a, live, rfl, bound⟩ := held
      cases stepped
      exact ⟨blocks, layout.store live bound byte⟩
    · cases stepped

end Steps

/-- The heap stays safe as long as every block that is found is out of use and large enough. -/
theorem heap_safe_while_admitted (memory : Memory) (bump : Bump) (events : List Event)
    (admitted : Admitted step Admits (boot memory bump) events) :
    Throughout step Safe (boot memory bump) events := by
  have kept : Throughout step (fun state => ∃ blocks, Layout state blocks) (boot memory bump) events := by
    refine throughout_of_admitted (fun state => ∃ blocks, Layout state blocks) ?_ ⟨[], boot_layout memory bump⟩
      admitted
    intro state event after layout allowed stepped
    exact layout.choose_spec.step allowed stepped
  intro before isPrefix state executed
  exact (kept before isPrefix state executed).choose_spec.safe

def cutPage : State :=
  ⟨⟨splitBlock (linkPage (fun _ => 0) none 0xFFFFFFFF80201000) 0xFFFFFFFF80201000 8, some 0xFFFFFFFF80201000, none,
    ⟨0xFFFFFFFF80201000, 0⟩, [0xFFFFFFFF80201000]⟩, [(0xFFFFFFFF80201010, 8)]⟩

theorem cutPage_step : step (boot (fun _ => 0) ⟨0xFFFFFFFF80200000, 0⟩) (.malloc 8) = some cutPage := rfl

theorem cutPage_chain : Chain (next cutPage.heap.memory) cutPage.heap.base
    [0xFFFFFFFF80201000, 0xFFFFFFFF80201020] := by
  have first : next cutPage.heap.memory 0xFFFFFFFF80201000 = some 0xFFFFFFFF80201020 := by decide +kernel
  have second : next cutPage.heap.memory 0xFFFFFFFF80201020 = none := by decide +kernel
  exact ⟨rfl, first, second⟩

theorem cutPage_search :
    findBlock cutPage.heap.memory (align 16) (some 0xFFFFFFFF80201000) (some 0xFFFFFFFF80201000) =
      some (some 0xFFFFFFFF80201020, some 0xFFFFFFFF80201000) := by
  have small : suits cutPage.heap.memory (align 16) 0xFFFFFFFF80201000 = false := by decide +kernel
  have fits : suits cutPage.heap.memory (align 16) 0xFFFFFFFF80201020 = true := by decide +kernel
  rw [findBlock, small, cutPage_chain.2.1, findBlock, fits]
  rfl

theorem cutPage_admits : Admits cutPage (.malloc 16) := by
  intro base b last used found
  cases used
  cases cutPage_search.symm.trans found
  refine ⟨by decide, ?_, 0xFFFFFFFF80201000, List.mem_cons_self, by decide, by decide +kernel⟩
  intro other header behind
  have listed := cutPage_chain.mem_iff.mpr header
  rcases List.mem_cons.mp listed with rfl | listed
  · exact absurd behind (by decide)
  · rw [List.mem_singleton.mp listed] at behind
    exact absurd behind (by decide)

theorem two_allocations_safe : Throughout step Safe (boot (fun _ => 0) ⟨0xFFFFFFFF80200000, 0⟩)
    [.malloc 8, .malloc 16, .store 0xFFFFFFFF80201030 15 1, .free 0xFFFFFFFF80201010] := by
  apply heap_safe_while_admitted
  refine ⟨?_, ?_⟩
  · intro base b last used
    cases used
  · intro next stepped
    cases cutPage_step.symm.trans stepped
    exact ⟨cutPage_admits, fun _ _ => ⟨trivial, fun _ _ => ⟨trivial, fun _ _ => trivial⟩⟩⟩

section Reissue

variable {memory : Memory} {b : Nat} {s : BitVec 16}

theorem size_splitBlock_self : size (splitBlock memory b s) b = s := by
  rw [splitBlock, size, setNext, loadWord_storeWord_outside (by omega), setSize, loadWord_storeWord 2 s]

theorem free_splitBlock_self : free (splitBlock memory b s) b = free memory b := by
  have low := splitAddress_low (b := b) (s := s)
  rw [splitBlock, free, setNext, loadWord_storeWord_outside (by omega), setSize,
    loadWord_storeWord_outside (by omega), setFree, loadWord_storeWord_outside (by omega), setSize,
    loadWord_storeWord_outside (by omega), loadWord_storeWord_outside (by omega), free]

theorem free_linkPage_self (last : Option Nat) : free (linkPage memory last b) b = 1 := by
  cases last <;> exact loadWord_storeWord 2 (1 : BitVec 16)

/-- A block that was just cut from a new page is still marked as free. -/
theorem suits_fresh (last : Option Nat) : suits (splitBlock (linkPage memory last b) b s) s b = true := by
  rw [suits, free_splitBlock_self, free_linkPage_self, size_splitBlock_self]
  simp

theorem subMalloc_reissue {h : Arena} (request : BitVec 16) (base : h.base = some b)
    (fit : suits h.memory (align request) b = true) (exact_size : size h.memory b = align request) :
    subMalloc h request = some (b + 16, { h with memory := setFree h.memory b 0, last := some b }) := by
  have whole : splits h.memory b (align request) = false := by
    rw [splits, exact_size, Nat.sub_self]
    rfl
  rw [subMalloc, base]
  simp only [findBlock, fit, if_true, Option.bind_eq_bind, Option.bind_some, whole, Bool.false_eq_true, if_false]
  rfl

end Reissue

/-- Two requests of one size get the same block. -/
theorem second_allocation_overlaps :
    ¬ ∀ memory bump events, Throughout step Safe (boot memory bump) events := by
  intro every
  have again := subMalloc_reissue 8 (h := cutPage.heap) rfl (suits_fresh none) size_splitBlock_self
  have safe := every (fun _ => 0) ⟨0xFFFFFFFF80200000, 0⟩ [.malloc 8, .malloc 8] _ (List.prefix_refl _) _
    (run_cons.mpr ⟨_, cutPage_step, run_cons.mpr ⟨_, by
      rw [step, if_pos (by decide), again]
      rfl, rfl⟩⟩)
  have overlap := (List.pairwise_cons.mp safe.disjoint).1 _ List.mem_cons_self
  revert overlap
  decide

end Sbunix.Heap
