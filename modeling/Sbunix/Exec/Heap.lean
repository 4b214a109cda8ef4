import Sbunix.Exec.Sound

namespace Sbunix.Exec

open Library Paging Thread Fault

/-- A process with its break, an `int` of the thread structure. -/
structure Task where
  machine : Machine
  brk : BitVec 32

def doSbrk (t : Task) (pr : BitVec 32) : BitVec 32 × Task :=
  let t := if pr ≠ 0 then { t with brk := t.brk + pr } else t
  (t.brk, t)

def created (machine : Machine) : Task := ⟨machine, userHeap.setWidth 32⟩

def sbrkCalls (t : Task) (calls : List (BitVec 32)) : Task := calls.foldl (fun t pr => (doSbrk t pr).2) t

/-- The pages from `UserHeap` to the break are mapped. -/
def HeapMapped (t : Task) (root : BitVec 40) : Prop :=
  ∀ a : Nat, 0x80000 ≤ a → a < t.brk.toNat → walk t.machine.memory (frameAddress root) (BitVec.ofNat 64 a) ≠ none

theorem doSbrk_machine (t : Task) (pr : BitVec 32) : (doSbrk t pr).2.machine = t.machine := by
  unfold doSbrk
  dsimp only
  split <;> rfl

theorem sbrkCalls_machine (t : Task) (calls : List (BitVec 32)) : (sbrkCalls t calls).machine = t.machine := by
  induction calls generalizing t with
  | nil => rfl
  | cons pr calls ih => exact (ih _).trans (doSbrk_machine t pr)

theorem low_pml4Index {a : Nat} (low : a < 2 ^ 39) : pml4Index (BitVec.ofNat 64 a) ≠ 510 := by
  intro same
  have value := congrArg BitVec.toNat same
  rw [pml4Index, BitVec.extractLsb'_toNat, BitVec.toNat_ofNat, Nat.shiftRight_eq_div_pow] at value
  change _ = 510 at value
  omega

theorem low_pageNumber {a : Nat} (low : a < 2 ^ 39) : (pageNumber (BitVec.ofNat 64 a)).toNat = a / 4096 := by
  rw [pageNumber_toNat, BitVec.toNat_ofNat]
  omega

/-- After any calls of `do_sbrk` the heap below the break is mapped exactly where the pages behind its first one are
    mapped otherwise, by an earlier mapping or by a segment: `do_sbrk` maps nothing. -/
theorem heap_mapped_iff (s next : Machine) (root : BitVec 40) (frames : List (BitVec 40)) (archive : Tarfs.Memory)
    (page : Tid) (segments : List (VmaAddr × ExecSegment)) (stack heap : VmaAddr) (sound : Sound s root frames)
    (enough : 3 * (segments.length + 2) ≤ frames.length) (user : ∀ segment ∈ segments, SegmentOutside segment.2)
    (executed : doExec (frameAddress root) archive s page segments stack heap = some next) (calls : List (BitVec 32))
    (below : (sbrkCalls (created next) calls).brk.toNat ≤ 0x600000) :
    HeapMapped (sbrkCalls (created next) calls) root ↔
      ∀ a : Nat, 0x81000 ≤ a → a < (sbrkCalls (created next) calls).brk.toNat →
        walk s.memory (frameAddress root) (BitVec.ofNat 64 a) ≠ none ∨
          ∃ segment ∈ segments, pageNumber (BitVec.ofNat 64 a) = pageNumber segment.2.segPageStart := by
  obtain ⟨rest, done⟩ := doExec_executed sound enough user executed
  have exactly {a : Nat} (low : a < 0x600000) := done.walks (BitVec.ofNat 64 a) (low_pml4Index (by omega))
  rw [HeapMapped, sbrkCalls_machine]
  constructor
  · intro mapped a high low
    rcases (exactly (by omega)).mp (mapped a (by omega) low) with earlier | ⟨addr, known, same⟩
    · exact Or.inl earlier
    · rcases List.mem_append.mp known with known | known
      · obtain ⟨segment, member, rfl⟩ := List.mem_map.mp known
        exact Or.inr ⟨segment, member, same⟩
      · -- neither the stack nor the first page of the heap lies there
        have value := congrArg BitVec.toNat same
        rw [low_pageNumber (by omega)] at value
        simp only [List.mem_cons, List.not_mem_nil, or_false] at known
        rcases known with rfl | rfl
        · change a / 4096 = 0xbff at value
          omega
        · change a / 4096 = 0x80 at value
          omega
  · intro condition a high low
    apply (exactly (by omega)).mpr
    by_cases first : a < 0x81000
    · refine Or.inr ⟨userHeap, by simp, ?_⟩
      apply BitVec.eq_of_toNat_eq
      rw [low_pageNumber (by omega)]
      change a / 4096 = 0x80
      omega
    · rcases condition a (by omega) low with earlier | ⟨segment, member, same⟩
      · exact Or.inl earlier
      · exact Or.inr ⟨_, List.mem_append_left _ (List.mem_map_of_mem member), same⟩

def bareMachine : Machine :=
  ⟨bootKernel, emptyTables 1, oneFreeWord, [0x2000, 0x3000, 0x4000, 0x5000, 0x6000, 0x7000, 0x8000, 0x9000, 0xA000]⟩

theorem bareMachine_unmapped {virt : BitVec 64} (outside : pml4Index virt ≠ 510) :
    walk (emptyTables 1) (frameAddress 1) virt = none := by
  rw [walk_eq, Radix.leaf]
  cases reached : pageRadix.descend (emptyTables 1) 1 (pagePath virt) with
  | none => rfl
  | some table => cases (blank_descend (emptyTables_blank 1) (pagePath_valid outside).2 reached).1

theorem bareMachine_sound : Sound bareMachine 1 [2, 3, 4, 5, 6, 7, 8, 9, 10] where
  pages := rfl
  tables := emptyTables_tables (by decide)
  spare := blank_spare (emptyTables_blank 1) (by decide) (by simp) (by simp)
  zero frame member j := by
    change emptyTables 1 (slot frame j) = 0
    apply emptyTables_zero
    rintro ⟨rfl, _⟩
    exact absurd member (by decide)
  linear := by simp
  self := emptyTables_self (by decide)
  clear path j table valid reached absent := by
    obtain ⟨rfl, rfl⟩ := blank_descend (emptyTables_blank 1) valid.2 reached
    by_cases recursive : j = 510
    · subst recursive
      exact absurd absent (by decide +kernel)
    · have zero := emptyTables_blank 1 j recursive
      change HighClear (emptyTables 1 (slot 1 j))
      rw [zero]
      rfl
  mapped virt e outside walked := by
    rw [show bareMachine.memory = emptyTables 1 from rfl, bareMachine_unmapped outside] at walked
    cases walked
  free block candidate := by
    have late := oneFreeWord_candidate candidate
    have small := candidate.bound
    have other {k : Nat} (low : k < 64) : BitVec.ofNat 40 block ≠ BitVec.ofNat 40 k :=
      ofNat_ne (by omega) (by omega) (by omega)
    constructor
    · intro member
      obtain ⟨k, low, same⟩ : ∃ k, k < 64 ∧ BitVec.ofNat 40 block = BitVec.ofNat 40 k := by
        simp only [List.mem_cons, List.not_mem_nil, or_false] at member
        rcases member with same | same | same | same | same | same | same | same | same
        exacts [⟨2, by decide, same⟩, ⟨3, by decide, same⟩, ⟨4, by decide, same⟩, ⟨5, by decide, same⟩,
          ⟨6, by decide, same⟩, ⟨7, by decide, same⟩, ⟨8, by decide, same⟩, ⟨9, by decide, same⟩, ⟨10, by decide, same⟩]
      exact other low same
    · intro path valid reached
      exact other (show 1 < 64 by decide) (blank_descend (emptyTables_blank 1) valid.2 reached).2

theorem bare_exec : ∃ next mmgr, doExec (frameAddress 1) (fun _ => 0) bareMachine 1 [] 1 2 = some next ∧
    Mmgr.mmgrAllocBlock next.mmgr = some (0x42000, mmgr) := by
  have blocks : ∃ mmgr later last, Mmgr.mmgrAllocBlock oneFreeWord = some (0x40000, mmgr) ∧
      Mmgr.mmgrAllocBlock mmgr = some (0x41000, later) ∧ Mmgr.mmgrAllocBlock later = some (0x42000, last) :=
    ⟨_, _, _, rfl, rfl, rfl⟩
  obtain ⟨mmgr, later, last, stackTaken, heapTaken, lastTaken⟩ := blocks
  have linked : ∃ first second third, mmapArea (createKthreadUser bootKernel 1) 1 userStack 1 = some first ∧
      mmapArea first 2 userHeap 1 = some second ∧ addToPtable second 1 = some third := ⟨_, _, _, rfl, rfl, rfl⟩
  obtain ⟨first, second, third, stackLinked, heapLinked, entered⟩ := linked
  obtain ⟨middle, rest, stackMapped, kernel, manager, mapped⟩ := mmapPage_spec (bareMachine_sound.kernel _) (by decide)
    (show pml4Index userStack ≠ 510 by decide) stackTaken stackLinked
  have length := mapped.length
  rw [← manager] at heapTaken
  rw [← kernel] at heapLinked
  obtain ⟨loaded, _, heapMapped, final, left, _⟩ := mmapPage_spec mapped.sound
    (Nat.le_of_add_le_add_right (Nat.le_trans (by decide) (show 9 ≤ rest.length + 3 from length)))
    (show pml4Index userHeap ≠ 510 by decide) heapTaken heapLinked
  rw [← final] at entered
  rw [← left] at lastTaken
  refine ⟨{ loaded with kernel := runnableKthread third 1 }, last, ?_, lastTaken⟩
  have ran : run (perform (frameAddress 1) (fun _ => 0) 1)
      { bareMachine with kernel := createKthreadUser bareMachine.kernel 1 } (execEvents [] 1 2) = some loaded :=
    run_cons.mpr ⟨middle, stackMapped, run_cons.mpr ⟨loaded, heapMapped, rfl⟩⟩
  simp only [doExec, ran, entered, Option.bind_eq_bind, Option.bind_some, Option.pure_def]

theorem bare_unmapped {next : Machine}
    (executed : doExec (frameAddress 1) (fun _ => 0) bareMachine 1 [] 1 2 = some next) {virt : BitVec 64}
    (outside : pml4Index virt ≠ 510) (stack : pageNumber virt ≠ pageNumber userStack)
    (heap : pageNumber virt ≠ pageNumber userHeap) : walk next.memory (frameAddress 1) virt = none := by
  obtain ⟨_, done⟩ := doExec_executed bareMachine_sound (by decide) (by simp) executed
  by_contra found
  rcases (done.walks virt outside).mp found with earlier | ⟨addr, known, same⟩
  · exact earlier (bareMachine_unmapped outside)
  · simp only [List.map_nil, List.nil_append, List.mem_cons, List.not_mem_nil, or_false] at known
    rcases known with rfl | rfl
    · exact stack same
    · exact heap same

theorem half_page_heap_mapped : ∃ next, doExec (frameAddress 1) (fun _ => 0) bareMachine 1 [] 1 2 = some next ∧
    HeapMapped (sbrkCalls (created next) [0x800]) 1 := by
  obtain ⟨next, _, executed, _⟩ := bare_exec
  have brk : (sbrkCalls (created next) [0x800]).brk.toNat = 0x80800 := by
    change ((userHeap.setWidth 32 : BitVec 32) + 0x800).toNat = 0x80800
    decide
  refine ⟨next, executed, ?_⟩
  apply (heap_mapped_iff bareMachine next 1 [2, 3, 4, 5, 6, 7, 8, 9, 10] (fun _ => 0) 1 [] 1 2 bareMachine_sound
    (by decide) (by simp) executed [0x800] (by rw [brk]; decide)).mpr
  intro a high low
  rw [brk] at low
  omega

theorem second_heap_page_unmapped : ∃ next, doExec (frameAddress 1) (fun _ => 0) bareMachine 1 [] 1 2 = some next ∧
    (sbrkCalls (created next) [0x2000]).brk = 0x82000 ∧ ¬ HeapMapped (sbrkCalls (created next) [0x2000]) 1 := by
  obtain ⟨next, _, executed, _⟩ := bare_exec
  have brk : (sbrkCalls (created next) [0x2000]).brk = 0x82000 := by
    change (userHeap.setWidth 32 : BitVec 32) + 0x2000 = 0x82000
    decide
  refine ⟨next, executed, brk, ?_⟩
  intro mapped
  have found := mapped 0x81000 (by decide) (by rw [brk]; decide)
  rw [sbrkCalls_machine] at found
  exact found (bare_unmapped executed (by decide) (by decide) (by decide))

end Sbunix.Exec
