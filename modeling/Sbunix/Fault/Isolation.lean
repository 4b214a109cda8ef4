import Sbunix.Fault.Segmentation
import Sbunix.Library.Run
import Sbunix.Library.Spaces
import Sbunix.Paging.Private

namespace Sbunix.Fault

open Library Paging Thread

structure AddressSpaces where
  machine : Machine
  roots : List (BitVec 40)

/-- A store that the processor performs: the page is present and may be written. -/
def writeWord (m : Memory) (base virt value : BitVec 64) : Option Memory := do
  let e ← walk m base virt
  if e &&& pteWritable ≠ 0 then Paging.modify m base virt fun _ => value else none

/-- A store by a process. Where it faults, it is executed again after `page_fault_handler`. -/
def Machine.store (base : BitVec 64) (s : Machine) (virt value : BitVec 64) (vma : VmaAddr) : Option Machine :=
  match writeWord s.memory base virt value with
  | some memory => some { s with memory }
  | none => do
    let s ← pageFaultHandler base s virt vma
    let memory ← writeWord s.memory base virt value
    return { s with memory }

/-- What happens to the memory of the processes. The process at `root` is the current thread when it stores, and the
    kernel changes its own data in between. -/
inductive Act where
  | fork (parent child : BitVec 40)
  | store (root : BitVec 40) (virt value : BitVec 64) (vma : VmaAddr)
  | kernel (next : Kernel)

def AddressSpaces.step (s : AddressSpaces) : Act → Option AddressSpaces
  | .fork parent child =>
    if s.machine.pages.head? = some (frameAddress child) then do
      let tasks ← forkTables ⟨s.machine.memory, s.roots, s.machine.pages.map frameOf⟩ parent
      return ⟨{ s.machine with memory := tasks.memory, pages := tasks.frames.map frameAddress }, tasks.roots⟩
    else none
  | .store root virt value vma => do
    let machine ← s.machine.store (frameAddress root) virt value vma
    return { s with machine }
  | .kernel next => some { s with machine := { s.machine with kernel := next } }

def Act.perform (spaces : Spaces (BitVec 40) (BitVec 64) (BitVec 64)) : Act → Spaces (BitVec 40) (BitVec 64) (BitVec 64)
  | .fork parent child => spaces.perform (.copy parent child)
  | .store root virt value _ => spaces.perform (.store root virt value)
  | .kernel _ => spaces

def FreeFrame (mmgr : Mmgr.State) (frame : BitVec 40) : Prop :=
  ∃ block, Mmgr.Candidate mmgr block ∧ frame = BitVec.ofNat 40 block

def AddressSpaces.Isolated (s : AddressSpaces) : Prop :=
  ∃ frames, s.machine.pages = frames.map frameAddress ∧
    Paging.Isolated s.machine.memory s.roots frames (FreeFrame s.machine.mmgr)

def Far (k : Kernel) (virt : BitVec 64) : Prop :=
  (k.threads k.currentThread).kernelThread = 0 →
    ∃ nodes, k.Areas k.currentThread nodes ∧ ∀ area ∈ nodes, 100 < (k.vmas area).vmStart - virt

/-- What an act needs: frames for the tables of a child, and where a page is shared an address that is not taken for
    the stack and a frame for the copy. -/
def AddressSpaces.Admits (s : AddressSpaces) : Act → Prop
  | .fork parent child => parent ∈ s.roots ∧ ∃ pages, s.machine.pages = frameAddress child :: pages ∧
      tableCount s.machine.memory forkLevels parent ≤ pages.length
  | .store root virt _ _ => root ∈ s.roots ∧ UserWord virt ∧
      ∃ e, walk s.machine.memory (frameAddress root) virt = some e ∧
        (e &&& pteWritable = 0 → Far s.machine.kernel virt ∧
          ∃ phys mmgr, Mmgr.mmgrAllocBlock s.machine.mmgr = some (phys, mmgr) ∧ phys ≠ 0)
  | .kernel _ => True

/-- The processes are apart, and each finds in its memory what it should. -/
def AddressSpaces.Holds (s : AddressSpaces) (spaces : Spaces (BitVec 40) (BitVec 64) (BitVec 64)) : Prop :=
  s.Isolated ∧ ∀ root ∈ s.roots, ∀ virt, UserWord virt →
    load s.machine.memory (frameAddress root) virt = spaces root virt

section Store

variable {m : Memory} {roots : List (BitVec 40)} {root table frame : BitVec 40} {virt : BitVec 64}
  (page : PageAt m roots root virt table frame)

include page

theorem writeWord_writable (aligned : UserWord virt) (writable : m (slot table (tableIndex virt)) &&& pteWritable ≠ 0)
    (value : BitVec 64) : writeWord m (frameAddress root) virt value =
      some (Function.update m (slot frame (wordIndex virt)) value) := by
  have address : translate m (frameAddress root) virt = some (slot frame (wordIndex virt)) := by
    have translated := translate_page page.user (wordIndex virt) page.reached page.leads
    rw [← aligned.eq_slot] at translated
    exact translated
  rw [writeWord, page.walk_eq, Option.bind_eq_bind, Option.bind_some, if_pos writable, Paging.modify, address,
    Option.map_some]

theorem writeWord_readOnly (readOnly : m (slot table (tableIndex virt)) &&& pteWritable = 0) (value : BitVec 64) :
    writeWord m (frameAddress root) virt value = none := by
  rw [writeWord, page.walk_eq, Option.bind_eq_bind, Option.bind_some, if_neg (not_not_intro readOnly)]

end Store

theorem pageFaultHandler_copies {s : Machine} {roots frames : List (BitVec 40)} {root table shared : BitVec 40}
    {virt phys : BitVec 64} {mmgr : Mmgr.State} (vma : VmaAddr)
    (isolated : Paging.Isolated s.memory roots frames (FreeFrame s.mmgr))
    (page : PageAt s.memory roots root virt table shared)
    (readOnly : s.memory (slot table (tableIndex virt)) &&& pteWritable = 0) (far : Far s.kernel virt)
    (taken : Mmgr.mmgrAllocBlock s.mmgr = some (phys, mmgr)) (nonnull : phys ≠ 0) :
    ∃ memory fresh, pageFaultHandler (frameAddress root) s virt vma = some { s with memory, mmgr } ∧
      PageCopied s.memory memory virt table shared fresh ∧ FreeFrame s.mmgr fresh ∧ fresh.toNat < 2 ^ 32 ∧
      ∀ other, FreeFrame mmgr other → FreeFrame s.mmgr other ∧ other ≠ fresh := by
  have regular := isolated.regular root page.member
  obtain ⟨block, h, candidate, rfl, rfl⟩ : ∃ block h, Mmgr.Candidate s.mmgr block ∧ phys = Mmgr.blockAddress block ∧
      mmgr = Mmgr.taken s.mmgr block h := by
    rcases Mmgr.allocBlock_cases taken with ⟨zero, _⟩ | ⟨block, h, candidate, _, _, address, left⟩
    · exact absurd zero nonnull
    · exact ⟨block, h, candidate, address, left⟩
  have free : FreeFrame s.mmgr (BitVec.ofNat 40 block) := ⟨block, candidate, rfl⟩
  have inside := candidate.bound
  have small : (BitVec.ofNat 40 block).toNat < 2 ^ 32 := by
    rw [BitVec.toNat_ofNat]
    omega
  rw [blockAddress_eq inside] at taken
  have own : Avoids s.memory root (pagePath virt) table := by
    intro front i before found
    have valid := page.user.tablePath
    have shorter := (List.prefix_append front [i]).trans before
    cases regular.tree _ _ table (valid.shorter shorter) valid (forkRadix_of_descend found)
      (forkRadix_of_descend page.reached)
    have length := before.length_le
    rw [List.length_append, List.length_singleton] at length
    omega
  obtain ⟨bound, _⟩ := isolated.data _ _ _ (page.maps isolated)
  have entry := decode_setEntry page.leads bound small
  obtain ⟨memory, executed, filled, written, kept, _⟩ :=
    copyPage_copies page.user regular.self page.reached page.leads own entry taken fun path before found =>
      (isolated.tables root page.member path _ (page.user.tablePath.shorter before) (forkRadix_of_descend found)).2 free
  have marked := isolated.marked _ _ _ (page.maps isolated) readOnly
  refine ⟨memory, BitVec.ofNat 40 block, ?_, ⟨filled, ?_, ?_, kept⟩, free, small, ?_⟩
  · simp only [pageFaultHandler, load_pte regular.self page.reached, Option.bind_eq_bind, Option.bind_some]
    rw [if_pos marked, executed]
    split
    · rename_i process
      obtain ⟨nodes, areas, apart⟩ := far process
      rw [areaAbove_none areas apart, Option.bind_some]
    · rfl
  · rw [written, entry]
  · rw [written, writable_iff, getLsbD_setEntry _ _ _ (by decide)]
    simp
  · intro other still
    obtain ⟨found, remains, rfl⟩ := still
    obtain ⟨old, different⟩ := (Mmgr.candidate_taken h candidate.1 found).mp remains
    have foundBound := old.bound
    exact ⟨⟨found, old, rfl⟩, ofNat_ne (by omega) (by omega) different⟩

theorem store_isolated {s : Machine} {roots frames : List (BitVec 40)} {root : BitVec 40} {virt e : BitVec 64}
    (value : BitVec 64) (vma : VmaAddr) (isolated : Paging.Isolated s.memory roots frames (FreeFrame s.mmgr))
    (member : root ∈ roots) (aligned : UserWord virt) (walked : walk s.memory (frameAddress root) virt = some e)
    (ready : e &&& pteWritable = 0 → Far s.kernel virt ∧
      ∃ phys mmgr, Mmgr.mmgrAllocBlock s.mmgr = some (phys, mmgr) ∧ phys ≠ 0) :
    ∃ next : Machine, s.store (frameAddress root) virt value vma = some next ∧ next.pages = s.pages ∧
      Paging.Isolated next.memory roots frames (FreeFrame next.mmgr) ∧
      ∀ other ∈ roots, ∀ word, UserWord word → load next.memory (frameAddress other) word =
        if other = root ∧ word = virt then some value else load s.memory (frameAddress other) word := by
  obtain ⟨table, frame, page, rfl⟩ := page_of_walk member aligned.user walked
  by_cases writable : s.memory (slot table (tableIndex virt)) &&& pteWritable = 0
  · obtain ⟨far, phys, mmgr, taken, nonnull⟩ := ready writable
    obtain ⟨memory, fresh, handled, copied, free, small, left⟩ :=
      pageFaultHandler_copies vma isolated page writable far taken nonnull
    have apart := page.copied_isolated isolated copied free small left
    have reached := page.reached
    rw [← (page.copied_upper isolated copied free member).page_descend aligned.user.tablePath] at reached
    have copiedPage : PageAt memory roots root virt table fresh := ⟨member, aligned.user, reached, copied.leads⟩
    obtain ⟨stored, loads⟩ := copiedPage.stored apart aligned copied.writable value
    refine ⟨{ s with memory := Function.update memory (slot fresh (wordIndex virt)) value, mmgr }, ?_, rfl, stored, ?_⟩
    · rw [Machine.store, writeWord_readOnly page writable]
      simp only [handled, Option.bind_eq_bind, Option.bind_some, Option.pure_def,
        writeWord_writable copiedPage aligned copied.writable]
    · intro other otherMember word otherAligned
      rw [loads other otherMember word otherAligned, page.copied_load isolated copied free otherMember otherAligned]
  · obtain ⟨stored, loads⟩ := page.stored isolated aligned writable value
    refine ⟨{ s with memory := Function.update s.memory (slot frame (wordIndex virt)) value }, ?_, rfl, stored, loads⟩
    rw [Machine.store, writeWord_writable page aligned writable]

theorem AddressSpaces.step_fork {s : AddressSpaces} {parent child : BitVec 40} {frames : List (BitVec 40)}
    (pages : s.machine.pages = (child :: frames).map frameAddress)
    (isolated : Paging.Isolated s.machine.memory s.roots (child :: frames) (FreeFrame s.machine.mmgr))
    (known : parent ∈ s.roots) (enough : tableCount s.machine.memory forkLevels parent ≤ frames.length) :
    ∃ memory rest, s.step (.fork parent child) =
        some ⟨{ s.machine with memory, pages := rest.map frameAddress }, child :: s.roots⟩ ∧
      Paging.Isolated memory (child :: s.roots) rest (FreeFrame s.machine.mmgr) ∧
      (∀ root ∈ s.roots, ∀ virt, UserWord virt →
        load memory (frameAddress root) virt = load s.machine.memory (frameAddress root) virt) ∧
      ∀ virt, UserWord virt →
        load memory (frameAddress child) virt = load s.machine.memory (frameAddress parent) virt := by
  obtain ⟨memory, rest, executed, apart⟩ := isolated.forkTables known enough
  have names : ((child :: frames).map frameAddress).map frameOf = child :: frames := by
    rw [List.map_map]
    exact List.map_id'' frameOf_frameAddress _
  have first : ((child :: frames).map frameAddress).head? = some (frameAddress child) := rfl
  refine ⟨memory, rest, ?_, apart⟩
  simp only [AddressSpaces.step]
  rw [pages, if_pos first, names, executed]
  rfl

theorem AddressSpaces.step_matched (s : AddressSpaces) (spaces : Spaces (BitVec 40) (BitVec 64) (BitVec 64)) (act : Act)
    (holds : s.Holds spaces) (admitted : s.Admits act) :
    ∃ next, s.step act = some next ∧ next.Holds (act.perform spaces) := by
  obtain ⟨⟨frames, pages, isolated⟩, loads⟩ := holds
  cases act with
  | fork parent child =>
    obtain ⟨known, others, listed, enough⟩ := admitted
    rw [pages] at listed
    cases frames with
    | nil => cases listed
    | cons first frames =>
      obtain ⟨same, rfl⟩ := List.cons.inj listed
      obtain rfl := frameAddress_injective same
      rw [List.length_map] at enough
      obtain ⟨next, rest, executed, apart, kept, copied⟩ := AddressSpaces.step_fork pages isolated known enough
      refine ⟨_, executed, ⟨rest, rfl, apart⟩, ?_⟩
      intro root member virt word
      change load next (frameAddress root) virt = Function.update spaces first (spaces parent) root virt
      rcases List.mem_cons.mp member with rfl | old
      · rw [Function.update_self, copied virt word]
        exact loads parent known virt word
      · have different : root ≠ first := by
          rintro rfl
          exact (isolated.tables root old [] root ⟨by decide, by simp⟩ rfl).1 List.mem_cons_self
        rw [Function.update_of_ne different, kept root old virt word]
        exact loads root old virt word
  | store root virt value vma =>
    obtain ⟨member, aligned, e, walked, ready⟩ := admitted
    obtain ⟨machine, executed, samePages, apart, written⟩ :=
      store_isolated value vma isolated member aligned walked ready
    refine ⟨{ s with machine }, ?_, ⟨frames, samePages.trans pages, apart⟩, ?_⟩
    · simp only [AddressSpaces.step, executed, Option.bind_eq_bind, Option.bind_some, Option.pure_def]
    · intro other otherMember word otherAligned
      rw [written other otherMember word otherAligned, Act.perform, Spaces.perform_store]
      split
      · rfl
      · exact loads other otherMember word otherAligned
  | kernel next => exact ⟨_, rfl, ⟨frames, pages, isolated⟩, loads⟩

/-- Copy-on-write cannot be told from copying: after any run of forks and stores, with the kernel at work in between,
    every process finds what it would find with a memory of its own. -/
theorem copy_on_write_refines_copying (start : AddressSpaces) (acts : List Act) (isolated : start.Isolated)
    (admitted : Admitted AddressSpaces.step AddressSpaces.Admits start acts) :
    ∃ final, run AddressSpaces.step start acts = some final ∧ final.Isolated ∧
      ∀ root ∈ final.roots, ∀ virt, UserWord virt →
        load final.machine.memory (frameAddress root) virt =
          acts.foldl Act.perform (fun root => load start.machine.memory (frameAddress root)) root virt := by
  have related : start.Holds fun root => load start.machine.memory (frameAddress root) :=
    ⟨isolated, fun _ _ _ _ => rfl⟩
  obtain ⟨final, executed, apart, loads⟩ :=
    run_refines AddressSpaces.Holds Act.perform AddressSpaces.step_matched related admitted
  exact ⟨final, executed, apart, loads⟩

theorem onePage_present {path : List (BitVec 9)} :
    forkRadix.descend onePage 1 path = pageRadix.descend onePage 1 path := by
  apply congrArg fun step => path.foldlM step (1 : BitVec 40)
  funext table i
  change (if onePage (slot table i) = 0 then none else some (frameOf (onePage (slot table i)))) =
    decode (onePage (slot table i))
  unfold decode
  by_cases absent : onePage (slot table i) &&& ptePresent = 0
  · rw [if_pos absent, if_pos (onePage_absent absent)]
  · have nonzero : onePage (slot table i) ≠ 0 := by
      intro zero
      rw [zero] at absent
      exact absent rfl
    rw [if_neg absent, if_neg nonzero]

theorem onePage_leaf : Leaf onePage forkLevels 1 4 := by
  have second : Followed onePage true 2 0 := onePage_followed (by decide)
  have third : onePage (slot 3 0) ≠ 0 := by decide
  exact ⟨0, onePage_followed (by decide), 0, second, 0, third, rfl⟩

theorem onePage_regular : Regular onePage 1 where
  self := by
    rw [SelfMapped]
    decide +kernel
  present _ _ := onePage_present
  tree := onePage_tree
  linear := onePage_linear
  zero := ⟨1, by decide, onePage_zero (by decide) (by decide)⟩
  pointerZero := onePage_pointerZero
  covered virt table user reached := by
    rw [(onePage_descend user.tablePath (forkRadix_of_descend reached)).2]
    exact onePage_leaf

theorem onePage_maps {page frame : BitVec 40} {l : BitVec 9} (maps : Maps onePage [1] page l frame) :
    page = 4 ∧ l = 0 ∧ frame = 5 := by
  obtain ⟨⟨root, member, leaf⟩, leads⟩ := maps
  cases List.mem_singleton.mp member
  obtain ⟨path, length, valid, found⟩ := leaf.tablePath onePage_regular.zero
  obtain ⟨_, rfl⟩ := onePage_descend valid found
  rw [length] at leads ⊢
  by_cases first : l = 0
  · subst first
    exact ⟨rfl, rfl, Option.some.inj (leads.symm.trans (by decide +kernel))⟩
  · have other : ¬ (BitVec.ofNat 40 (3 + 1) = 1 ∧ l = 510) := fun recursive => absurd recursive.1 (by decide)
    rw [onePage_zero first other] at leads
    cases leads

theorem oneFreeWord_late {frame : BitVec 40} (free : FreeFrame oneFreeWord frame) : 64 ≤ frame.toNat := by
  obtain ⟨block, candidate, rfl⟩ := free
  have late := oneFreeWord_candidate candidate
  have bound := candidate.bound
  rw [BitVec.toNat_ofNat]
  omega

theorem onePage_isolated : Paging.Isolated onePage [1] [6, 7, 8, 9] (FreeFrame oneFreeWord) where
  regular root member := by
    rw [List.mem_singleton.mp member]
    exact onePage_regular
  distinct := by decide
  bound := by simp
  unfree frame member free := by
    have early : ∀ frame ∈ ([6, 7, 8, 9] : List (BitVec 40)), frame.toNat < 64 := by simp
    exact Nat.not_le.mpr (early frame member) (oneFreeWord_late free)
  tables root member path table valid found := by
    cases List.mem_singleton.mp member
    have bound := onePage_bound valid found
    refine ⟨fun listed => onePage_fresh.unused table listed path valid found, fun free => ?_⟩
    have late := oneFreeWord_late free
    omega
  owned root member other otherMember different := by
    rw [List.mem_singleton.mp member, List.mem_singleton.mp otherMember] at different
    exact absurd rfl different
  data page l frame maps := by
    obtain ⟨_, _, rfl⟩ := onePage_maps maps
    refine ⟨by decide, by decide, fun free => absurd (oneFreeWord_late free) (by decide), ?_⟩
    intro root member path valid found
    cases List.mem_singleton.mp member
    exact absurd (onePage_bound valid found) (by decide)
  marked page l frame maps readOnly := by
    obtain ⟨rfl, rfl, _⟩ := onePage_maps maps
    exact absurd readOnly (by decide +kernel)
  exclusive page l other k frame maps otherMaps _ := by
    obtain ⟨rfl, rfl, _⟩ := onePage_maps maps
    obtain ⟨rfl, rfl, _⟩ := onePage_maps otherMaps
    exact ⟨rfl, rfl⟩

theorem store_roots {s next : AddressSpaces} {root : BitVec 40} {virt value : BitVec 64} {vma : VmaAddr}
    (executed : s.step (.store root virt value vma) = some next) : next.roots = s.roots := by
  simp only [AddressSpaces.step, Option.bind_eq_bind, Option.bind_eq_some_iff, Option.pure_def] at executed
  obtain ⟨machine, _, equal⟩ := executed
  cases equal
  rfl

theorem child_store_private : ∃ forked : Kernel, ∃ final,
    run AddressSpaces.step ⟨⟨forked, onePage, oneFreeWord, [6, 7, 8, 9].map frameAddress⟩, [1]⟩
      [.fork 1 6, .store 6 8 7 3] = some final ∧
    load final.machine.memory (frameAddress 6) 8 = some 7 ∧ load final.machine.memory (frameAddress 1) 8 = some 0 := by
  obtain ⟨_, forked, _, _, _, areas, stack, heap⟩ := process_forked
  have word : UserWord 8 := ⟨by decide, by decide⟩
  have empty : load onePage (frameAddress 1) 8 = some 0 := by decide +kernel
  have far : Far forked 8 := by
    intro _
    refine ⟨[1, 2], areas, ?_⟩
    intro area member
    rcases List.mem_cons.mp member with rfl | member
    · rw [stack]
      decide
    · rw [List.mem_singleton.mp member, heap]
      decide
  obtain ⟨memory, rest, stepped, _, _, copied⟩ := AddressSpaces.step_fork
    (s := ⟨⟨forked, onePage, oneFreeWord, [6, 7, 8, 9].map frameAddress⟩, [1]⟩) rfl onePage_isolated
    (List.mem_singleton_self 1) (show tableCount onePage forkLevels 1 ≤ 3 by decide +kernel)
  have admitted : Admitted AddressSpaces.step AddressSpaces.Admits
      ⟨⟨forked, onePage, oneFreeWord, [6, 7, 8, 9].map frameAddress⟩, [1]⟩ [.fork 1 6, .store 6 8 7 3] := by
    refine ⟨⟨List.mem_singleton_self _, [7, 8, 9].map frameAddress, rfl, ?_⟩, ?_⟩
    · exact (show tableCount onePage forkLevels 1 ≤ 3 by decide +kernel)
    · intro next same
      cases stepped.symm.trans same
      have member : 6 ∈ ([6, 1] : List (BitVec 40)) := List.mem_cons_self
      obtain ⟨_, _, page, _⟩ := word.page_of_load member ((copied 8 word).trans empty)
      exact ⟨⟨List.mem_cons_self, word, _, page.walk_eq, fun _ => ⟨far, oneFreeWord_taken⟩⟩, fun _ _ => trivial⟩
  obtain ⟨final, executed, _, loads⟩ :=
    copy_on_write_refines_copying _ _ ⟨[6, 7, 8, 9], rfl, onePage_isolated⟩ admitted
  have roots : final.roots = [6, 1] := by
    obtain ⟨next, first, later⟩ := run_cons.mp executed
    cases stepped.symm.trans first
    obtain ⟨last, second, done⟩ := run_cons.mp later
    cases done
    exact store_roots second
  rw [roots] at loads
  refine ⟨forked, final, executed, (loads 6 (by decide) 8 word).trans ?_, (loads 1 (by decide) 8 word).trans ?_⟩
  · simp [Act.perform, Spaces.perform_store]
  · simpa [Act.perform, Spaces.perform_store, Spaces.perform] using empty

end Sbunix.Fault
