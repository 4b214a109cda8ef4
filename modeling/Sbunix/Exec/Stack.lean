import Sbunix.Exec.Heap
import Sbunix.Fault.Segmentation

namespace Sbunix.Exec

open Library Paging Thread Fault

def Writable (m : Memory) (root : BitVec 40) (virt : BitVec 64) : Prop :=
  ∃ e, walk m (frameAddress root) virt = some e ∧ e &&& pteWritable ≠ 0

theorem writable_of_pageNumber {m : Memory} {root : BitVec 40} {left right : BitVec 64}
    (same : pageNumber left = pageNumber right) : Writable m root left ↔ Writable m root right := by
  rw [Writable, Writable, walk_of_pageNumber same]

theorem mmapArea_last {k next : Kernel} {vma : VmaAddr} {addr : BitVec 64} {thread : Tid}
    (executed : mmapArea k vma addr thread = some next) :
    (next.threads thread).mmapCache = some vma ∧ (next.vmas vma).vmStart = addr ∧
      next.currentThread = k.currentThread := by
  simp only [mmapArea, insertVma, linkVma, Option.bind_eq_bind, Option.bind_eq_some_iff, Option.pure_def] at executed
  obtain ⟨middle, linked, equal⟩ := executed
  cases equal
  refine ⟨by rw [updateThread_self], ?_⟩
  split at linked
  · cases linked
    exact ⟨by simp [Kernel.updateThread], rfl⟩
  · simp only [Option.bind_eq_some_iff] at linked
    obtain ⟨cache, _, equal⟩ := linked
    cases equal
    refine ⟨?_, rfl⟩
    by_cases same : cache = vma
    · simp [Kernel.updateThread, same]
    · simp [Kernel.updateThread, Function.update_of_ne (Ne.symm same)]

theorem mmapAreas_noStackPages {k next : Kernel} {areas : List (VmaAddr × BitVec 64)} {thread : Tid}
    (executed : mmapAreas k areas thread = some next) (other : Tid) :
    (next.threads other).noStackPages = (k.threads other).noStackPages := by
  induction areas generalizing k with
  | nil =>
    cases executed
    rfl
  | cons area areas ih =>
    simp only [mmapAreas, List.foldlM_cons, Option.bind_eq_bind, Option.bind_eq_some_iff] at executed
    obtain ⟨middle, mapped, rest⟩ := executed
    rw [ih rest, mmapArea_noStackPages mapped]

theorem createKthreadUser_noStackPages (k : Kernel) (page : Tid) :
    ((createKthreadUser k page).threads page).noStackPages = 1 := by
  refine Eq.trans (Links.view_append Kthread.noStackPages (fun _ _ => rfl) (fun _ _ => rfl) page page) ?_
  unfold initThreadUser
  dsimp only
  split
  · simp [allocPid, Kernel.updateThread]
  · rw [updateThread_self]

theorem doExec_last {k next : Kernel} {page : Tid} {segments : List (VmaAddr × BitVec 64)} {stack heap : VmaAddr}
    (executed : Thread.doExec k page segments stack heap = some next) :
    (next.threads page).mmapCache = some heap ∧ (next.vmas heap).vmStart = userHeap ∧
      (next.threads page).noStackPages = 1 := by
  obtain ⟨mapped, middle, mapping, entered, rfl⟩ := doExec_entered executed
  obtain ⟨index, _, rfl⟩ := addToPtable_stored entered
  have pages := mmapAreas_noStackPages mapping page
  rw [createKthreadUser_noStackPages] at pages
  have split : ∃ before, mmapArea before heap userHeap page = some mapped := by
    rw [mmapAreas, List.foldlM_append] at mapping
    simp only [Option.bind_eq_bind, Option.bind_eq_some_iff, List.foldlM_cons, List.foldlM_nil] at mapping
    obtain ⟨_, _, _, _, before, last, equal⟩ := mapping
    cases equal
    exact ⟨_, last⟩
  obtain ⟨before, last⟩ := split
  obtain ⟨cache, start, _⟩ := mmapArea_last last
  have areas := runnableKthread_areas (mapped.storePtable index (some page)) page page
  have counted : ((runnableKthread (mapped.storePtable index (some page)) page).threads page).noStackPages =
      (mapped.threads page).noStackPages :=
    Links.view_append Kthread.noStackPages (fun _ _ => rfl) (fun _ _ => rfl) page page
  refine ⟨?_, start, counted.trans pages⟩
  exact (congrArg Prod.snd areas).trans cache

/-- A process after a number of stack growths: `mmap_cache` is the area of the last one, or the heap. -/
structure Grown (s : Machine) (root : BitVec 40) (frames : List (BitVec 40)) (count : Nat) : Prop where
  sound : Sound s root frames
  cache : ∃ cache, s.current.mmapCache = some cache ∧
    (s.kernel.vmas cache).vmStart = userHeap - 0x1000 * BitVec.ofNat 64 count
  pages : s.current.noStackPages = 1 + count

theorem growth_outside {count : Nat} (few : count ≤ 3) :
    pml4Index (userHeap - 0x1000 * BitVec.ofNat 64 (count + 1)) ≠ 510 := by
  have cases : count = 0 ∨ count = 1 ∨ count = 2 ∨ count = 3 := by omega
  rcases cases with rfl | rfl | rfl | rfl <;> decide

theorem growth_next (count : Nat) : userHeap - 0x1000 * BitVec.ofNat 64 count - 0x1000 =
    userHeap - 0x1000 * BitVec.ofNat 64 (count + 1) := by
  have succ : BitVec.ofNat 64 (count + 1) = BitVec.ofNat 64 count + 1 := by
    rw [BitVec.ofNat_add]
    rfl
  rw [succ]
  bv_omega

def countStackPage (k : Kernel) : Kernel :=
  k.updateThread k.currentThread fun page => { page with noStackPages := page.noStackPages + 1 }

theorem extendStack_eq {base : BitVec 64} {s : Machine} {vma cache : VmaAddr}
    (last : s.current.mmapCache = some cache) :
    extendStack base s vma = mmapPage base { s with kernel := countStackPage s.kernel } vma
      ((s.kernel.vmas cache).vmStart - 0x1000) s.kernel.currentThread := by
  have again : (s.kernel.threads s.kernel.currentThread).mmapCache = some cache := last
  simp only [extendStack, growStack, mmapPage, last, again, Option.bind_eq_bind, Option.bind_some]
  rfl

/-- A growth maps the page below the last area, wherever the fault was. -/
theorem Grown.extend {s : Machine} {root : BitVec 40} {frames : List (BitVec 40)} {count : Nat} {newPte : BitVec 64}
    {mmgr : Mmgr.State} (grown : Grown s root frames count) (enough : 3 ≤ frames.length) (few : count ≤ 3)
    (taken : Mmgr.mmgrAllocBlock s.mmgr = some (newPte, mmgr)) (vma : VmaAddr) :
    ∃ next rest, extendStack (frameAddress root) s vma = some next ∧ Grown next root rest (count + 1) ∧
      Mapped s next root frames rest (userHeap - 0x1000 * BitVec.ofNat 64 (count + 1)) := by
  obtain ⟨cache, last, start⟩ := grown.cache
  have counted : ((countStackPage s.kernel).threads s.kernel.currentThread).mmapCache = some cache := by
    rw [countStackPage, updateThread_self]
    exact last
  obtain ⟨kernel, linked, _⟩ :=
    mmapArea_some vma ((s.kernel.vmas cache).vmStart - 0x1000) (Or.inr ⟨cache, counted⟩)
  have addr : (s.kernel.vmas cache).vmStart - 0x1000 = userHeap - 0x1000 * BitVec.ofNat 64 (count + 1) := by
    rw [start, growth_next]
  have outside : pml4Index ((s.kernel.vmas cache).vmStart - 0x1000) ≠ 510 := by
    rw [addr]
    exact growth_outside few
  obtain ⟨next, rest, executed, kernelEq, _, mapped⟩ :=
    mmapPage_spec (grown.sound.kernel (countStackPage s.kernel)) enough outside taken linked
  rw [← extendStack_eq last] at executed
  obtain ⟨newCache, newStart, current⟩ := mmapArea_last linked
  have total := extendStack_noStackPages executed
  rw [addr] at mapped newStart
  have thread : next.kernel.currentThread = s.kernel.currentThread := by
    rw [kernelEq, current]
    rfl
  refine ⟨next, rest, executed, ⟨mapped.sound, ⟨vma, ?_, ?_⟩, ?_⟩,
    ⟨mapped.sound, mapped.length, mapped.entry, mapped.others⟩⟩
  · rw [Machine.current, thread, kernelEq]
    exact newCache
  · rw [kernelEq]
    exact newStart
  · rw [Machine.current, thread, total, grown.pages]
    push_cast
    omega

theorem extendStack_parts {base : BitVec 64} {s next : Machine} {vma : VmaAddr}
    (executed : extendStack base s vma = some next) :
    (∃ newPte mmgr, Mmgr.mmgrAllocBlock s.mmgr = some (newPte, mmgr)) ∧
      next.current.noStackPages = s.current.noStackPages + 1 := by
  have total := extendStack_noStackPages executed
  simp only [extendStack, growStack, Option.bind_eq_bind, Option.bind_eq_some_iff, Option.pure_def,
    Prod.exists] at executed
  obtain ⟨_, _, newPte, mmgr, taken, _, _, _, kernel, ⟨_, _, linked⟩, equal⟩ := executed
  cases equal
  refine ⟨⟨newPte, mmgr, taken⟩, ?_⟩
  rw [Machine.current, (mmapArea_last linked).2.2]
  exact total

theorem run_noStackPages {base : BitVec 64} {s final : Machine} {vmas : List VmaAddr}
    (executed : run (extendStack base) s vmas = some final) :
    final.current.noStackPages = s.current.noStackPages + vmas.length := by
  induction vmas generalizing s with
  | nil =>
    cases executed
    simp
  | cons vma vmas ih =>
    obtain ⟨middle, stepped, rest⟩ := run_cons.mp executed
    rw [ih rest, (extendStack_parts stepped).2, List.length_cons]
    push_cast
    omega

theorem run_grown {s final : Machine} {root : BitVec 40} {frames : List (BitVec 40)} {count : Nat}
    {vmas : List VmaAddr} (grown : Grown s root frames count) (few : count + vmas.length ≤ 3)
    (enough : 3 * vmas.length ≤ frames.length)
    (executed : run (extendStack (frameAddress root)) s vmas = some final) :
    ∃ rest, Grown final root rest (count + vmas.length) ∧ frames.length ≤ rest.length + 3 * vmas.length := by
  induction vmas generalizing s frames count with
  | nil =>
    cases executed
    exact ⟨frames, grown, Nat.le_add_right _ _⟩
  | cons vma vmas ih =>
    rw [List.length_cons] at few enough
    obtain ⟨middle, stepped, ran⟩ := run_cons.mp executed
    obtain ⟨⟨newPte, mmgr, taken⟩, _⟩ := extendStack_parts stepped
    obtain ⟨next, left, again, grown_next, mapped⟩ := grown.extend (by omega) (by omega) taken vma
    cases again.symm.trans stepped
    have length := mapped.length
    obtain ⟨rest, done, total⟩ := ih grown_next (by omega) (by omega) ran
    refine ⟨rest, ?_, by rw [List.length_cons]; omega⟩
    rw [List.length_cons, show count + (vmas.length + 1) = count + 1 + vmas.length by omega]
    exact done

def resumed (s : Machine) (page : Tid) : Machine := { s with kernel := { s.kernel with currentThread := page } }

theorem doExec_grown {s loaded : Machine} {root : BitVec 40} {frames : List (BitVec 40)} {archive : Tarfs.Memory}
    {page : Tid} {segments : List (VmaAddr × ExecSegment)} {stack heap : VmaAddr} (sound : Sound s root frames)
    (enough : 3 * (segments.length + 2) ≤ frames.length) (user : ∀ segment ∈ segments, SegmentOutside segment.2)
    (executed : doExec (frameAddress root) archive s page segments stack heap = some loaded) :
    ∃ rest, Grown (resumed loaded page) root rest 0 ∧ frames.length ≤ rest.length + 3 * (segments.length + 2) := by
  obtain ⟨rest, done⟩ := doExec_executed sound enough user executed
  obtain ⟨cache, start, pages⟩ := doExec_last (doExec_kernel executed)
  have length := done.length
  rw [List.length_append, List.length_map] at length
  refine ⟨rest, ⟨done.sound.kernel _, ⟨heap, cache, ?_⟩, pages⟩, length⟩
  refine Eq.trans start ?_
  decide

theorem pageFaultHandler_near {base fault : BitVec 64} {s : Machine} {area vma : VmaAddr}
    (near : nearArea s fault = some (some area)) (few : s.current.noStackPages ≤ 4) :
    pageFaultHandler base s fault vma = extendStack base s vma := by
  rw [pageFaultHandler_eq, near]
  exact if_pos few

theorem Mapped.writable_iff {s next : Machine} {root : BitVec 40} {frames rest : List (BitVec 40)}
    {addr virt : BitVec 64} (mapped : Mapped s next root frames rest addr) (outside : pml4Index virt ≠ 510) :
    Writable next.memory root virt ↔ pageNumber virt = pageNumber addr ∨ Writable s.memory root virt := by
  by_cases page : pageNumber virt = pageNumber addr
  · rw [writable_of_pageNumber page]
    exact iff_of_true mapped.entry (Or.inl page)
  · rw [Writable, mapped.others virt outside page]
    exact ⟨Or.inr, fun known => known.resolve_left page⟩

/-- After `do_exec` and earlier growths, a stack growth makes the faulting page writable exactly where this is the page
    below the heap and the pages of the earlier growths, or where it has been writable before. -/
theorem stack_growth_maps_fault_iff (s loaded t : Machine) (root : BitVec 40) (frames : List (BitVec 40))
    (archive : Tarfs.Memory) (page : Tid) (segments : List (VmaAddr × ExecSegment)) (stack heap : VmaAddr)
    (sound : Sound s root frames) (user : ∀ segment ∈ segments, SegmentOutside segment.2)
    (executed : doExec (frameAddress root) archive s page segments stack heap = some loaded) (vmas : List VmaAddr)
    (enough : 3 * (segments.length + 3 + vmas.length) ≤ frames.length)
    (grown : run (extendStack (frameAddress root)) (resumed loaded page) vmas = some t) (fault : BitVec 64)
    (outside : pagePml4Offset fault ≠ 510) (area vma : VmaAddr) (near : nearArea t fault = some (some area))
    (few : t.current.noStackPages ≤ 4) (newPte : BitVec 64) (mmgr : Mmgr.State)
    (taken : Mmgr.mmgrAllocBlock t.mmgr = some (newPte, mmgr)) :
    ∃ next, pageFaultHandler (frameAddress root) t fault vma = some next ∧
      (Writable next.memory root fault ↔
        pageNumber fault = pageNumber (userHeap - 0x1000 * BitVec.ofNat 64 (vmas.length + 1)) ∨
          Writable t.memory root fault) := by
  -- the limit on `no_stack_pages` bounds the earlier growths, so that the new page stays below the heap
  obtain ⟨left, start, length⟩ := doExec_grown sound (by omega) user executed
  have pages := run_noStackPages grown
  rw [start.pages] at pages
  obtain ⟨rest, state, total⟩ := run_grown start (by omega) (by omega) grown
  obtain ⟨next, _, extended, _, mapped⟩ := state.extend (by omega) (by omega) taken vma
  refine ⟨next, ?_, ?_⟩
  · rw [pageFaultHandler_near near few, extended]
  · rw [Nat.zero_add] at mapped
    exact mapped.writable_iff (pml4Index_ne outside)

theorem bare_started : ∃ loaded rest mmgr,
    doExec (frameAddress 1) (fun _ => 0) bareMachine 1 [] 1 2 = some loaded ∧
    Mmgr.mmgrAllocBlock (resumed loaded 1).mmgr = some (0x42000, mmgr) ∧
    Grown (resumed loaded 1) 1 rest 0 ∧ 3 ≤ rest.length ∧
    nearArea (resumed loaded 1) 0xbfeff8 = some (some 1) ∧ nearArea (resumed loaded 1) 0x7fff8 = some (some 2) := by
  obtain ⟨loaded, mmgr, executed, taken⟩ := bare_exec
  obtain ⟨rest, start, length⟩ := doExec_grown bareMachine_sound (by decide) (by simp) executed
  have kernel := doExec_kernel executed
  have areas : ∃ k, Thread.doExec bootKernel 1 [] 1 2 = some k ∧
      (k.threads 1).kernelThread = 0 ∧ (k.threads 1).mmap = some 1 ∧
      k.vmas 1 = ⟨userStack, userStack + 0x1000, some 2⟩ ∧ k.vmas 2 = ⟨userHeap, userHeap + 0x1000, none⟩ :=
    ⟨_, rfl, rfl, rfl, rfl, rfl⟩
  obtain ⟨k, again, process, first, stackArea, heapArea⟩ := areas
  cases again.symm.trans kernel
  have chain : Chain (fun area => (loaded.kernel.vmas area).vmNext) (loaded.kernel.threads 1).mmap [1, 2] := by
    refine ⟨first, ?_, ?_⟩
    · change (loaded.kernel.vmas 1).vmNext = some 2
      rw [stackArea]
    · change (loaded.kernel.vmas 2).vmNext = none
      rw [heapArea]
  have scanned (fault : BitVec 64) : nearArea (resumed loaded 1) fault =
      some ([1, 2].find? fun crawl => (loaded.kernel.vmas crawl).vmStart - fault ≤ 100) :=
    (if_pos process).trans (chain.scan _)
  refine ⟨loaded, rest, mmgr, executed, taken, start, ?_, ?_, ?_⟩
  · exact Nat.le_of_add_le_add_right (show 3 + 6 ≤ rest.length + 6 from length)
  · rw [scanned]
    simp only [List.find?, stackArea]
    rfl
  · rw [scanned]
    simp only [List.find?, stackArea, heapArea]
    rfl

theorem access_below_heap_mapped : ∃ loaded next,
    doExec (frameAddress 1) (fun _ => 0) bareMachine 1 [] 1 2 = some loaded ∧
    pageFaultHandler (frameAddress 1) (resumed loaded 1) 0x7fff8 3 = some next ∧ Writable next.memory 1 0x7fff8 := by
  obtain ⟨loaded, rest, mmgr, executed, taken, start, _, _, near⟩ := bare_started
  have few : (resumed loaded 1).current.noStackPages ≤ 4 := by
    rw [start.pages]
    decide
  obtain ⟨next, handled, exactly⟩ := stack_growth_maps_fault_iff bareMachine loaded (resumed loaded 1) 1
    [2, 3, 4, 5, 6, 7, 8, 9, 10] (fun _ => 0) 1 [] 1 2 bareMachine_sound (by simp) executed [] (by decide) rfl 0x7fff8
    (by decide) 2 3 near few 0x42000 mmgr taken
  exact ⟨loaded, next, executed, handled, exactly.mpr (Or.inl (by decide))⟩

/-- An access closely below the stack maps the page below the heap instead. -/
theorem access_below_stack_unmapped : ∃ loaded next,
    doExec (frameAddress 1) (fun _ => 0) bareMachine 1 [] 1 2 = some loaded ∧
    (resumed loaded 1).current.noStackPages = 1 ∧ nearArea (resumed loaded 1) 0xbfeff8 = some (some 1) ∧
    pageFaultHandler (frameAddress 1) (resumed loaded 1) 0xbfeff8 3 = some next ∧
    walk next.memory (frameAddress 1) 0xbfeff8 = none := by
  obtain ⟨loaded, rest, mmgr, executed, taken, start, enough, near, _⟩ := bare_started
  have few : (resumed loaded 1).current.noStackPages ≤ 4 := by
    rw [start.pages]
    decide
  obtain ⟨next, _, extended, _, mapped⟩ := start.extend enough (by decide) taken 3
  refine ⟨loaded, next, executed, start.pages, near, ?_, ?_⟩
  · rw [pageFaultHandler_near near few, extended]
  · rw [mapped.others 0xbfeff8 (by decide) (by decide)]
    exact bare_unmapped executed (by decide) (by decide) (by decide)

end Sbunix.Exec
