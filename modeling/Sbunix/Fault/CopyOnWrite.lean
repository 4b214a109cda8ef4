import Sbunix.Paging.UserPage
import Sbunix.Thread.Areas

namespace Sbunix.Fault

open Library Paging Thread

/-- What `page_fault_handler` works on. The pages are those that `sub_malloc` returns for tables. -/
structure Machine where
  kernel : Kernel
  memory : Memory
  mmgr : Mmgr.State
  pages : List (BitVec 64)

def Machine.current (s : Machine) : Kthread := s.kernel.threads s.kernel.currentThread

def extendStack (base : BitVec 64) (s : Machine) (vma : VmaAddr) : Option Machine := do
  let cache ← s.current.mmapCache
  let addr := (s.kernel.vmas cache).vmStart - 0x1000
  let (newPte, mmgr) ← Mmgr.mmgrAllocBlock s.mmgr
  let (memory, pages) ← vmmgrMapPageAfterPaging takePage base s.memory s.pages newPte addr true
  let kernel ← growStack s.kernel vma
  return ⟨kernel, memory, mmgr, pages⟩

def kill (s : Machine) : Option Machine := do
  let thread := s.kernel.currentThread
  let k := s.kernel.updateThread thread fun page => { page with alive := false }
  let (threads, runQueue) := removeRunnableKthread k.threads k.runQueue thread
  let (threads, allThreadList) := removeAlllistKthread threads k.allThreadList thread
  let kernel ← sysExit { k with threads, runQueue, allThreadList }
  return { s with kernel }

/-- The copy of a page. The page is found by `PAGE_PHYSICAL_ADDRESS` of the faulting address. -/
def copyPage (base : BitVec 64) (s : Machine) (fault : BitVec 64) : Option Machine := do
  let (phys, mmgr) ← Mmgr.mmgrAllocBlock s.mmgr
  let faultPage := pagePhysicalAddress fault
  let buf ← memcpyFrom s.memory base faultPage (fun _ => 0) 512
  let (memory, pages) ← vmmgrMapPageAfterPaging takePage base s.memory s.pages phys fault true
  let memory ← memcpyTo memory base faultPage buf 512
  return { s with memory, mmgr, pages }

/-- `page_fault_handler`, with the tables at `base` in use. The areas of a process come before the entry. -/
def pageFaultHandler (base : BitVec 64) (s : Machine) (fault : BitVec 64) (vma : VmaAddr) : Option Machine := do
  let near ← if s.current.kernelThread = 0 then areaAbove s.kernel s.kernel.currentThread fault else some none
  match near with
  | some _ => if s.current.noStackPages ≤ 4 then extendStack base s vma else kill s
  | none =>
    let entry ← load s.memory base (getPteRecurse fault)
    if entry &&& pteCow ≠ 0 then copyPage base s fault else kill s

/-- A write to the page of `fault` faults because the page is shared with another process. The tables of
    the two are their own, and what is in use is not free. -/
structure SharedPage (s : Machine) (root other : BitVec 40) (fault : BitVec 64) (table shared : BitVec 40) :
    Prop where
  user : UserHalf fault
  self : SelfMapped s.memory root
  reached : pageRadix.descend s.memory root (pagePath fault) = some table
  leads : decode (s.memory (slot table (tableIndex fault))) = some shared
  bound : shared.toNat < 2 ^ 32
  cow : s.memory (slot table (tableIndex fault)) &&& pteCow ≠ 0
  readOnly : s.memory (slot table (tableIndex fault)) &&& pteWritable = 0
  own : Avoids s.memory root (pagePath fault) table
  others : ∀ path, path <+: pagePath fault → pageRadix.descend s.memory other path ≠ some table
  data : shared ≠ table
  used : ∀ block, Mmgr.Candidate s.mmgr block → BitVec.ofNat 40 block ≠ shared ∧
    ∀ path, path <+: pagePath fault → pageRadix.descend s.memory root path ≠ some (BitVec.ofNat 40 block) ∧
      pageRadix.descend s.memory other path ≠ some (BitVec.ofNat 40 block)

/-- The process has got a copy of the page of its own, and nothing else has happened. -/
structure Resolved (s next : Machine) (root other : BitVec 40) (fault : BitVec 64) (shared : BitVec 40) : Prop where
  copied : ∃ frame e, frame ≠ 0 ∧ Mmgr.mmgrAllocBlock s.mmgr = some (frameAddress frame, next.mmgr) ∧
    walk next.memory (frameAddress root) fault = some e ∧ frameOf e = frame ∧ e &&& pteWritable ≠ 0 ∧
    ∀ i, next.memory (slot frame i) = s.memory (slot shared i)
  otherEntry : walk next.memory (frameAddress other) fault = walk s.memory (frameAddress other) fault
  contents : ∀ i, next.memory (slot shared i) = s.memory (slot shared i)
  stackPages : (next.kernel.threads s.kernel.currentThread).noStackPages = s.current.noStackPages

theorem mmapArea_noStackPages {k next : Kernel} {vma : VmaAddr} {addr : BitVec 64} {thread : Tid}
    (executed : mmapArea k vma addr thread = some next) (other : Tid) :
    (next.threads other).noStackPages = (k.threads other).noStackPages := by
  simp only [mmapArea, insertVma, linkVma, Option.bind_eq_bind, Option.bind_eq_some_iff, Option.pure_def] at executed
  obtain ⟨middle, linked, equal⟩ := executed
  cases equal
  rw [updateThread_view Kthread.noStackPages]
  · split at linked
    · cases linked
      rw [updateThread_view Kthread.noStackPages]
      exact fun _ => rfl
    · simp only [Option.bind_eq_some_iff] at linked
      obtain ⟨cache, _, equal⟩ := linked
      cases equal
      rfl
  · exact fun _ => rfl

theorem extendStack_noStackPages {base : BitVec 64} {s next : Machine} {vma : VmaAddr}
    (executed : extendStack base s vma = some next) :
    (next.kernel.threads s.kernel.currentThread).noStackPages = s.current.noStackPages + 1 := by
  simp only [extendStack, Option.bind_eq_bind, Option.bind_eq_some_iff, Option.pure_def, Prod.exists] at executed
  obtain ⟨_, _, _, _, _, _, _, _, kernel, grown, equal⟩ := executed
  cases equal
  simp only [growStack, Option.bind_eq_bind, Option.bind_eq_some_iff] at grown
  obtain ⟨cache, _, mapped⟩ := grown
  rw [mmapArea_noStackPages mapped, updateThread_self]
  rfl

theorem kill_memory {s next : Machine} (executed : kill s = some next) : next.memory = s.memory := by
  simp only [kill, Option.bind_eq_bind, Option.bind_eq_some_iff, Option.pure_def] at executed
  obtain ⟨kernel, _, equal⟩ := executed
  cases equal
  rfl

theorem decode_setEntry {e : BitVec 64} {old frame : BitVec 40} (leads : decode e = some old)
    (oldBound : old.toNat < 2 ^ 32) (bound : frame.toNat < 2 ^ 32) :
    decode (setEntry e (frameAddress frame) true) = some frame := by
  have frameBound : (frameOf e).toNat < 2 ^ 32 := by
    unfold decode at leads
    split at leads
    · cases leads
    · rw [Option.some.inj leads]
      exact oldBound
  rw [decode, if_neg (setEntry_present _ _ _), frameOf_setEntry (highClear_of_frameOf frameBound) bound]

theorem copyPage_copies {s : Machine} {root table shared frame : BitVec 40} {fault : BitVec 64} {mmgr : Mmgr.State}
    (user : UserHalf fault) (self : SelfMapped s.memory root)
    (reached : pageRadix.descend s.memory root (pagePath fault) = some table)
    (leads : decode (s.memory (slot table (tableIndex fault))) = some shared)
    (own : Avoids s.memory root (pagePath fault) table)
    (entry : decode (setEntry (s.memory (slot table (tableIndex fault))) (frameAddress frame) true) = some frame)
    (taken : Mmgr.mmgrAllocBlock s.mmgr = some (frameAddress frame, mmgr))
    (unused : ∀ path, path <+: pagePath fault → pageRadix.descend s.memory root path ≠ some frame) :
    ∃ memory, copyPage (frameAddress root) s fault = some { s with memory, mmgr } ∧
      (∀ i, memory (slot frame i) = s.memory (slot shared i)) ∧
      (memory (slot table (tableIndex fault)) =
        setEntry (s.memory (slot table (tableIndex fault))) (frameAddress frame) true) ∧
      (∀ held i, held ≠ frame → ¬ (held = table ∧ i = tableIndex fault) →
        memory (slot held i) = s.memory (slot held i)) ∧
      pageRadix.descend memory root (pagePath fault) = some table := by
  obtain ⟨buf, saved, same⟩ := memcpyFrom_page user reached leads (fun _ => 0) (Nat.le_refl 512)
  let mapped := Function.update s.memory (slot table (tableIndex fault))
    (setEntry (s.memory (slot table (tableIndex fault))) (frameAddress frame) true)
  have mapping : vmmgrMapPageAfterPaging takePage (frameAddress root) s.memory s.pages (frameAddress frame) fault true =
      some (mapped, s.pages) := afterPaging_present self reached s.pages (frameAddress frame) true
  have written : mapped (slot table (tableIndex fault)) =
      setEntry (s.memory (slot table (tableIndex fault))) (frameAddress frame) true := Function.update_self _ _ _
  have mappedKept (held : BitVec 40) (i : BitVec 9) (different : ¬ (held = table ∧ i = tableIndex fault)) :
      mapped (slot held i) = s.memory (slot held i) :=
    Function.update_of_ne (fun equal => different (slot_injective equal)) _ _
  have tablesKept (held : BitVec 40) (i : BitVec 9) (different : held ≠ table) :
      mapped (slot held i) = s.memory (slot held i) := mappedKept held i fun equal => different equal.1
  have mappedReached := (own.descend_eq tablesKept).trans reached
  have mappedLeads : decode (mapped (slot table (tableIndex fault))) = some frame := by
    rw [written, entry]
  have avoids : Avoids mapped root (pagePath fault) frame := by
    intro parent i inside
    have shorter : Avoids s.memory root parent table := fun front j front_inside =>
      own front j (front_inside.trans ((List.prefix_append _ _).trans inside))
    rw [shorter.descend_eq tablesKept]
    exact unused parent ((List.prefix_append _ _).trans inside)
  have apart : table ≠ frame := fun equal => unused _ (List.prefix_refl _) (equal ▸ reached)
  obtain ⟨memory, stored, filled, kept⟩ :=
    memcpyTo_page user mappedReached mappedLeads avoids apart buf (Nat.le_refl 512)
  refine ⟨memory, ?_, ?_, ?_, ?_, ?_⟩
  · simp only [copyPage, taken, saved, mapping, stored, Option.bind_eq_bind, Option.bind_some, Option.pure_def]
  · intro i
    exact (filled i i.isLt).trans (same i i.isLt)
  · exact (kept table _ apart).trans written
  · intro held i notFrame notEntry
    exact (kept held i notFrame).trans (mappedKept held i notEntry)
  · exact (avoids.descend_eq kept).trans mappedReached

section Shared

variable {s : Machine} {root other table shared : BitVec 40} {fault : BitVec 64}
  (page : SharedPage s root other fault table shared)

include page

theorem SharedPage.walk_eq : walk s.memory (frameAddress root) fault =
    some (s.memory (slot table (tableIndex fault))) := by
  have present : ¬ s.memory (slot table (tableIndex fault)) &&& ptePresent = 0 := by
    intro absent
    have nowhere := page.leads
    rw [decode_eq_none.mpr absent] at nowhere
    cases nowhere
  rw [Paging.walk_eq, Radix.leaf, page.reached, Option.bind_some]
  exact if_neg present

theorem SharedPage.entry {frame : BitVec 40} (bound : frame.toNat < 2 ^ 32) :
    decode (setEntry (s.memory (slot table (tableIndex fault))) (frameAddress frame) true) = some frame :=
  decode_setEntry page.leads page.bound bound

theorem SharedPage.copyPage {frame : BitVec 40} {mmgr : Mmgr.State}
    (taken : Mmgr.mmgrAllocBlock s.mmgr = some (frameAddress frame, mmgr)) (bound : frame.toNat < 2 ^ 32)
    (unused : ∀ path, path <+: pagePath fault → pageRadix.descend s.memory root path ≠ some frame) :
    ∃ next, copyPage (frameAddress root) s fault = some next ∧ next.kernel = s.kernel ∧ next.mmgr = mmgr ∧
      (∀ i, next.memory (slot frame i) = s.memory (slot shared i)) ∧
      (next.memory (slot table (tableIndex fault)) =
        setEntry (s.memory (slot table (tableIndex fault))) (frameAddress frame) true) ∧
      (∀ held i, held ≠ frame → held ≠ table → next.memory (slot held i) = s.memory (slot held i)) ∧
      pageRadix.descend next.memory root (pagePath fault) = some table := by
  obtain ⟨memory, executed, filled, written, kept, reached⟩ :=
    copyPage_copies page.user page.self page.reached page.leads page.own (page.entry bound) taken unused
  refine ⟨{ s with memory, mmgr }, executed, rfl, rfl, filled, written, ?_, reached⟩
  exact fun held i notFrame notTable => kept held i notFrame fun equal => notTable equal.1

theorem SharedPage.resolved {phys : BitVec 64} {mmgr : Mmgr.State}
    (taken : Mmgr.mmgrAllocBlock s.mmgr = some (phys, mmgr)) (nonnull : phys ≠ 0) :
    ∃ next, Fault.copyPage (frameAddress root) s fault = some next ∧ Resolved s next root other fault shared := by
  obtain ⟨block, candidate, rfl⟩ : ∃ block, Mmgr.Candidate s.mmgr block ∧ phys = Mmgr.blockAddress block := by
    rcases Mmgr.allocBlock_cases taken with ⟨zero, _⟩ | ⟨block, _, candidate, _, _, address, _⟩
    · exact absurd zero nonnull
    · exact ⟨block, candidate, address⟩
  have small := candidate.bound
  obtain ⟨notShared, unused⟩ := page.used block candidate
  rw [blockAddress_eq small] at taken nonnull
  have bound : (BitVec.ofNat 40 block).toNat < 2 ^ 32 := by
    rw [BitVec.toNat_ofNat]
    omega
  obtain ⟨next, executed, kernel, manager, filled, entry, kept, reached⟩ :=
    page.copyPage taken bound fun path inside => (unused path inside).1
  refine ⟨next, executed, ⟨BitVec.ofNat 40 block, next.memory (slot table (tableIndex fault)), ?_, manager ▸ taken,
    ?_, ?_, ?_, filled⟩, ?_, ?_, ?_⟩
  · exact fun zero => nonnull (frameAddress_eq_zero.mpr zero)
  · rw [Paging.walk_eq, Radix.leaf, reached, Option.bind_some]
    change presentEntry (next.memory (slot table (tableIndex fault))) = _
    rw [entry, presentEntry, if_neg (setEntry_present _ _ _)]
  · have leads := page.entry bound
    rw [decode, if_neg (setEntry_present _ _ _)] at leads
    rw [entry, Option.some.inj leads]
  · rw [entry, writable_iff, getLsbD_setEntry _ _ _ (by decide)]
    simp
  · apply walk_congr
    intro path held inside found i
    refine kept held i ?_ ?_
    · exact fun same => (unused path inside).2 (same ▸ found)
    · exact fun same => page.others path inside (same ▸ found)
  · exact fun i => kept shared i notShared.symm page.data
  · rw [kernel]
    rfl

end Shared

/-- An area that starts at the address or closely behind it makes the handler extend the stack or end the
    process. -/
theorem SharedPage.unresolved {s next : Machine} {root other table shared : BitVec 40} {fault : BitVec 64}
    {vma area : VmaAddr} {nodes : List VmaAddr} (page : SharedPage s root other fault table shared)
    (process : s.current.kernelThread = 0) (areas : s.kernel.Areas s.kernel.currentThread nodes)
    (member : area ∈ nodes) (close : (s.kernel.vmas area).vmStart - fault ≤ 100)
    (executed : pageFaultHandler (frameAddress root) s fault vma = some next) :
    ¬ Resolved s next root other fault shared := by
  intro resolved
  have scanned : areaAbove s.kernel s.kernel.currentThread fault = _ := areas.chain.scan _
  obtain ⟨found, first⟩ : ∃ found, nodes.find?
      (fun crawl => (s.kernel.vmas crawl).vmStart - fault ≤ 100) = some found := by
    rw [← Option.isSome_iff_exists, List.find?_isSome]
    exact ⟨area, member, decide_eq_true close⟩
  rw [first] at scanned
  simp only [pageFaultHandler, if_pos process, scanned, Option.bind_eq_bind, Option.bind_some] at executed
  split at executed
  · have counted := extendStack_noStackPages executed
    have same := resolved.stackPages
    omega
  · obtain ⟨_, e, _, _, walked, _, writable, _⟩ := resolved.copied
    rw [kill_memory executed, page.walk_eq] at walked
    cases walked
    exact writable page.readOnly

theorem areaAbove_none {s : Machine} {fault : BitVec 64} {nodes : List VmaAddr}
    (areas : s.kernel.Areas s.kernel.currentThread nodes)
    (far : ∀ area ∈ nodes, 100 < (s.kernel.vmas area).vmStart - fault) :
    areaAbove s.kernel s.kernel.currentThread fault = some none := by
  have absent : nodes.find? (fun crawl => (s.kernel.vmas crawl).vmStart - fault ≤ 100) = none := by
    rw [List.find?_eq_none]
    intro area member close
    exact BitVec.not_le.mpr (far area member) (of_decide_eq_true close)
  rw [← absent]
  exact areas.chain.scan _

/-- A write to a shared page is resolved by a copy exactly where no area of the process starts at the
    address or within a hundred bytes behind it, and there is a frame to take. -/
theorem cow_fault_resolved_iff (s : Machine) (root other table shared : BitVec 40) (fault : BitVec 64) (vma : VmaAddr)
    (nodes : List VmaAddr) (process : s.current.kernelThread = 0)
    (areas : s.kernel.Areas s.kernel.currentThread nodes) (page : SharedPage s root other fault table shared) :
    (∃ next, pageFaultHandler (frameAddress root) s fault vma = some next ∧
        Resolved s next root other fault shared) ↔
      (∀ area ∈ nodes, 100 < (s.kernel.vmas area).vmStart - fault) ∧
        ∃ phys mmgr, Mmgr.mmgrAllocBlock s.mmgr = some (phys, mmgr) ∧ phys ≠ 0 := by
  constructor
  · intro handled
    obtain ⟨next, executed, resolved⟩ := handled
    obtain ⟨frame, _, nonnull, taken, _⟩ := resolved.copied
    refine ⟨?_, _, _, taken, fun zero => nonnull (frameAddress_eq_zero.mp zero)⟩
    intro area member
    apply BitVec.not_le.mp
    intro close
    exact page.unresolved process areas member close executed resolved
  · intro condition
    obtain ⟨far, phys, mmgr, taken, nonnull⟩ := condition
    obtain ⟨next, executed, resolved⟩ := page.resolved taken nonnull
    refine ⟨next, ?_, resolved⟩
    simp only [pageFaultHandler, if_pos process, areaAbove_none areas far, load_pte page.self page.reached,
      Option.bind_eq_bind, Option.bind_some]
    rw [if_pos page.cow, executed]

def sharedHeap : Memory := fun address =>
  if address = slot 1 510 then 0x1007
  else if address = slot 1 0 then 0x2007
  else if address = slot 2 0 then 0x3007
  else if address = slot 3 0 then 0x4007
  else if address = slot 6 0 then 0x7007
  else if address = slot 7 0 then 0x8007
  else if address = slot 8 0 then 0x9007
  else if address = slot 4 0x80 ∨ address = slot 9 0x80 then 0x4000000000005005
  else 0

def oneFreeWord : Mmgr.State := ⟨fun i => if i.val = 1 then 0 else 0xFFFFFFFFFFFFFFFF, 0, 128⟩

theorem oneFreeWord_candidate {block : Nat} (candidate : Mmgr.Candidate oneFreeWord block) : 64 ≤ block := by
  obtain ⟨_, _, h, clear⟩ := candidate
  by_contra early
  have word : block / 64 = 0 := by omega
  simp only [oneFreeWord, word] at clear
  exact Mmgr.full_word_mask block clear

theorem ofNat_ne {left right : Nat} (leftSmall : left < 2 ^ 40) (rightSmall : right < 2 ^ 40)
    (different : left ≠ right) : BitVec.ofNat 40 left ≠ BitVec.ofNat 40 right := by
  intro same
  have values := congrArg BitVec.toNat same
  rw [BitVec.toNat_ofNat, BitVec.toNat_ofNat] at values
  omega

theorem sharedHeap_walks {path : List (BitVec 9)} (inside : path <+: [0, 0, 0]) :
    pageRadix.descend sharedHeap 1 path = some (BitVec.ofNat 40 (path.length + 1)) ∧
      pageRadix.descend sharedHeap 6 path = some (BitVec.ofNat 40 (path.length + 6)) := by
  simp only [List.prefix_cons_iff, List.prefix_nil] at inside
  rcases inside with rfl | ⟨_, rfl, rfl | ⟨_, rfl, rfl | ⟨_, rfl, rfl⟩⟩⟩ <;> decide +kernel

theorem sharedHeap_page {s : Machine} (memory : s.memory = sharedHeap) (mmgr : s.mmgr = oneFreeWord)
    {fault : BitVec 64} (user : UserHalf fault) (path : pagePath fault = [0, 0, 0])
    (index : tableIndex fault = 0x80) : SharedPage s 1 6 fault 4 5 where
  user := user
  self := by
    rw [memory, SelfMapped]
    decide +kernel
  reached := by
    rw [memory, path]
    decide +kernel
  leads := by
    rw [memory, index]
    decide +kernel
  bound := by decide
  cow := by
    rw [memory, index]
    decide +kernel
  readOnly := by
    rw [memory, index]
    decide +kernel
  own := by
    intro parent i inside
    rw [path] at inside
    have short := inside.length_le
    rw [List.length_append, List.length_singleton] at short
    change parent.length + 1 ≤ 3 at short
    rw [memory, (sharedHeap_walks ((List.prefix_append _ _).trans inside)).1]
    exact fun same => ofNat_ne (by omega) (by decide) (show parent.length + 1 ≠ 4 by omega) (Option.some.inj same)
  others := by
    intro front inside
    rw [path] at inside
    have short := inside.length_le
    change front.length ≤ 3 at short
    rw [memory, (sharedHeap_walks inside).2]
    exact fun same => ofNat_ne (by omega) (by decide) (show front.length + 6 ≠ 4 by omega) (Option.some.inj same)
  data := by decide
  used := by
    intro block candidate
    have small := candidate.bound
    rw [mmgr] at candidate
    have late := oneFreeWord_candidate candidate
    refine ⟨ofNat_ne (by omega) (by decide) (show block ≠ 5 by omega), ?_⟩
    intro front inside
    rw [path] at inside
    have short := inside.length_le
    change front.length ≤ 3 at short
    obtain ⟨first, second⟩ := sharedHeap_walks inside
    rw [memory, first, second]
    refine ⟨fun same => ?_, fun same => ?_⟩
    · exact ofNat_ne (by omega) (by omega) (by omega) (Option.some.inj same)
    · exact ofNat_ne (by omega) (by omega) (by omega) (Option.some.inj same)

theorem process_forked : ∃ loaded forked, doExec bootKernel 1 [] 1 2 = some loaded ∧
    fork { loaded with currentThread := 1 } 2 0 = some forked ∧
    (forked.threads forked.currentThread).kernelThread = 0 ∧ forked.Areas forked.currentThread [1, 2] ∧
    (forked.vmas 1).vmStart = userStack ∧ (forked.vmas 2).vmStart = userHeap :=
  ⟨_, _, rfl, rfl, rfl, ⟨⟨rfl, rfl, rfl⟩, rfl⟩, rfl, rfl⟩

theorem oneFreeWord_taken : ∃ phys mmgr, Mmgr.mmgrAllocBlock oneFreeWord = some (phys, mmgr) ∧ phys ≠ 0 :=
  ⟨0x40000, _, rfl, by decide⟩

theorem heap_write_copied : ∃ loaded forked next, doExec bootKernel 1 [] 1 2 = some loaded ∧
    fork { loaded with currentThread := 1 } 2 0 = some forked ∧
    pageFaultHandler (frameAddress 1) ⟨forked, sharedHeap, oneFreeWord, []⟩ 0x80008 3 = some next ∧
    Resolved ⟨forked, sharedHeap, oneFreeWord, []⟩ next 1 6 0x80008 5 := by
  obtain ⟨loaded, forked, executed, copied, process, areas, stack, heap⟩ := process_forked
  have far : ∀ area ∈ [1, 2], 100 < (forked.vmas area).vmStart - 0x80008 := by
    intro area member
    rcases List.mem_cons.mp member with rfl | member
    · rw [stack]
      decide
    · rw [List.mem_singleton.mp member, heap]
      decide
  have resolved := (cow_fault_resolved_iff ⟨forked, sharedHeap, oneFreeWord, []⟩ 1 6 4 5 0x80008 3 [1, 2] process areas
    (sharedHeap_page rfl rfl (by decide) (by decide) (by decide))).mpr ⟨far, oneFreeWord_taken⟩
  obtain ⟨next, handled, resolved⟩ := resolved
  exact ⟨loaded, forked, next, executed, copied, handled, resolved⟩

/-- A write to the first byte of the heap extends the stack, and the page stays shared. -/
theorem heap_start_not_copied : ¬ ∀ (k loaded forked : Kernel) (thread child : Tid)
    (segments : List (VmaAddr × BitVec 64)) (stack heap vma : VmaAddr) (temp : JoinAddr) (s : Machine)
    (root other table shared : BitVec 40) (fault : BitVec 64), doExec k thread segments stack heap = some loaded →
      fork { loaded with currentThread := thread } child temp = some forked → s.kernel = forked →
      SharedPage s root other fault table shared →
      (∃ phys mmgr, Mmgr.mmgrAllocBlock s.mmgr = some (phys, mmgr) ∧ phys ≠ 0) →
      ∃ next, pageFaultHandler (frameAddress root) s fault vma = some next ∧
        Resolved s next root other fault shared := by
  intro resolves
  obtain ⟨loaded, forked, executed, copied, process, areas, stack, heap⟩ := process_forked
  have page : SharedPage ⟨forked, sharedHeap, oneFreeWord, []⟩ 1 6 0x80000 4 5 :=
    sharedHeap_page rfl rfl (by decide) (by decide) (by decide)
  obtain ⟨next, handled, resolved⟩ := resolves bootKernel loaded forked 1 2 [] 1 2 3 0
    ⟨forked, sharedHeap, oneFreeWord, []⟩ 1 6 4 5 0x80000 executed copied rfl page oneFreeWord_taken
  have close : (forked.vmas 2).vmStart - 0x80000 ≤ 100 := by
    rw [heap]
    decide
  exact page.unresolved process areas (List.mem_cons_of_mem _ List.mem_cons_self) close handled resolved

end Sbunix.Fault
