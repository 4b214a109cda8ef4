import Sbunix.Exec.Model
import Sbunix.Paging.Recycled

namespace Sbunix.Exec

open Library Paging Thread Fault

def Data (m : Memory) (root : BitVec 40) (frames : List (BitVec 40)) (frame : BitVec 40) : Prop :=
  frame ∉ frames ∧ ∀ path, TablePath path → pageRadix.descend m root path ≠ some frame

/-- The page tables of a process, with the zeroed frames for further tables. The pages of the process and the free
    blocks are apart from both. -/
structure Sound (s : Machine) (root : BitVec 40) (frames : List (BitVec 40)) : Prop where
  pages : s.pages = frames.map frameAddress
  tables : Tables s.memory root
  spare : Spare s.memory root frames
  zero : ∀ frame ∈ frames, ∀ j, s.memory (slot frame j) = 0
  linear : ∀ frame ∈ frames, frame.toNat < 2 ^ 19
  self : SelfMapped s.memory root
  clear : AbsentClear s.memory root
  mapped : ∀ virt e, pml4Index virt ≠ 510 → walk s.memory (frameAddress root) virt = some e →
    (frameOf e).toNat < 2 ^ 32 ∧ Data s.memory root frames (frameOf e)
  free : ∀ block, Mmgr.Candidate s.mmgr block → Data s.memory root frames (BitVec.ofNat 40 block)

theorem Sound.kernel {s : Machine} {root : BitVec 40} {frames : List (BitVec 40)} (sound : Sound s root frames)
    (kernel : Kernel) : Sound { s with kernel } root frames :=
  ⟨sound.pages, sound.tables, sound.spare, sound.zero, sound.linear, sound.self, sound.clear, sound.mapped, sound.free⟩

theorem taken_candidate {s : Mmgr.State} {block other : Nat} {h : block / 64 < 1200}
    (candidate : Mmgr.Candidate (Mmgr.taken s block h) other) : Mmgr.Candidate s other := by
  obtain ⟨low, inside, bound, clear⟩ := candidate
  refine ⟨low, inside, bound, ?_⟩
  simp only [Mmgr.taken, Mmgr.State.storeWord] at clear
  split at clear
  · rename_i same
    rw [same]
    apply BitVec.eq_of_getLsbD_eq
    intro i small
    have bit := congrArg (fun word => word.getLsbD i) clear
    simp only [BitVec.getLsbD_and, BitVec.getLsbD_or] at bit ⊢
    cases word : (s.memoryMap ⟨block / 64, h⟩).getLsbD i with
    | false => simp
    | true =>
      rw [word, Bool.true_or] at bit
      exact bit
  · exact clear

/-- What `mmgr_alloc_block` returns is the frame of a page, even where it is null. -/
theorem Sound.allocated {s : Machine} {root : BitVec 40} {frames : List (BitVec 40)} {newPte : BitVec 64}
    {mmgr : Mmgr.State} (sound : Sound s root frames) (taken : Mmgr.mmgrAllocBlock s.mmgr = some (newPte, mmgr)) :
    ∃ frame : BitVec 40, newPte = frameAddress frame ∧ frame.toNat < 2 ^ 32 ∧ Data s.memory root frames frame ∧
      ∀ block, Mmgr.Candidate mmgr block → Mmgr.Candidate s.mmgr block := by
  rcases Mmgr.allocBlock_cases taken with ⟨rfl, rfl, _⟩ | ⟨block, h, candidate, _, _, rfl, rfl⟩
  · refine ⟨0, rfl, by decide, ⟨?_, ?_⟩, fun _ candidate => candidate⟩
    · exact fun member => sound.spare.nonnull 0 member rfl
    · exact sound.tables.nonnull
  · have small := candidate.bound
    refine ⟨BitVec.ofNat 40 block, blockAddress_eq small, ?_, sound.free block candidate, fun _ => taken_candidate⟩
    rw [BitVec.toNat_ofNat]
    omega

section Mapping

variable {s : Machine} {root table frame : BitVec 40} {frames rest : List (BitVec 40)} {m : Memory} {addr : BitVec 64}
  (sound : Sound s root frames) (outside : pml4Index addr ≠ 510)
  (opened : PageOpened s.memory m root frames rest addr table)

include opened outside

theorem Data.kept {other : BitVec 40} (data : Data s.memory root frames other) (phys : BitVec 64) :
    Data (withPage m table phys addr true) root rest other := by
  refine ⟨fun member => data.1 (opened.subset other member), ?_⟩
  intro path valid reached
  rw [opened.descend outside phys true valid] at reached
  rcases opened.added path other valid reached with reached | member
  · exact data.2 path valid reached
  · exact data.1 member

include sound

theorem Sound.entry {virt : BitVec 64} (path : pagePath virt = pagePath addr) :
    presentEntry (m (slot table (tableIndex virt))) = walk s.memory (frameAddress root) virt := by
  rw [walk_eq, path, Radix.leaf]
  rcases opened.taken with ⟨existed, rfl, _⟩ | ⟨missing, created, contents⟩
  · rw [existed]
    rfl
  · have member : table ∈ frames := by
      have reached := opened.added (pagePath addr) table (pagePath_valid outside) opened.reached
      rw [missing] at reached
      exact reached.resolve_left fun none => by cases none
    -- the frame of a new page table is zeroed, so the short clearing of it does no harm here
    rw [missing, contents, sound.zero table member, ite_self]
    rfl

theorem Sound.high : HighClear (m (slot table (tableIndex addr))) := by
  by_cases absent : m (slot table (tableIndex addr)) &&& ptePresent = 0
  · exact opened.clear sound.zero sound.clear _ _ table (pagePath_valid outside) opened.reached absent
  · have found := sound.entry outside opened rfl
    rw [presentEntry, if_neg absent] at found
    exact highClear_of_frameOf (sound.mapped addr _ outside found.symm).1

theorem Sound.walk_others {other : BitVec 64} (elsewhere : pml4Index other ≠ 510)
    (different : pageNumber other ≠ pageNumber addr) (phys : BitVec 64) :
    walk (withPage m table phys addr true) (frameAddress root) other = walk s.memory (frameAddress root) other := by
  by_cases path : pagePath other = pagePath addr
  · have index : tableIndex other ≠ tableIndex addr := fun same => different (pageNumber_of_indices path same)
    rw [opened.walk_beside outside phys true path index, sound.entry outside opened path]
  · exact opened.walk_other outside phys true elsewhere path

theorem Sound.withPage {mmgr : Mmgr.State} {kernel : Kernel} (bound : frame.toNat < 2 ^ 32)
    (data : Data s.memory root frames frame)
    (fewer : ∀ block, Mmgr.Candidate mmgr block → Mmgr.Candidate s.mmgr block) :
    Sound ⟨kernel, withPage m table (frameAddress frame) addr true, mmgr, rest.map frameAddress⟩ root rest := by
  have valid := pagePath_valid outside
  have descend {path : List (BitVec 9)} (pathValid : TablePath path) :=
    opened.descend outside (frameAddress frame) true pathValid
  have root_table : root ≠ table := by
    intro same
    have reached := opened.reached
    rw [← same] at reached
    cases opened.tables.tree (pagePath addr) [] root valid ⟨by decide, by simp⟩ reached rfl
  constructor
  · rfl
  · exact opened.tables.congr fun path pathValid => descend pathValid
  · exact opened.spare.congr fun path pathValid => descend pathValid
  · intro other member j
    change Paging.withPage m table (frameAddress frame) addr true (slot other j) = 0
    rw [withPage_kept, opened.untouched other member, sound.zero other (opened.subset other member)]
    exact fun same => opened.spare.unused other member _ valid (same.1 ▸ opened.reached)
  · exact fun other member => sound.linear other (opened.subset other member)
  · change SelfMapped (Paging.withPage m table (frameAddress frame) addr true) root
    rw [SelfMapped, withPage_kept _ _ _ _ fun same => root_table same.1, opened.recursive]
    exact sound.self
  · intro path j found pathValid reached absent
    rw [descend pathValid] at reached
    by_cases here : found = table ∧ j = tableIndex addr
    · rw [here.1, here.2] at absent
      change Paging.withPage m table (frameAddress frame) addr true (slot table (tableIndex addr)) &&& _ = 0 at absent
      rw [Paging.withPage, Function.update_self] at absent
      exact absurd absent (setEntry_present _ _ _)
    · change Paging.withPage m table (frameAddress frame) addr true (slot found j) &&& _ = 0 at absent
      change HighClear (Paging.withPage m table (frameAddress frame) addr true (slot found j))
      rw [withPage_kept _ _ _ _ here] at absent ⊢
      exact opened.clear sound.zero sound.clear path j found pathValid reached absent
  · intro virt e virtOutside walked
    by_cases here : pageNumber virt = pageNumber addr
    · obtain ⟨path, index⟩ := indices_of_pageNumber here
      have entry := opened.walk_page outside (frameAddress frame) true
      rw [walk_eq, path, index, ← walk_eq, entry] at walked
      cases walked
      rw [frameOf_setEntry (sound.high outside opened) bound]
      exact ⟨bound, data.kept outside opened _⟩
    · rw [sound.walk_others outside opened virtOutside here] at walked
      obtain ⟨small, data⟩ := sound.mapped virt e virtOutside walked
      exact ⟨small, data.kept outside opened _⟩
  · exact fun block candidate => (sound.free block (fewer block candidate)).kept outside opened _

end Mapping

structure Mapped (s next : Machine) (root : BitVec 40) (frames rest : List (BitVec 40)) (addr : BitVec 64) : Prop where
  sound : Sound next root rest
  length : frames.length ≤ rest.length + 3
  entry : ∃ e, walk next.memory (frameAddress root) addr = some e ∧ e &&& pteWritable ≠ 0
  others : ∀ other, pml4Index other ≠ 510 → pageNumber other ≠ pageNumber addr →
    walk next.memory (frameAddress root) other = walk s.memory (frameAddress root) other

section MmapPage

variable {s : Machine} {root : BitVec 40} {frames : List (BitVec 40)} {addr : BitVec 64} {vma : VmaAddr} {thread : Tid}
  (sound : Sound s root frames) (enough : 3 ≤ frames.length) (outside : pml4Index addr ≠ 510)

include sound enough outside

theorem mmapPage_spec {newPte : BitVec 64} {mmgr : Mmgr.State} {kernel : Kernel}
    (taken : Mmgr.mmgrAllocBlock s.mmgr = some (newPte, mmgr))
    (linked : mmapArea s.kernel vma addr thread = some kernel) :
    ∃ next rest, mmapPage (frameAddress root) s vma addr thread = some next ∧ next.kernel = kernel ∧
      next.mmgr = mmgr ∧ Mapped s next root frames rest addr := by
  obtain ⟨frame, rfl, bound, data, fewer⟩ := sound.allocated taken
  obtain ⟨m, rest, table, executed, opened⟩ :=
    ensurePageEntry_opened true sound.tables sound.spare enough outside (sound.clear.upper outside)
  have mapping := afterPaging_of_walk (sound.spare.ready outside sound.self sound.linear) executed (frameAddress frame)
  refine ⟨⟨kernel, withPage m table (frameAddress frame) addr true, mmgr, rest.map frameAddress⟩, rest, ?_, rfl, rfl,
    ?_⟩
  · rw [mmapPage, taken, sound.pages, linked]
    simp only [mapping, Option.bind_eq_bind, Option.bind_some]
    rfl
  · refine ⟨sound.withPage outside opened bound data fewer, opened.length, ⟨_, opened.walk_page outside _ true, ?_⟩, ?_⟩
    · rw [writable_iff, getLsbD_setEntry _ _ _ (by decide)]
      simp
    · exact fun other elsewhere different => sound.walk_others outside opened elsewhere different _

theorem mmapPage_mapped {next : Machine} (executed : mmapPage (frameAddress root) s vma addr thread = some next) :
    mmapArea s.kernel vma addr thread = some next.kernel ∧ ∃ rest, Mapped s next root frames rest addr := by
  have parts := executed
  simp only [mmapPage, Option.bind_eq_bind, Option.bind_eq_some_iff, Prod.exists] at parts
  obtain ⟨newPte, mmgr, taken, _, _, _, kernel, linked, _⟩ := parts
  obtain ⟨result, rest, again, area, _, mapped⟩ := mmapPage_spec sound enough outside taken linked
  cases again.symm.trans executed
  exact ⟨area ▸ linked, rest, mapped⟩

end MmapPage

theorem Sound.store {s : Machine} {root frame : BitVec 40} {frames : List (BitVec 40)} (sound : Sound s root frames)
    (data : Data s.memory root frames frame) (i : BitVec 9) (word : BitVec 64) :
    Sound { s with memory := Function.update s.memory (slot frame i) word } root frames ∧
      ∀ virt, pml4Index virt ≠ 510 → walk (Function.update s.memory (slot frame i) word) (frameAddress root) virt =
        walk s.memory (frameAddress root) virt := by
  have kept {other : BitVec 40} (different : other ≠ frame) (j : BitVec 9) :
      Function.update s.memory (slot frame i) word (slot other j) = s.memory (slot other j) :=
    Function.update_of_ne (fun same => different (slot_injective same).1) _ _
  have table_kept {path : List (BitVec 9)} {table : BitVec 40} (valid : TablePath path)
      (reached : pageRadix.descend s.memory root path = some table) (j : BitVec 9) :=
    kept (fun same => data.2 path valid (same ▸ reached)) j
  have descend {path : List (BitVec 9)} (valid : TablePath path) :
      pageRadix.descend (Function.update s.memory (slot frame i) word) root path =
        pageRadix.descend s.memory root path := by
    apply Radix.descend_congr
    intro parent j table inside reached
    exact congrArg decode (table_kept (valid.shorter ((List.prefix_append _ _).trans inside)) reached j)
  have walks (virt : BitVec 64) (outside : pml4Index virt ≠ 510) :
      walk (Function.update s.memory (slot frame i) word) (frameAddress root) virt =
        walk s.memory (frameAddress root) virt := by
    apply walk_congr
    intro path table inside reached j
    exact table_kept ((pagePath_valid outside).shorter inside) reached j
  have data_kept {other : BitVec 40} (known : Data s.memory root frames other) :
      Data (Function.update s.memory (slot frame i) word) root frames other := by
    refine ⟨known.1, ?_⟩
    intro path valid
    rw [descend valid]
    exact known.2 path valid
  have empty : TablePath [] := ⟨by decide, by simp⟩
  have tables := sound.tables.congr fun path valid => descend valid
  have spare := sound.spare.congr fun path valid => descend valid
  refine ⟨⟨sound.pages, tables, spare, ?_, sound.linear, ?_, ?_, ?_,
    fun block candidate => data_kept (sound.free block candidate)⟩, walks⟩
  · intro other member j
    exact (kept (fun same => data.1 (same ▸ member)) j).trans (sound.zero other member j)
  · change SelfMapped (Function.update s.memory (slot frame i) word) root
    rw [SelfMapped, table_kept empty rfl]
    exact sound.self
  · intro path j table valid reached absent
    rw [descend valid] at reached
    have same := table_kept valid reached j
    change Function.update s.memory (slot frame i) word (slot table j) &&& ptePresent = 0 at absent
    change HighClear (Function.update s.memory (slot frame i) word (slot table j))
    rw [same] at absent ⊢
    exact sound.clear path j table valid reached absent
  · intro virt e outside walked
    rw [walks virt outside] at walked
    obtain ⟨small, known⟩ := sound.mapped virt e outside walked
    exact ⟨small, data_kept known⟩

theorem word_slot (e virt : BitVec 64) :
    pagePhysicalAddress e + (virt &&& 0xFFF) - (pagePhysicalAddress e + (virt &&& 0xFFF) &&& 7) =
      slot (frameOf e) ((virt &&& 0xFFF).extractLsb' 3 9) := by
  have low : (virt &&& 0xFFF).toNat = virt.toNat % 4096 := by
    rw [BitVec.toNat_and]
    exact Nat.and_two_pow_sub_one_eq_mod _ 12
  have seven (x : BitVec 64) : (x &&& 7).toNat = x.toNat % 8 := by
    rw [BitVec.toNat_and]
    exact Nat.and_two_pow_sub_one_eq_mod _ 3
  have frame := (frameOf e).isLt
  apply BitVec.eq_of_toNat_eq
  rw [BitVec.toNat_sub, seven, BitVec.toNat_add, pagePhysicalAddress_eq, frameAddress_toNat, slot_toNat,
    BitVec.extractLsb'_toNat, low, Nat.shiftRight_eq_div_pow]
  omega

theorem storeByte_slot {m next : Memory} {base virt : BitVec 64} {byte : BitVec 8}
    (executed : storeByte m base virt byte = some next) :
    ∃ e i word, walk m base virt = some e ∧ next = Function.update m (slot (frameOf e) i) word := by
  simp only [storeByte, Paging.translate, Option.bind_eq_bind, Option.bind_eq_some_iff, Option.pure_def] at executed
  obtain ⟨address, translated, equal⟩ := executed
  split at translated
  · rw [Option.map_eq_some_iff] at translated
    obtain ⟨e, walked, rfl⟩ := translated
    cases equal
    rw [word_slot]
    exact ⟨e, _, _, walked, rfl⟩
  · cases translated

theorem memcpyBytes_sound {s : Machine} {root : BitVec 40} {frames : List (BitVec 40)} (sound : Sound s root frames)
    {dest : BitVec 64} {source : Nat → BitVec 8} {n : Nat}
    (outside : ∀ k, k < n → pml4Index (dest + BitVec.ofNat 64 k) ≠ 510) {memory : Memory}
    (executed : memcpyBytes s.memory (frameAddress root) dest source n = some memory) :
    Sound { s with memory } root frames ∧ ∀ virt, pml4Index virt ≠ 510 →
      walk memory (frameAddress root) virt = walk s.memory (frameAddress root) virt := by
  induction n generalizing memory with
  | zero =>
    cases executed
    exact ⟨sound, fun _ _ => rfl⟩
  | succ n ih =>
    simp only [memcpyBytes, Option.bind_eq_bind, Option.bind_eq_some_iff] at executed
    obtain ⟨middle, copied, stored⟩ := executed
    obtain ⟨middle_sound, same⟩ := ih (fun k inside => outside k (by omega)) copied
    obtain ⟨e, i, word, walked, rfl⟩ := storeByte_slot stored
    obtain ⟨_, data⟩ := middle_sound.mapped _ e (outside n (Nat.lt_succ_self n)) walked
    obtain ⟨next_sound, walks⟩ := middle_sound.store data i word
    exact ⟨next_sound, fun virt virtOutside => (walks virt virtOutside).trans (same virt virtOutside)⟩

def Event.Outside : Event → Prop
  | .mmap _ addr => pml4Index addr ≠ 510
  | .memcpy dest _ n => ∀ k, k < n.toNat → pml4Index (dest + BitVec.ofNat 64 k) ≠ 510

def Event.area : Event → Option (VmaAddr × BitVec 64)
  | .mmap vma addr => some (vma, addr)
  | .memcpy .. => none

def areas (events : List Event) : List (VmaAddr × BitVec 64) := events.filterMap Event.area

structure Executed (s next : Machine) (root : BitVec 40) (frames rest : List (BitVec 40))
    (addrs : List (BitVec 64)) : Prop where
  sound : Sound next root rest
  length : frames.length ≤ rest.length + 3 * addrs.length
  walks : ∀ virt, pml4Index virt ≠ 510 → (walk next.memory (frameAddress root) virt ≠ none ↔
    walk s.memory (frameAddress root) virt ≠ none ∨ ∃ addr ∈ addrs, pageNumber virt = pageNumber addr)

theorem walk_of_pageNumber {m : Memory} {root : BitVec 40} {left right : BitVec 64}
    (same : pageNumber left = pageNumber right) :
    walk m (frameAddress root) left = walk m (frameAddress root) right := by
  obtain ⟨path, index⟩ := indices_of_pageNumber same
  rw [walk_eq, walk_eq, path, index]

theorem run_executed {s next : Machine} {root : BitVec 40} {frames : List (BitVec 40)} {archive : Tarfs.Memory}
    {thread : Tid} {events : List Event} (sound : Sound s root frames)
    (enough : 3 * (areas events).length ≤ frames.length) (outside : ∀ event ∈ events, event.Outside)
    (executed : run (perform (frameAddress root) archive thread) s events = some next) :
    ∃ rest, Executed s next root frames rest ((areas events).map Prod.snd) := by
  -- every `mmap` maps one page and takes three frames at most; `memcpy` writes to pages, which hold no tables
  induction events generalizing s frames with
  | nil =>
    cases executed
    exact ⟨frames, sound, Nat.le_add_right _ _, fun _ _ => by simp [areas]⟩
  | cons event events ih =>
    obtain ⟨middle, stepped, ran⟩ := run_cons.mp executed
    have here := outside event List.mem_cons_self
    have later := fun other member => outside other (List.mem_cons_of_mem _ member)
    cases event with
    | mmap vma addr =>
      have count : (areas (.mmap vma addr :: events)).length = (areas events).length + 1 := rfl
      obtain ⟨_, left, mapped⟩ := mmapPage_mapped sound (by omega) here stepped
      have length := mapped.length
      obtain ⟨rest, done⟩ := ih mapped.sound (by omega) later ran
      have total := done.length
      refine ⟨rest, done.sound, ?_, ?_⟩
      · simp only [List.length_map] at total ⊢
        omega
      · intro virt virtOutside
        change _ ↔ _ ∨ ∃ other ∈ addr :: (areas events).map Prod.snd, _
        rw [done.walks virt virtOutside, List.exists_mem_cons_iff]
        by_cases page : pageNumber virt = pageNumber addr
        · obtain ⟨e, found, _⟩ := mapped.entry
          rw [walk_of_pageNumber page, found]
          simp [page]
        · rw [mapped.others virt virtOutside page]
          simp [page]
    | memcpy dest src n =>
      simp only [perform, Option.bind_eq_bind, Option.bind_eq_some_iff, Option.pure_def] at stepped
      obtain ⟨memory, copied, equal⟩ := stepped
      cases equal
      obtain ⟨middle_sound, same⟩ := memcpyBytes_sound sound here copied
      obtain ⟨rest, done⟩ := ih middle_sound enough later ran
      refine ⟨rest, done.sound, done.length, ?_⟩
      intro virt virtOutside
      have walks := done.walks virt virtOutside
      rw [same virt virtOutside] at walks
      exact walks

theorem run_areas {base : BitVec 64} {archive : Tarfs.Memory} {thread : Tid} {s next : Machine} {events : List Event}
    (executed : run (perform base archive thread) s events = some next) :
    mmapAreas s.kernel (areas events) thread = some next.kernel := by
  induction events generalizing s with
  | nil =>
    cases executed
    rfl
  | cons event events ih =>
    obtain ⟨middle, stepped, ran⟩ := run_cons.mp executed
    cases event with
    | mmap vma addr =>
      simp only [perform, mmapPage, Option.bind_eq_bind, Option.bind_eq_some_iff, Option.pure_def,
        Prod.exists] at stepped
      obtain ⟨_, _, _, _, _, _, kernel, linked, equal⟩ := stepped
      cases equal
      have rest := ih ran
      change mmapAreas s.kernel ((vma, addr) :: areas events) thread = _
      rw [mmapAreas, List.foldlM_cons, linked]
      exact rest
    | memcpy dest src n =>
      simp only [perform, Option.bind_eq_bind, Option.bind_eq_some_iff, Option.pure_def] at stepped
      obtain ⟨memory, _, equal⟩ := stepped
      cases equal
      have rest := ih ran
      exact rest

theorem areas_execEvents (segments : List (VmaAddr × ExecSegment)) (stack heap : VmaAddr) :
    areas (execEvents segments stack heap) =
      segments.map (fun segment => (segment.1, segment.2.segPageStart)) ++ [(stack, userStack), (heap, userHeap)] := by
  induction segments with
  | nil => rfl
  | cons head segments ih =>
    rw [List.map_cons, List.cons_append, ← ih]
    rfl

def SegmentOutside (segment : ExecSegment) : Prop :=
  pml4Index segment.segPageStart ≠ 510 ∧
    ∀ k, k < segment.segLength.toNat → pml4Index (segment.segActualStart + BitVec.ofNat 64 k) ≠ 510

theorem execEvents_outside {segments : List (VmaAddr × ExecSegment)}
    (user : ∀ segment ∈ segments, SegmentOutside segment.2)
    {stack heap : VmaAddr} {event : Event} (member : event ∈ execEvents segments stack heap) : event.Outside := by
  rcases List.mem_append.mp member with member | member
  · obtain ⟨segment, known, member⟩ := List.mem_flatMap.mp member
    simp only [List.mem_cons, List.not_mem_nil, or_false] at member
    rcases member with rfl | rfl
    · exact (user segment known).1
    · exact (user segment known).2
  · simp only [List.mem_cons, List.not_mem_nil, or_false] at member
    rcases member with rfl | rfl
    · change pml4Index userStack ≠ 510
      decide
    · change pml4Index userHeap ≠ 510
      decide

section DoExec

variable {s next : Machine} {root : BitVec 40} {archive : Tarfs.Memory} {page : Tid}
  {segments : List (VmaAddr × ExecSegment)} {stack heap : VmaAddr}

/-- `do_exec` maps the pages of the segments, of the stack and of the heap. -/
theorem doExec_executed {frames : List (BitVec 40)} (sound : Sound s root frames)
    (enough : 3 * (segments.length + 2) ≤ frames.length) (user : ∀ segment ∈ segments, SegmentOutside segment.2)
    (executed : doExec (frameAddress root) archive s page segments stack heap = some next) :
    ∃ rest, Executed s next root frames rest
      (segments.map (fun segment => segment.2.segPageStart) ++ [userStack, userHeap]) := by
  simp only [doExec, Option.bind_eq_bind, Option.bind_eq_some_iff, Option.pure_def] at executed
  obtain ⟨loaded, ran, kernel, _, equal⟩ := executed
  cases equal
  have count : (areas (execEvents segments stack heap)).length = segments.length + 2 := by
    rw [areas_execEvents, List.length_append, List.length_map]
    rfl
  obtain ⟨rest, done⟩ := run_executed (sound.kernel _) (by rw [count]; exact enough)
    (fun event member => execEvents_outside user member) ran
  have addrs : (areas (execEvents segments stack heap)).map Prod.snd =
      segments.map (fun segment => segment.2.segPageStart) ++ [userStack, userHeap] := by
    rw [areas_execEvents, List.map_append, List.map_map]
    rfl
  rw [addrs] at done
  exact ⟨rest, done.sound.kernel _, done.length, done.walks⟩

/-- On the thread structures this is the `do_exec` of the thread model. -/
theorem doExec_kernel {base : BitVec 64} (executed : doExec base archive s page segments stack heap = some next) :
    Thread.doExec s.kernel page (segments.map fun segment => (segment.1, segment.2.segPageStart)) stack heap =
      some next.kernel := by
  simp only [doExec, Option.bind_eq_bind, Option.bind_eq_some_iff, Option.pure_def] at executed
  obtain ⟨loaded, ran, kernel, entered, equal⟩ := executed
  cases equal
  have linked := run_areas ran
  rw [areas_execEvents] at linked
  simp only [Thread.doExec, linked, entered, Option.bind_eq_bind, Option.bind_some, Option.pure_def]

end DoExec

end Sbunix.Exec
