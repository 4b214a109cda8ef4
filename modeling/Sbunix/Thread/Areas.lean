import Sbunix.Library.Chain
import Sbunix.Library.Run
import Sbunix.Thread.Lifecycle

namespace Sbunix.Thread

open Library

abbrev Vmas := VmaAddr → VmArea

abbrev Vmas.clear (vmas : Vmas) (area : VmaAddr) : Vmas := Function.update vmas area ⟨0, 0, none⟩

def Vmas.clearVmasFrom (vmas : Vmas) (crawl : Option VmaAddr) : Option Vmas :=
  match crawl with
  | none => some vmas
  | some area => vmas.clear area |>.clearVmasFrom (vmas area).vmNext
partial_fixpoint

export Vmas (clearVmasFrom)

def clearVmas (k : Kernel) (thread : Tid) : Option Kernel := do
  let vmas ← clearVmasFrom k.vmas (k.threads thread).mmap
  return Kernel.updateThread { k with vmas } thread fun page => { page with mmap := none, mmapCache := none }

/-- The segments of an executable, and the areas that `sub_malloc` returns for them and for the stack and the
    heap. -/
structure Image where
  segments : List (VmaAddr × BitVec 64)
  stack : VmaAddr
  heap : VmaAddr

/-- `do_exec1`. There is no image where `readelf` fails. -/
def doExec1 (k : Kernel) (image : Option Image) : Option Kernel :=
  let thread := k.currentThread
  let k := alllistKthread (initThreadUser k thread) thread
  match image with
  | none => some k
  | some image => do
    let k ← mmapAreas k (image.segments ++ [(image.stack, userStack), (image.heap, userHeap)]) thread
    return runnableKthread k thread

/-- `main_execve` on the thread structures. The page tables are left to the paging model. -/
def mainExecve (k : Kernel) (image : Option Image) : Option Kernel := do
  doExec1 (← clearVmas k k.currentThread) image

/-- The first area of a thread at whose start or closely below it an address lies. -/
def areaAbove (k : Kernel) (thread : Tid) (address : BitVec 64) : Option (Option VmaAddr) :=
  scan (fun crawl => (k.vmas crawl).vmNext) (fun crawl => (k.vmas crawl).vmStart - address ≤ 100)
    (k.threads thread).mmap

def growStack (k : Kernel) (vma : VmaAddr) : Option Kernel := do
  let cache ← (k.threads k.currentThread).mmapCache
  let addr := (k.vmas cache).vmStart - 0x1000
  let k := k.updateThread k.currentThread fun page => { page with noStackPages := page.noStackPages + 1 }
  mmapArea k vma addr k.currentThread

inductive AreaCall where
  | execve (image : Option Image)
  | stackFault (address : BitVec 64) (vma : VmaAddr)

/-- A fault has no result here where it does not extend the stack. -/
def perform (thread : Tid) (k : Kernel) : AreaCall → Option Kernel
  | .execve image => mainExecve { k with currentThread := thread } image
  | .stackFault address vma => do
    let k := { k with currentThread := thread }
    match ← areaAbove k thread address with
    | none => none
    | some _ =>
      if (k.threads thread).kernelThread = 0 ∧ (k.threads thread).noStackPages ≤ 4 then growStack k vma else none

/-- The list of areas of a thread, with its last one in `mmap_cache`. -/
structure Kernel.Areas (k : Kernel) (thread : Tid) (nodes : List VmaAddr) : Prop where
  chain : Chain (fun area => (k.vmas area).vmNext) (k.threads thread).mmap nodes
  cache : (k.threads thread).mmapCache = nodes.getLast?

structure SameAreas (k next : Kernel) (thread : Tid) (nodes : List VmaAddr) : Prop where
  areas : next.Areas thread nodes
  bounds : ∀ area ∈ nodes, (next.vmas area).vmStart = (k.vmas area).vmStart ∧
    (next.vmas area).vmEnd = (k.vmas area).vmEnd

def Kthread.areas (thread : Kthread) : Option VmaAddr × Option VmaAddr := (thread.mmap, thread.mmapCache)

def AreasKept (thread : Tid) (k next : Kernel) : Prop :=
  ∀ other, other ≠ thread → (next.threads other).areas = (k.threads other).areas

theorem AreasKept.trans {thread : Tid} {k middle next : Kernel} (first : AreasKept thread k middle)
    (second : AreasKept thread middle next) : AreasKept thread k next :=
  fun other different => (second other different).trans (first other different)

theorem updateThread_areasKept (k : Kernel) (thread : Tid) (change : Kthread → Kthread) :
    AreasKept thread k (k.updateThread thread change) := by
  intro other different
  rw [updateThread_other change different]

theorem alllistKthread_areas (k : Kernel) (thread other : Tid) :
    ((alllistKthread k thread).threads other).areas = (k.threads other).areas :=
  Links.view_append Kthread.areas (fun _ _ => rfl) (fun _ _ => rfl) thread other

theorem runnableKthread_areas (k : Kernel) (thread other : Tid) :
    ((runnableKthread k thread).threads other).areas = (k.threads other).areas :=
  Links.view_append Kthread.areas (fun _ _ => rfl) (fun _ _ => rfl) thread other

theorem initThreadUser_current (k : Kernel) :
    initThreadUser k k.currentThread = k.updateThread k.currentThread fun page =>
      { page with kernelThread := 0, noStackPages := 1, alive := true, sleeping := 0 } :=
  if_neg fun different => different rfl

theorem initThreadUser_areas (k : Kernel) (other : Tid) :
    ((initThreadUser k k.currentThread).threads other).areas = (k.threads other).areas := by
  rw [initThreadUser_current]
  apply updateThread_view Kthread.areas
  intro page
  rfl

theorem insertVma_areasKept {k next : Kernel} {vma : VmaAddr} {thread : Tid}
    (executed : insertVma k vma thread = some next) : AreasKept thread k next := by
  simp only [insertVma, Option.bind_eq_bind, Option.bind_eq_some_iff, Option.pure_def] at executed
  obtain ⟨middle, linked, equal⟩ := executed
  cases equal
  have first : AreasKept thread k middle := by
    unfold linkVma at linked
    split at linked
    · cases linked
      exact updateThread_areasKept _ thread _
    · simp only [Option.bind_eq_bind, Option.bind_eq_some_iff, Option.pure_def] at linked
      obtain ⟨cache, _, equal⟩ := linked
      cases equal
      exact fun _ _ => rfl
  exact first.trans (updateThread_areasKept middle thread _)

theorem mmapArea_areasKept {k next : Kernel} {vma : VmaAddr} {addr : BitVec 64} {thread : Tid}
    (executed : mmapArea k vma addr thread = some next) : AreasKept thread k next :=
  insertVma_areasKept (k := { k with vmas := Function.update k.vmas vma ⟨addr, addr + 0x1000, none⟩ }) executed

theorem mmapAreas_areasKept {k next : Kernel} {areas : List (VmaAddr × BitVec 64)} {thread : Tid}
    (executed : mmapAreas k areas thread = some next) : AreasKept thread k next := by
  induction areas generalizing k with
  | nil =>
    cases executed
    exact fun _ _ => rfl
  | cons area areas ih =>
    simp only [mmapAreas, List.foldlM_cons, Option.bind_eq_bind, Option.bind_eq_some_iff] at executed
    obtain ⟨middle, first, rest⟩ := executed
    exact (mmapArea_areasKept first).trans (ih rest)

theorem growStack_areasKept {k next : Kernel} {vma : VmaAddr} (executed : growStack k vma = some next) :
    AreasKept k.currentThread k next := by
  simp only [growStack, Option.bind_eq_bind, Option.bind_eq_some_iff] at executed
  obtain ⟨cache, _, executed⟩ := executed
  exact AreasKept.trans (updateThread_areasKept k k.currentThread _) (mmapArea_areasKept executed)

theorem clearVmas_areasKept {k next : Kernel} {thread : Tid} (executed : clearVmas k thread = some next) :
    AreasKept thread k next := by
  simp only [clearVmas, Option.bind_eq_bind, Option.bind_eq_some_iff, Option.pure_def] at executed
  obtain ⟨vmas, _, equal⟩ := executed
  cases equal
  exact updateThread_areasKept { k with vmas } thread _

theorem doExec1_areasKept {k next : Kernel} {image : Option Image} (executed : doExec1 k image = some next) :
    AreasKept k.currentThread k next := by
  have prepared : AreasKept k.currentThread k
      (alllistKthread (initThreadUser k k.currentThread) k.currentThread) := fun other _ =>
    (alllistKthread_areas _ k.currentThread other).trans (initThreadUser_areas k other)
  cases image with
  | none =>
    cases executed
    exact prepared
  | some image =>
    simp only [doExec1, Option.bind_eq_bind, Option.bind_eq_some_iff, Option.pure_def] at executed
    obtain ⟨mapped, mapping, equal⟩ := executed
    cases equal
    have queued : AreasKept k.currentThread mapped (runnableKthread mapped k.currentThread) :=
      fun other _ => runnableKthread_areas mapped k.currentThread other
    exact (prepared.trans (mmapAreas_areasKept mapping)).trans queued

theorem clearVmas_currentThread {k next : Kernel} {thread : Tid} (executed : clearVmas k thread = some next) :
    next.currentThread = k.currentThread := by
  simp only [clearVmas, Option.bind_eq_bind, Option.bind_eq_some_iff, Option.pure_def] at executed
  obtain ⟨vmas, _, equal⟩ := executed
  cases equal
  rfl

/-- What a process does to its own areas does not change where the others keep theirs. -/
theorem perform_areasKept {k next : Kernel} {thread : Tid} {call : AreaCall}
    (executed : perform thread k call = some next) : AreasKept thread k next := by
  cases call with
  | execve image =>
    simp only [perform, mainExecve, Option.bind_eq_bind, Option.bind_eq_some_iff] at executed
    obtain ⟨cleared, clearing, executed⟩ := executed
    have first : AreasKept thread k cleared :=
      clearVmas_areasKept (k := { k with currentThread := thread }) clearing
    have second := doExec1_areasKept executed
    rw [clearVmas_currentThread clearing] at second
    exact first.trans second
  | stackFault address vma =>
    simp only [perform, Option.bind_eq_bind, Option.bind_eq_some_iff] at executed
    obtain ⟨found, _, executed⟩ := executed
    split at executed
    · cases executed
    · split at executed
      · exact growStack_areasKept executed
      · cases executed

theorem run_areasKept {k final : Kernel} {thread : Tid} {calls : List AreaCall}
    (executed : run (perform thread) k calls = some final) : AreasKept thread k final :=
  run_preserves (AreasKept thread k) (fun _ _ _ kept stepped => kept.trans (perform_areasKept stepped))
    (fun _ _ => rfl) executed

theorem SameAreas.of_none {k final : Kernel} {thread other : Tid} (areas : k.Areas other [])
    (different : other ≠ thread) (kept : AreasKept thread k final) : SameAreas k final other [] := by
  have same := kept other different
  have first : (final.threads other).mmap = (k.threads other).mmap := congrArg Prod.fst same
  have last : (final.threads other).mmapCache = (k.threads other).mmapCache := congrArg Prod.snd same
  refine ⟨⟨?_, ?_⟩, fun area member => absurd member List.not_mem_nil⟩
  · rw [first]
    exact areas.chain
  · rw [last]
    exact areas.cache

theorem clearVmasFrom_eq {vmas : VmaAddr → VmArea} {start : Option VmaAddr} {nodes : List VmaAddr}
    (chain : Chain (fun area => (vmas area).vmNext) start nodes) :
    clearVmasFrom vmas start = some fun area => if area ∈ nodes then ⟨0, 0, none⟩ else vmas area := by
  induction nodes generalizing vmas start with
  | nil =>
    rw [show start = none from chain, clearVmasFrom]
    simp
  | cons first rest ih =>
    have absent := (List.nodup_cons.mp chain.nodup).1
    have remaining : Chain (fun area => (Function.update vmas first ⟨0, 0, none⟩ area).vmNext) (vmas first).vmNext
        rest := by
      apply chain.2.congr
      intro area member
      have different : area ≠ first := fun same => absent (same ▸ member)
      rw [Function.update_of_ne different]
    rw [chain.1, clearVmasFrom, ih remaining]
    congr 1
    funext area
    by_cases here : area = first
    · subst here
      simp [absent]
    · simp [here]

theorem mmapArea_some {k : Kernel} {thread : Tid} (vma : VmaAddr) (addr : BitVec 64)
    (linked : (k.threads thread).mmap = none ∨ ∃ cache, (k.threads thread).mmapCache = some cache) :
    ∃ next, mmapArea k vma addr thread = some next ∧ (next.threads thread).mmapCache = some vma ∧
      ∀ area, area ≠ vma → ((k.threads thread).mmap = none ∨ (k.threads thread).mmapCache ≠ some area) →
        next.vmas area = k.vmas area := by
  cases first : (k.threads thread).mmap with
  | none =>
    simp only [mmapArea, insertVma, linkVma, first, Option.bind_eq_bind, Option.bind_some, Option.pure_def]
    refine ⟨_, rfl, by rw [updateThread_self], ?_⟩
    intro area different _
    simp only [Kernel.updateThread, Function.update_of_ne different]
  | some other =>
    obtain ⟨cache, last⟩ : ∃ cache, (k.threads thread).mmapCache = some cache := by
      rcases linked with none | found
      · rw [first] at none
        cases none
      · exact found
    simp only [mmapArea, insertVma, linkVma, first, last, Option.bind_eq_bind, Option.bind_some, Option.pure_def]
    refine ⟨_, rfl, by rw [updateThread_self], ?_⟩
    intro area different apart
    rcases apart with none | apart
    · cases none
    · have second : area ≠ cache := fun same => apart (same ▸ rfl)
      simp only [Kernel.updateThread, Function.update_of_ne different, Function.update_of_ne second]

theorem mmapAreas_some {k : Kernel} {thread : Tid} (areas : List (VmaAddr × BitVec 64)) (used : List VmaAddr)
    (linked : (k.threads thread).mmap = none ∨ ∃ cache ∈ used, (k.threads thread).mmapCache = some cache) :
    ∃ next, mmapAreas k areas thread = some next ∧
      ∀ area, area ∉ used → area ∉ areas.map Prod.fst → next.vmas area = k.vmas area := by
  induction areas generalizing k used with
  | nil => exact ⟨k, rfl, fun _ _ _ => rfl⟩
  | cons head areas ih =>
    have usable : (k.threads thread).mmap = none ∨ ∃ cache, (k.threads thread).mmapCache = some cache :=
      linked.imp_right fun found => ⟨found.choose, found.choose_spec.2⟩
    obtain ⟨middle, mapping, cache, kept⟩ := mmapArea_some head.1 head.2 usable
    obtain ⟨next, rest, unchanged⟩ := ih (head.1 :: used) (Or.inr ⟨head.1, List.mem_cons_self, cache⟩)
    refine ⟨next, ?_, ?_⟩
    · simp only [mmapAreas, List.foldlM_cons, mapping, Option.bind_eq_bind, Option.bind_some]
      exact rest
    · intro area unused fresh
      rw [List.map_cons, List.mem_cons, not_or] at fresh
      have apart : (k.threads thread).mmap = none ∨ (k.threads thread).mmapCache ≠ some area := by
        apply linked.imp_right
        intro found same
        obtain ⟨cache, member, equal⟩ := found
        cases equal.symm.trans same
        exact unused member
      rw [unchanged area (fun member => (List.mem_cons.mp member).elim fresh.1 unused) fresh.2,
        kept area fresh.1 apart]

theorem execve_clears {k : Kernel} {thread : Tid} {nodes : List VmaAddr} (image : Image)
    (chain : Chain (fun area => (k.vmas area).vmNext) (k.threads thread).mmap nodes)
    (fresh : ∀ area ∈ nodes, area ≠ image.stack ∧ area ≠ image.heap ∧ area ∉ image.segments.map Prod.fst) :
    ∃ final, perform thread k (.execve (some image)) = some final ∧
      ∀ area ∈ nodes, final.vmas area = ⟨0, 0, none⟩ := by
  let cleared : Kernel := Kernel.updateThread
    { k with currentThread := thread, vmas := fun area => if area ∈ nodes then ⟨0, 0, none⟩ else k.vmas area }
    thread fun page => { page with mmap := none, mmapCache := none }
  have clearing : clearVmas { k with currentThread := thread } thread = some cleared := by
    simp only [clearVmas, clearVmasFrom_eq chain, Option.bind_eq_bind, Option.bind_some, Option.pure_def]
    rfl
  have empty : ((alllistKthread (initThreadUser cleared thread) thread).threads thread).mmap = none := by
    have areas := (alllistKthread_areas (initThreadUser cleared thread) thread thread).trans
      (initThreadUser_areas cleared thread)
    have own : cleared.threads thread = { k.threads thread with mmap := none, mmapCache := none } :=
      updateThread_self _
    rw [own] at areas
    exact congrArg Prod.fst areas
  obtain ⟨mapped, mapping, kept⟩ := mmapAreas_some
    (image.segments ++ [(image.stack, userStack), (image.heap, userHeap)]) [] (Or.inl empty)
  refine ⟨runnableKthread mapped thread, ?_, ?_⟩
  · simp only [perform, mainExecve, clearing, Option.bind_eq_bind, Option.bind_some]
    change (mmapAreas (alllistKthread (initThreadUser cleared thread) thread) _ thread).bind _ = _
    rw [mapping]
    rfl
  · intro area member
    have unused : area ∉ (image.segments ++ [(image.stack, userStack), (image.heap, userHeap)]).map Prod.fst := by
      simpa [not_or] using ⟨by simpa using (fresh area member).2.2, (fresh area member).1, (fresh area member).2.1⟩
    change mapped.vmas area = _
    rw [kept area List.not_mem_nil unused]
    change (initThreadUser cleared cleared.currentThread).vmas area = _
    rw [initThreadUser_current]
    exact if_pos member

theorem appendJoinQueue_areas {k next : Kernel} {node cthread : Tid} {temp : JoinAddr}
    (executed : appendJoinQueue k node cthread temp = some next) :
    next.vmas = k.vmas ∧ ∀ other, (next.threads other).areas = (k.threads other).areas := by
  unfold appendJoinQueue at executed
  dsimp only at executed
  split at executed
  · cases executed
    refine ⟨rfl, fun other => ?_⟩
    rw [updateThread_view Kthread.areas]
    intro page
    rfl
  · simp only [Option.bind_eq_bind, Option.bind_eq_some_iff] at executed
    obtain ⟨found, _, executed⟩ := executed
    split at executed
    · cases executed
    · cases executed
      exact ⟨rfl, fun other => rfl⟩

theorem fork_areas {k forked : Kernel} {child : Tid} {temp : JoinAddr} (new : child ≠ k.currentThread)
    (executed : fork k child temp = some forked) :
    forked.vmas = k.vmas ∧ (forked.threads k.currentThread).areas = (k.threads k.currentThread).areas ∧
      (forked.threads child).areas = (k.threads k.currentThread).areas := by
  obtain ⟨index, joined, _, joining, rfl⟩ := fork_copied executed
  obtain ⟨vmas, areas⟩ := appendJoinQueue_areas joining
  refine ⟨vmas, ?_, ?_⟩
  · rw [runnableKthread_areas, alllistKthread_areas, areas, copied]
    dsimp only
    rw [Function.update_of_ne new.symm]
  · rw [runnableKthread_areas, alllistKthread_areas, areas, copied]
    dsimp only
    rw [Function.update_self]
    rfl

theorem exists_fresh (nodes : List VmaAddr) : ∃ fresh, ∀ area ∈ nodes, area < fresh := by
  induction nodes with
  | nil => exact ⟨0, fun _ member => absurd member List.not_mem_nil⟩
  | cons head nodes ih =>
    obtain ⟨fresh, above⟩ := ih
    refine ⟨max (head + 1) fresh, ?_⟩
    intro area member
    rcases List.mem_cons.mp member with rfl | later
    · exact Nat.lt_of_lt_of_le (Nat.lt_succ_self area) (Nat.le_max_left _ _)
    · exact Nat.lt_of_lt_of_le (above area later) (Nat.le_max_right _ _)

/-- A thread whose list is not empty loses it when another thread with the same list executes a program. -/
theorem shared_areas_lost {k : Kernel} {thread : Tid} (other : Tid) {nodes : List VmaAddr}
    (areas : k.Areas thread nodes) (pages : ∀ area ∈ nodes, (k.vmas area).vmEnd = (k.vmas area).vmStart + 0x1000)
    (some : nodes ≠ []) :
    ∃ calls final, run (perform thread) k calls = Option.some final ∧ ¬ SameAreas k final other nodes := by
  obtain ⟨fresh, above⟩ := exists_fresh nodes
  obtain ⟨first, rest, shape⟩ := List.exists_cons_of_ne_nil some
  have member : first ∈ nodes := shape ▸ List.mem_cons_self
  obtain ⟨final, executed, cleared⟩ := execve_clears ⟨[], fresh, fresh + 1⟩ areas.chain (by
    intro area listed
    have bound := above area listed
    exact ⟨Nat.ne_of_lt bound, Nat.ne_of_lt (Nat.lt_succ_of_lt bound), List.not_mem_nil⟩)
  refine ⟨[_], final, run_cons.mpr ⟨final, executed, rfl⟩, ?_⟩
  intro same
  obtain ⟨start, stop⟩ := same.bounds first member
  rw [cleared first member] at start stop
  have length := pages first member
  rw [← start, ← stop] at length
  revert length
  decide

/-- After a fork the areas of parent and child are independent exactly where the parent has none. -/
theorem fork_areas_independent_iff {k forked : Kernel} {child : Tid} {temp : JoinAddr} {nodes : List VmaAddr}
    (areas : k.Areas k.currentThread nodes)
    (pages : ∀ area ∈ nodes, (k.vmas area).vmEnd = (k.vmas area).vmStart + 0x1000)
    (new : child ≠ k.currentThread) (executed : fork k child temp = some forked) :
    ((∀ calls final, run (perform child) forked calls = some final →
        SameAreas forked final k.currentThread nodes) ∧
      (∀ calls final, run (perform k.currentThread) forked calls = some final →
        SameAreas forked final child nodes)) ↔ (k.threads k.currentThread).mmap = none := by
  obtain ⟨vmas, parent, copy⟩ := fork_areas new executed
  have parentAreas : forked.Areas k.currentThread nodes := by
    refine ⟨?_, ?_⟩
    · rw [vmas, show (forked.threads k.currentThread).mmap = _ from congrArg Prod.fst parent]
      exact areas.chain
    · rw [show (forked.threads k.currentThread).mmapCache = _ from congrArg Prod.snd parent]
      exact areas.cache
  have childAreas : forked.Areas child nodes := by
    refine ⟨?_, ?_⟩
    · rw [vmas, show (forked.threads child).mmap = _ from congrArg Prod.fst copy]
      exact areas.chain
    · rw [show (forked.threads child).mmapCache = _ from congrArg Prod.snd copy]
      exact areas.cache
  rw [areas.chain.start_eq, List.head?_eq_none_iff]
  constructor
  · intro independent
    by_contra nonempty
    obtain ⟨calls, final, ran, changed⟩ := shared_areas_lost k.currentThread childAreas
      (by rw [vmas]; exact pages) nonempty
    exact changed (independent.1 calls final ran)
  · rintro rfl
    constructor
    · intro calls final ran
      exact SameAreas.of_none parentAreas new.symm (run_areasKept ran)
    · intro calls final ran
      exact SameAreas.of_none childAreas new (run_areasKept ran)

def oneProcess (area : Option VmaAddr) : Kernel :=
  { bootKernel with
    threads := Function.update bootKernel.threads 1 { zeroPage with mmap := area, mmapCache := area, pid := 0 }
    vmas := fun _ => ⟨userStack, userStack + 0x1000, none⟩
    currentThread := 1 }

theorem fork_oneProcess (area : Option VmaAddr) :
    ∃ forked, fork (oneProcess area) 2 0 = some forked := ⟨_, rfl⟩

theorem no_areas_independent : ∃ forked, fork (oneProcess none) 2 0 = some forked ∧
    ∀ calls final, run (perform 2) forked calls = some final → SameAreas forked final 1 [] := by
  obtain ⟨forked, executed⟩ := fork_oneProcess none
  have areas : (oneProcess none).Areas 1 [] := ⟨rfl, rfl⟩
  have independent := (fork_areas_independent_iff areas (fun _ member => absurd member List.not_mem_nil) (by decide)
    executed).mpr rfl
  exact ⟨forked, executed, independent.1⟩

/-- A process with an area loses it when its child executes a program. -/
theorem child_clears_parent : ¬ ∀ (k forked : Kernel) (child : Tid) (temp : JoinAddr) (nodes : List VmaAddr),
    k.Areas k.currentThread nodes →
    (∀ area ∈ nodes, (k.vmas area).vmEnd = (k.vmas area).vmStart + 0x1000) → child ≠ k.currentThread →
    fork k child temp = some forked →
    ∀ calls final, run (perform child) forked calls = some final →
      SameAreas forked final k.currentThread nodes := by
  intro every
  obtain ⟨forked, executed⟩ := fork_oneProcess (some 0)
  have new : (2 : Tid) ≠ (oneProcess (some 0)).currentThread := by decide
  have areas : (oneProcess (some 0)).Areas 1 [0] := ⟨⟨rfl, rfl⟩, rfl⟩
  obtain ⟨vmas, _, copy⟩ := fork_areas new executed
  have childAreas : forked.Areas 2 [0] := by
    refine ⟨?_, congrArg Prod.snd copy⟩
    rw [vmas, show (forked.threads 2).mmap = _ from congrArg Prod.fst copy]
    exact areas.chain
  have pages : ∀ area ∈ [0], (forked.vmas area).vmEnd = (forked.vmas area).vmStart + 0x1000 := by
    rw [vmas]
    exact fun _ _ => rfl
  obtain ⟨calls, final, ran, changed⟩ := shared_areas_lost 1 childAreas pages (List.cons_ne_nil _ _)
  exact changed (every _ forked 2 0 [0] areas (fun _ _ => rfl) new executed calls final ran)

end Sbunix.Thread
