import Sbunix.Thread.Queue

namespace Sbunix.Thread

open Library

def Kthread.identity (thread : Kthread) : Int × Int × Bool := (thread.pid, thread.sleeping, thread.alive)

def Kthread.core (thread : Kthread) : (Int × Int × Bool) × Option Tid × Option Tid :=
  (thread.identity, thread.prevInThreadQ, thread.nextInThreadQ)

structure Unmoved (k next : Kernel) : Prop where
  core : ∀ thread, (next.threads thread).core = (k.threads thread).core
  runQueue : next.runQueue = k.runQueue
  currentThread : next.currentThread = k.currentThread
  ptable : next.ptable = k.ptable
  nextFreePid : next.nextFreePid = k.nextFreePid

theorem Kthread.pid_of_identity {left right : Kthread} (identity : left.identity = right.identity) :
    left.pid = right.pid := congrArg Prod.fst identity

theorem Kthread.ready_of_identity {left right : Kthread} (identity : left.identity = right.identity) :
    left.ready = right.ready := by
  simp only [Kthread.identity, Prod.mk.injEq] at identity
  simp only [Kthread.ready, identity]

theorem Kthread.identity_of_core {left right : Kthread} (core : left.core = right.core) :
    left.identity = right.identity := congrArg Prod.fst core

theorem Kthread.prev_of_core {left right : Kthread} (core : left.core = right.core) :
    left.prevInThreadQ = right.prevInThreadQ := congrArg (fun pair => pair.2.1) core

theorem Kthread.next_of_core {left right : Kthread} (core : left.core = right.core) :
    left.nextInThreadQ = right.nextInThreadQ := congrArg (fun pair => pair.2.2) core

theorem Unmoved.trans {k middle next : Kernel} (first : Unmoved k middle) (second : Unmoved middle next) :
    Unmoved k next :=
  ⟨fun thread => (second.core thread).trans (first.core thread), second.runQueue.trans first.runQueue,
    second.currentThread.trans first.currentThread, second.ptable.trans first.ptable,
    second.nextFreePid.trans first.nextFreePid⟩

theorem queued_of_core {k next : Kernel} {queued : List Tid} (queue : k.Queued queued)
    (core : ∀ thread ∈ queued, (next.threads thread).core = (k.threads thread).core)
    (runQueue : next.runQueue = k.runQueue) : next.Queued queued := by
  refine ⟨?_, ?_, ?_, queue.nodup⟩
  · rw [runQueue, queue.head]
  · rw [runQueue, queue.tail]
  · exact queue.linked.congr (fun thread member => Kthread.prev_of_core (core thread member))
      (fun thread member => Kthread.next_of_core (core thread member))

@[simp] theorem updateThread_other {k : Kernel} {thread other : Tid} (change : Kthread → Kthread)
    (different : other ≠ thread) : (k.updateThread thread change).threads other = k.threads other := by
  simp [Kernel.updateThread, different]

@[simp] theorem updateThread_self {k : Kernel} {thread : Tid} (change : Kthread → Kthread) :
    (k.updateThread thread change).threads thread = change (k.threads thread) := by
  simp [Kernel.updateThread]

theorem updateThread_view {View : Type} (view : Kthread → View) {k : Kernel} {thread : Tid}
    {change : Kthread → Kthread} (same : ∀ page, view (change page) = view page) (other : Tid) :
    view ((k.updateThread thread change).threads other) = view (k.threads other) := by
  by_cases equal : other = thread
  · rw [equal, updateThread_self, same]
  · rw [updateThread_other change equal]

theorem updateThread_unmoved {k : Kernel} {thread : Tid} {change : Kthread → Kthread}
    (same : ∀ page, (change page).core = page.core) : Unmoved k (k.updateThread thread change) :=
  ⟨updateThread_view Kthread.core same, rfl, rfl, rfl, rfl⟩

theorem alllistKthread_unmoved (k : Kernel) (thread : Tid) : Unmoved k (alllistKthread k thread) :=
  ⟨fun other => Links.view_append Kthread.core (fun _ _ => rfl) (fun _ _ => rfl) thread other,
    rfl, rfl, rfl, rfl⟩

structure Framed {View : Type} (view : Kthread → View) (k next : Kernel) : Prop where
  threads : ∀ thread, view (next.threads thread) = view (k.threads thread)
  runQueue : next.runQueue = k.runQueue
  allThreadList : next.allThreadList = k.allThreadList
  currentThread : next.currentThread = k.currentThread
  ptable : next.ptable = k.ptable
  nextFreePid : next.nextFreePid = k.nextFreePid

theorem Framed.unmoved {k next : Kernel} (framed : Framed Kthread.core k next) : Unmoved k next :=
  ⟨framed.threads, framed.runQueue, framed.currentThread, framed.ptable, framed.nextFreePid⟩

def unlisted (k : Kernel) (thread : Tid) : Kernel :=
  { dequeued k thread with
    threads := (removeAlllistKthread (dequeued k thread).threads k.allThreadList thread).1
    allThreadList := (removeAlllistKthread (dequeued k thread).threads k.allThreadList thread).2 }

theorem threadCleanup_eq (k : Kernel) (thread : Tid) : threadCleanup k thread =
    match ((unlisted k thread).threads thread).parent with
    | none => some (unlisted k thread)
    | some parent => removeChild (unlisted k thread) parent thread := rfl

section Framed

variable {View : Type} {view : Kthread → View} {k middle next : Kernel} {thread : Tid}

theorem Framed.refl (k : Kernel) : Framed view k k := ⟨fun _ => rfl, rfl, rfl, rfl, rfl, rfl⟩

theorem Framed.trans (first : Framed view k middle) (second : Framed view middle next) : Framed view k next :=
  ⟨fun thread => (second.threads thread).trans (first.threads thread), second.runQueue.trans first.runQueue,
    second.allThreadList.trans first.allThreadList, second.currentThread.trans first.currentThread,
    second.ptable.trans first.ptable, second.nextFreePid.trans first.nextFreePid⟩

theorem updateThread_framed {change : Kthread → Kthread} (same : ∀ page, view (change page) = view page) :
    Framed view k (k.updateThread thread change) := ⟨updateThread_view view same, rfl, rfl, rfl, rfl, rfl⟩

section Areas

variable (mmapUnread : ∀ page link, view { page with mmap := link } = view page)

include mmapUnread

theorem linkVma_framed {vma : VmaAddr} (executed : linkVma k vma thread = some next) : Framed view k next := by
  unfold linkVma at executed
  split at executed
  · cases executed
    exact updateThread_framed fun page => mmapUnread page _
  · simp only [Option.bind_eq_bind, Option.bind_eq_some_iff] at executed
    obtain ⟨cache, _, executed⟩ := executed
    cases executed
    exact ⟨fun _ => rfl, rfl, rfl, rfl, rfl, rfl⟩

variable (cacheUnread : ∀ page link, view { page with mmapCache := link } = view page)

include cacheUnread

theorem insertVma_framed {vma : VmaAddr} (executed : insertVma k vma thread = some next) : Framed view k next := by
  unfold insertVma at executed
  simp only [Option.bind_eq_bind, Option.bind_eq_some_iff] at executed
  obtain ⟨middle, linked, executed⟩ := executed
  cases executed
  obtain ⟨threads, runQueue, allThreadList, currentThread, ptable, nextFreePid⟩ := linkVma_framed mmapUnread linked
  have first : Framed view k middle := ⟨threads, runQueue, allThreadList, currentThread, ptable, nextFreePid⟩
  exact first.trans (updateThread_framed fun page => cacheUnread page _)

theorem mmapAreas_framed {areas : List (VmaAddr × BitVec 64)} (executed : mmapAreas k areas thread = some next) :
    Framed view k next := by
  unfold mmapAreas at executed
  induction areas generalizing k with
  | nil =>
    cases executed
    exact Framed.refl _
  | cons area areas ih =>
    simp only [List.foldlM_cons, Option.bind_eq_bind, Option.bind_eq_some_iff] at executed
    obtain ⟨middle, first, executed⟩ := executed
    obtain ⟨threads, runQueue, allThreadList, currentThread, ptable, nextFreePid⟩ :=
      insertVma_framed mmapUnread cacheUnread first
    have inserted : Framed view k middle := ⟨threads, runQueue, allThreadList, currentThread, ptable, nextFreePid⟩
    exact inserted.trans (ih executed)

end Areas

section Joins

variable (headUnread : ∀ page link, view { page with headNext := link } = view page)

include headUnread

theorem appendJoinQueue_framed {node : Tid} {temp : JoinAddr}
    (executed : appendJoinQueue k node thread temp = some next) : Framed view k next := by
  unfold appendJoinQueue at executed
  split at executed
  · cases executed
    exact ⟨updateThread_view view fun page => headUnread page _, rfl, rfl, rfl, rfl, rfl⟩
  · simp only [Option.bind_eq_bind, Option.bind_eq_some_iff] at executed
    obtain ⟨found, _, executed⟩ := executed
    cases found with
    | none => cases executed
    | some crawl =>
      cases executed
      exact ⟨fun _ => rfl, rfl, rfl, rfl, rfl, rfl⟩

theorem removeChild_framed {parent : Tid} (executed : removeChild k parent thread = some next) :
    Framed view k next := by
  unfold removeChild at executed
  simp only [Option.bind_eq_bind, Option.bind_eq_some_iff] at executed
  obtain ⟨first, _, executed⟩ := executed
  split at executed
  · cases executed
    exact updateThread_framed fun page => headUnread page _
  · simp only [Option.bind_eq_some_iff] at executed
    obtain ⟨found, _, crawl, _, tmp, _, executed⟩ := executed
    cases executed
    exact ⟨fun _ => rfl, rfl, rfl, rfl, rfl, rfl⟩

theorem threadCleanup_framed (executed : threadCleanup k thread = some next) :
    Framed view (unlisted k thread) next := by
  rw [threadCleanup_eq] at executed
  split at executed
  · cases executed
    exact Framed.refl _
  · exact removeChild_framed headUnread executed

end Joins

end Framed

theorem mmapAreas_unmoved {k next : Kernel} {areas : List (VmaAddr × BitVec 64)} {thread : Tid}
    (executed : mmapAreas k areas thread = some next) : Unmoved k next :=
  (mmapAreas_framed (fun _ _ => rfl) (fun _ _ => rfl) executed).unmoved

theorem appendJoinQueue_unmoved {k next : Kernel} {node cthread : Tid} {temp : JoinAddr}
    (executed : appendJoinQueue k node cthread temp = some next) : Unmoved k next :=
  (appendJoinQueue_framed (fun _ _ => rfl) executed).unmoved

structure Prepared (k next : Kernel) (page : Tid) (ptable : Fin 100 → Option Tid) : Prop where
  others : ∀ thread, thread ≠ page → (next.threads thread).core = (k.threads thread).core
  pid : (next.threads page).pid = k.nextFreePid + 1
  ready : (next.threads page).ready = true
  runQueue : next.runQueue = k.runQueue
  currentThread : next.currentThread = k.currentThread
  nextFreePid : next.nextFreePid = k.nextFreePid + 1
  ptable : next.ptable = ptable

theorem Prepared.unmoved {k middle next : Kernel} {page : Tid} {ptable : Fin 100 → Option Tid}
    (prepared : Prepared k middle page ptable) (unmoved : Unmoved middle next) :
    Prepared k next page ptable where
  others thread different := (unmoved.core thread).trans (prepared.others thread different)
  pid := (Kthread.pid_of_identity (Kthread.identity_of_core (unmoved.core page))).trans prepared.pid
  ready := (Kthread.ready_of_identity (Kthread.identity_of_core (unmoved.core page))).trans prepared.ready
  runQueue := unmoved.runQueue.trans prepared.runQueue
  currentThread := unmoved.currentThread.trans prepared.currentThread
  nextFreePid := unmoved.nextFreePid.trans prepared.nextFreePid
  ptable := unmoved.ptable.trans prepared.ptable

theorem initThread_prepared (k : Kernel) (page : Tid) : Prepared k (initThread k page) page k.ptable where
  others thread different := by simp [initThread, allocPid, different]
  pid := by simp [initThread, allocPid]
  ready := by simp [initThread, allocPid, Kthread.ready]
  runQueue := rfl
  currentThread := rfl
  nextFreePid := rfl
  ptable := rfl

theorem initThreadUser_prepared {k : Kernel} {page : Tid} (new : page ≠ k.currentThread) :
    Prepared k (initThreadUser k page) page k.ptable := by
  unfold initThreadUser
  dsimp only
  split
  · constructor
    · intro thread different
      simp [allocPid, different]
    · simp [allocPid, Kernel.updateThread]
    · simp [allocPid, Kthread.ready]
    · rfl
    · rfl
    · rfl
    · rfl
  · rename_i current
    exact absurd new current

section Entered

variable {k next : Kernel} {page : Tid}

theorem addToPtable_stored (executed : addToPtable k page = some next) :
    ∃ index, ptableIndex (k.threads page).pid = some index ∧ next = k.storePtable index (some page) := by
  unfold addToPtable at executed
  simp only [Option.bind_eq_bind, Option.bind_eq_some_iff] at executed
  obtain ⟨index, located, executed⟩ := executed
  cases executed
  exact ⟨index, located, rfl⟩

theorem startKthread_entered (executed : startKthread k page = some next) :
    ∃ middle, addToPtable (createKthread k page) page = some middle ∧ next = runnableKthread middle page := by
  unfold startKthread at executed
  simp only [Option.bind_eq_bind, Option.bind_eq_some_iff] at executed
  obtain ⟨middle, entered, executed⟩ := executed
  cases executed
  exact ⟨middle, entered, rfl⟩

theorem doExec_entered {segments : List (VmaAddr × BitVec 64)} {stack heap : VmaAddr}
    (executed : doExec k page segments stack heap = some next) :
    ∃ mapped middle,
      mmapAreas (createKthreadUser k page) (segments ++ [(stack, userStack), (heap, userHeap)]) page = some mapped ∧
      addToPtable mapped page = some middle ∧ next = runnableKthread middle page := by
  unfold doExec at executed
  simp only [Option.bind_eq_bind, Option.bind_eq_some_iff] at executed
  obtain ⟨mapped, mapping, middle, entered, executed⟩ := executed
  cases executed
  exact ⟨mapped, middle, mapping, entered, rfl⟩

end Entered

def Created (k next : Kernel) (page : Tid) : Prop :=
  ∃ middle index, ptableIndex (k.nextFreePid + 1) = some index ∧
    Prepared k middle page (Function.update k.ptable index (some page)) ∧ next = runnableKthread middle page

theorem addToPtable_prepared {k middle next : Kernel} {page : Tid} (prepared : Prepared k middle page k.ptable)
    (executed : addToPtable middle page = some next) :
    ∃ index, ptableIndex (k.nextFreePid + 1) = some index ∧
      Prepared k next page (Function.update k.ptable index (some page)) := by
  obtain ⟨index, located, rfl⟩ := addToPtable_stored executed
  rw [prepared.pid] at located
  refine ⟨index, located, prepared.others, prepared.pid, prepared.ready, prepared.runQueue,
    prepared.currentThread, prepared.nextFreePid, ?_⟩
  rw [← prepared.ptable]
  rfl

theorem startKthread_created {k next : Kernel} {page : Tid} (executed : startKthread k page = some next) :
    Created k next page := by
  obtain ⟨middle, entered, rfl⟩ := startKthread_entered executed
  have created := (initThread_prepared k page).unmoved (alllistKthread_unmoved _ page)
  obtain ⟨index, located, prepared⟩ := addToPtable_prepared created entered
  exact ⟨middle, index, located, prepared, rfl⟩

theorem doExec_created {k next : Kernel} {page : Tid} {segments : List (VmaAddr × BitVec 64)}
    {stack heap : VmaAddr} (new : page ≠ k.currentThread)
    (executed : doExec k page segments stack heap = some next) : Created k next page := by
  obtain ⟨mapped, middle, mapping, entered, rfl⟩ := doExec_entered executed
  have created := ((initThreadUser_prepared new).unmoved (alllistKthread_unmoved _ page)).unmoved
    (mmapAreas_unmoved mapping)
  obtain ⟨index, located, prepared⟩ := addToPtable_prepared created entered
  exact ⟨middle, index, located, prepared, rfl⟩

def copied (k : Kernel) (page : Tid) (index : Fin 100) : Kernel :=
  { k with
    threads := Function.update k.threads page
      { k.threads k.currentThread with pid := k.nextFreePid + 1, parent := some k.currentThread }
    nextFreePid := k.nextFreePid + 1
    ptable := Function.update k.ptable index (some page) }

theorem fork_eq (k : Kernel) (page : Tid) (temp : JoinAddr) : fork k page temp =
    (ptableIndex (k.nextFreePid + 1)).bind fun index =>
      (appendJoinQueue (copied k page index) page k.currentThread temp).map fun joined =>
        runnableKthread (alllistKthread joined page) page := by
  have filled : ∀ index, Kernel.updateThread (Kernel.storePtable (Kernel.updateThread
      (allocPid (k.updateThread page fun _ => k.threads k.currentThread)).2 page
        fun thread => { thread with pid := k.nextFreePid + 1 }) index (some page)) page
      (fun thread => { thread with parent := some k.currentThread }) = copied k page index := by
    intro index
    simp [Kernel.updateThread, Kernel.storePtable, allocPid, copied]
  simp only [fork, addToPtable, Option.bind_eq_bind, Option.pure_def, updateThread_self, Option.bind_assoc,
    Option.bind_some]
  congr 1
  funext index
  rw [← filled index, Option.map_eq_bind]
  rfl

theorem fork_copied {k forked : Kernel} {page : Tid} {temp : JoinAddr} (executed : fork k page temp = some forked) :
    ∃ index joined, ptableIndex (k.nextFreePid + 1) = some index ∧
      appendJoinQueue (copied k page index) page k.currentThread temp = some joined ∧
      forked = runnableKthread (alllistKthread joined page) page := by
  rw [fork_eq, Option.bind_eq_some_iff] at executed
  obtain ⟨index, located, executed⟩ := executed
  obtain ⟨joined, joining, equal⟩ := Option.map_eq_some_iff.mp executed
  exact ⟨index, joined, located, joining, equal.symm⟩

theorem fork_created {k next : Kernel} {page : Tid} {temp : JoinAddr}
    (ready : (k.threads k.currentThread).ready = true) (executed : fork k page temp = some next) :
    Created k next page := by
  unfold fork at executed
  simp only [Option.bind_eq_bind, Option.bind_eq_some_iff] at executed
  obtain ⟨entered, entering, joined, joining, executed⟩ := executed
  cases executed
  have copied : Prepared k (Kernel.updateThread
      (allocPid (k.updateThread page fun _ => k.threads k.currentThread)).2 page
      fun thread => { thread with pid := k.nextFreePid + 1 }) page k.ptable := by
    constructor
    · intro thread different
      simp [allocPid, different]
    · simp
    · simpa [allocPid, Kthread.ready] using ready
    · rfl
    · rfl
    · rfl
    · rfl
  obtain ⟨index, located, prepared⟩ := addToPtable_prepared copied entering
  have parented : Unmoved entered (entered.updateThread page fun thread =>
      { thread with parent := some entered.currentThread }) := updateThread_unmoved fun _ => rfl
  have linked := (prepared.unmoved parented).unmoved (appendJoinQueue_unmoved joining)
  exact ⟨_, index, located, linked.unmoved (alllistKthread_unmoved _ page), rfl⟩

theorem runnableKthread_identity (k : Kernel) (thread other : Tid) :
    ((runnableKthread k thread).threads other).identity = (k.threads other).identity :=
  Links.view_append Kthread.identity (fun _ _ => rfl) (fun _ _ => rfl) thread other

theorem dequeued_identity (k : Kernel) (thread other : Tid) :
    ((dequeued k thread).threads other).identity = (k.threads other).identity :=
  Links.view_remove Kthread.identity (fun _ _ => rfl) (fun _ _ => rfl) thread other

structure Scheduled (k next : Kernel) (runnable : Tid) (back : List Tid) : Prop where
  currentThread : next.currentThread = runnable
  queue : next.Queued back
  prevLink : (next.threads runnable).prevInThreadQ = none
  nextLink : (next.threads runnable).nextInThreadQ = back.head?
  identity : ∀ thread, (next.threads thread).identity = (k.threads thread).identity
  ptable : next.ptable = k.ptable
  nextFreePid : next.nextFreePid = k.nextFreePid

theorem schedule_ready {k next : Kernel} {queued : List Tid} (queue : k.Queued queued)
    (ready : ∀ thread ∈ queued, (k.threads thread).ready = true) (executed : schedule k = some next) :
    ∃ runnable back, queued = runnable :: back ∧ Scheduled k next runnable back := by
  unfold schedule at executed
  simp only [Option.bind_eq_bind, Option.bind_eq_some_iff] at executed
  obtain ⟨⟨runnable, middle⟩, taken, executed⟩ := executed
  cases executed
  obtain ⟨front, back, split, _, skipped, rfl, after⟩ := nextRunnableKthread_cases queue taken
  subst split
  have first : front = [] := by
    cases front with
    | nil => rfl
    | cons other rest =>
      have asleep := skipped other (by simp)
      rw [ready other (by simp)] at asleep
      cases asleep
  subst first
  obtain ⟨_, prev, next⟩ := Links.Represents.stale queue
  exact ⟨runnable, back, rfl, rfl, after, prev, next, dequeued_identity k runnable, rfl, rfl⟩

theorem schedule_head {k : Kernel} {thread : Tid} (head : k.runQueue.head = some thread)
    (ready : (k.threads thread).ready = true) :
    schedule k = some { dequeued k thread with currentThread := thread } := by
  unfold schedule
  rw [nextRunnableKthread_head head ready]
  rfl

theorem schedule_empty {k next : Kernel} (empty : k.runQueue.head = none) : schedule k ≠ some next := by
  intro executed
  unfold schedule nextRunnableKthread at executed
  rw [empty, scan_none] at executed
  cases executed

structure Exited (k next : Kernel) (index : Fin 100) : Prop where
  identity : ∀ thread, (next.threads thread).identity = (k.threads thread).identity
  ptable : next.ptable = Function.update k.ptable index none
  nextFreePid : next.nextFreePid = k.nextFreePid - 1

theorem unlisted_unmoved (k : Kernel) (thread : Tid) : Unmoved (dequeued k thread) (unlisted k thread) :=
  ⟨fun other => Links.view_remove Kthread.core (fun _ _ => rfl) (fun _ _ => rfl) thread other, rfl, rfl, rfl, rfl⟩

/-- An exit clears away the thread that the process table holds under the pid of the current one. -/
theorem sysExit_cleaned {k next : Kernel} (executed : sysExit k = some next) :
    ∃ index thread cleaned, ptableIndex (k.threads k.currentThread).pid = some index ∧
      k.ptable index = some thread ∧ threadCleanup k thread = some cleaned ∧
      next = freePid (cleaned.storePtable index none) := by
  unfold sysExit at executed
  simp only [Option.bind_eq_bind, Option.bind_eq_some_iff] at executed
  obtain ⟨index, located, thread, entry, cleaned, cleaning, executed⟩ := executed
  cases executed
  exact ⟨index, thread, cleaned, located, entry, cleaning, rfl⟩

/-- An exit of a thread that was the first of the queue when it was taken. The queue stays as it is, or
    is lost where the thread was the only one in it. -/
theorem sysExit_spec {k next : Kernel} {queued : List Tid} {index : Fin 100} (queue : k.Queued queued)
    (prev : (k.threads k.currentThread).prevInThreadQ = none)
    (link : (k.threads k.currentThread).nextInThreadQ = none ∨
      (k.threads k.currentThread).nextInThreadQ = queued.head?)
    (located : ptableIndex (k.threads k.currentThread).pid = some index)
    (entry : k.ptable index = some k.currentThread) (executed : sysExit k = some next) :
    Exited k next index ∧ (next.Queued queued ∨ next.runQueue.head = none) := by
  obtain ⟨found, thread, middle, foundAt, looked, cleaning, rfl⟩ := sysExit_cleaned executed
  cases located.symm.trans foundAt
  cases entry.symm.trans looked
  have unmoved : Unmoved (dequeued k k.currentThread) middle :=
    (unlisted_unmoved k k.currentThread).trans (threadCleanup_framed (fun _ _ => rfl) cleaning).unmoved
  refine ⟨⟨?_, ?_, ?_⟩, ?_⟩
  · intro other
    exact (Kthread.identity_of_core (unmoved.core other)).trans (dequeued_identity k _ other)
  · exact congrArg (fun table => Function.update table index none) unmoved.ptable
  · exact congrArg (fun pid => pid - 1) unmoved.nextFreePid
  · rcases link with unlinked | linked
    · right
      change middle.runQueue.head = none
      rw [unmoved.runQueue]
      exact congrArg Queue.head (Links.remove_unlinked prev unlinked)
    · left
      have stale : threadQ.Stale k.threads k.runQueue [] queued k.currentThread := ⟨queue, prev, linked⟩
      have kept : (dequeued k k.currentThread).Queued queued := stale.remove.represents
      exact queued_of_core kept (fun other _ => unmoved.core other) unmoved.runQueue

end Sbunix.Thread
