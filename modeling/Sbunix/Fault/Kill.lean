import Sbunix.Fault.Segmentation
import Sbunix.Thread.AllThreads
import Sbunix.Thread.Join
import Sbunix.Thread.Sleep

namespace Sbunix.Fault

open Library Paging Thread

structure TakenFrom (k : Kernel) (queued : List Tid) : Prop where
  taken : ∃ before after, before.Queued queued ∧ nextRunnableKthread before = some (k.currentThread, after) ∧
    threadQ.SameLinks after.threads k.threads ∧ k.runQueue = after.runQueue

def OnJoinList (k : Kernel) (thread : Tid) : Prop :=
  ∃ parent nodes, (k.threads thread).parent = some parent ∧
    Chain (fun node => (k.joins node).next) (k.threads parent).headNext nodes ∧ thread ∈ nodes.map k.child

structure System where
  processes : Processes
  memory : Memory
  mmgr : Mmgr.State
  pages : List (BitVec 64)
  clock : Clock

def System.kernel (s : System) : Kernel := s.processes.kernel

def System.machine (s : System) : Machine := ⟨s.kernel, s.memory, s.mmgr, s.pages⟩

def System.withKernel (s : System) (kernel : Kernel) : System := { s with processes := { s.processes with kernel } }

def exitThread (k : Kernel) : Option Kernel :=
  schedule (k.updateThread k.currentThread fun page => { page with alive := false })

def resume (k : Kernel) : Option Kernel := schedule (runnableKthread k k.currentThread)

inductive Happening where
  | action (action : Action)
  | startKthread (page : Tid)
  | exitThread
  | sleep (time : BitVec 64)
  | timer
  | fault (base fault : BitVec 64) (vma : VmaAddr)

def System.step (s : System) : Happening → Option System
  | .action action => do
    let processes ← s.processes.perform action
    return { s with processes }
  | .startKthread page =>
    if page ∈ s.processes.pages then none
    else do
      let kernel ← startKthread s.kernel page
      return { s with processes := ⟨kernel, page :: s.processes.live, page :: s.processes.pages⟩ }
  | .exitThread => (exitThread s.kernel).map s.withKernel
  | .sleep time => some (s.withKernel (sleep s.kernel time))
  | .timer => do
    let (kernel, clock) ← timerHandler s.kernel s.clock
    return { s.withKernel kernel with clock }
  | .fault base fault vma => do
    let m ← pageFaultHandler base s.machine fault vma
    let kernel ← resume m.kernel
    return { s.withKernel kernel with memory := m.memory, mmgr := m.mmgr, pages := m.pages }

section Unlisted

variable {k : Kernel} {thread : Tid} {front back : List Tid}

theorem unlisted_queue (stale : threadQ.Stale k.threads k.runQueue front back thread) :
    threadQ.Stale (unlisted k thread).threads (unlisted k thread).runQueue front back thread :=
  stale.remove.sameLinks (Links.sameLinks_of_pair fun other =>
    Links.view_remove threadQ.pair (fun _ _ => rfl) (fun _ _ => rfl) thread other)

theorem dequeued_listing (k : Kernel) (thread : Tid) : threadList.SameLinks k.threads (dequeued k thread).threads :=
  Links.sameLinks_of_pair fun other =>
    Links.view_remove threadList.pair (fun _ _ => rfl) (fun _ _ => rfl) thread other

theorem unlisted_list (listed : threadList.Represents k.threads k.allThreadList (front ++ thread :: back)) :
    threadList.Stale (unlisted k thread).threads (unlisted k thread).allThreadList front back thread :=
  (listed.sameLinks (dequeued_listing k thread)).stale

theorem unlisted_again (stale : threadList.Stale k.threads k.allThreadList front back thread) :
    threadList.Stale (unlisted k thread).threads (unlisted k thread).allThreadList front back thread :=
  (stale.sameLinks (dequeued_listing k thread)).remove

theorem unlisted_view {View : Type} (view : Kthread → View)
    (prevQ : ∀ page link, view { page with prevInThreadQ := link } = view page)
    (nextQ : ∀ page link, view { page with nextInThreadQ := link } = view page)
    (prevList : ∀ page link, view { page with prevInThreadList := link } = view page)
    (nextList : ∀ page link, view { page with nextInThreadList := link } = view page) (other : Tid) :
    view ((unlisted k thread).threads other) = view (k.threads other) :=
  (Links.view_remove view prevList nextList thread other).trans (Links.view_remove view prevQ nextQ thread other)

end Unlisted

def dying (k : Kernel) : Kernel := k.updateThread k.currentThread fun page => { page with alive := false }

def relations (page : Kthread) : Int × Option Tid × Option JoinAddr := (page.pid, page.parent, page.headNext)

theorem kill_eq (s : Machine) :
    kill s = (sysExit (unlisted (dying s.kernel) s.kernel.currentThread)).map ({ s with kernel := · }) := by
  rw [Option.map_eq_bind]
  rfl

/-- A thread is alive if it was, and the current thread is the same. -/
structure Untouched (thread : Tid) (k next : Kernel) : Prop where
  alive : (next.threads thread).alive = (k.threads thread).alive
  currentThread : next.currentThread = k.currentThread

section Untouched

variable {k middle next : Kernel} {thread page : Tid}

theorem Untouched.trans (first : Untouched thread k middle) (second : Untouched thread middle next) :
    Untouched thread k next :=
  ⟨second.alive.trans first.alive, second.currentThread.trans first.currentThread⟩

theorem Untouched.of_framed (framed : Framed Kthread.alive k next) : Untouched thread k next :=
  ⟨framed.threads thread, framed.currentThread⟩

theorem runnableKthread_untouched (k : Kernel) (page : Tid) : Untouched thread k (runnableKthread k page) :=
  ⟨Links.view_append Kthread.alive (fun _ _ => rfl) (fun _ _ => rfl) page thread, rfl⟩

theorem alllistKthread_untouched (k : Kernel) (page : Tid) : Untouched thread k (alllistKthread k page) :=
  ⟨Links.view_append Kthread.alive (fun _ _ => rfl) (fun _ _ => rfl) page thread, rfl⟩

theorem unlisted_untouched (k : Kernel) (page : Tid) : Untouched thread k (unlisted k page) :=
  ⟨unlisted_view Kthread.alive (fun _ _ => rfl) (fun _ _ => rfl) (fun _ _ => rfl) (fun _ _ => rfl) thread, rfl⟩

theorem updateThread_untouched (other : thread ≠ page) (change : Kthread → Kthread) :
    Untouched thread k (k.updateThread page change) :=
  ⟨congrArg Kthread.alive (updateThread_other change other), rfl⟩

theorem addToPtable_untouched (executed : addToPtable k page = some next) : Untouched thread k next := by
  obtain ⟨index, _, rfl⟩ := addToPtable_stored executed
  exact ⟨rfl, rfl⟩

theorem mmapAreas_untouched {areas : List (VmaAddr × BitVec 64)} (executed : mmapAreas k areas page = some next) :
    Untouched thread k next := .of_framed (mmapAreas_framed (fun _ _ => rfl) (fun _ _ => rfl) executed)

theorem sysExit_untouched (executed : sysExit k = some next) : Untouched thread k next := by
  obtain ⟨index, gone, cleaned, _, _, cleaning, rfl⟩ := sysExit_cleaned executed
  obtain ⟨alive, current⟩ := (unlisted_untouched k gone).trans
    (.of_framed (threadCleanup_framed (fun _ _ => rfl) cleaning) : Untouched thread _ cleaned)
  exact ⟨alive, current⟩

theorem initThreadUser_untouched (other : thread ≠ page) : Untouched thread k (initThreadUser k page) := by
  unfold initThreadUser
  dsimp only
  split
  · exact ⟨by simp [allocPid, other], rfl⟩
  · exact updateThread_untouched other _

theorem startKthread_untouched (other : thread ≠ page) (executed : startKthread k page = some next) :
    Untouched thread k next := by
  obtain ⟨middle, entered, rfl⟩ := startKthread_entered executed
  have filled : Untouched thread k (initThread k page) := ⟨by simp [initThread, allocPid, other], rfl⟩
  exact ((filled.trans (alllistKthread_untouched _ page)).trans (addToPtable_untouched entered)).trans
    (runnableKthread_untouched middle page)

theorem doExec_untouched {segments : List (VmaAddr × BitVec 64)} {stack heap : VmaAddr} (other : thread ≠ page)
    (executed : doExec k page segments stack heap = some next) : Untouched thread k next := by
  obtain ⟨mapped, middle, mapping, entered, rfl⟩ := doExec_entered executed
  have created : Untouched thread k (createKthreadUser k page) :=
    (initThreadUser_untouched other).trans (alllistKthread_untouched _ page)
  exact ((created.trans (mmapAreas_untouched mapping)).trans (addToPtable_untouched entered)).trans
    (runnableKthread_untouched middle page)

theorem fork_untouched {temp : JoinAddr} (other : thread ≠ page) (executed : fork k page temp = some next) :
    Untouched thread k next := by
  obtain ⟨index, joined, _, joining, rfl⟩ := fork_copied executed
  have filled : Untouched thread k (copied k page index) :=
    ⟨congrArg Kthread.alive (Function.update_of_ne other _ k.threads), rfl⟩
  have linked : Untouched thread (copied k page index) joined :=
    .of_framed (appendJoinQueue_framed (fun _ _ => rfl) joining)
  exact ((filled.trans linked).trans (alllistKthread_untouched joined page)).trans (runnableKthread_untouched _ page)

theorem clearVmas_untouched (executed : clearVmas k page = some next) : Untouched thread k next := by
  simp only [clearVmas, Option.bind_eq_bind, Option.bind_eq_some_iff, Option.pure_def] at executed
  obtain ⟨vmas, _, equal⟩ := executed
  cases equal
  refine ⟨?_, rfl⟩
  apply updateThread_view
  intro page
  rfl

/-- `execve` revives no thread but the one that calls it. -/
theorem mainExecve_untouched {image : Option Image} (other : thread ≠ k.currentThread)
    (executed : mainExecve k image = some next) : Untouched thread k next := by
  simp only [mainExecve, Option.bind_eq_bind, Option.bind_eq_some_iff] at executed
  obtain ⟨cleared, clearing, executed⟩ := executed
  rw [← clearVmas_currentThread clearing] at other
  have created := ((clearVmas_untouched clearing).trans (initThreadUser_untouched other)).trans
    (alllistKthread_untouched _ cleared.currentThread)
  cases image with
  | none =>
    cases executed
    exact created
  | some image =>
    simp only [doExec1, Option.bind_eq_bind, Option.bind_eq_some_iff, Option.pure_def] at executed
    obtain ⟨mapped, mapping, executed⟩ := executed
    cases executed
    exact (created.trans (mmapAreas_untouched mapping)).trans (runnableKthread_untouched mapped _)

theorem countDown_alive {currentThread : Tid} {threads counted : Tid → Kthread} {crawl : Option Tid}
    (executed : Threads.countDown threads currentThread crawl = some counted) (thread : Tid) :
    (counted thread).alive = (threads thread).alive := by
  have all : ∀ threads crawl counted, Threads.countDown threads currentThread crawl = some counted →
      ∀ thread, (counted thread).alive = (threads thread).alive := by
    apply Threads.countDown.partial_correctness
    intro recurse hypothesis threads crawl counted executed thread
    cases crawl with
    | none =>
      cases executed
      rfl
    | some crawl =>
      dsimp only at executed
      split at executed
      · cases executed
        rfl
      · rw [hypothesis _ _ _ executed]
        by_cases same : thread = crawl
        · rw [same, Threads.sleep, Function.update_self, Kthread.slept]
          split <;> rfl
        · rw [Threads.sleep, Function.update_of_ne same]
  exact all threads crawl counted executed thread

theorem timerHandler_untouched {clock later : Clock} (executed : timerHandler k clock = some (next, later)) :
    Untouched thread k next := by
  simp only [timerHandler] at executed
  split at executed
  · simp only [Option.bind_eq_bind, Option.bind_eq_some_iff] at executed
    obtain ⟨threads, counted, executed⟩ := executed
    cases executed
    exact ⟨countDown_alive counted thread, rfl⟩
  · cases executed
    exact ⟨rfl, rfl⟩

end Untouched

/-- A thread is in neither list, but its links still lead into both. -/
structure Gone (k : Kernel) (front back listFront listBack : List Tid) (thread : Tid) : Prop where
  queue : threadQ.Stale k.threads k.runQueue front back thread
  list : threadList.Stale k.threads k.allThreadList listFront listBack thread

theorem Gone.unlisted {k : Kernel} {front back listFront listBack : List Tid} {thread : Tid}
    (gone : Gone k front back listFront listBack thread) :
    Gone (unlisted k thread) front back listFront listBack thread :=
  ⟨unlisted_queue gone.queue, unlisted_again gone.list⟩

theorem Gone.framed {k next : Kernel} {front back listFront listBack : List Tid} {thread : Tid}
    (gone : Gone k front back listFront listBack thread) (queues : Framed threadQ.pair k next)
    (lists : Framed threadList.pair k next) : Gone next front back listFront listBack thread := by
  constructor
  · rw [queues.runQueue]
    exact gone.queue.sameLinks (Links.sameLinks_of_pair queues.threads)
  · rw [lists.allThreadList]
    exact gone.list.sameLinks (Links.sameLinks_of_pair lists.threads)

theorem OnJoinList.removed {k : Kernel} {thread : Tid} (child : OnJoinList k thread) :
    ∃ parent next, (k.threads thread).parent = some parent ∧ removeChild k parent thread = some next := by
  obtain ⟨parent, nodes, named, chain, member⟩ := child
  obtain ⟨node, inside, isChild⟩ := List.mem_map.mp member
  cases found : nodes.find? fun node => decide (k.child node = thread) with
  | none => exact absurd (decide_eq_true isChild) (List.find?_eq_none.mp found node inside)
  | some first =>
    obtain ⟨accepted, front, back, rfl, others⟩ := List.find?_eq_some_iff_append.mp found
    obtain ⟨next, removed, _⟩ := removeChild_disowned chain (of_decide_eq_true accepted)
      (fun other early => of_decide_eq_false (Bool.eq_false_iff.mpr (by simpa using others other early)))
    exact ⟨parent, next, named, removed⟩

theorem OnJoinList.congr {k next : Kernel} {thread : Tid} (child : OnJoinList k thread)
    (threads : ∀ other, relations (next.threads other) = relations (k.threads other)) (joins : next.joins = k.joins) :
    OnJoinList next thread := by
  obtain ⟨parent, nodes, named, chain, member⟩ := child
  refine ⟨parent, nodes, ?_, ?_, ?_⟩
  · exact (congrArg (fun view => view.2.1) (threads thread)).trans named
  · rw [joins, show (next.threads parent).headNext = _ from congrArg (fun view => view.2.2) (threads parent)]
    exact chain
  · rw [show next.child = k.child by unfold Kernel.child; rw [joins]]
    exact member

/-- The removal in `sys_exit` of a thread that is gone changes neither list. -/
theorem Gone.sysExit {k : Kernel} {front back listFront listBack : List Tid}
    (gone : Gone k front back listFront listBack k.currentThread) (entered : k.Entered k.currentThread)
    (child : OnJoinList k k.currentThread) :
    ∃ next, sysExit k = some next ∧ Gone next front back listFront listBack k.currentThread := by
  have related : ∀ other, relations ((Thread.unlisted k k.currentThread).threads other) = relations (k.threads other) :=
    unlisted_view relations (fun _ _ => rfl) (fun _ _ => rfl) (fun _ _ => rfl) (fun _ _ => rfl)
  obtain ⟨parent, cleaned, named, removed⟩ := (child.congr related rfl).removed
  obtain ⟨index, located, entry⟩ := entered
  have cleaning : threadCleanup k k.currentThread = some cleaned := by
    rw [threadCleanup_eq, named]
    exact removed
  have exits : Thread.sysExit k = some (freePid (cleaned.storePtable index none)) := by
    rw [Thread.sysExit, show ptableIndex (k.threads k.currentThread).pid = some index from located]
    simp only [Option.bind_eq_bind, Option.bind_some, entry, cleaning]
    rfl
  have kept : Gone cleaned front back listFront listBack k.currentThread := gone.unlisted.framed
    (removeChild_framed (fun _ _ => rfl) removed) (removeChild_framed (fun _ _ => rfl) removed)
  exact ⟨_, exits, kept.queue, kept.list⟩

theorem kill_gone {s : Machine} {front back listFront listBack : List Tid}
    (queue : threadQ.Stale s.kernel.threads s.kernel.runQueue front back s.kernel.currentThread)
    (list : threadList.Represents s.kernel.threads s.kernel.allThreadList
      (listFront ++ s.kernel.currentThread :: listBack))
    (entered : s.kernel.Entered s.kernel.currentThread) (child : OnJoinList s.kernel s.kernel.currentThread) :
    ∃ killed, kill s = some killed ∧ Gone killed.kernel front back listFront listBack s.kernel.currentThread ∧
      killed.kernel.currentThread = s.kernel.currentThread ∧
      (killed.kernel.threads s.kernel.currentThread).alive = false := by
  have queueKept : threadQ.SameLinks s.kernel.threads (dying s.kernel).threads :=
    Links.sameLinks_of_pair (updateThread_view threadQ.pair fun _ => rfl)
  have listKept : threadList.SameLinks s.kernel.threads (dying s.kernel).threads :=
    Links.sameLinks_of_pair (updateThread_view threadList.pair fun _ => rfl)
  have gone : Gone (unlisted (dying s.kernel) s.kernel.currentThread) front back listFront listBack
      s.kernel.currentThread :=
    ⟨unlisted_queue (queue.sameLinks queueKept), unlisted_list (list.sameLinks listKept)⟩
  have related : ∀ other, relations ((unlisted (dying s.kernel) s.kernel.currentThread).threads other) =
      relations (s.kernel.threads other) := by
    intro other
    rw [unlisted_view relations (fun _ _ => rfl) (fun _ _ => rfl) (fun _ _ => rfl) (fun _ _ => rfl), dying]
    apply updateThread_view
    intro page
    rfl
  obtain ⟨index, located, entry⟩ := entered
  have pid : (unlisted (dying s.kernel) s.kernel.currentThread).pid s.kernel.currentThread = _ :=
    congrArg Prod.fst (related s.kernel.currentThread)
  obtain ⟨next, exits, kept⟩ :=
    gone.sysExit ⟨index, (congrArg ptableIndex pid).trans located, entry⟩ (child.congr related rfl)
  obtain ⟨alive, current⟩ := (unlisted_untouched (dying s.kernel) s.kernel.currentThread).trans
    (sysExit_untouched exits : Untouched s.kernel.currentThread _ next)
  refine ⟨{ s with kernel := next }, ?_, kept, current, ?_⟩
  · rw [kill_eq, exits]
    rfl
  · rw [alive, dying, updateThread_self]

section Fault

variable {base fault : BitVec 64} {s next : Machine} {vma : VmaAddr} {thread : Tid}

theorem extendStack_untouched (other : thread ≠ s.kernel.currentThread)
    (executed : extendStack base s vma = some next) : Untouched thread s.kernel next.kernel := by
  simp only [extendStack, Option.bind_eq_bind, Option.bind_eq_some_iff, Option.pure_def, Prod.exists] at executed
  obtain ⟨_, _, _, _, _, _, _, _, kernel, grown, equal⟩ := executed
  cases equal
  simp only [growStack, mmapArea, Option.bind_eq_bind, Option.bind_eq_some_iff] at grown
  obtain ⟨cache, _, mapped⟩ := grown
  have inserted : Framed Kthread.alive _ kernel := insertVma_framed (fun _ _ => rfl) (fun _ _ => rfl) mapped
  refine ⟨(inserted.threads thread).trans ?_, inserted.currentThread⟩
  dsimp only
  rw [updateThread_other _ other]

theorem copyPage_kernel (executed : copyPage base s fault = some next) : next.kernel = s.kernel := by
  simp only [copyPage, Option.bind_eq_bind, Option.bind_eq_some_iff, Option.pure_def, Prod.exists] at executed
  obtain ⟨_, _, _, _, _, _, _, _, _, _, equal⟩ := executed
  cases equal
  rfl

theorem kill_untouched (other : thread ≠ s.kernel.currentThread) (executed : kill s = some next) :
    Untouched thread s.kernel next.kernel := by
  rw [kill_eq, Option.map_eq_some_iff] at executed
  obtain ⟨kernel, exits, rfl⟩ := executed
  have marked : Untouched thread s.kernel (dying s.kernel) := updateThread_untouched other _
  exact (marked.trans (unlisted_untouched _ _)).trans (sysExit_untouched exits)

theorem pageFaultHandler_untouched (other : thread ≠ s.kernel.currentThread)
    (executed : pageFaultHandler base s fault vma = some next) : Untouched thread s.kernel next.kernel := by
  rw [pageFaultHandler_eq, Option.bind_eq_some_iff] at executed
  obtain ⟨near, _, executed⟩ := executed
  cases near with
  | some area =>
    dsimp only at executed
    split at executed
    · exact extendStack_untouched other executed
    · exact kill_untouched other executed
  | none =>
    obtain ⟨entry, _, executed⟩ := Option.bind_eq_some_iff.mp executed
    split at executed
    · rw [copyPage_kernel executed]
      exact ⟨rfl, rfl⟩
    · exact kill_untouched other executed

end Fault

theorem nextRunnableKthread_alive {k next : Kernel} {thread : Tid}
    (taken : nextRunnableKthread k = some (thread, next)) : (k.threads thread).alive = true := by
  obtain ⟨scanned, _⟩ := nextRunnableKthread_scan taken
  have ready := scan_accepts scanned
  exact (Bool.and_eq_true_iff.mp ready).2

structure Buried (thread : Tid) (k : Kernel) : Prop where
  alive : (k.threads thread).alive = false
  current : k.currentThread ≠ thread

section Buried

variable {k next : Kernel} {thread : Tid}

theorem Buried.untouched (buried : Buried thread k) (untouched : Untouched thread k next) : Buried thread next :=
  ⟨untouched.alive.trans buried.alive, untouched.currentThread.symm ▸ buried.current⟩

theorem not_taken (dead : (k.threads thread).alive = false) : nextRunnableKthread k ≠ some (thread, next) := by
  intro taken
  rw [nextRunnableKthread_alive taken] at dead
  cases dead

theorem schedule_buried (dead : (k.threads thread).alive = false) (executed : schedule k = some next) :
    Buried thread next := by
  simp only [schedule, Option.bind_eq_bind, Option.bind_eq_some_iff, Option.pure_def, Prod.exists] at executed
  obtain ⟨runnable, middle, taken, equal⟩ := executed
  cases equal
  constructor
  · obtain ⟨_, rfl⟩ := nextRunnableKthread_scan taken
    exact (Links.view_remove Kthread.alive (fun _ _ => rfl) (fun _ _ => rfl) runnable thread).trans dead
  · rintro rfl
    exact not_taken dead taken

theorem Buried.resume (buried : Buried thread k) (executed : resume k = some next) : Buried thread next :=
  schedule_buried (buried.untouched (runnableKthread_untouched k k.currentThread)).alive executed

end Buried

theorem Processes.perform_buried {s next : Processes} {action : Action} {thread : Tid} (buried : Buried thread s.kernel)
    (page : thread ∈ s.pages) (executed : s.perform action = some next) :
    Buried thread next.kernel ∧ thread ∈ next.pages := by
  match action with
  | .call (.doExec fresh segments stack heap) =>
    obtain ⟨new, kernel, executing, rfl⟩ := act_doExec executed
    have other : thread ≠ fresh := fun same => new (same ▸ page)
    exact ⟨buried.untouched (doExec_untouched other executing), List.mem_cons_of_mem _ page⟩
  | .call (.fork fresh temp) =>
    obtain ⟨new, kernel, forking, rfl⟩ := act_fork executed
    have other : thread ≠ fresh := fun same => new (same ▸ page)
    exact ⟨buried.untouched (fork_untouched other forking), List.mem_cons_of_mem _ page⟩
  | .call .exit =>
    obtain ⟨left, kernel, exiting, scheduling, rfl⟩ := act_exit executed
    exact ⟨schedule_buried (buried.untouched (sysExit_untouched exiting)).alive scheduling, page⟩
  | .call .switch =>
    obtain ⟨kernel, scheduling, rfl⟩ := act_switch executed
    exact ⟨buried.resume scheduling, page⟩
  | .execve image =>
    simp only [Thread.Processes.perform, Option.bind_eq_bind, Option.bind_eq_some_iff] at executed
    obtain ⟨kernel, executing, last, scheduling, executed⟩ := executed
    cases executed
    exact ⟨schedule_buried (buried.untouched (mainExecve_untouched buried.current.symm executing)).alive scheduling,
      page⟩

/-- No process, no interrupt and no fault brings a dead thread back. -/
theorem System.step_buried {s next : System} {happening : Happening} {thread : Tid} (buried : Buried thread s.kernel)
    (page : thread ∈ s.processes.pages) (executed : s.step happening = some next) :
    Buried thread next.kernel ∧ thread ∈ next.processes.pages := by
  cases happening with
  | action action =>
    simp only [System.step, Option.bind_eq_bind, Option.bind_eq_some_iff] at executed
    obtain ⟨processes, performed, executed⟩ := executed
    cases executed
    exact Processes.perform_buried buried page performed
  | startKthread fresh =>
    simp only [System.step, Option.ite_none_left_eq_some, Option.bind_eq_bind, Option.bind_eq_some_iff] at executed
    obtain ⟨new, kernel, starting, executed⟩ := executed
    cases executed
    have other : thread ≠ fresh := fun same => new (same ▸ page)
    exact ⟨buried.untouched (startKthread_untouched other starting), List.mem_cons_of_mem _ page⟩
  | exitThread =>
    obtain ⟨kernel, scheduling, rfl⟩ := Option.map_eq_some_iff.mp executed
    have marked : Untouched thread s.kernel (dying s.kernel) := updateThread_untouched buried.current.symm _
    exact ⟨schedule_buried (buried.untouched marked).alive scheduling, page⟩
  | sleep time =>
    cases executed
    have slept : Untouched thread s.kernel (sleep s.kernel time) := updateThread_untouched buried.current.symm _
    exact ⟨buried.untouched slept, page⟩
  | timer =>
    simp only [System.step, Option.bind_eq_bind, Option.bind_eq_some_iff, Prod.exists] at executed
    obtain ⟨kernel, clock, ticked, executed⟩ := executed
    cases executed
    exact ⟨buried.untouched (timerHandler_untouched ticked), page⟩
  | fault base fault vma =>
    simp only [System.step, Option.bind_eq_bind, Option.bind_eq_some_iff] at executed
    obtain ⟨m, handled, kernel, resumed, executed⟩ := executed
    cases executed
    have kept : Untouched thread s.kernel m.kernel := pageFaultHandler_untouched buried.current.symm handled
    exact ⟨(buried.untouched kept).resume resumed, page⟩

theorem TakenFrom.stale {k : Kernel} {queued : List Tid} (taken : TakenFrom k queued) :
    ∃ front back, queued = front ++ k.currentThread :: back ∧ queued.Nodup ∧
      threadQ.Stale k.threads k.runQueue front back k.currentThread := by
  obtain ⟨before, after, queue, taken, links, runQueue⟩ := taken.taken
  obtain ⟨front, back, rfl, _, _, rfl, _⟩ := nextRunnableKthread_cases queue taken
  refine ⟨front, back, rfl, queue.nodup, ?_⟩
  rw [runQueue]
  exact (Links.Represents.stale queue).sameLinks links

/-- Killing the current thread leaves the other threads in their places in both lists, and it never runs again. -/
theorem kill_preserves_scheduler (s : System) (thread : Tid) (queued order : List Tid)
    (current : s.kernel.currentThread = thread) (taken : TakenFrom s.kernel queued)
    (listed : threadList.Represents s.kernel.threads s.kernel.allThreadList order) (member : thread ∈ order)
    (entered : s.kernel.Entered thread) (child : OnJoinList s.kernel thread) (page : thread ∈ s.processes.pages) :
    ∃ killed, kill s.machine = some killed ∧ killed.kernel.currentThread = thread ∧
      (runnableKthread killed.kernel thread).Queued (queued.erase thread ++ [thread]) ∧
      threadList.Represents (runnableKthread killed.kernel thread).threads
        (runnableKthread killed.kernel thread).allThreadList (order.erase thread) ∧
      (∀ next, nextRunnableKthread (runnableKthread killed.kernel thread) ≠ some (thread, next)) ∧
      ∀ kernel happenings, schedule (runnableKthread killed.kernel thread) = some kernel →
        Throughout System.step (fun later => later.kernel.currentThread ≠ thread ∧
          ∀ next, nextRunnableKthread later.kernel ≠ some (thread, next)) (s.withKernel kernel) happenings := by
  subst current
  obtain ⟨front, back, rfl, nodup, stale⟩ := taken.stale
  obtain ⟨listFront, listBack, rfl⟩ := List.append_of_mem member
  obtain ⟨killed, killing, gone, current, dead⟩ := kill_gone (s := s.machine) stale listed entered child
  have dead : ((runnableKthread killed.kernel s.kernel.currentThread).threads s.kernel.currentThread).alive = false :=
    (runnableKthread_untouched killed.kernel s.kernel.currentThread).alive.trans dead
  refine ⟨killed, killing, current, ?_, ?_, fun _ => not_taken dead, ?_⟩
  · rw [erase_middle nodup]
    refine runnableKthread_queued gone.queue.represents ?_
    exact (List.nodup_cons.mp (List.perm_middle.nodup_iff.mp nodup)).1
  · rw [erase_middle listed.nodup]
    exact (runnableKthread_listKept killed.kernel _).represents gone.list.represents
  · intro kernel happenings scheduled before isPrefix later executed
    have buried : Buried s.kernel.currentThread later.kernel ∧ s.kernel.currentThread ∈ later.processes.pages := by
      refine run_preserves
        (fun later => Buried s.kernel.currentThread later.kernel ∧ s.kernel.currentThread ∈ later.processes.pages)
        ?_ ⟨schedule_buried dead scheduled, page⟩ executed
      intro state happening next kept stepped
      exact System.step_buried kept.1 kept.2 stepped
    exact ⟨buried.1.current, fun _ => not_taken buried.1.alive⟩

def oneListed : Kernel :=
  let threads _ := { zeroPage with alive := true, pid := 2, parent := some 1, headNext := some 0 }
  let joins _ := ⟨2, none⟩
  let ptable _ := some 2
  alllistKthread { bootKernel with threads, joins, ptable } 2

def twoQueued : Kernel := runnableKthread (runnableKthread oneListed 2) 3

def faulting : System where
  processes := ⟨{ dequeued twoQueued 2 with currentThread := 2 }, [2, 3], [2, 3]⟩
  memory _ := 0
  mmgr := ⟨fun _ => 0, 0, 0⟩
  pages := []
  clock := bootClock

theorem twoQueued_queued : twoQueued.Queued [2, 3] := by
  have empty : oneListed.Queued [] := Links.represents_nil _
  exact runnableKthread_queued (runnableKthread_queued empty List.not_mem_nil) (by decide)

theorem kill_preserves_second :
    ∃ killed, kill faulting.machine = some killed ∧ (runnableKthread killed.kernel 2).Queued [3, 2] ∧
      threadList.Represents (runnableKthread killed.kernel 2).threads
        (runnableKthread killed.kernel 2).allThreadList [] := by
  have running : nextRunnableKthread twoQueued = some (2, dequeued twoQueued 2) := by
    rw [nextRunnableKthread_eq twoQueued_queued]
    rfl
  have listed : threadList.Represents faulting.kernel.threads faulting.kernel.allThreadList [2] := by
    refine ⟨rfl, rfl, ?_, by simp⟩
    exact ⟨rfl, rfl, trivial⟩
  obtain ⟨killed, killing, _, queue, list, _⟩ := kill_preserves_scheduler faulting 2 [2, 3] [2] rfl
    ⟨twoQueued, dequeued twoQueued 2, twoQueued_queued, running, fun _ => ⟨rfl, rfl⟩, rfl⟩ listed (by simp)
    ⟨2, rfl, rfl⟩ ⟨1, [0], rfl, ⟨rfl, rfl⟩, by simp [Kernel.child]; rfl⟩ (by simp [faulting])
  exact ⟨killed, killing, queue, list⟩

end Sbunix.Fault
