import Sbunix.Library.Run
import Sbunix.Thread.Lifecycle

namespace Sbunix.Thread

open Library

structure Processes where
  kernel : Kernel
  live : List Tid
  pages : List Tid

/-- A system call or a switch, with the pages and elements that `sub_malloc` returns to it. -/
inductive Call where
  | doExec (page : Tid) (segments : List (VmaAddr × BitVec 64)) (stack heap : VmaAddr)
  | fork (page : Tid) (temp : JoinAddr)
  | exit
  | switch

def act (s : Processes) : Call → Option Processes
  | .doExec page segments stack heap =>
    if page ∈ s.pages then none
    else do
      let kernel ← doExec s.kernel page segments stack heap
      return ⟨kernel, page :: s.live, page :: s.pages⟩
  | .fork page temp =>
    if page ∈ s.pages then none
    else do
      let kernel ← fork s.kernel page temp
      return ⟨kernel, page :: s.live, page :: s.pages⟩
  | .exit => do
    let kernel ← schedule (← sysExit s.kernel)
    return { s with kernel, live := s.live.erase s.kernel.currentThread }
  | .switch => do
    let kernel ← schedule (runnableKthread s.kernel s.kernel.currentThread)
    return { s with kernel }

section Act

variable {s next : Processes} {page : Tid}

theorem act_doExec {segments : List (VmaAddr × BitVec 64)} {stack heap : VmaAddr}
    (executed : act s (.doExec page segments stack heap) = some next) :
    page ∉ s.pages ∧ ∃ kernel, doExec s.kernel page segments stack heap = some kernel ∧
      next = ⟨kernel, page :: s.live, page :: s.pages⟩ := by
  simp only [act, Option.ite_none_left_eq_some, Option.bind_eq_bind, Option.bind_eq_some_iff] at executed
  obtain ⟨new, kernel, executing, executed⟩ := executed
  cases executed
  exact ⟨new, kernel, executing, rfl⟩

theorem act_fork {temp : JoinAddr} (executed : act s (.fork page temp) = some next) :
    page ∉ s.pages ∧ ∃ kernel, fork s.kernel page temp = some kernel ∧
      next = ⟨kernel, page :: s.live, page :: s.pages⟩ := by
  simp only [act, Option.ite_none_left_eq_some, Option.bind_eq_bind, Option.bind_eq_some_iff] at executed
  obtain ⟨new, kernel, forking, executed⟩ := executed
  cases executed
  exact ⟨new, kernel, forking, rfl⟩

theorem act_exit (executed : act s .exit = some next) :
    ∃ left kernel, sysExit s.kernel = some left ∧ schedule left = some kernel ∧
      next = ⟨kernel, s.live.erase s.kernel.currentThread, s.pages⟩ := by
  simp only [act, Option.bind_eq_bind, Option.bind_eq_some_iff] at executed
  obtain ⟨left, exiting, kernel, scheduling, executed⟩ := executed
  cases executed
  exact ⟨left, kernel, exiting, scheduling, rfl⟩

theorem act_switch (executed : act s .switch = some next) :
    ∃ kernel, schedule (runnableKthread s.kernel s.kernel.currentThread) = some kernel ∧
      next = ⟨kernel, s.live, s.pages⟩ := by
  simp only [act, Option.bind_eq_bind, Option.bind_eq_some_iff] at executed
  obtain ⟨kernel, scheduling, executed⟩ := executed
  cases executed
  exact ⟨kernel, scheduling, rfl⟩

end Act

def Kernel.initial (k : Kernel) : Kernel :=
  { bootKernel with threads := k.threads, joins := k.joins, vmas := k.vmas }

def boot (k : Kernel) (mainThread start : Tid) : Option Processes := do
  let kernel ← schedulerInit k.initial mainThread start
  return ⟨kernel, [start, mainThread], [start, mainThread]⟩

def Kernel.pid (k : Kernel) (thread : Tid) : Int := (k.threads thread).pid

def Kernel.Entered (k : Kernel) (thread : Tid) : Prop :=
  ∃ index, ptableIndex (k.pid thread) = some index ∧ k.ptable index = some thread

/-- Live threads differ in their pids, and all but the boot thread are in the process table. -/
structure Processes.PidsUnique (s : Processes) (mainThread : Tid) : Prop where
  distinct : ∀ left ∈ s.live, ∀ right ∈ s.live, s.kernel.pid left = s.kernel.pid right → left = right
  entered : ∀ thread ∈ s.live, thread ≠ mainThread → s.kernel.Entered thread

/-- No live thread has the pid that the counter gives next. -/
def freshPid (s : Processes) : Call → Prop
  | .doExec .. | .fork .. => ∀ thread ∈ s.live, s.kernel.pid thread ≠ s.kernel.nextFreePid + 1
  | .exit | .switch => True

structure Processes.Sound (s : Processes) (mainThread : Tid) (queued : List Tid) : Prop where
  queue : s.kernel.Queued queued
  current : s.kernel.currentThread ∉ queued
  running : ∀ thread ∈ s.kernel.currentThread :: queued,
    thread ∈ s.live ∧ thread ≠ mainThread ∧ (s.kernel.threads thread).ready = true
  prevLink : (s.kernel.threads s.kernel.currentThread).prevInThreadQ = none
  nextLink : (s.kernel.threads s.kernel.currentThread).nextInThreadQ = none ∨
    (s.kernel.threads s.kernel.currentThread).nextInThreadQ = queued.head?
  nodup : s.live.Nodup
  pages : ∀ thread ∈ s.live, thread ∈ s.pages
  booted : mainThread ∈ s.pages
  unique : s.PidsUnique mainThread

theorem ptableIndex_injective {left right : Int} {index : Fin 100} (first : ptableIndex left = some index)
    (second : ptableIndex right = some index) : left = right := by
  unfold ptableIndex at first second
  split at first
  · split at second
    · have same := (Option.some.inj first).trans (Option.some.inj second).symm
      have value := congrArg Fin.val same
      dsimp only at value
      omega
    · cases second
  · cases first

theorem Kernel.Entered.of_update {k next : Kernel} {thread : Tid} {index : Fin 100} {value : Option Tid}
    (entered : k.Entered thread) (pid : next.pid thread = k.pid thread)
    (ptable : next.ptable = Function.update k.ptable index value)
    (different : ptableIndex (k.pid thread) ≠ some index) : next.Entered thread := by
  obtain ⟨slot, located, entry⟩ := entered
  refine ⟨slot, by rw [pid, located], ?_⟩
  have apart : slot ≠ index := by
    intro same
    exact different (by rw [located, same])
  rw [ptable, Function.update_of_ne apart, entry]

theorem Processes.PidsUnique.of_identity {s next : Processes} {mainThread : Tid}
    (unique : s.PidsUnique mainThread) (live : ∀ thread ∈ next.live, thread ∈ s.live)
    (identity : ∀ thread, (next.kernel.threads thread).identity = (s.kernel.threads thread).identity)
    (entered : ∀ thread ∈ next.live, thread ≠ mainThread → next.kernel.Entered thread) :
    next.PidsUnique mainThread := by
  refine ⟨?_, entered⟩
  intro left leftLive right rightLive same
  apply unique.distinct left (live left leftLive) right (live right rightLive)
  rw [Kernel.pid, Kernel.pid, ← Kthread.pid_of_identity (identity left),
    ← Kthread.pid_of_identity (identity right)]
  exact same

theorem Kernel.Entered.congr {k next : Kernel} {thread : Tid} (entered : k.Entered thread)
    (identity : (next.threads thread).identity = (k.threads thread).identity)
    (ptable : next.ptable = k.ptable) : next.Entered thread := by
  obtain ⟨slot, located, entry⟩ := entered
  refine ⟨slot, ?_, by rw [ptable, entry]⟩
  rw [Kernel.pid, Kthread.pid_of_identity identity]
  exact located

theorem Processes.Sound.scheduled {k next : Kernel} {live pages queued : List Tid} {mainThread : Tid}
    (queue : k.Queued queued)
    (running : ∀ thread ∈ queued, thread ∈ live ∧ thread ≠ mainThread ∧ (k.threads thread).ready = true)
    (nodup : live.Nodup) (allocated : ∀ thread ∈ live, thread ∈ pages) (booted : mainThread ∈ pages)
    (unique : (⟨k, live, pages⟩ : Processes).PidsUnique mainThread) (executed : schedule k = some next) :
    ∃ back, (⟨next, live, pages⟩ : Processes).Sound mainThread back := by
  obtain ⟨runnable, back, rfl, chosen⟩ :=
    schedule_ready queue (fun thread member => (running thread member).2.2) executed
  have absent := (List.nodup_cons.mp queue.nodup).1
  refine ⟨back, chosen.queue, ?_, ?_, ?_, ?_, nodup, allocated, booted, ?_⟩
  · dsimp only
    rw [chosen.currentThread]
    exact absent
  · intro thread member
    dsimp only at member ⊢
    rw [chosen.currentThread] at member
    obtain ⟨alive, notMain, ready⟩ := running thread member
    exact ⟨alive, notMain, (Kthread.ready_of_identity (chosen.identity thread)).trans ready⟩
  · dsimp only
    rw [chosen.currentThread]
    exact chosen.prevLink
  · dsimp only
    rw [chosen.currentThread]
    exact Or.inr chosen.nextLink
  · refine unique.of_identity (fun thread member => member) chosen.identity ?_
    intro thread member notMain
    exact (unique.entered thread member notMain).congr (chosen.identity thread) chosen.ptable

theorem Processes.Sound.switch {s next : Processes} {mainThread : Tid} {queued : List Tid}
    (sound : s.Sound mainThread queued) (executed : act s .switch = some next) :
    ∃ back, next.Sound mainThread back := by
  obtain ⟨kernel, scheduling, rfl⟩ := act_switch executed
  have identity := runnableKthread_identity s.kernel s.kernel.currentThread
  apply Sound.scheduled (runnableKthread_queued sound.queue sound.current) ?_ sound.nodup sound.pages
    sound.booted ?_ scheduling
  · intro thread member
    have running := sound.running thread (by
      rw [List.mem_append, List.mem_singleton, or_comm] at member
      exact List.mem_cons.mpr member)
    exact ⟨running.1, running.2.1, (Kthread.ready_of_identity (identity thread)).trans running.2.2⟩
  · refine sound.unique.of_identity (fun thread member => member) identity ?_
    intro thread member notMain
    exact (sound.unique.entered thread member notMain).congr (identity thread) rfl

theorem Processes.Sound.exit {s next : Processes} {mainThread : Tid} {queued : List Tid}
    (sound : s.Sound mainThread queued) (executed : act s .exit = some next) :
    ∃ back, next.Sound mainThread back := by
  obtain ⟨left, kernel, exiting, scheduling, rfl⟩ := act_exit executed
  obtain ⟨alive, notMain, _⟩ := sound.running s.kernel.currentThread (by simp)
  obtain ⟨index, located, entry⟩ := sound.unique.entered _ alive notMain
  obtain ⟨exited, kept | lost⟩ := sysExit_spec sound.queue sound.prevLink sound.nextLink located entry exiting
  · have remaining : ∀ thread ∈ s.live.erase s.kernel.currentThread,
        thread ≠ s.kernel.currentThread ∧ thread ∈ s.live := by
      intro thread member
      exact (List.Nodup.mem_erase_iff sound.nodup).mp member
    refine Sound.scheduled kept ?_ (sound.nodup.erase _)
      (fun thread member => sound.pages thread (remaining thread member).2) sound.booted ?_ scheduling
    · intro thread member
      have running := sound.running thread (List.mem_cons_of_mem _ member)
      have different : thread ≠ s.kernel.currentThread := by
        intro same
        exact sound.current (same ▸ member)
      exact ⟨(List.mem_erase_of_ne different).mpr running.1, running.2.1,
        (Kthread.ready_of_identity (exited.identity thread)).trans running.2.2⟩
    · refine sound.unique.of_identity (fun thread member => (remaining thread member).2) exited.identity ?_
      intro thread member other
      obtain ⟨different, member⟩ := remaining thread member
      apply (sound.unique.entered thread member other).of_update
        (Kthread.pid_of_identity (exited.identity thread)) exited.ptable
      intro same
      exact different (sound.unique.distinct thread member _ alive (ptableIndex_injective same located))
  · exact absurd scheduling (schedule_empty lost)

theorem Created.pid {k next : Kernel} {page : Tid} (created : Created k next page) :
    next.pid page = k.nextFreePid + 1 ∧ ∀ thread, thread ≠ page → next.pid thread = k.pid thread := by
  obtain ⟨middle, index, _, prepared, rfl⟩ := created
  have identity := runnableKthread_identity middle page
  refine ⟨(Kthread.pid_of_identity (identity page)).trans prepared.pid, ?_⟩
  intro thread different
  exact (Kthread.pid_of_identity (identity thread)).trans
    (Kthread.pid_of_identity (Kthread.identity_of_core (prepared.others thread different)))

theorem Created.ready {k next : Kernel} {page : Tid} (created : Created k next page) (thread : Tid)
    (before : thread ≠ page → (k.threads thread).ready = true) : (next.threads thread).ready = true := by
  obtain ⟨middle, index, _, prepared, rfl⟩ := created
  rw [Kthread.ready_of_identity (runnableKthread_identity middle page thread)]
  by_cases same : thread = page
  · rw [same]
    exact prepared.ready
  · rw [Kthread.ready_of_identity (Kthread.identity_of_core (prepared.others thread same))]
    exact before same

theorem Processes.PidsUnique.created {s : Processes} {next : Kernel} {mainThread page : Tid}
    (unique : s.PidsUnique mainThread) (unborn : page ∉ s.live)
    (unused : ∀ thread ∈ s.live, s.kernel.pid thread ≠ s.kernel.nextFreePid + 1)
    (created : Created s.kernel next page) :
    (⟨next, page :: s.live, page :: s.pages⟩ : Processes).PidsUnique mainThread := by
  have other (thread : Tid) (member : thread ∈ s.live) : thread ≠ page := by
    intro same
    exact unborn (same ▸ member)
  obtain ⟨newPid, oldPid⟩ := created.pid
  obtain ⟨middle, index, located, prepared, rfl⟩ := created
  constructor
  · intro left leftLive right rightLive same
    dsimp only at same
    rcases List.mem_cons.mp leftLive with rfl | leftOld
    · rcases List.mem_cons.mp rightLive with rfl | rightOld
      · rfl
      · rw [newPid, oldPid right (other right rightOld)] at same
        exact absurd same.symm (unused right rightOld)
    · rcases List.mem_cons.mp rightLive with rfl | rightOld
      · rw [newPid, oldPid left (other left leftOld)] at same
        exact absurd same (unused left leftOld)
      · rw [oldPid left (other left leftOld), oldPid right (other right rightOld)] at same
        exact unique.distinct left leftOld right rightOld same
  · intro thread member notMain
    have ptable : (runnableKthread middle page).ptable = _ := prepared.ptable
    rcases List.mem_cons.mp member with rfl | old
    · refine ⟨index, by rw [newPid, located], ?_⟩
      rw [ptable, Function.update_self]
    · apply (unique.entered thread old notMain).of_update (oldPid thread (other thread old)) ptable
      intro same
      exact unused thread old (ptableIndex_injective same located)

theorem Created.queue {k next : Kernel} {page : Tid} {queued : List Tid} (created : Created k next page)
    (queue : k.Queued queued) (absent : page ∉ queued) (current : k.currentThread ∉ queued)
    (notCurrent : k.currentThread ≠ page) :
    next.Queued (queued ++ [page]) ∧ next.currentThread = k.currentThread ∧
      (next.threads k.currentThread).core = (k.threads k.currentThread).core := by
  obtain ⟨middle, index, _, prepared, rfl⟩ := created
  have kept : middle.Queued queued := by
    apply queued_of_core queue ?_ prepared.runQueue
    intro thread member
    apply prepared.others
    intro same
    exact absent (same ▸ member)
  refine ⟨runnableKthread_queued kept absent, prepared.currentThread, ?_⟩
  rw [← prepared.others k.currentThread notCurrent]
  apply congrArg Kthread.core
  apply Links.append_other notCurrent
  rw [kept.tail]
  intro last
  exact current (List.mem_of_getLast? last)

theorem Processes.Sound.created {s : Processes} {next : Kernel} {mainThread page : Tid} {queued : List Tid}
    (sound : s.Sound mainThread queued) (new : page ∉ s.pages)
    (unused : ∀ thread ∈ s.live, s.kernel.pid thread ≠ s.kernel.nextFreePid + 1)
    (created : Created s.kernel next page) :
    (⟨next, page :: s.live, page :: s.pages⟩ : Processes).Sound mainThread (queued ++ [page]) := by
  have unborn : page ∉ s.live := fun member => new (sound.pages page member)
  have idle : page ∉ s.kernel.currentThread :: queued := fun member => unborn (sound.running page member).1
  rw [List.mem_cons, not_or] at idle
  obtain ⟨queue, current, core⟩ := created.queue sound.queue idle.2 sound.current (Ne.symm idle.1)
  refine ⟨queue, ?_, ?_, ?_, ?_, ?_, ?_, ?_, sound.unique.created unborn unused created⟩
  · dsimp only
    rw [current, List.mem_append, List.mem_singleton, not_or]
    exact ⟨sound.current, Ne.symm idle.1⟩
  · intro thread member
    dsimp only at member ⊢
    rw [current, ← List.cons_append, List.mem_append, List.mem_singleton] at member
    rcases member with old | rfl
    · obtain ⟨alive, notMain, wasReady⟩ := sound.running thread old
      exact ⟨List.mem_cons_of_mem _ alive, notMain, created.ready thread fun _ => wasReady⟩
    · refine ⟨by simp, ?_, created.ready thread fun different => absurd rfl different⟩
      intro same
      exact new (same ▸ sound.booted)
  · dsimp only
    rw [current, Kthread.prev_of_core core]
    exact sound.prevLink
  · dsimp only
    rw [current, Kthread.next_of_core core]
    rcases sound.nextLink with unlinked | linked
    · exact Or.inl unlinked
    · cases queued with
      | nil => exact Or.inl linked
      | cons first rest => exact Or.inr linked
  · exact List.nodup_cons.mpr ⟨unborn, sound.nodup⟩
  · intro thread member
    rcases List.mem_cons.mp member with rfl | old
    · simp
    · exact List.mem_cons_of_mem _ (sound.pages thread old)
  · exact List.mem_cons_of_mem _ sound.booted

/-- A creation with a pid in use breaks the uniqueness at once. -/
theorem Processes.Sound.reused {s : Processes} {next : Kernel} {mainThread page : Tid} {queued : List Tid}
    (sound : s.Sound mainThread queued) (new : page ∉ s.pages)
    (used : ¬ ∀ thread ∈ s.live, s.kernel.pid thread ≠ s.kernel.nextFreePid + 1)
    (created : Created s.kernel next page) :
    ¬ (⟨next, page :: s.live, page :: s.pages⟩ : Processes).PidsUnique mainThread := by
  intro unique
  apply used
  intro thread member same
  have different : thread ≠ page := by
    intro equal
    exact new (equal ▸ sound.pages thread member)
  obtain ⟨newPid, oldPid⟩ := created.pid
  apply different
  apply unique.distinct thread (List.mem_cons_of_mem _ member) page (by simp)
  dsimp only
  rw [newPid, oldPid thread different, same]

theorem Processes.Sound.creation {s next : Processes} {mainThread page : Tid} {queued : List Tid}
    (sound : s.Sound mainThread queued) {call : Call}
    (creates : (∃ segments stack heap, call = .doExec page segments stack heap) ∨ ∃ temp, call = .fork page temp)
    (executed : act s call = some next) :
    page ∉ s.pages ∧ ∃ kernel, Created s.kernel kernel page ∧ next = ⟨kernel, page :: s.live, page :: s.pages⟩ := by
  obtain ⟨alive, _, ready⟩ := sound.running s.kernel.currentThread (by simp)
  rcases creates with ⟨segments, stack, heap, rfl⟩ | ⟨temp, rfl⟩
  · obtain ⟨new, kernel, executing, rfl⟩ := act_doExec executed
    refine ⟨new, kernel, doExec_created ?_ executing, rfl⟩
    intro same
    exact new (same ▸ sound.pages _ alive)
  · obtain ⟨new, kernel, forking, rfl⟩ := act_fork executed
    exact ⟨new, kernel, fork_created ready forking, rfl⟩

theorem boot_sound {k : Kernel} {mainThread start : Tid} {first : Processes} (different : mainThread ≠ start)
    (booted : boot k mainThread start = some first) : ∃ queued, first.Sound mainThread queued := by
  simp only [boot, schedulerInit, Option.bind_eq_bind, Option.bind_eq_some_iff] at booted
  obtain ⟨kernel, ⟨started, starting, scheduling⟩, booted⟩ := booted
  cases booted
  have listed := alllistKthread_unmoved { initThread k.initial mainThread with currentThread := mainThread } mainThread
  generalize alllistKthread { initThread k.initial mainThread with currentThread := mainThread } mainThread =
    listing at listed starting
  have mainPid : listing.pid mainThread = 1 :=
    (Kthread.pid_of_identity (Kthread.identity_of_core (listed.core mainThread))).trans
      (initThread_prepared k.initial mainThread).pid
  have alone : (⟨listing, [mainThread], [mainThread]⟩ : Processes).PidsUnique mainThread := by
    constructor
    · intro left leftLive right rightLive _
      rw [List.mem_singleton.mp leftLive, List.mem_singleton.mp rightLive]
    · intro thread member other
      exact absurd (List.mem_singleton.mp member) other
  have created := startKthread_created starting
  have absent : start ∉ [mainThread] := by simpa using Ne.symm different
  have unique := alone.created absent (by
    intro thread member
    rw [List.mem_singleton.mp member, mainPid]
    dsimp only
    rw [listed.nextFreePid]
    change (1 : Int) ≠ 0 + 1 + 1
    decide) created
  have empty : listing.Queued [] := by
    unfold Kernel.Queued
    rw [listed.runQueue]
    exact Links.represents_nil _
  have queue := (created.queue empty (by simp) (by simp) (by rw [listed.currentThread]; exact different)).1
  apply Processes.Sound.scheduled queue ?_ (by simpa using Ne.symm different) (by simp) (by simp) unique scheduling
  intro thread member
  cases List.mem_singleton.mp member
  exact ⟨by simp, Ne.symm different, created.ready start fun other => absurd rfl other⟩

theorem pids_unique_iff_fresh_pids (k : Kernel) (mainThread start : Tid) (different : mainThread ≠ start)
    (first : Processes) (booted : boot k mainThread start = some first) (calls : List Call) (final : Processes)
    (executed : run act first calls = some final) :
    Throughout act (fun s => s.PidsUnique mainThread) first calls ↔ Admitted act freshPid first calls := by
  apply throughout_iff_admitted (fun s => ∃ queued, s.Sound mainThread queued) _ ?_ ?_ ?_
    (boot_sound different booted) executed
  · intro s call next sound fresh stepped
    obtain ⟨queued, sound⟩ := sound
    cases call with
    | doExec page segments stack heap =>
      obtain ⟨new, kernel, created, rfl⟩ := sound.creation (Or.inl ⟨_, _, _, rfl⟩) stepped
      exact ⟨_, sound.created new fresh created⟩
    | fork page temp =>
      obtain ⟨new, kernel, created, rfl⟩ := sound.creation (Or.inr ⟨_, rfl⟩) stepped
      exact ⟨_, sound.created new fresh created⟩
    | exit => exact sound.exit stepped
    | switch => exact sound.switch stepped
  · intro s sound
    obtain ⟨queued, sound⟩ := sound
    exact sound.unique
  · intro s call next sound stale stepped
    obtain ⟨queued, sound⟩ := sound
    cases call with
    | doExec page segments stack heap =>
      obtain ⟨new, kernel, created, rfl⟩ := sound.creation (Or.inl ⟨_, _, _, rfl⟩) stepped
      exact sound.reused new stale created
    | fork page temp =>
      obtain ⟨new, kernel, created, rfl⟩ := sound.creation (Or.inr ⟨_, rfl⟩) stepped
      exact sound.reused new stale created
    | exit => exact absurd trivial stale
    | switch => exact absurd trivial stale

theorem eq_some_getD {Value : Type} {result : Option Value} (default : Value) (present : result.isSome = true) :
    result = some (result.getD default) := by
  cases result with
  | none => cases present
  | some value => rfl

theorem act_switch_head {s : Processes} {thread : Tid}
    (head : (runnableKthread s.kernel s.kernel.currentThread).runQueue.head = some thread)
    (ready : ((runnableKthread s.kernel s.kernel.currentThread).threads thread).ready = true) :
    act s .switch = some { s with
      kernel := { dequeued (runnableKthread s.kernel s.kernel.currentThread) thread with
        currentThread := thread } } := by
  unfold act
  rw [schedule_head head ready]
  rfl

theorem act_exit_head {s : Processes} {left : Kernel} {thread : Tid} (exiting : sysExit s.kernel = some left)
    (head : left.runQueue.head = some thread) (ready : (left.threads thread).ready = true) :
    act s .exit = some { s with
      kernel := { dequeued left thread with currentThread := thread }
      live := s.live.erase s.kernel.currentThread } := by
  unfold act
  simp only [exiting, Option.bind_eq_bind, Option.bind_some, schedule_head head ready]
  rfl

/-- The boot over zeroed memory, with the boot thread at page 1 and the first thread at page 2. -/
def zeroStarted : Kernel :=
  (startKthread (alllistKthread { initThread bootKernel.initial 1 with currentThread := 1 } 1) 2).getD bootKernel

def zeroBooted : Processes := ⟨{ dequeued zeroStarted 2 with currentThread := 2 }, [2, 1], [2, 1]⟩

theorem boot_zeroBooted : boot bootKernel 1 2 = some zeroBooted := by
  have started : startKthread (alllistKthread { initThread bootKernel.initial 1 with currentThread := 1 } 1) 2 =
      some zeroStarted := eq_some_getD bootKernel (by decide +kernel)
  have scheduled : schedule zeroStarted = some zeroBooted.kernel :=
    schedule_head (by decide +kernel) (by decide +kernel)
  have initialised : schedulerInit bootKernel.initial 1 2 = some zeroBooted.kernel := by
    unfold schedulerInit
    dsimp only
    rw [started, Option.bind_eq_bind, Option.bind_some, scheduled]
  unfold boot
  rw [initialised]
  rfl

def twoChildren : Processes :=
  (run act zeroBooted [.doExec 3 [] 0 1, .doExec 4 [] 2 3]).getD zeroBooted

def olderRuns : Processes :=
  { twoChildren with kernel := { dequeued (runnableKthread twoChildren.kernel 2) 3 with currentThread := 3 } }

def olderExited : Processes :=
  { olderRuns with
    kernel := { dequeued ((sysExit olderRuns.kernel).getD bootKernel) 4 with currentThread := 4 }
    live := [4, 2, 1] }

def pidReused : Processes := (run act olderExited [.doExec 5 [] 4 5]).getD olderExited

theorem twoChildren_run : run act zeroBooted [.doExec 3 [] 0 1, .doExec 4 [] 2 3] = some twoChildren :=
  eq_some_getD zeroBooted (by decide +kernel)

theorem olderExited_run : run act twoChildren [.switch, .exit] = some olderExited := by
  have switched : act twoChildren .switch = some olderRuns :=
    act_switch_head (by decide +kernel) (by decide +kernel)
  have exiting : sysExit olderRuns.kernel = some ((sysExit olderRuns.kernel).getD bootKernel) :=
    eq_some_getD bootKernel (by decide +kernel)
  have live : olderRuns.live.erase olderRuns.kernel.currentThread = [4, 2, 1] := by decide +kernel
  have exited : act olderRuns .exit = some olderExited := by
    rw [act_exit_head exiting (show _ = some 4 by decide +kernel) (by decide +kernel), live]
    rfl
  exact run_cons.mpr ⟨olderRuns, switched, run_cons.mpr ⟨olderExited, exited, rfl⟩⟩

/-- The older of two processes exits, and the next one gets the pid of the younger. -/
theorem older_exit_duplicates_pid :
    boot bootKernel 1 2 = some zeroBooted ∧
    run act zeroBooted ([.doExec 3 [] 0 1, .doExec 4 [] 2 3] ++ ([.switch, .exit] ++ [.doExec 5 [] 4 5])) =
      some pidReused ∧
    4 ∈ pidReused.live ∧ 5 ∈ pidReused.live ∧ pidReused.kernel.pid 4 = pidReused.kernel.pid 5 := by
  refine ⟨boot_zeroBooted, ?_, by decide +kernel, by decide +kernel, by decide +kernel⟩
  refine run_append.mpr ⟨twoChildren, twoChildren_run, run_append.mpr ⟨olderExited, olderExited_run, ?_⟩⟩
  exact eq_some_getD olderExited (by decide +kernel)

theorem two_children_pids_unique :
    Throughout act (fun s => s.PidsUnique 1) zeroBooted [.doExec 3 [] 0 1, .doExec 4 [] 2 3] := by
  rw [pids_unique_iff_fresh_pids bootKernel 1 2 (by decide) zeroBooted boot_zeroBooted _ twoChildren
    twoChildren_run]
  have fresh : ∀ thread ∈ zeroBooted.live, zeroBooted.kernel.pid thread ≠ zeroBooted.kernel.nextFreePid + 1 := by
    decide +kernel
  refine ⟨fresh, ?_⟩
  intro oneChild executed
  have next : ∀ thread ∈ ((act zeroBooted (.doExec 3 [] 0 1)).getD zeroBooted).live,
      ((act zeroBooted (.doExec 3 [] 0 1)).getD zeroBooted).kernel.pid thread ≠
        ((act zeroBooted (.doExec 3 [] 0 1)).getD zeroBooted).kernel.nextFreePid + 1 := by decide +kernel
  rw [executed] at next
  exact ⟨next, fun _ _ => trivial⟩

end Sbunix.Thread
