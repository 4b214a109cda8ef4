import Sbunix.Thread.Areas
import Sbunix.Thread.Pid

namespace Sbunix.Thread

open Library

/-- The calls of the processes, with `execve` of a file that `tarfs_read` finds: its image is `none` when it is no
    ELF file. -/
inductive Action where
  | call (call : Call)
  | execve (image : Option Image)

def Processes.perform (s : Processes) : Action → Option Processes
  | .call call => act s call
  | .execve image => do
    let kernel ← mainExecve s.kernel image
    return { s with kernel := ← schedule kernel }

/-- `allThreadList` is well formed and holds the live threads and no other, each once. -/
def Processes.Listed (s : Processes) : Prop :=
  ∃ order, threadList.Represents s.kernel.threads s.kernel.allThreadList order ∧
    ∀ thread, thread ∈ order ↔ thread ∈ s.live

/-- There is no `execve`, and a thread that exits is the one in the process table under its pid. -/
def keepsList (s : Processes) : Action → Prop
  | .call .exit => s.kernel.Entered s.kernel.currentThread
  | .call (.doExec ..) | .call (.fork ..) | .call .switch => True
  | .execve _ => False

def Kthread.listing (thread : Kthread) : Int × Option Tid × Option Tid :=
  (thread.pid, thread.prevInThreadList, thread.nextInThreadList)

structure ListKept (k next : Kernel) : Prop where
  listing : ∀ thread, (next.threads thread).listing = (k.threads thread).listing
  allThreadList : next.allThreadList = k.allThreadList
  ptable : next.ptable = k.ptable

section ListKept

variable {k middle next : Kernel} {order : List Tid}

theorem Framed.listKept (framed : Framed Kthread.listing k next) : ListKept k next :=
  ⟨framed.threads, framed.allThreadList, framed.ptable⟩

theorem updateThread_listKept {thread : Tid} {change : Kthread → Kthread}
    (same : ∀ page, (change page).listing = page.listing) : ListKept k (k.updateThread thread change) :=
  (updateThread_framed same).listKept

theorem ListKept.trans (first : ListKept k middle) (second : ListKept middle next) : ListKept k next :=
  ⟨fun thread => (second.listing thread).trans (first.listing thread),
    second.allThreadList.trans first.allThreadList, second.ptable.trans first.ptable⟩

theorem ListKept.symm (kept : ListKept k next) : ListKept next k :=
  ⟨fun thread => (kept.listing thread).symm, kept.allThreadList.symm, kept.ptable.symm⟩

theorem ListKept.pid (kept : ListKept k next) (thread : Tid) : next.pid thread = k.pid thread :=
  congrArg Prod.fst (kept.listing thread)

theorem represents_of_listing (represents : threadList.Represents k.threads k.allThreadList order)
    (listing : ∀ thread ∈ order, (next.threads thread).listing = (k.threads thread).listing)
    (list : next.allThreadList = k.allThreadList) :
    threadList.Represents next.threads next.allThreadList order := by
  rw [list]
  exact represents.congr (fun thread member => congrArg (fun listing => listing.2.1) (listing thread member))
    (fun thread member => congrArg (fun listing => listing.2.2) (listing thread member))

theorem ListKept.represents (kept : ListKept k next)
    (represents : threadList.Represents k.threads k.allThreadList order) :
    threadList.Represents next.threads next.allThreadList order :=
  represents_of_listing represents (fun thread _ => kept.listing thread) kept.allThreadList

theorem runnableKthread_listKept (k : Kernel) (thread : Tid) : ListKept k (runnableKthread k thread) :=
  ⟨fun other => Links.view_append Kthread.listing (fun _ _ => rfl) (fun _ _ => rfl) thread other, rfl, rfl⟩

theorem dequeued_listKept (k : Kernel) (thread : Tid) : ListKept k (dequeued k thread) :=
  ⟨fun other => Links.view_remove Kthread.listing (fun _ _ => rfl) (fun _ _ => rfl) thread other, rfl, rfl⟩

theorem schedule_listKept (executed : schedule k = some next) : ListKept k next := by
  unfold schedule at executed
  simp only [Option.bind_eq_bind, Option.bind_eq_some_iff] at executed
  obtain ⟨⟨runnable, middle⟩, taken, executed⟩ := executed
  cases executed
  obtain ⟨_, rfl⟩ := nextRunnableKthread_scan taken
  obtain ⟨listing, allThreadList, ptable⟩ := dequeued_listKept k runnable
  exact ⟨listing, allThreadList, ptable⟩

end ListKept

/-- The list is well formed, and the process table holds live threads under their own pids. -/
structure Processes.Catalogued (s : Processes) : Prop where
  listed : s.Listed
  entries : ∀ index thread, s.kernel.ptable index = some thread →
    thread ∈ s.live ∧ ptableIndex (s.kernel.pid thread) = some index
  pages : ∀ thread ∈ s.live, thread ∈ s.pages
  nodup : s.live.Nodup

section Lists

variable {k middle next : Kernel} {live pages : List Tid}

theorem ListKept.listed (kept : ListKept k next) (listed : (⟨k, live, pages⟩ : Processes).Listed) :
    (⟨next, live, pages⟩ : Processes).Listed := by
  obtain ⟨order, represents, members⟩ := listed
  exact ⟨order, kept.represents represents, members⟩

theorem ListKept.catalogued (kept : ListKept k next) (catalogued : (⟨k, live, pages⟩ : Processes).Catalogued) :
    (⟨next, live, pages⟩ : Processes).Catalogued := by
  refine ⟨kept.listed catalogued.listed, ?_, catalogued.pages, catalogued.nodup⟩
  intro index thread entry
  dsimp only at entry ⊢
  rw [kept.ptable] at entry
  rw [kept.pid]
  exact catalogued.entries index thread entry

end Lists

section Creation

variable {k middle next : Kernel} {page : Tid} {ptable : Fin 100 → Option Tid}

structure Enrolled (k next : Kernel) (page : Tid) (ptable : Fin 100 → Option Tid) : Prop where
  represents : ∀ order, threadList.Represents k.threads k.allThreadList order → page ∉ order →
    threadList.Represents next.threads next.allThreadList (order ++ [page])
  pid : ∀ thread, thread ≠ page → next.pid thread = k.pid thread
  ptable : next.ptable = ptable

theorem alllistKthread_enrolled
    (others : ∀ thread, thread ≠ page → (middle.threads thread).listing = (k.threads thread).listing)
    (list : middle.allThreadList = k.allThreadList) (table : middle.ptable = ptable) :
    Enrolled k (alllistKthread middle page) page ptable where
  represents order represents absent := by
    have prepared : threadList.Represents middle.threads middle.allThreadList order := by
      apply represents_of_listing represents ?_ list
      intro thread member
      exact others thread fun same => absent (same ▸ member)
    exact prepared.append absent
  pid thread different := by
    have kept : (alllistKthread middle page).pid thread = middle.pid thread :=
      Links.view_append Kthread.pid (fun _ _ => rfl) (fun _ _ => rfl) page thread
    rw [kept]
    exact congrArg Prod.fst (others thread different)
  ptable := table

theorem Enrolled.kept (enrolled : Enrolled k middle page ptable) (kept : ListKept middle next) :
    Enrolled k next page ptable where
  represents order represents absent := kept.represents (enrolled.represents order represents absent)
  pid thread different := (kept.pid thread).trans (enrolled.pid thread different)
  ptable := kept.ptable.trans enrolled.ptable

def Registered (k next : Kernel) (page : Tid) : Prop :=
  ∃ index, ptableIndex (next.pid page) = some index ∧
    Enrolled k next page (Function.update k.ptable index (some page))

theorem Registered.kept (registered : Registered k middle page) (kept : ListKept middle next) :
    Registered k next page := by
  obtain ⟨index, located, enrolled⟩ := registered
  exact ⟨index, by rw [kept.pid, located], enrolled.kept kept⟩

theorem addToPtable_registered (enrolled : Enrolled k middle page k.ptable)
    (executed : addToPtable middle page = some next) : Registered k next page := by
  obtain ⟨index, located, rfl⟩ := addToPtable_stored executed
  refine ⟨index, located, enrolled.represents, enrolled.pid, ?_⟩
  rw [← enrolled.ptable]
  rfl

theorem startKthread_registered (executed : startKthread k page = some next) : Registered k next page := by
  obtain ⟨middle, entered, rfl⟩ := startKthread_entered executed
  have enrolled : Enrolled k (createKthread k page) page k.ptable := by
    refine alllistKthread_enrolled ?_ rfl rfl
    intro thread different
    simp [initThread, allocPid, different]
  exact (addToPtable_registered enrolled entered).kept (runnableKthread_listKept middle page)

theorem initThreadUser_enrolled (k : Kernel) (page : Tid) :
    Enrolled k (createKthreadUser k page) page k.ptable := by
  unfold createKthreadUser initThreadUser
  dsimp only
  split
  · refine alllistKthread_enrolled ?_ rfl rfl
    intro thread different
    simp [allocPid, different]
  · refine alllistKthread_enrolled ?_ rfl rfl
    intro thread different
    rw [updateThread_other _ different]

theorem doExec_registered {segments : List (VmaAddr × BitVec 64)} {stack heap : VmaAddr}
    (executed : doExec k page segments stack heap = some next) : Registered k next page := by
  obtain ⟨mapped, middle, mapping, entered, rfl⟩ := doExec_entered executed
  have kept : ListKept (createKthreadUser k page) mapped :=
    (mmapAreas_framed (fun _ _ => rfl) (fun _ _ => rfl) mapping).listKept
  have registered := addToPtable_registered ((initThreadUser_enrolled k page).kept kept) entered
  exact registered.kept (runnableKthread_listKept middle page)

theorem fork_registered {temp : JoinAddr} (executed : fork k page temp = some next) : Registered k next page := by
  obtain ⟨index, joined, located, joining, rfl⟩ := fork_copied executed
  have kept : ListKept (copied k page index) joined := (appendJoinQueue_framed (fun _ _ => rfl) joining).listKept
  have filled : (copied k page index).pid page = k.nextFreePid + 1 :=
    congrArg Kthread.pid (Function.update_self page _ k.threads)
  have enrolled : Enrolled k (alllistKthread joined page) page (Function.update k.ptable index (some page)) := by
    refine alllistKthread_enrolled ?_ kept.allThreadList kept.ptable
    intro thread different
    rw [kept.listing]
    exact congrArg Kthread.listing (Function.update_of_ne different _ k.threads)
  have pid : (alllistKthread joined page).pid page = joined.pid page :=
    Links.view_append Kthread.pid (fun _ _ => rfl) (fun _ _ => rfl) page page
  have registered : Registered k (alllistKthread joined page) page :=
    ⟨index, by rw [pid, kept.pid, filled, located], enrolled⟩
  exact registered.kept (runnableKthread_listKept _ page)

theorem Registered.catalogued {live pages : List Tid} (registered : Registered k next page) (new : page ∉ pages)
    (catalogued : (⟨k, live, pages⟩ : Processes).Catalogued) :
    (⟨next, page :: live, page :: pages⟩ : Processes).Catalogued := by
  obtain ⟨index, located, enrolled⟩ := registered
  obtain ⟨⟨order, represents, members⟩, entries, allocated, nodup⟩ := catalogued
  dsimp only at represents members entries allocated nodup
  have unborn : page ∉ live := fun member => new (allocated page member)
  have absent : page ∉ order := fun member => unborn ((members page).mp member)
  refine ⟨⟨order ++ [page], enrolled.represents order represents absent, ?_⟩, ?_, ?_,
    List.nodup_cons.mpr ⟨unborn, nodup⟩⟩
  · intro thread
    rw [List.mem_append, List.mem_singleton, members, List.mem_cons, or_comm]
  · intro slot thread entry
    dsimp only at entry ⊢
    rw [enrolled.ptable] at entry
    by_cases here : slot = index
    · rw [here, Function.update_self] at entry
      cases entry
      exact ⟨List.mem_cons_self, here ▸ located⟩
    · rw [Function.update_of_ne here] at entry
      obtain ⟨alive, place⟩ := entries slot thread entry
      have different : thread ≠ page := fun same => unborn (same ▸ alive)
      rw [enrolled.pid thread different]
      exact ⟨List.mem_cons_of_mem _ alive, place⟩
  · intro thread member
    rcases List.mem_cons.mp member with rfl | old
    · exact List.mem_cons_self
    · exact List.mem_cons_of_mem _ (allocated thread old)

end Creation

section Exit

variable {s : Processes} {k next : Kernel}

theorem sysExit_removed (executed : sysExit k = some next) :
    ∃ index thread, ptableIndex (k.pid k.currentThread) = some index ∧ k.ptable index = some thread ∧
      (∀ order, threadList.Represents k.threads k.allThreadList order → thread ∈ order →
        threadList.Represents next.threads next.allThreadList (order.erase thread)) ∧
      (∀ other, next.pid other = k.pid other) ∧ next.ptable = Function.update k.ptable index none := by
  obtain ⟨index, thread, cleaned, located, entry, cleaning, rfl⟩ := sysExit_cleaned executed
  have kept : ListKept (unlisted k thread) cleaned := (threadCleanup_framed (fun _ _ => rfl) cleaning).listKept
  refine ⟨index, thread, located, entry, ?_, ?_, ?_⟩
  · intro order represents member
    have out : threadList.Represents (unlisted k thread).threads (unlisted k thread).allThreadList
        (order.erase thread) := by
      obtain ⟨front, back, rfl⟩ := List.append_of_mem member
      rw [erase_middle represents.nodup]
      exact ((dequeued_listKept k thread).represents represents).remove
    exact kept.represents out
  · intro other
    have pid : (unlisted k thread).pid other = (dequeued k thread).pid other :=
      Links.view_remove Kthread.pid (fun _ _ => rfl) (fun _ _ => rfl) thread other
    exact (kept.pid other).trans (pid.trans ((dequeued_listKept k thread).pid other))
  · exact congrArg (fun table => Function.update table index none) kept.ptable

theorem Processes.Catalogued.exit (catalogued : s.Catalogued) (executed : sysExit s.kernel = some next)
    (entered : s.kernel.Entered s.kernel.currentThread) :
    (⟨next, s.live.erase s.kernel.currentThread, s.pages⟩ : Processes).Catalogued := by
  obtain ⟨index, thread, located, entry, represents, pid, ptable⟩ := sysExit_removed executed
  obtain ⟨slot, place, own⟩ := entered
  cases located.symm.trans place
  cases entry.symm.trans own
  obtain ⟨order, list, members⟩ := catalogued.listed
  obtain ⟨alive, _⟩ := catalogued.entries index _ entry
  refine ⟨⟨_, represents order list ((members _).mpr alive), ?_⟩, ?_, ?_, catalogued.nodup.erase _⟩
  · intro other
    rw [list.nodup.mem_erase_iff, catalogued.nodup.mem_erase_iff, members]
  · intro slot other held
    dsimp only at held ⊢
    rw [ptable] at held
    by_cases here : slot = index
    · rw [here, Function.update_self] at held
      cases held
    · rw [Function.update_of_ne here] at held
      obtain ⟨lives, place⟩ := catalogued.entries slot other held
      rw [pid]
      refine ⟨catalogued.nodup.mem_erase_iff.mpr ⟨?_, lives⟩, place⟩
      rintro rfl
      exact here (Option.some.inj (place.symm.trans located))
  · intro other member
    exact catalogued.pages other (List.mem_of_mem_erase member)

theorem Processes.Catalogued.exit_other (catalogued : s.Catalogued) (executed : sysExit s.kernel = some next)
    (stranger : ¬ s.kernel.Entered s.kernel.currentThread) :
    ¬ (⟨next, s.live.erase s.kernel.currentThread, s.pages⟩ : Processes).Listed := by
  obtain ⟨index, thread, located, entry, represents, _, _⟩ := sysExit_removed executed
  obtain ⟨order, list, members⟩ := catalogued.listed
  obtain ⟨alive, _⟩ := catalogued.entries index _ entry
  rintro ⟨others, again, survivors⟩
  have different : thread ≠ s.kernel.currentThread := by
    rintro rfl
    exact stranger ⟨index, located, entry⟩
  have listed : thread ∈ others := (survivors thread).mpr (catalogued.nodup.mem_erase_iff.mpr ⟨different, alive⟩)
  rw [again.unique (represents order list ((members thread).mpr alive))] at listed
  exact (list.nodup.mem_erase_iff.mp listed).1 rfl

end Exit

theorem clearVmas_listKept {k next : Kernel} {thread : Tid} (executed : clearVmas k thread = some next) :
    ListKept k next := by
  simp only [clearVmas, Option.bind_eq_bind, Option.bind_eq_some_iff, Option.pure_def] at executed
  obtain ⟨vmas, _, equal⟩ := executed
  cases equal
  have unmapped : ListKept k { k with vmas } := ⟨fun _ => rfl, rfl, rfl⟩
  exact unmapped.trans (updateThread_listKept fun _ => rfl)

theorem initThreadUser_listKept (k : Kernel) : ListKept k (initThreadUser k k.currentThread) := by
  rw [initThreadUser_current]
  exact updateThread_listKept fun _ => rfl

/-- `execve` appends the current thread to the list, in which it stands already. -/
theorem mainExecve_appends {k next : Kernel} {image : Option Image} (executed : mainExecve k image = some next) :
    ∃ before, ListKept k before ∧ ListKept (alllistKthread before k.currentThread) next := by
  simp only [mainExecve, Option.bind_eq_bind, Option.bind_eq_some_iff] at executed
  obtain ⟨cleared, clearing, executed⟩ := executed
  have current := clearVmas_currentThread clearing
  have kept := (clearVmas_listKept clearing).trans (initThreadUser_listKept cleared)
  refine ⟨initThreadUser cleared cleared.currentThread, kept, ?_⟩
  rw [← current]
  cases image with
  | none =>
    cases executed
    exact (Framed.refl _).listKept
  | some image =>
    simp only [doExec1, Option.bind_eq_bind, Option.bind_eq_some_iff, Option.pure_def] at executed
    obtain ⟨mapped, mapping, executed⟩ := executed
    cases executed
    have areas : ListKept (alllistKthread (initThreadUser cleared cleared.currentThread) cleared.currentThread)
        mapped :=
      (mmapAreas_framed (fun _ _ => rfl) (fun _ _ => rfl) mapping).listKept
    exact areas.trans (runnableKthread_listKept mapped cleared.currentThread)

theorem Processes.Catalogued.execve {s : Processes} {next : Kernel} {image : Option Image} (catalogued : s.Catalogued)
    (executed : mainExecve s.kernel image = some next) : ¬ (⟨next, s.live, s.pages⟩ : Processes).Listed := by
  obtain ⟨before, first, second⟩ := mainExecve_appends executed
  obtain ⟨order, list, members⟩ := catalogued.listed
  have prepared := first.represents list
  rintro ⟨others, again, survivors⟩
  have appended := second.symm.represents again
  -- either the list is no longer a list, or it holds a thread that was not in it before
  by_cases member : s.kernel.currentThread ∈ order
  · exact prepared.append_again member appended
  · have listed : s.kernel.currentThread ∈ others := by
      rw [appended.unique (prepared.append member)]
      simp
    exact member ((members _).mpr ((survivors _).mp listed))

theorem boot_catalogued {k : Kernel} {mainThread start : Tid} {first : Processes} (different : mainThread ≠ start)
    (booted : boot k mainThread start = some first) : first.Catalogued := by
  simp only [boot, schedulerInit, Option.bind_eq_bind, Option.bind_eq_some_iff] at booted
  obtain ⟨kernel, ⟨started, starting, scheduling⟩, booted⟩ := booted
  cases booted
  have enrolled : Enrolled k.initial (alllistKthread { initThread k.initial mainThread with
      currentThread := mainThread } mainThread) mainThread k.initial.ptable := by
    refine alllistKthread_enrolled ?_ rfl rfl
    intro thread other
    simp [initThread, allocPid, other]
  generalize alllistKthread { initThread k.initial mainThread with currentThread := mainThread } mainThread =
    listing at enrolled starting
  have alone : (⟨listing, [mainThread], [mainThread]⟩ : Processes).Catalogued := by
    refine ⟨⟨[mainThread], enrolled.represents [] (Links.represents_nil _) List.not_mem_nil, fun _ => Iff.rfl⟩, ?_,
      fun _ member => member, List.nodup_singleton _⟩
    intro index thread entry
    dsimp only at entry
    rw [enrolled.ptable] at entry
    cases entry
  have absent : start ∉ [mainThread] := by simpa using Ne.symm different
  exact (schedule_listKept scheduling).catalogued ((startKthread_registered starting).catalogued absent alone)

theorem Processes.Catalogued.performed {s next : Processes} {action : Action} (catalogued : s.Catalogued)
    (admitted : keepsList s action) (stepped : s.perform action = some next) : next.Catalogued := by
  match action with
  | .call (.doExec page segments stack heap) =>
    obtain ⟨new, kernel, executing, rfl⟩ := act_doExec stepped
    exact (doExec_registered executing).catalogued new catalogued
  | .call (.fork page temp) =>
    obtain ⟨new, kernel, forking, rfl⟩ := act_fork stepped
    exact (fork_registered forking).catalogued new catalogued
  | .call .exit =>
    obtain ⟨left, kernel, exiting, scheduling, rfl⟩ := act_exit stepped
    exact (schedule_listKept scheduling).catalogued (catalogued.exit exiting admitted)
  | .call .switch =>
    obtain ⟨kernel, scheduling, rfl⟩ := act_switch stepped
    exact ((runnableKthread_listKept _ _).trans (schedule_listKept scheduling)).catalogued catalogued
  | .execve image => exact absurd admitted id

theorem Processes.Catalogued.not_listed {s next : Processes} {action : Action} (catalogued : s.Catalogued)
    (refused : ¬ keepsList s action) (stepped : s.perform action = some next) : ¬ next.Listed := by
  intro listed
  match action with
  | .call (.doExec ..) => exact refused trivial
  | .call (.fork ..) => exact refused trivial
  | .call .switch => exact refused trivial
  | .call .exit =>
    obtain ⟨left, kernel, exiting, scheduling, rfl⟩ := act_exit stepped
    exact catalogued.exit_other exiting refused ((schedule_listKept scheduling).symm.listed listed)
  | .execve image =>
    simp only [Processes.perform, Option.bind_eq_bind, Option.bind_eq_some_iff] at stepped
    obtain ⟨left, executing, kernel, scheduling, stepped⟩ := stepped
    cases stepped
    exact catalogued.execve executing ((schedule_listKept scheduling).symm.listed listed)

/-- The list of all threads stays well formed exactly as long as no process calls `execve` and the threads that exit
    are those in the process table. -/
theorem thread_list_well_formed_iff (k : Kernel) (mainThread start : Tid) (different : mainThread ≠ start)
    (first : Processes) (booted : boot k mainThread start = some first) (actions : List Action) (final : Processes)
    (executed : run Processes.perform first actions = some final) :
    Throughout Processes.perform Processes.Listed first actions ↔
      Admitted Processes.perform keepsList first actions := by
  apply throughout_iff_admitted Processes.Catalogued Processes.Listed ?_ (fun _ catalogued => catalogued.listed) ?_
    (boot_catalogued different booted) executed
  · intro s action next catalogued admitted stepped
    exact catalogued.performed admitted stepped
  · intro s action next catalogued refused stepped
    exact catalogued.not_listed refused stepped

theorem run_calls (s : Processes) (calls : List Call) :
    run Processes.perform s (calls.map .call) = run act s calls := by
  unfold run
  rw [List.foldlM_map]
  rfl

theorem older_exit_keeps_list :
    Throughout Processes.perform Processes.Listed zeroBooted
      ([.doExec 3 [] 0 1, .doExec 4 [] 2 3, .switch, .exit].map .call) := by
  have executed : run act zeroBooted [.doExec 3 [] 0 1, .doExec 4 [] 2 3, .switch, .exit] = some olderExited :=
    run_append.mpr ⟨twoChildren, twoChildren_run, olderExited_run⟩
  rw [thread_list_well_formed_iff bootKernel 1 2 (by decide) zeroBooted boot_zeroBooted _ olderExited
    ((run_calls _ _).trans executed)]
  refine ⟨trivial, fun oneChild first => ⟨trivial, fun children second => ⟨trivial, fun switched third => ⟨?_, ?_⟩⟩⟩⟩
  · have both : run act zeroBooted [.doExec 3 [] 0 1, .doExec 4 [] 2 3] = some children :=
      run_cons.mpr ⟨oneChild, first, run_cons.mpr ⟨children, second, rfl⟩⟩
    cases twoChildren_run.symm.trans both
    have runs : act twoChildren .switch = some olderRuns := act_switch_head (by decide +kernel) (by decide +kernel)
    cases runs.symm.trans third
    exact ⟨3, by decide +kernel, by decide +kernel⟩
  · exact fun _ _ => trivial

def loneProcess : Processes := (act zeroBooted (.doExec 3 [] 0 1)).getD zeroBooted

def processRuns : Processes :=
  { loneProcess with kernel := { dequeued (runnableKthread loneProcess.kernel 2) 3 with currentThread := 3 } }

def unmapped : Kernel :=
  let vmas := fun area => if area ∈ [0, 1] then ⟨0, 0, none⟩ else processRuns.kernel.vmas area
  Kernel.updateThread { processRuns.kernel with vmas } 3 fun page => { page with mmap := none, mmapCache := none }

def reloaded : Kernel := (doExec1 unmapped (some ⟨[], 2, 3⟩)).getD bootKernel

def rescheduled : Processes := { processRuns with kernel := { dequeued reloaded 2 with currentThread := 2 } }

/-- The process calls `execve` and then follows itself in the list. -/
theorem execve_closes_cycle :
    boot bootKernel 1 2 = some zeroBooted ∧
    run Processes.perform zeroBooted
      [.call (.doExec 3 [] 0 1), .call .switch, .execve (some ⟨[], 2, 3⟩)] = some rescheduled ∧
    (rescheduled.kernel.threads 3).nextInThreadList = some 3 ∧ ¬ rescheduled.Listed := by
  have created : zeroBooted.perform (.call (.doExec 3 [] 0 1)) = some loneProcess :=
    eq_some_getD zeroBooted (by decide +kernel)
  have switched : loneProcess.perform (.call .switch) = some processRuns :=
    act_switch_head (by decide +kernel) (by decide +kernel)
  have areas : Chain (fun area => (processRuns.kernel.vmas area).vmNext) (processRuns.kernel.threads 3).mmap [0, 1] :=
    ⟨by decide +kernel, by decide +kernel, show _ = none by decide +kernel⟩
  have clearing : clearVmas processRuns.kernel 3 = some unmapped := by
    rw [clearVmas, clearVmasFrom_eq areas]
    rfl
  have loading : doExec1 unmapped (some ⟨[], 2, 3⟩) = some reloaded := eq_some_getD bootKernel (by decide +kernel)
  have executing : mainExecve processRuns.kernel (some ⟨[], 2, 3⟩) = some reloaded := by
    rw [mainExecve, show processRuns.kernel.currentThread = 3 from rfl, clearing, Option.bind_eq_bind,
      Option.bind_some, loading]
  have scheduling : schedule reloaded = some rescheduled.kernel := schedule_head (by decide +kernel) (by decide +kernel)
  have stepped : processRuns.perform (.execve (some ⟨[], 2, 3⟩)) = some rescheduled := by
    simp only [Processes.perform, executing, scheduling, Option.bind_eq_bind, Option.bind_some]
    rfl
  refine ⟨boot_zeroBooted, ?_, by decide +kernel, ?_⟩
  · exact run_cons.mpr ⟨_, created, run_cons.mpr ⟨_, switched, run_cons.mpr ⟨_, stepped, rfl⟩⟩⟩
  · have booted : zeroBooted.Catalogued := boot_catalogued (by decide) boot_zeroBooted
    have catalogued : loneProcess.Catalogued := booted.performed (by trivial) created
    exact (catalogued.performed (by trivial) switched).not_listed id stepped

end Sbunix.Thread
