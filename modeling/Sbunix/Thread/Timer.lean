import Mathlib.Data.List.Rotate
import Sbunix.Library.Run
import Sbunix.Thread.Lifecycle

namespace Sbunix.Thread

open Library

structure Clock where
  totalTicks : BitVec 16
  totalTicksSecs : BitVec 16
  mins : BitVec 16
  hours : BitVec 16
  hoursUnits : BitVec 16
  hoursTens : BitVec 16
  minutesUnits : BitVec 16
  minutesTens : BitVec 16
  secondsUnits : BitVec 16
  secondsTens : BitVec 16

def bootClock : Clock := ⟨0, 0, 0, 0, 0, 0, 0, 0, 0, 0⟩

def Kthread.slept (page : Kthread) : Kthread :=
  if page.sleeping > 0 then { page with sleeping := page.sleeping - 1 } else page

abbrev Threads := Tid → Kthread

abbrev Threads.sleep (threads : Threads) (crawl : Tid) : Threads :=
  Function.update threads crawl (threads crawl).slept

/-- The loop of `timer_handler` over the run queue, which has no result if it crawls forever. -/
def Threads.countDown (threads : Threads) (currentThread : Tid) : Option Tid → Option Threads
  | none => some threads
  | some crawl =>
    if crawl = currentThread then some threads
    else threads.sleep crawl |>.countDown currentThread (threads crawl).nextInThreadQ
partial_fixpoint

def Clock.rollOver (clock : Clock) : Clock :=
  if clock.totalTicksSecs ≥ 60 then
    let clock := { clock with mins := clock.mins + 1, totalTicksSecs := 0 }
    if clock.mins ≥ 60 then { clock with mins := 0, hours := clock.hours + 1 } else clock
  else clock

def Clock.showTime (clock : Clock) : Clock :=
  { clock with
    secondsUnits := clock.totalTicksSecs % 10
    secondsTens := clock.totalTicksSecs / 10
    minutesUnits := clock.mins % 10
    minutesTens := clock.mins / 10
    hoursUnits := clock.hours % 10
    hoursTens := clock.hours / 10 }

def timerHandler (k : Kernel) (clock : Clock) : Option (Kernel × Clock) := do
  let clock := { clock with totalTicks := clock.totalTicks + 1 }
  if clock.totalTicks % 100 = 0 then
    let clock := { clock with totalTicksSecs := clock.totalTicksSecs + 1 }
    let threads ← Threads.countDown k.threads k.currentThread k.runQueue.head
    return ({ k with threads }, clock.rollOver.showTime)
  else
    return (k, clock)

def timerTick (clock : Clock) (k : Kernel) : Option Clock := (timerHandler k clock).map Prod.snd

def Clock.seconds (clock : Clock) : Nat :=
  3600 * clock.hours.toNat + 60 * clock.mins.toNat + clock.totalTicksSecs.toNat

/-- The calls among the first `n` at which the tick counter is a multiple of 100. The counter is 0 again
    after 65536 calls, which is 36 calls after a multiple. -/
def secondsCounted (n : Nat) : Nat := 656 * (n / 65536) + n % 65536 / 100

structure Clock.After (clock : Clock) (n : Nat) : Prop where
  ticks : clock.totalTicks.toNat = n % 65536
  secs : clock.totalTicksSecs.toNat < 60
  mins : clock.mins.toNat < 60
  total : clock.seconds = secondsCounted n

theorem toNat_increment {x : BitVec 16} (small : x.toNat < 65535) : (x + 1).toNat = x.toNat + 1 := by
  rw [BitVec.toNat_add]
  exact Nat.mod_eq_of_lt (show x.toNat + 1 < 65536 by omega)

theorem bootClock_after : bootClock.After 0 := ⟨rfl, by decide, by decide, rfl⟩

theorem Clock.rollOver_spec {clock : Clock} (secs : clock.totalTicksSecs.toNat ≤ 60) (mins : clock.mins.toNat < 60)
    (hours : clock.hours.toNat < 65535) :
    clock.rollOver.totalTicks = clock.totalTicks ∧ clock.rollOver.totalTicksSecs.toNat < 60 ∧
      clock.rollOver.mins.toNat < 60 ∧ clock.rollOver.seconds = clock.seconds := by
  have minute := toNat_increment (show clock.mins.toNat < 65535 by omega)
  have hour := toNat_increment hours
  unfold rollOver
  by_cases full : clock.totalTicksSecs ≥ 60
  · rw [if_pos full]
    rw [ge_iff_le, BitVec.le_def] at full
    change 60 ≤ _ at full
    dsimp only
    by_cases whole : clock.mins + 1 ≥ 60
    · rw [if_pos whole]
      rw [ge_iff_le, BitVec.le_def, minute] at whole
      change 60 ≤ _ at whole
      refine ⟨rfl, Nat.zero_lt_succ _, Nat.zero_lt_succ _, ?_⟩
      change 3600 * (clock.hours + 1).toNat + 60 * 0 + 0 = _
      rw [hour, seconds]
      omega
    · rw [if_neg whole]
      rw [ge_iff_le, BitVec.le_def, minute, not_le] at whole
      change _ < 60 at whole
      refine ⟨rfl, Nat.zero_lt_succ _, minute ▸ whole, ?_⟩
      change 3600 * clock.hours.toNat + 60 * (clock.mins + 1).toNat + 0 = _
      rw [minute, seconds]
      omega
  · rw [if_neg full]
    rw [ge_iff_le, BitVec.le_def, not_le] at full
    exact ⟨rfl, full, mins, rfl⟩

theorem timerHandler_after {k next : Kernel} {clock later : Clock} {n : Nat} (after : clock.After n)
    (bound : n < 36000000) (executed : timerHandler k clock = some (next, later)) : later.After (n + 1) := by
  have ticks : (clock.totalTicks + 1).toNat = (n + 1) % 65536 := by
    rw [BitVec.toNat_add, after.ticks]
    change (n % 65536 + 1) % 65536 = _
    omega
  have total := after.total
  have secs := after.secs
  simp only [Clock.seconds, secondsCounted] at total
  unfold timerHandler at executed
  dsimp only at executed
  split at executed
  -- the remainder is taken of the counter after its wrap, as in `secondsCounted`
  · rename_i multiple
    have multiple := congrArg BitVec.toNat multiple
    rw [BitVec.toNat_umod, ticks] at multiple
    change (n + 1) % 65536 % 100 = 0 at multiple
    simp only [Option.bind_eq_bind, Option.bind_eq_some_iff] at executed
    obtain ⟨threads, _, executed⟩ := executed
    cases executed
    have second := toNat_increment (show clock.totalTicksSecs.toNat < 65535 by omega)
    let counted : Clock :=
      { clock with totalTicks := clock.totalTicks + 1, totalTicksSecs := clock.totalTicksSecs + 1 }
    have carried : counted.totalTicksSecs.toNat ≤ 60 := by
      change (clock.totalTicksSecs + 1).toNat ≤ 60
      omega
    obtain ⟨kept, secs, mins, same⟩ :=
      Clock.rollOver_spec carried after.mins (show clock.hours.toNat < 65535 by omega)
    refine ⟨(congrArg BitVec.toNat kept).trans ticks, secs, mins, same.trans ?_⟩
    simp only [Clock.seconds, counted, second, secondsCounted]
    omega
  · rename_i between
    have between : (n + 1) % 65536 % 100 ≠ 0 := by
      intro multiple
      apply between
      apply BitVec.eq_of_toNat_eq
      rw [BitVec.toNat_umod, ticks]
      exact multiple
    cases executed
    refine ⟨ticks, secs, after.mins, ?_⟩
    simp only [Clock.seconds, secondsCounted]
    omega

theorem timerTicks_after {kernels : List Kernel} {clock later : Clock} {n : Nat} (after : clock.After n)
    (bound : n + kernels.length < 36000000) (executed : run timerTick clock kernels = some later) :
    later.After (n + kernels.length) := by
  induction kernels generalizing clock n with
  | nil =>
    cases executed
    exact after
  | cons k kernels ih =>
    rw [List.length_cons] at bound ⊢
    obtain ⟨middle, first, others⟩ := run_cons.mp executed
    obtain ⟨⟨next, _⟩, handled, rfl⟩ := Option.map_eq_some_iff.mp first
    have step := ih (timerHandler_after after (by omega) handled) (by omega) others
    rwa [show n + 1 + kernels.length = n + (kernels.length + 1) by omega] at step

theorem linked_slept {threads : Tid → Kthread} {before : Option Tid} {queued : List Tid}
    (linked : threadQ.Linked threads before queued none) (crawl : Tid) :
    threadQ.Linked (Function.update threads crawl (threads crawl).slept) before queued none := by
  have links (other : Tid) : threadQ.prev (Function.update threads crawl (threads crawl).slept other) =
      threadQ.prev (threads other) ∧ threadQ.next (Function.update threads crawl (threads crawl).slept other) =
        threadQ.next (threads other) := by
    by_cases same : other = crawl
    · rw [same, Function.update_self, Kthread.slept]
      split <;> exact ⟨rfl, rfl⟩
    · rw [Function.update_of_ne same]
      exact ⟨rfl, rfl⟩
  exact linked.congr (fun other _ => (links other).1) fun other _ => (links other).2

theorem countDown_linked (currentThread : Tid) {threads : Tid → Kthread} {before : Option Tid} {queued : List Tid}
    (linked : threadQ.Linked threads before queued none) :
    ∃ counted, Threads.countDown threads currentThread queued.head? = some counted := by
  induction queued generalizing threads before with
  | nil => exact ⟨threads, by rw [List.head?_nil, Threads.countDown]⟩
  | cons crawl rest ih =>
    obtain ⟨_, forth, linked⟩ := linked
    change (threads crawl).nextInThreadQ = _ at forth
    rw [List.head?_cons, Threads.countDown]
    split
    · exact ⟨threads, rfl⟩
    · rw [forth, Option.or_none]
      exact ih (linked_slept linked crawl)

theorem timerHandler_returns {k : Kernel} {queued : List Tid} (represents : k.Queued queued) (clock : Clock) :
    ∃ next later, timerHandler k clock = some (next, later) := by
  obtain ⟨counted, executed⟩ := countDown_linked k.currentThread represents.linked
  rw [← represents.head] at executed
  unfold timerHandler
  dsimp only
  split
  · rw [executed]
    exact ⟨_, _, rfl⟩
  · exact ⟨_, _, rfl⟩

theorem timerTicks_return {kernels : List Kernel} (represents : ∀ k ∈ kernels, ∃ queued, k.Queued queued)
    (clock : Clock) : ∃ later, run timerTick clock kernels = some later := by
  induction kernels generalizing clock with
  | nil => exact ⟨clock, rfl⟩
  | cons k kernels ih =>
    obtain ⟨queued, queue⟩ := represents k List.mem_cons_self
    obtain ⟨next, middle, handled⟩ := timerHandler_returns queue clock
    obtain ⟨later, others⟩ := ih (fun other member => represents other (List.mem_cons_of_mem _ member)) middle
    exact ⟨later, run_cons.mpr ⟨middle, by rw [timerTick, handled]; rfl, others⟩⟩

theorem secondsCounted_eq_iff (n : Nat) :
    secondsCounted n = n / 100 ↔ n < 65536 ∨ n < 131072 ∧ 64 ≤ n % 65536 % 100 := by
  unfold secondsCounted
  omega

/-- The clock is right up to the wrap of the tick counter, and after it only in the last 36 ticks of the
    seconds before the next wrap. -/
theorem clock_keeps_time_iff (n : Nat) (bound : n < 36000000) :
    (∀ kernels : List Kernel, kernels.length = n → (∀ k ∈ kernels, ∃ queued, k.Queued queued) →
      ∃ clock, run timerTick bootClock kernels = some clock) ∧
    ∀ (kernels : List Kernel) (clock : Clock), kernels.length = n →
      run timerTick bootClock kernels = some clock →
        ((3600 * clock.hours.toNat + 60 * clock.mins.toNat + clock.totalTicksSecs.toNat = n / 100 ∧
          clock.totalTicksSecs.toNat < 60 ∧ clock.mins.toNat < 60) ↔
            n < 65536 ∨ n < 131072 ∧ 64 ≤ n % 65536 % 100) := by
  refine ⟨fun kernels _ represents => timerTicks_return represents bootClock, ?_⟩
  intro kernels clock length executed
  have after := timerTicks_after bootClock_after (by omega) executed
  rw [Nat.zero_add, length] at after
  rw [← secondsCounted_eq_iff, ← after.total]
  exact ⟨fun right => right.1, fun right => ⟨right, after.secs, after.mins⟩⟩

theorem bootKernels_queued (n : Nat) : ∀ k ∈ List.replicate n bootKernel, ∃ queued, k.Queued queued := by
  intro k member
  rw [List.eq_of_mem_replicate member]
  exact ⟨[], boot_queued _⟩

theorem clock_after_eleven_minutes :
    ∃ clock, run timerTick bootClock (List.replicate 66000 bootKernel) = some clock ∧
      3600 * clock.hours.toNat + 60 * clock.mins.toNat + clock.totalTicksSecs.toNat = 66000 / 100 ∧
        clock.totalTicksSecs.toNat < 60 ∧ clock.mins.toNat < 60 := by
  obtain ⟨returns, right⟩ := clock_keeps_time_iff 66000 (by decide)
  obtain ⟨clock, executed⟩ := returns _ List.length_replicate (bootKernels_queued _)
  exact ⟨clock, executed, (right _ clock List.length_replicate executed).mpr (by decide)⟩

/-- The 65536th call counts a second that has not passed. -/
theorem clock_ahead_at_wrap :
    ∃ clock, run timerTick bootClock (List.replicate 65536 bootKernel) = some clock ∧
      3600 * clock.hours.toNat + 60 * clock.mins.toNat + clock.totalTicksSecs.toNat = 656 ∧ 65536 / 100 = 655 := by
  obtain ⟨clock, executed⟩ := timerTicks_return (bootKernels_queued 65536) bootClock
  have after := timerTicks_after bootClock_after (by rw [List.length_replicate]; decide) executed
  rw [List.length_replicate] at after
  exact ⟨clock, executed, after.total, rfl⟩

def timerSwitch (k : Kernel) : Option Kernel := schedule (runnableKthread k k.currentThread)

def timerSwitches (k : Kernel) : Nat → Option Kernel
  | 0 => some k
  | n + 1 => do timerSwitch (← timerSwitches k n)

/-- The ready threads in the order in which they run next, the current one last. -/
structure Rotation (k : Kernel) (order : List Tid) : Prop where
  queue : ∃ queued, k.Queued queued ∧ queued ++ [k.currentThread] = order
  nodup : order.Nodup
  ready : ∀ thread ∈ order, (k.threads thread).ready = true

theorem Rotation.timerSwitch {k : Kernel} {first : Tid} {others : List Tid} (rotation : Rotation k (first :: others)) :
    ∃ next, timerSwitch k = some next ∧ next.currentThread = first ∧ Rotation next (others ++ [first]) := by
  obtain ⟨queued, queue, order⟩ := rotation.queue
  have nodup := rotation.nodup
  rw [← order, List.nodup_append] at nodup
  have absent : k.currentThread ∉ queued :=
    fun member => nodup.2.2 _ member _ (List.mem_singleton_self _) rfl
  have appended := runnableKthread_queued queue absent
  rw [order] at appended
  have ready (thread : Tid) : ((runnableKthread k k.currentThread).threads thread).ready = (k.threads thread).ready :=
    Kthread.ready_of_identity (runnableKthread_identity k k.currentThread thread)
  have taken := schedule_head appended.head ((ready first).trans (rotation.ready first List.mem_cons_self))
  refine ⟨_, taken, rfl, ⟨others, ?_, rfl⟩, ?_, ?_⟩
  · exact dequeued_queued (show Kernel.Queued _ ([] ++ first :: others) from appended)
  · exact (List.perm_append_singleton first others).nodup_iff.mpr rotation.nodup
  · intro thread member
    have kept := Kthread.ready_of_identity (dequeued_identity (runnableKthread k k.currentThread) first thread)
    have listed := (List.perm_append_singleton first others).mem_iff.mp member
    exact kept.trans ((ready thread).trans (rotation.ready thread listed))

theorem Rotation.timerSwitches {k : Kernel} {order : List Tid} (rotation : Rotation k order) (n : Nat) :
    ∃ next, timerSwitches k n = some next ∧ Rotation next (order.rotate n) := by
  induction n with
  | zero => exact ⟨k, rfl, by rwa [List.rotate_zero]⟩
  | succ n ih =>
    obtain ⟨middle, reached, rotated⟩ := ih
    obtain ⟨queued, _, split⟩ := rotated.queue
    cases equal : order.rotate n with
    | nil => rw [equal] at split; simp at split
    | cons first others =>
      rw [equal] at rotated
      obtain ⟨next, switched, _, final⟩ := rotated.timerSwitch
      refine ⟨next, ?_, ?_⟩
      · rw [Thread.timerSwitches, reached]
        exact switched
      · rw [← List.rotate_rotate, equal, List.rotate_cons_succ, List.rotate_zero]
        exact final

theorem Rotation.current {k : Kernel} {order : List Tid} (rotation : Rotation k order) :
    order.getLast? = some k.currentThread := by
  obtain ⟨queued, _, rfl⟩ := rotation.queue
  exact List.getLast?_concat

theorem getLast?_rotate (order : List Tid) (n : Nat) :
    (order.rotate n).getLast? = order[(order.length - 1 + n) % order.length]? := by
  cases order with
  | nil => simp
  | cons first others =>
    rw [List.getLast?_eq_getElem?, List.length_rotate, List.getElem?_rotate (by simp)]

def threadAfter (k : Kernel) (n : Nat) : Option Tid := (timerSwitches k n).map Kernel.currentThread

theorem Rotation.threadAfter {k : Kernel} {order : List Tid} (rotation : Rotation k order) (n : Nat) :
    threadAfter k n = order[(order.length - 1 + n) % order.length]? := by
  obtain ⟨next, reached, rotated⟩ := rotation.timerSwitches n
  rw [Thread.threadAfter, reached, Option.map_some, ← rotated.current, getLast?_rotate]

theorem map_range_getElem? (order : List Tid) : (List.range order.length).map (order[·]?) = order.map some := by
  apply List.ext_getElem?
  intro i
  by_cases inside : i < order.length
  · simp [inside]
  · simp [inside]

/-- The timer switch is a round robin over the queue and the current thread. -/
theorem timer_round_robin (k : Kernel) (queued : List Tid) (represents : k.Queued queued)
    (current : k.currentThread ∉ queued)
    (ready : ∀ thread ∈ queued ++ [k.currentThread], (k.threads thread).sleeping = 0 ∧
      (k.threads thread).alive = true) :
    (∀ n, threadAfter k n = (queued ++ [k.currentThread])[(queued.length + n) % (queued.length + 1)]?) ∧
    (List.range (queued.length + 1)).map (fun n => threadAfter k (n + 1)) =
      (queued ++ [k.currentThread]).map some ∧
    ∃ next, timerSwitches k (queued.length + 1) = some next ∧ next.currentThread = k.currentThread ∧
      next.Queued queued := by
  have length : (queued ++ [k.currentThread]).length = queued.length + 1 := List.length_append
  have rotation : Rotation k (queued ++ [k.currentThread]) := by
    refine ⟨⟨queued, represents, rfl⟩, ?_, ?_⟩
    · exact (List.perm_append_singleton _ _).nodup_iff.mpr (List.nodup_cons.mpr ⟨current, represents.nodup⟩)
    · intro thread member
      simp [Kthread.ready, ready thread member]
  have after (n : Nat) := rotation.threadAfter n
  simp only [length, Nat.add_sub_cancel] at after
  refine ⟨after, ?_, ?_⟩
  · rw [← map_range_getElem?, length]
    apply List.map_congr_left
    intro n inside
    rw [List.mem_range] at inside
    rw [after, show queued.length + (n + 1) = n + (queued.length + 1) by omega, Nat.add_mod_right,
      Nat.mod_eq_of_lt inside]
  · obtain ⟨next, reached, rotated⟩ := rotation.timerSwitches (queued.length + 1)
    rw [← length, List.rotate_length] at rotated
    obtain ⟨rest, queue, split⟩ := rotated.queue
    obtain ⟨rfl, same⟩ := List.append_inj' split rfl
    exact ⟨next, reached, (List.cons.inj same).1, queue⟩

def waitingKernel (sleeping : Int) : Kernel :=
  let threads thread := { zeroPage with alive := true, sleeping := if thread = 3 then sleeping else 0 }
  { runnableKthread { bootKernel with threads } 1 with currentThread := 3 }

theorem waitingKernel_queued (sleeping : Int) : (waitingKernel sleeping).Queued [1] :=
  runnableKthread_queued (boot_queued _) (by simp)

theorem three_takes_turns : threadAfter (waitingKernel 0) 2 = some 3 ∧ threadAfter (waitingKernel 0) 5 = some 1 := by
  obtain ⟨order, _⟩ := timer_round_robin (waitingKernel 0) [1] (waitingKernel_queued 0) (by decide) (by decide)
  exact ⟨order 2, order 5⟩

/-- A current thread that sleeps is appended too, and the scheduler then passes over it. -/
theorem sleeping_current_is_skipped :
    (waitingKernel 5).Queued [1] ∧ (waitingKernel 5).currentThread = 3 ∧
      (∀ thread ∈ [1], ((waitingKernel 5).threads thread).sleeping = 0 ∧
        ((waitingKernel 5).threads thread).alive = true) ∧
      threadAfter (waitingKernel 5) 2 ≠ [1, 3][(1 + 2) % (1 + 1)]? := by
  refine ⟨waitingKernel_queued 5, rfl, by decide, ?_⟩
  let switched := { dequeued (runnableKthread (waitingKernel 5) 3) 1 with currentThread := 1 }
  have appended : (runnableKthread (waitingKernel 5) 3).Queued [1, 3] :=
    runnableKthread_queued (waitingKernel_queued 5) (by decide)
  have first : timerSwitch (waitingKernel 5) = some switched := schedule_head appended.head (by decide)
  have left : switched.Queued [3] := dequeued_queued (show Kernel.Queued _ ([] ++ 1 :: [3]) from appended)
  have queue : (runnableKthread switched 1).Queued [3, 1] := runnableKthread_queued left (by decide)
  have second : (timerSwitch switched).map Kernel.currentThread = some 1 := by
    change (schedule (runnableKthread switched 1)).map Kernel.currentThread = some 1
    rw [schedule, nextRunnableKthread_eq queue]
    rfl
  rw [threadAfter, timerSwitches, timerSwitches, timerSwitches, Option.bind_eq_bind, Option.bind_some,
    first, Option.bind_some, second]
  decide

end Sbunix.Thread
