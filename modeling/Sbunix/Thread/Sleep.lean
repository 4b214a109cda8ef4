import Mathlib.Algebra.GroupWithZero.Nat
import Sbunix.Thread.Timer

namespace Sbunix.Thread

open Library

/-- `sleep`, whose argument is stored in a signed word. -/
def sleep (k : Kernel) (time : BitVec 64) : Kernel :=
  k.updateThread k.currentThread fun page => { page with sleeping := (time.setWidth 32).toInt }

inductive Event where
  | timer
  | runnable (thread : Tid)
  | schedule
  | sleep (time : BitVec 64)

def handle (state : Kernel × Clock) : Event → Option (Kernel × Clock)
  | .timer => timerHandler state.1 state.2
  | .runnable thread => some (runnableKthread state.1 thread, state.2)
  | .schedule => (schedule state.1).map fun k => (k, state.2)
  | .sleep time => some (sleep state.1 time, state.2)

def boundary (ticks : BitVec 16) : Bool := (ticks + 1) % 100 == 0

def boundaries (ticks : BitVec 16) : List Event → Nat
  | [] => 0
  | .timer :: events => (if boundary ticks then 1 else 0) + boundaries (ticks + 1) events
  | _ :: events => boundaries ticks events

def WellFormed (state : Kernel × Clock) : Prop := ∃ queued, state.1.Queued queued

def Apart (state : Kernel × Clock) : Event → Prop
  | .timer | .sleep _ => ∀ queued, state.1.Queued queued → state.1.currentThread ∉ queued
  | _ => True

def sleepingOf (state : Kernel × Clock) (thread : Tid) : Int := (state.1.threads thread).sleeping

/-- The loop of `timer_handler` counts down every queued thread, since it does not meet the current one. -/
theorem countDown_queued {currentThread : Tid} {threads : Tid → Kthread} {before : Option Tid} {queued : List Tid}
    (linked : threadQ.Linked threads before queued none) (nodup : queued.Nodup) (apart : currentThread ∉ queued) :
    Threads.countDown threads currentThread queued.head? =
      some fun thread => if thread ∈ queued then (threads thread).slept else threads thread := by
  induction queued generalizing threads before with
  | nil =>
    rw [List.head?_nil, Threads.countDown]
    simp
  | cons crawl rest ih =>
    obtain ⟨_, forth, linked⟩ := linked
    change (threads crawl).nextInThreadQ = _ at forth
    rw [List.nodup_cons] at nodup
    rw [List.mem_cons, not_or] at apart
    rw [List.head?_cons, Threads.countDown, if_neg fun same => apart.1 same.symm, forth, Option.or_none,
      ih (linked_slept linked crawl) nodup.2 apart.2]
    congr 1
    funext thread
    by_cases same : thread = crawl
    · subst same
      simp [nodup.1]
    · simp [same]

theorem slept_sleeping (page : Kthread) :
    page.slept.sleeping = if 0 < page.sleeping then page.sleeping - 1 else page.sleeping := by
  rw [Kthread.slept]
  split <;> rfl

theorem rollOver_ticks (clock : Clock) : clock.rollOver.totalTicks = clock.totalTicks := by
  unfold Clock.rollOver
  dsimp only
  split
  · split <;> rfl
  · rfl

/-- A second boundary takes one from every queued sleeper, and a tick between boundaries takes nothing. -/
theorem timer_step {state : Kernel × Clock} {queued : List Tid} (queue : state.1.Queued queued)
    (apart : state.1.currentThread ∉ queued) :
    ∃ next, handle state .timer = some next ∧ next.1.Queued queued ∧
      next.2.totalTicks = state.2.totalTicks + 1 ∧ ∀ thread, sleepingOf next thread =
        if boundary state.2.totalTicks = true ∧ thread ∈ queued ∧ 0 < sleepingOf state thread then
          sleepingOf state thread - 1
        else sleepingOf state thread := by
  obtain ⟨k, clock⟩ := state
  dsimp only at queue apart
  have counted := countDown_queued queue.linked queue.nodup apart
  rw [← queue.head] at counted
  by_cases multiple : (clock.totalTicks + 1) % 100 = 0
  · refine ⟨⟨_, _⟩, by rw [handle, timerHandler, if_pos multiple, counted]; rfl, ?_, rollOver_ticks _, ?_⟩
    · refine queue.congr ?_ ?_
      all_goals
        intro thread member
        dsimp only
        rw [if_pos member, Kthread.slept]
        split <;> rfl
    · intro thread
      have second : boundary clock.totalTicks = true := beq_iff_eq.mpr multiple
      by_cases member : thread ∈ queued
      · simp only [sleepingOf, second, member, true_and, if_true, slept_sleeping]
      · simp only [sleepingOf, member, false_and, and_false, if_false]
  · refine ⟨⟨_, _⟩, by rw [handle, timerHandler, if_neg multiple]; rfl, queue, rfl, ?_⟩
    intro thread
    rw [if_neg fun both => multiple (beq_iff_eq.mp both.1)]
    rfl

theorem sleeping_of_identity {left right : Kthread} (identity : left.identity = right.identity) :
    left.sleeping = right.sleeping := congrArg (fun triple => triple.2.1) identity

theorem runnable_sleeping (state : Kernel × Clock) (thread other : Tid) :
    sleepingOf (runnableKthread state.1 thread, state.2) other = sleepingOf state other :=
  sleeping_of_identity (runnableKthread_identity state.1 thread other)

/-- A well-formed queue shows that the thread appended to it was not queued. -/
theorem runnable_wellFormed {state : Kernel × Clock} {queued : List Tid} {thread : Tid} (queue : state.1.Queued queued)
    (wellFormed : WellFormed (runnableKthread state.1 thread, state.2)) :
    thread ∉ queued ∧ (runnableKthread state.1 thread).Queued (queued ++ [thread]) := by
  obtain ⟨others, again⟩ := wellFormed
  have absent : thread ∉ queued := fun member => Links.Represents.append_again queue member again
  exact ⟨absent, runnableKthread_queued queue absent⟩

/-- The scheduler removes the thread it returns, which is not asleep, and no other. -/
theorem schedule_step {state next : Kernel × Clock} {queued : List Tid} (queue : state.1.Queued queued)
    (executed : handle state .schedule = some next) :
    ∃ front back, queued = front ++ next.1.currentThread :: back ∧ sleepingOf state next.1.currentThread = 0 ∧
      next.1.Queued (front ++ back) ∧ ∀ thread, sleepingOf next thread = sleepingOf state thread := by
  obtain ⟨k, scheduled, rfl⟩ := Option.map_eq_some_iff.mp executed
  unfold schedule at scheduled
  simp only [Option.bind_eq_bind, Option.bind_eq_some_iff] at scheduled
  obtain ⟨⟨runnable, middle⟩, taken, scheduled⟩ := scheduled
  cases scheduled
  obtain ⟨front, back, split, ready, _, rfl, after⟩ := nextRunnableKthread_cases queue taken
  rw [Kthread.ready, Bool.and_eq_true, beq_iff_eq] at ready
  refine ⟨front, back, split, ready.1, after, ?_⟩
  intro thread
  exact sleeping_of_identity (dequeued_identity state.1 runnable thread)

theorem sleep_queued {state : Kernel × Clock} {queued : List Tid} (queue : state.1.Queued queued) (time : BitVec 64) :
    (sleep state.1 time).Queued queued :=
  queue.congr (fun thread _ => updateThread_view Kthread.prevInThreadQ (by intro page; rfl) thread)
    (fun thread _ => updateThread_view Kthread.nextInThreadQ (by intro page; rfl) thread)

/-- A thread that waits in the run queue for that many second boundaries. -/
def Asleep (thread : Tid) (left : Nat) (state : Kernel × Clock) : Prop :=
  ∃ queued, state.1.Queued queued ∧ thread ∈ queued ∧ sleepingOf state thread = left

theorem Asleep.not_returned {thread : Tid} {left : Nat} {state : Kernel × Clock} (asleep : Asleep thread left state)
    (positive : 0 < left) (next : Kernel) : nextRunnableKthread state.1 ≠ some (thread, next) := by
  obtain ⟨queued, queue, _, sleeping⟩ := asleep
  intro taken
  obtain ⟨_, _, _, ready, _⟩ := nextRunnableKthread_cases queue taken
  rw [Kthread.ready, Bool.and_eq_true, beq_iff_eq] at ready
  have awake : sleepingOf state thread = 0 := ready.1
  omega

theorem Asleep.timer {thread : Tid} {left : Nat} {state next : Kernel × Clock} (asleep : Asleep thread left state)
    (positive : 0 < left) (apart : Apart state .timer) (executed : handle state .timer = some next) :
    Asleep thread (if boundary state.2.totalTicks then left - 1 else left) next := by
  obtain ⟨queued, queue, member, sleeping⟩ := asleep
  obtain ⟨other, same, queueAfter, _, counted⟩ := timer_step queue (apart queued queue)
  cases executed.symm.trans same
  refine ⟨queued, queueAfter, member, ?_⟩
  rw [counted, sleeping]
  by_cases second : boundary state.2.totalTicks
  · rw [if_pos ⟨second, member, by omega⟩, if_pos second]
    omega
  · rw [if_neg fun all => second all.1, if_neg second]

theorem Asleep.step {thread : Tid} {left : Nat} {state next : Kernel × Clock} {event : Event}
    (asleep : Asleep thread left state) (positive : 0 < left) (other : event ≠ .timer) (apart : Apart state event)
    (wellFormed : WellFormed next) (executed : handle state event = some next) : Asleep thread left next := by
  obtain ⟨queued, queue, member, sleeping⟩ := asleep
  cases event with
  | timer => exact absurd rfl other
  | runnable appended =>
    cases executed
    obtain ⟨_, queueAfter⟩ := runnable_wellFormed queue wellFormed
    refine ⟨_, queueAfter, List.mem_append_left _ member, ?_⟩
    rw [runnable_sleeping, sleeping]
  | schedule =>
    obtain ⟨front, back, split, awake, queueAfter, kept⟩ := schedule_step queue executed
    have different : thread ≠ next.1.currentThread := by
      intro same
      rw [← same, sleeping] at awake
      omega
    refine ⟨_, queueAfter, ?_, by rw [kept, sleeping]⟩
    rw [split] at member
    simpa [different] using member
  | sleep time =>
    cases executed
    have different : thread ≠ state.1.currentThread := fun same => apart queued queue (same ▸ member)
    refine ⟨queued, sleep_queued queue time, member, ?_⟩
    rw [← sleeping, sleepingOf, sleep, updateThread_other _ different]
    rfl

theorem timer_ticks {state next : Kernel × Clock} (executed : handle state .timer = some next) :
    next.2.totalTicks = state.2.totalTicks + 1 := by
  change timerHandler _ _ = _ at executed
  unfold timerHandler at executed
  dsimp only at executed
  split at executed
  · obtain ⟨threads, _, executed⟩ := Option.bind_eq_some_iff.mp executed
    cases executed
    exact rollOver_ticks _
  · cases executed
    rfl

theorem boundaries_timer {state next : Kernel × Clock} (executed : handle state .timer = some next)
    (events : List Event) : boundaries state.2.totalTicks (.timer :: events) =
      (if boundary state.2.totalTicks then 1 else 0) + boundaries next.2.totalTicks events := by
  rw [boundaries, timer_ticks executed]

theorem boundaries_other {state next : Kernel × Clock} {event : Event} (other : event ≠ .timer)
    (executed : handle state event = some next) (events : List Event) :
    boundaries state.2.totalTicks (event :: events) = boundaries next.2.totalTicks events := by
  cases event with
  | timer => exact absurd rfl other
  | runnable thread =>
    cases executed
    rfl
  | schedule =>
    obtain ⟨k, _, rfl⟩ := Option.map_eq_some_iff.mp executed
    rfl
  | sleep time =>
    cases executed
    rfl

theorem boundaries_append {start middle : Kernel × Clock} {first : List Event}
    (executed : run handle start first = some middle) (second : List Event) :
    boundaries start.2.totalTicks (first ++ second) =
      boundaries start.2.totalTicks first + boundaries middle.2.totalTicks second := by
  induction first generalizing start with
  | nil =>
    cases executed
    simp [boundaries]
  | cons event first ih =>
    obtain ⟨next, stepped, rest⟩ := run_cons.mp executed
    rw [List.cons_append]
    by_cases tick : event = .timer
    · subst tick
      rw [boundaries_timer stepped, boundaries_timer stepped, ih rest, Nat.add_assoc]
    · rw [boundaries_other tick stepped, boundaries_other tick stepped, ih rest]

/-- A sleeper waits until the boundaries it asked for have passed. -/
theorem Asleep.run {thread : Tid} {left : Nat} {start final : Kernel × Clock} {events : List Event}
    (asleep : Asleep thread left start) (wellFormed : Throughout handle WellFormed start events)
    (apart : Admitted handle Apart start events) (executed : run handle start events = some final)
    (waiting : boundaries start.2.totalTicks events < left) :
    Asleep thread (left - boundaries start.2.totalTicks events) final := by
  -- the boundaries still to come bound the seconds left, so the sleeper is asleep before every event
  induction events generalizing start left with
  | nil =>
    cases executed
    exact asleep
  | cons event events ih =>
    obtain ⟨next, stepped, rest⟩ := run_cons.mp executed
    obtain ⟨_, wellFormedLater⟩ := (throughout_cons stepped).mp wellFormed
    have later := apart.2 next stepped
    by_cases tick : event = .timer
    · subst tick
      rw [boundaries_timer stepped] at waiting ⊢
      have counted := asleep.timer (by omega) apart.1 stepped
      rw [Nat.sub_add_eq]
      by_cases second : boundary start.2.totalTicks
      · rw [if_pos second] at counted waiting ⊢
        exact ih counted wellFormedLater later rest (by omega)
      · rw [if_neg second] at counted waiting ⊢
        exact ih counted wellFormedLater later rest (by omega)
    · have nextWellFormed : WellFormed next := wellFormedLater [] List.nil_prefix next rfl
      rw [boundaries_other tick stepped] at waiting ⊢
      exact ih (asleep.step (by omega) tick apart.1 nextWellFormed stepped) wellFormedLater later rest waiting

/-- The boundary that completes the seconds asked for leaves the field at zero. -/
theorem Asleep.wakes {thread : Tid} {left : Nat} {start final : Kernel × Clock} {earlier : List Event}
    (asleep : Asleep thread left start) (wellFormed : Throughout handle WellFormed start (earlier ++ [.timer]))
    (apart : Admitted handle Apart start (earlier ++ [.timer]))
    (executed : Library.run handle start (earlier ++ [.timer]) = some final)
    (waiting : boundaries start.2.totalTicks earlier < left)
    (exactly : boundaries start.2.totalTicks (earlier ++ [.timer]) = left) : sleepingOf final thread = 0 := by
  obtain ⟨middle, arrived, ticked⟩ := run_append.mp executed
  obtain ⟨last, stepped, same⟩ := run_cons.mp ticked
  cases same
  obtain ⟨wellFormedEarlier, _⟩ := throughout_append arrived wellFormed
  obtain ⟨apartEarlier, apartLast⟩ := admitted_append arrived apart
  have still := asleep.run wellFormedEarlier apartEarlier arrived waiting
  rw [boundaries_append arrived, boundaries_timer stepped, boundaries] at exactly
  by_cases second : boundary middle.2.totalTicks
  · obtain ⟨_, _, _, sleeping⟩ := still.timer (by omega) apartLast.1 stepped
    rw [if_pos second] at sleeping exactly
    rw [sleeping]
    omega
  · rw [if_neg second] at exactly
    omega

def Resting (thread : Tid) (seconds : Int) (state : Kernel × Clock) : Prop :=
  ∃ queued, state.1.Queued queued ∧ thread ∉ queued ∧ sleepingOf state thread = seconds

theorem Resting.step {thread : Tid} {seconds : Int} {state next : Kernel × Clock} {event : Event}
    (resting : Resting thread seconds state) (unqueued : event ≠ .runnable thread) (awake : ∀ time, event ≠ .sleep time)
    (apart : Apart state event) (wellFormed : WellFormed next) (executed : handle state event = some next) :
    Resting thread seconds next := by
  obtain ⟨queued, queue, absent, sleeping⟩ := resting
  cases event with
  | timer =>
    obtain ⟨other, same, queueAfter, _, counted⟩ := timer_step queue (apart queued queue)
    cases executed.symm.trans same
    refine ⟨queued, queueAfter, absent, ?_⟩
    rw [counted, if_neg fun all => absent all.2.1, sleeping]
  | runnable appended =>
    cases executed
    obtain ⟨_, queueAfter⟩ := runnable_wellFormed queue wellFormed
    have different : thread ≠ appended := fun same => unqueued (by rw [same])
    refine ⟨_, queueAfter, by simp [absent, different], ?_⟩
    rw [runnable_sleeping, sleeping]
  | schedule =>
    obtain ⟨front, back, split, _, queueAfter, kept⟩ := schedule_step queue executed
    refine ⟨_, queueAfter, ?_, by rw [kept, sleeping]⟩
    rw [split] at absent
    simp only [List.mem_append, List.mem_cons, not_or] at absent ⊢
    exact ⟨absent.1, absent.2.2⟩
  | sleep time => exact absurd rfl (awake time)

theorem toInt_of_small {time : BitVec 64} (bound : time.toNat < 2 ^ 31) : (time.setWidth 32).toInt = time.toNat := by
  have same : (time.setWidth 32).toNat = time.toNat := by
    rw [BitVec.toNat_setWidth]
    exact Nat.mod_eq_of_lt (by omega)
  rw [BitVec.toInt_eq_toNat_of_lt (by omega), same]

/-- No call of `timer_handler` takes a field below zero, and no short `sleep` sets one below zero. -/
theorem nonnegative_step {state next : Kernel × Clock} {event : Event}
    (nonnegative : ∀ thread, 0 ≤ sleepingOf state thread)
    (wellFormed : WellFormed state) (short : ∀ time, event = .sleep time → time.toNat < 2 ^ 31)
    (apart : Apart state event) (executed : handle state event = some next) (thread : Tid) :
    0 ≤ sleepingOf next thread := by
  obtain ⟨queued, queue⟩ := wellFormed
  cases event with
  | timer =>
    obtain ⟨other, same, _, _, counted⟩ := timer_step queue (apart queued queue)
    cases executed.symm.trans same
    have before := nonnegative thread
    rw [counted]
    split <;> omega
  | runnable appended =>
    cases executed
    rw [runnable_sleeping]
    exact nonnegative thread
  | schedule =>
    obtain ⟨_, _, _, _, _, kept⟩ := schedule_step queue executed
    rw [kept]
    exact nonnegative thread
  | sleep time =>
    cases executed
    by_cases same : thread = state.1.currentThread
    · rw [same, sleepingOf, sleep, updateThread_self]
      change 0 ≤ (time.setWidth 32).toInt
      rw [toInt_of_small (short time rfl)]
      omega
    · rw [sleepingOf, sleep, updateThread_other _ same]
      exact nonnegative thread

theorem nonnegative_run {start final : Kernel × Clock} {events : List Event}
    (nonnegative : ∀ thread, 0 ≤ sleepingOf start thread) (wellFormed : Throughout handle WellFormed start events)
    (apart : Admitted handle Apart start events) (short : ∀ time, .sleep time ∈ events → time.toNat < 2 ^ 31)
    (executed : run handle start events = some final) (thread : Tid) : 0 ≤ sleepingOf final thread :=
  run_preserves_throughout (fun state => ∀ thread, 0 ≤ sleepingOf state thread)
    (fun _ member _ _ before safe _ apart executed =>
      nonnegative_step before safe (fun time same => short time (same ▸ member)) apart executed)
    nonnegative wellFormed apart executed thread

/-- The thread is asleep once it is in the run queue again, whatever happened meanwhile. -/
theorem requeued_asleep {k : Kernel} {clock : Clock} {time : BitVec 64} {pending : List Event} {start : Kernel × Clock}
    (bound : time.toNat < 2 ^ 31)
    (unqueued : ∀ event ∈ pending, event ≠ .runnable k.currentThread ∧ ∀ other, event ≠ .sleep other)
    (wellFormed : Throughout handle WellFormed (k, clock) (.sleep time :: pending ++ [.runnable k.currentThread]))
    (apart : Admitted handle Apart (k, clock) (.sleep time :: pending ++ [.runnable k.currentThread]))
    (requeued : run handle (k, clock) (.sleep time :: pending ++ [.runnable k.currentThread]) = some start) :
    Asleep k.currentThread time.toNat start := by
  obtain ⟨middle, waited, appended⟩ := run_append.mp requeued
  obtain ⟨last, stepped, same⟩ := run_cons.mp appended
  cases same
  cases stepped
  obtain ⟨asked, slept, waited⟩ := run_cons.mp waited
  cases slept
  have called : handle (k, clock) (.sleep time) = some (sleep k time, clock) := rfl
  obtain ⟨⟨queued, queue⟩, wellFormedLater⟩ := (throughout_cons called).mp wellFormed
  have resting : Resting k.currentThread time.toNat (sleep k time, clock) := by
    refine ⟨queued, sleep_queued queue time, apart.1 queued queue, ?_⟩
    rw [sleepingOf, sleep, updateThread_self]
    exact toInt_of_small bound
  obtain ⟨wellFormedPending, wellFormedLast⟩ := throughout_append waited wellFormedLater
  obtain ⟨apartPending, _⟩ := admitted_append waited (apart.2 _ rfl)
  obtain ⟨others, queueBefore, absent, sleeping⟩ := run_preserves_throughout (Resting k.currentThread time.toNat)
    (fun event member s next before _ safe apart executed =>
      before.step (unqueued event member).1 (unqueued event member).2 apart safe executed)
    resting wellFormedPending apartPending waited
  refine ⟨_, runnableKthread_queued queueBefore absent, by simp, ?_⟩
  rw [runnable_sleeping, sleeping]

theorem requeued_short {time : BitVec 64} {thread : Tid} {pending : List Event} (bound : time.toNat < 2 ^ 31)
    (unqueued : ∀ event ∈ pending, event ≠ .runnable thread ∧ ∀ other, event ≠ .sleep other) (other : BitVec 64)
    (member : .sleep other ∈ .sleep time :: pending ++ [.runnable thread]) : other.toNat < 2 ^ 31 := by
  rcases List.mem_append.mp member with early | last
  · rcases List.mem_cons.mp early with same | waiting
    · cases same
      exact bound
    · exact absurd rfl ((unqueued _ waiting).2 other)
  · cases List.mem_singleton.mp last

/-- A thread that has slept and is in the run queue again stays there, one second less at each boundary. -/
theorem sleeper_waits_exactly (k : Kernel) (clock : Clock) (time : BitVec 64) (bound : time.toNat < 2 ^ 31)
    (pending rest : List Event)
    (unqueued : ∀ event ∈ pending, event ≠ .runnable k.currentThread ∧ ∀ other, event ≠ .sleep other)
    (wellFormed : Throughout handle WellFormed (k, clock)
      ((.sleep time :: pending ++ [.runnable k.currentThread]) ++ rest))
    (apart : Admitted handle Apart (k, clock) ((.sleep time :: pending ++ [.runnable k.currentThread]) ++ rest))
    (start : Kernel × Clock)
    (requeued : run handle (k, clock) (.sleep time :: pending ++ [.runnable k.currentThread]) = some start)
    (passed : List Event) (isPrefix : passed <+: rest) (state : Kernel × Clock)
    (reached : run handle start passed = some state) :
    (boundaries start.2.totalTicks passed < time.toNat →
      sleepingOf state k.currentThread = (time.toNat - boundaries start.2.totalTicks passed : Nat) ∧
        ∀ next, nextRunnableKthread state.1 ≠ some (k.currentThread, next)) ∧
    (∀ earlier, passed = earlier ++ [.timer] → boundaries start.2.totalTicks earlier < time.toNat →
      boundaries start.2.totalTicks passed = time.toNat → sleepingOf state k.currentThread = 0) ∧
    (passed ++ [.timer] <+: rest → ∃ next, handle state .timer = some next ∧
      ∀ queued, state.1.Queued queued → ∀ thread, sleepingOf next thread =
        if boundary state.2.totalTicks = true ∧ thread ∈ queued ∧ 0 < sleepingOf state thread then
          sleepingOf state thread - 1
        else sleepingOf state thread) ∧
    ((∀ thread, 0 ≤ sleepingOf (k, clock) thread) → (∀ other, .sleep other ∈ rest → other.toNat < 2 ^ 31) →
      ∀ thread, 0 ≤ sleepingOf state thread) := by
  obtain ⟨wellFormedBefore, wellFormedAfter⟩ := throughout_append requeued wellFormed
  obtain ⟨apartBefore, apartAfter⟩ := admitted_append requeued apart
  obtain ⟨others, rfl⟩ := isPrefix
  obtain ⟨wellFormedPassed, wellFormedOthers⟩ := throughout_append reached wellFormedAfter
  obtain ⟨apartPassed, apartOthers⟩ := admitted_append reached apartAfter
  have asleep : Asleep k.currentThread time.toNat start :=
    requeued_asleep bound unqueued wellFormedBefore apartBefore requeued
  refine ⟨?_, ?_, ?_, ?_⟩
  · intro waiting
    have still := asleep.run wellFormedPassed apartPassed reached waiting
    obtain ⟨_, _, _, sleeping⟩ := id still
    exact ⟨sleeping, still.not_returned (by omega)⟩
  · intro earlier equal waiting exactly
    subst equal
    exact asleep.wakes wellFormedPassed apartPassed reached waiting exactly
  · intro ticks
    obtain ⟨_, split⟩ := (List.prefix_append_right_inj passed).mp ticks
    rw [← split] at apartOthers
    obtain ⟨queued, queue⟩ := wellFormedPassed passed (List.prefix_refl passed) state reached
    obtain ⟨next, stepped, _, _, counted⟩ := timer_step queue (apartOthers.1 queued queue)
    refine ⟨next, stepped, ?_⟩
    intro listed again
    rw [Links.Represents.unique again queue]
    exact counted
  · intro nonnegative short
    have before : ∀ thread, 0 ≤ sleepingOf start thread :=
      nonnegative_run nonnegative wellFormedBefore apartBefore (requeued_short bound unqueued) requeued
    exact nonnegative_run before wellFormedPassed apartPassed
      (fun other member => short other (List.mem_append_left _ member)) reached

def sleepyClock : Clock := { bootClock with totalTicks := 99 }

theorem one_second_passes :
    ∃ start state, run handle (waitingKernel 0, sleepyClock) [.sleep 1, .runnable 3] = some start ∧
      run handle start [.schedule, .timer] = some state ∧ boundaries start.2.totalTicks [.schedule, .timer] = 1 ∧
      sleepingOf state 3 = 0 := by
  let asked := sleep (waitingKernel 0) 1
  have first : asked.Queued [1] :=
    sleep_queued (show (waitingKernel 0, sleepyClock).1.Queued [1] from waitingKernel_queued 0) 1
  let appended := runnableKthread asked 3
  have second : appended.Queued [1, 3] := runnableKthread_queued first (by decide)
  let switched := { dequeued appended 1 with currentThread := 1 }
  have third : switched.Queued [3] := dequeued_queued (show Kernel.Queued _ ([] ++ 1 :: [3]) from second)
  have scheduled : handle (appended, sleepyClock) .schedule = some (switched, sleepyClock) := by
    rw [handle, schedule_head second.head (by decide)]
    rfl
  obtain ⟨state, ticked, fourth, _⟩ := timer_step (show (switched, sleepyClock).1.Queued [3] from third) (by decide)
  have reached : run handle (appended, sleepyClock) [.schedule, .timer] = some state :=
    run_cons.mpr ⟨_, scheduled, run_cons.mpr ⟨_, ticked, rfl⟩⟩
  have wellFormed : Throughout handle WellFormed (waitingKernel 0, sleepyClock)
      [.sleep 1, .runnable 3, .schedule, .timer] := by
    rw [throughout_cons (show handle _ (.sleep 1) = some (asked, sleepyClock) from rfl),
      throughout_cons (show handle _ (.runnable 3) = some (appended, sleepyClock) from rfl),
      throughout_cons scheduled, throughout_cons ticked, throughout_nil]
    exact ⟨⟨_, waitingKernel_queued 0⟩, ⟨_, first⟩, ⟨_, second⟩, ⟨_, third⟩, ⟨_, fourth⟩⟩
  have apart : Admitted handle Apart (waitingKernel 0, sleepyClock) [.sleep 1, .runnable 3, .schedule, .timer] := by
    refine ⟨?_, ?_⟩
    · intro queued queue
      rw [Links.Represents.unique queue (waitingKernel_queued 0)]
      decide
    · rintro _ ⟨⟩
      refine ⟨trivial, ?_⟩
      rintro _ ⟨⟩
      refine ⟨trivial, ?_⟩
      intro next same
      cases scheduled.symm.trans same
      refine ⟨?_, fun _ _ => trivial⟩
      intro queued queue
      rw [Links.Represents.unique queue third]
      decide
  obtain ⟨_, exactly, _⟩ := sleeper_waits_exactly (waitingKernel 0) sleepyClock 1 (by decide) []
    [.schedule, .timer] (by simp) wellFormed apart (appended, sleepyClock) rfl [.schedule, .timer] (List.prefix_refl _)
    state reached
  exact ⟨_, state, rfl, reached, by decide, exactly [.schedule] rfl (by decide) (by decide)⟩

end Sbunix.Thread
