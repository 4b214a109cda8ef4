import Sbunix.Library.Run
import Sbunix.Thread.Queue

namespace Sbunix.Thread

open Library

inductive Pc where
  | launch
  | yieldDisable
  | yieldAppend
  | yieldEnable
  | scheduleDisable
  | scheduleNext
  | scheduleSwitch (runnable : Tid)
  | scheduleEnable
  deriving DecidableEq

structure Context where
  pc : Pc
  interrupts : Bool
  deriving DecidableEq

structure Processor where
  kernel : Kernel
  running : Context
  saved : Tid → Context

inductive Tick where
  | advance
  | timer

def Processor.switchTo (s : Processor) (kernel : Kernel) (context : Context) (runnable : Tid) : Processor :=
  let saved := Function.update s.saved kernel.currentThread context
  ⟨{ kernel with currentThread := runnable }, saved runnable, saved⟩

def advance (s : Processor) : Option Processor :=
  match s.running.pc with
  | .launch => some { s with running := ⟨.yieldDisable, true⟩ }
  | .yieldDisable => some { s with running := ⟨.yieldAppend, false⟩ }
  | .yieldAppend =>
    some { s with
      kernel := runnableKthread s.kernel s.kernel.currentThread
      running := ⟨.yieldEnable, s.running.interrupts⟩ }
  | .yieldEnable => some { s with running := ⟨.scheduleDisable, true⟩ }
  | .scheduleDisable => some { s with running := ⟨.scheduleNext, false⟩ }
  | .scheduleNext => do
    let (runnable, kernel) ← nextRunnableKthread s.kernel
    some { s with kernel, running := ⟨.scheduleSwitch runnable, s.running.interrupts⟩ }
  | .scheduleSwitch runnable =>
    some (s.switchTo s.kernel ⟨.scheduleEnable, s.running.interrupts⟩ runnable)
  | .scheduleEnable => some { s with running := ⟨.yieldDisable, true⟩ }

def timer (s : Processor) : Option Processor :=
  if s.running.interrupts then do
    let kernel := runnableKthread s.kernel s.kernel.currentThread
    let (runnable, kernel) ← nextRunnableKthread kernel
    some (s.switchTo kernel s.running runnable)
  else none

def tick (s : Processor) : Tick → Option Processor
  | .advance => advance s
  | .timer => timer s

def Kernel.WellFormed (k : Kernel) : Prop := ∃ queued, k.Queued queued

def Context.Resumable (context : Context) : Prop :=
  context = ⟨.launch, false⟩ ∨ context = ⟨.yieldDisable, true⟩ ∨ context = ⟨.scheduleEnable, false⟩

structure Processor.Started (s : Processor) (queued : List Tid) : Prop where
  queue : s.kernel.Queued queued
  current : s.kernel.currentThread ∉ queued
  running : s.running.Resumable
  saved : ∀ thread ∈ queued, (s.saved thread).Resumable

/-- Where the current thread is in the queue, at each point of `Yield`. -/
def Processor.Placed (s : Processor) (queued : List Tid) : Prop :=
  match s.running with
  | ⟨.launch, false⟩ => s.kernel.currentThread ∉ queued
  | ⟨.yieldDisable, true⟩ => s.kernel.currentThread ∉ queued
  | ⟨.yieldAppend, false⟩ => s.kernel.currentThread ∉ queued
  | ⟨.yieldEnable, false⟩ => queued.getLast? = some s.kernel.currentThread
  | ⟨.scheduleDisable, true⟩ => queued.getLast? = some s.kernel.currentThread
  | ⟨.scheduleNext, false⟩ => queued.getLast? = some s.kernel.currentThread
  | ⟨.scheduleSwitch runnable, false⟩ =>
    runnable ∉ queued ∧ (runnable ≠ s.kernel.currentThread → (s.saved runnable).Resumable)
  | ⟨.scheduleEnable, false⟩ => s.kernel.currentThread ∉ queued
  | _ => False

structure Processor.Sound (s : Processor) (queued : List Tid) : Prop where
  queue : s.kernel.Queued queued
  placed : s.Placed queued
  saved : ∀ thread ∈ queued, thread ≠ s.kernel.currentThread → (s.saved thread).Resumable

/-- The window of `Yield` between its `sti` and the `cli` of `Schedule`. -/
def outsideWindow (s : Processor) (event : Tick) : Prop :=
  match event with
  | .timer => s.running.pc ≠ .scheduleDisable
  | .advance => True

theorem Processor.Sound.of_resumable {s : Processor} {queued : List Tid} (queue : s.kernel.Queued queued)
    (absent : s.kernel.currentThread ∉ queued) (running : s.running.Resumable)
    (saved : ∀ thread ∈ queued, (s.saved thread).Resumable) : s.Sound queued := by
  refine ⟨queue, ?_, fun thread member _ => saved thread member⟩
  unfold Placed
  rcases running with equal | equal | equal
  · rw [equal]
    exact absent
  · rw [equal]
    exact absent
  · rw [equal]
    exact absent

theorem Processor.switchTo_sound {s : Processor} {kernel : Kernel} {context : Context} {runnable : Tid}
    {queued : List Tid} (queue : kernel.Queued queued) (absent : runnable ∉ queued)
    (context_resumable : context.Resumable)
    (resumable : ∀ thread, thread ∈ runnable :: queued → thread ≠ kernel.currentThread →
      (s.saved thread).Resumable) : (s.switchTo kernel context runnable).Sound queued := by
  have updated : ∀ thread, thread ∈ runnable :: queued →
      (Function.update s.saved kernel.currentThread context thread).Resumable := by
    intro thread member
    by_cases same : thread = kernel.currentThread
    · rw [same, Function.update_self]
      exact context_resumable
    · rw [Function.update_of_ne same]
      exact resumable thread member same
  apply Sound.of_resumable
  · exact queue
  · exact absent
  · exact updated runnable (by simp)
  · exact fun thread member => updated thread (List.mem_cons_of_mem _ member)

theorem split_mem {front back : List Tid} {runnable thread : Tid} (member : thread ∈ runnable :: (front ++ back)) :
    thread ∈ front ++ runnable :: back := by
  simp only [List.mem_cons, List.mem_append] at member ⊢
  rcases member with here | inFront | inBack
  · exact Or.inr (Or.inl here)
  · exact Or.inl inFront
  · exact Or.inr (Or.inr inBack)

theorem Processor.Sound.advance {s next : Processor} {queued : List Tid} (sound : s.Sound queued)
    (stepped : advance s = some next) : ∃ after, next.Sound after := by
  obtain ⟨kernel, ⟨pc, interrupts⟩, saved⟩ := s
  obtain ⟨queue, placed, others⟩ := sound
  cases pc with
  | launch | yieldDisable | yieldEnable | scheduleDisable | scheduleEnable =>
    cases interrupts
    all_goals cases stepped
    all_goals first | exact ⟨queued, queue, placed, others⟩ | exact placed.elim
  | yieldAppend =>
    cases interrupts with
    | true => exact placed.elim
    | false =>
      cases stepped
      refine ⟨queued ++ [kernel.currentThread], runnableKthread_queued queue placed, ?_, ?_⟩
      · exact List.getLast?_concat
      · intro thread member different
        rcases List.mem_append.mp member with old | new
        · exact others thread old different
        · exact absurd (List.mem_singleton.mp new) different
  | scheduleNext =>
    cases interrupts with
    | true => exact placed.elim
    | false =>
      simp only [Thread.advance, Option.bind_eq_bind, Option.bind_eq_some_iff] at stepped
      obtain ⟨⟨runnable, after⟩, taken, stepped⟩ := stepped
      cases stepped
      obtain ⟨front, back, split, _, _, rfl, queueAfter⟩ := nextRunnableKthread_cases queue taken
      subst split
      have absent : runnable ∉ front ++ back := by
        have nodup := queue.nodup
        rw [List.nodup_middle] at nodup
        exact (List.nodup_cons.mp nodup).1
      refine ⟨front ++ back, queueAfter, ⟨absent, ?_⟩, ?_⟩
      · exact others runnable (by simp)
      · exact fun thread member => others thread (split_mem (List.mem_cons_of_mem _ member))
  | scheduleSwitch runnable =>
    cases interrupts with
    | true => exact placed.elim
    | false =>
      cases stepped
      obtain ⟨absent, resumable⟩ := placed
      refine ⟨queued, switchTo_sound queue absent (Or.inr (Or.inr rfl)) ?_⟩
      intro thread member different
      rcases List.mem_cons.mp member with rfl | member
      · exact resumable different
      · exact others thread member different

theorem Processor.Sound.timer {s next : Processor} {queued : List Tid} (sound : s.Sound queued)
    (outside : s.running.pc ≠ .scheduleDisable) (stepped : timer s = some next) :
    ∃ after, next.Sound after := by
  obtain ⟨kernel, ⟨pc, interrupts⟩, saved⟩ := s
  obtain ⟨queue, placed, others⟩ := sound
  cases interrupts with
  | false => cases stepped
  | true =>
    cases pc with
    | scheduleDisable => exact absurd rfl outside
    | launch | yieldAppend | yieldEnable | scheduleNext | scheduleSwitch | scheduleEnable => exact placed.elim
    | yieldDisable =>
      simp only [Thread.timer, if_true, Option.bind_eq_bind, Option.bind_eq_some_iff] at stepped
      obtain ⟨⟨runnable, after⟩, taken, stepped⟩ := stepped
      cases stepped
      have appended := runnableKthread_queued queue placed
      obtain ⟨front, back, split, _, _, rfl, queueAfter⟩ := nextRunnableKthread_cases appended taken
      have absent : runnable ∉ front ++ back := by
        have nodup := appended.nodup
        rw [split, List.nodup_middle] at nodup
        exact (List.nodup_cons.mp nodup).1
      refine ⟨front ++ back, switchTo_sound queueAfter absent (Or.inr (Or.inl rfl)) ?_⟩
      intro thread member different
      have listed := split_mem member
      rw [← split] at listed
      rcases List.mem_append.mp listed with old | new
      · exact others thread old different
      · exact absurd (List.mem_singleton.mp new) different

/-- In the window the current thread is the tail of the queue, and the timer appends it again. -/
theorem double_append_corrupts {k next : Kernel} {front : List Tid} {runnable : Tid}
    (queue : k.Queued (front ++ [k.currentThread]))
    (taken : nextRunnableKthread (runnableKthread k k.currentThread) = some (runnable, next)) :
    ¬ next.WellFormed := by
  obtain ⟨scanned, rfl⟩ := nextRunnableKthread_scan taken
  have start : ∀ node, (runnableKthread k k.currentThread).runQueue.head = some node →
      node ∈ front ++ [k.currentThread] := by
    intro node head
    rw [show (runnableKthread k k.currentThread).runQueue = k.runQueue from
      (threadQ.append_tail_twice k.threads queue.tail_last).1, queue.head] at head
    exact List.mem_of_mem_head? head
  obtain ⟨member, _⟩ := scan_mem (fun node other member next => queue.twice_next_mem member next) start scanned
  obtain ⟨tail, loop⟩ := queue.twice_remove member
  intro wellFormed
  obtain ⟨queued, represents⟩ := wellFormed
  cases (represents.next_tail tail).symm.trans loop

theorem Processor.Sound.window_timer {s next : Processor} {queued : List Tid} (sound : s.Sound queued)
    (window : s.running.pc = .scheduleDisable) (stepped : Thread.timer s = some next) :
    ¬ next.kernel.WellFormed := by
  obtain ⟨kernel, ⟨pc, interrupts⟩, saved⟩ := s
  dsimp only at window
  subst window
  cases interrupts with
  | false => cases stepped
  | true =>
    obtain ⟨front, split⟩ := List.getLast?_eq_some_iff.mp sound.placed
    subst split
    simp only [Thread.timer, if_true, Option.bind_eq_bind, Option.bind_eq_some_iff] at stepped
    obtain ⟨⟨runnable, after⟩, taken, stepped⟩ := stepped
    cases stepped
    have corrupted := double_append_corrupts sound.queue taken
    exact corrupted

/-- The run queue stays well formed exactly in the runs with no timer interrupt in the window. -/
theorem run_queue_intact_iff_outside_window (start final : Processor) (queued : List Tid)
    (started : start.Started queued) (events : List Tick) (executed : run tick start events = some final) :
    Throughout tick (fun s => s.kernel.WellFormed) start events ↔
      Admitted tick outsideWindow start events := by
  apply throughout_iff_admitted (fun s => ∃ queued, s.Sound queued) _ ?_ ?_ ?_ ?_ executed
  · intro s event next sound outside stepped
    obtain ⟨queued, sound⟩ := sound
    cases event with
    | advance => exact sound.advance stepped
    | timer => exact sound.timer outside stepped
  · intro s sound
    obtain ⟨queued, sound⟩ := sound
    exact ⟨queued, sound.queue⟩
  · intro s event next sound inside stepped
    obtain ⟨queued, sound⟩ := sound
    cases event with
    | advance => exact absurd trivial inside
    | timer => exact sound.window_timer (Classical.not_not.mp inside) stepped
  · exact ⟨queued, Processor.Sound.of_resumable started.queue started.current started.running started.saved⟩

def loneYielder : Processor :=
  ⟨{ bootKernel with threads := fun _ => { zeroPage with alive := true } }, ⟨.yieldDisable, true⟩,
    fun _ => ⟨.launch, false⟩⟩

theorem loneYielder_started : loneYielder.Started [] :=
  ⟨boot_queued _, by simp, Or.inr (Or.inl rfl), by simp⟩

theorem timer_head (s : Processor) (thread : Tid) (enabled : s.running.interrupts = true)
    (head : (runnableKthread s.kernel s.kernel.currentThread).runQueue.head = some thread)
    (ready : ((runnableKthread s.kernel s.kernel.currentThread).threads thread).ready = true) :
    timer s = some (s.switchTo (dequeued (runnableKthread s.kernel s.kernel.currentThread) thread)
      s.running thread) := by
  unfold timer
  rw [if_pos enabled]
  dsimp only
  rw [nextRunnableKthread_head head ready]
  rfl

theorem lone_yielder_intact :
    loneYielder.Started [] ∧
    ∃ final, run tick loneYielder [.timer, .advance, .advance, .advance] = some final ∧
      Throughout tick (fun s => s.kernel.WellFormed) loneYielder [.timer, .advance, .advance, .advance] := by
  have interrupted := timer_head loneYielder 0 rfl rfl rfl
  have executed : ∃ final, run tick loneYielder [.timer, .advance, .advance, .advance] = some final :=
    ⟨_, run_cons.mpr ⟨_, interrupted, rfl⟩⟩
  obtain ⟨final, executed⟩ := executed
  refine ⟨loneYielder_started, final, executed, ?_⟩
  rw [run_queue_intact_iff_outside_window loneYielder final [] loneYielder_started _ executed]
  have outside : outsideWindow loneYielder .timer := by
    intro equal
    cases equal
  exact ⟨outside, fun _ _ => ⟨trivial, fun _ _ => ⟨trivial, fun _ _ => ⟨trivial, fun _ _ => trivial⟩⟩⟩⟩

def loneYielderInWindow : Processor :=
  { loneYielder with
    kernel := runnableKthread loneYielder.kernel 0
    running := ⟨.scheduleDisable, true⟩ }

/-- A timer interrupt in the window appends the thread a second time. -/
theorem window_timer_corrupts_queue :
    loneYielder.Started [] ∧
    ∃ final, run tick loneYielder ([.advance, .advance, .advance] ++ [.timer]) = some final ∧
      ¬ final.kernel.WellFormed := by
  refine ⟨loneYielder_started, ?_⟩
  have sound : loneYielderInWindow.Sound [0] := by
    refine ⟨runnableKthread_queued (boot_queued _) (by simp), rfl, ?_⟩
    intro thread member different
    exact absurd (List.mem_singleton.mp member) different
  have interrupted := timer_head loneYielderInWindow 0 rfl rfl rfl
  exact ⟨_, run_append.mpr ⟨loneYielderInWindow, rfl, run_cons.mpr ⟨_, interrupted, rfl⟩⟩,
    sound.window_timer rfl interrupted⟩

end Sbunix.Thread
