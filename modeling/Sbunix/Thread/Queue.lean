import Sbunix.Thread.Model

namespace Sbunix.Thread

open Library

/-- The run queue is well formed and holds these threads in this order. -/
def Kernel.Queued (k : Kernel) (queued : List Tid) : Prop :=
  threadQ.Represents k.threads k.runQueue queued

theorem runnableKthread_queued {k : Kernel} {queued : List Tid} {thread : Tid} (represents : k.Queued queued)
    (absent : thread ∉ queued) : (runnableKthread k thread).Queued (queued ++ [thread]) :=
  Links.Represents.append represents absent

def dequeued (k : Kernel) (thread : Tid) : Kernel :=
  { k with
    threads := (removeRunnableKthread k.threads k.runQueue thread).1
    runQueue := (removeRunnableKthread k.threads k.runQueue thread).2 }

theorem dequeued_queued {k : Kernel} {front back : List Tid} {thread : Tid}
    (represents : k.Queued (front ++ thread :: back)) : (dequeued k thread).Queued (front ++ back) :=
  Links.Represents.remove represents

/-- On a well-formed queue the scheduler takes the first ready thread, if there is one. -/
theorem nextRunnableKthread_eq {k : Kernel} {queued : List Tid} (represents : k.Queued queued) :
    nextRunnableKthread k =
      (queued.find? fun thread => (k.threads thread).ready).map fun thread => (thread, dequeued k thread) := by
  have scanned := represents.linked.scan fun thread => (k.threads thread).ready
  rw [← represents.head] at scanned
  change scan (fun crawl => (k.threads crawl).nextInThreadQ) _ _ = _ at scanned
  unfold nextRunnableKthread
  rw [scanned]
  cases queued.find? fun thread => (k.threads thread).ready with
  | none => rfl
  | some thread => rfl

theorem nextRunnableKthread_scan {k next : Kernel} {thread : Tid}
    (taken : nextRunnableKthread k = some (thread, next)) :
    scan (fun crawl => (k.threads crawl).nextInThreadQ) (fun crawl => (k.threads crawl).ready)
      k.runQueue.head = some (some thread) ∧ next = dequeued k thread := by
  unfold nextRunnableKthread at taken
  obtain ⟨found, scanned, taken⟩ := Option.bind_eq_some_iff.mp taken
  cases found with
  | none => cases taken
  | some found =>
    cases taken
    exact ⟨scanned, rfl⟩

/-- A ready thread at the head is taken, whatever the rest of the queue is. -/
theorem nextRunnableKthread_head {k : Kernel} {thread : Tid} (head : k.runQueue.head = some thread)
    (ready : (k.threads thread).ready = true) :
    nextRunnableKthread k = some (thread, dequeued k thread) := by
  unfold nextRunnableKthread
  rw [head, scan_some, if_pos ready]
  rfl

theorem nextRunnableKthread_cases {k next : Kernel} {queued : List Tid} {thread : Tid}
    (represents : k.Queued queued) (taken : nextRunnableKthread k = some (thread, next)) :
    ∃ front back, queued = front ++ thread :: back ∧ (k.threads thread).ready = true ∧
      (∀ other ∈ front, (k.threads other).ready = false) ∧ next = dequeued k thread ∧
      next.Queued (front ++ back) := by
  rw [nextRunnableKthread_eq represents, Option.map_eq_some_iff] at taken
  obtain ⟨found, searched, pair⟩ := taken
  cases pair
  rw [List.find?_eq_some_iff_append] at searched
  obtain ⟨ready, front, back, split, skipped⟩ := searched
  refine ⟨front, back, split, ready, ?_, rfl, ?_⟩
  · intro other member
    simpa using skipped other member
  · rw [split] at represents
    exact dequeued_queued represents

theorem erase_middle {front back : List Tid} {thread : Tid} (nodup : (front ++ thread :: back).Nodup) :
    (front ++ thread :: back).erase thread = front ++ back := by
  have absent : thread ∉ front := by
    rw [List.nodup_append] at nodup
    intro member
    exact nodup.2.2 thread member thread (by simp) rfl
  rw [List.erase_append_right _ absent, List.erase_cons_head]

/-- The intrusive run queue refines a list of threads. -/
theorem run_queue_refines_list (k : Kernel) (queued : List Tid)
    (represents : threadQ.Represents k.threads k.runQueue queued) :
    (∀ node, node ∉ queued →
      threadQ.Represents (appendRunQueue k.threads k.runQueue node).1
        (appendRunQueue k.threads k.runQueue node).2 (queued ++ [node])) ∧
    (∀ node ∈ queued,
      threadQ.Represents (removeRunnableKthread k.threads k.runQueue node).1
        (removeRunnableKthread k.threads k.runQueue node).2 (queued.erase node)) ∧
    ((∃ thread ∈ queued, (k.threads thread).sleeping = 0 ∧ (k.threads thread).alive = true) →
      ∃ runnable next, nextRunnableKthread k = some (runnable, next) ∧
        queued.find? (fun thread => (k.threads thread).sleeping = 0 ∧ (k.threads thread).alive = true) =
          some runnable ∧
        threadQ.Represents next.threads next.runQueue (queued.erase runnable)) := by
  refine ⟨fun node absent => represents.append absent, ?_, ?_⟩
  · intro node member
    obtain ⟨front, back, split⟩ := List.append_of_mem member
    subst split
    rw [erase_middle represents.nodup]
    exact represents.remove
  · intro exists_ready
    have same : (fun thread => decide ((k.threads thread).sleeping = 0 ∧ (k.threads thread).alive = true)) =
        fun thread => (k.threads thread).ready := by
      funext thread
      simp [Kthread.ready, Bool.beq_eq_decide_eq]
    rw [same]
    cases searched : queued.find? fun thread => (k.threads thread).ready with
    | none =>
      obtain ⟨thread, member, awake, alive⟩ := exists_ready
      have skipped := List.find?_eq_none.mp searched thread member
      simp [Kthread.ready, awake, alive] at skipped
    | some runnable =>
      have taken : nextRunnableKthread k = some (runnable, dequeued k runnable) := by
        rw [nextRunnableKthread_eq represents, searched]
        rfl
      obtain ⟨front, back, split, _, _, _, queuedAfter⟩ := nextRunnableKthread_cases represents taken
      refine ⟨runnable, dequeued k runnable, taken, rfl, ?_⟩
      subst split
      rw [erase_middle represents.nodup]
      exact queuedAfter

theorem boot_queued (threads : Tid → Kthread) : Kernel.Queued { bootKernel with threads } [] :=
  Links.represents_nil _

def sleeperKernel : Kernel :=
  let threads thread := { zeroPage with sleeping := if thread = 1 then 5 else 0, alive := true }
  runnableKthread (runnableKthread { bootKernel with threads } 1) 2

theorem sleeper_is_skipped :
    threadQ.Represents sleeperKernel.threads sleeperKernel.runQueue [1, 2] ∧
    ∃ next, nextRunnableKthread sleeperKernel = some (2, next) ∧
      threadQ.Represents next.threads next.runQueue [1] := by
  have represents : sleeperKernel.Queued [1, 2] :=
    runnableKthread_queued (runnableKthread_queued (boot_queued _) (by simp)) (by decide)
  obtain ⟨_, _, take⟩ := run_queue_refines_list sleeperKernel [1, 2] represents
  obtain ⟨runnable, next, taken, first, after⟩ := take ⟨2, by simp, by decide, by decide⟩
  have second : some 2 = some runnable := first
  cases second
  exact ⟨represents, next, taken, after⟩

end Sbunix.Thread
