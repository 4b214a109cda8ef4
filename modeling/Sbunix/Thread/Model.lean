import Sbunix.Library.LinkedQueue

namespace Sbunix.Thread

open Library

abbrev Tid := Nat

abbrev JoinAddr := Nat

abbrev VmaAddr := Nat

/-- `struct Kernel_Thread`, without the registers and stacks. -/
structure Kthread where
  kernelThread : BitVec 64
  sleeping : Int
  prevInThreadQ : Option Tid
  nextInThreadQ : Option Tid
  noStackPages : Int
  parent : Option Tid
  -- The source keeps the first element of the join list in the thread and uses only its link.
  headNext : Option JoinAddr
  alive : Bool
  pid : Int
  mmap : Option VmaAddr
  mmapCache : Option VmaAddr
  prevInThreadList : Option Tid
  nextInThreadList : Option Tid

structure JoinNode where
  child : Tid
  next : Option JoinAddr

structure VmArea where
  vmStart : BitVec 64
  vmEnd : BitVec 64
  vmNext : Option VmaAddr

/-- The kernel's threads. A page that holds no thread has arbitrary contents. -/
structure Kernel where
  threads : Tid → Kthread
  joins : JoinAddr → JoinNode
  vmas : VmaAddr → VmArea
  runQueue : Queue Tid
  allThreadList : Queue Tid
  currentThread : Tid
  ptable : Fin 100 → Option Tid
  nextFreePid : Int

def zeroPage : Kthread := ⟨0, 0, none, none, 0, none, none, false, 0, none, none, none, none⟩

def bootKernel : Kernel where
  threads _ := zeroPage
  joins _ := ⟨0, none⟩
  vmas _ := ⟨0, 0, none⟩
  runQueue := ⟨none, none⟩
  allThreadList := ⟨none, none⟩
  currentThread := 0
  ptable _ := none
  nextFreePid := 0

def Kernel.updateThread (k : Kernel) (thread : Tid) (change : Kthread → Kthread) : Kernel :=
  { k with threads := Function.update k.threads thread (change (k.threads thread)) }

def threadQ : Links Tid Kthread where
  prev := Kthread.prevInThreadQ
  next := Kthread.nextInThreadQ
  setPrev thread link := { thread with prevInThreadQ := link }
  setNext thread link := { thread with nextInThreadQ := link }
  prev_setPrev _ _ := rfl
  next_setPrev _ _ := rfl
  prev_setNext _ _ := rfl
  next_setNext _ _ := rfl

def threadList : Links Tid Kthread where
  prev := Kthread.prevInThreadList
  next := Kthread.nextInThreadList
  setPrev thread link := { thread with prevInThreadList := link }
  setNext thread link := { thread with nextInThreadList := link }
  prev_setPrev _ _ := rfl
  next_setPrev _ _ := rfl
  prev_setNext _ _ := rfl
  next_setNext _ _ := rfl

def appendRunQueue (threads : Tid → Kthread) (list : Queue Tid) (node : Tid) :=
  threadQ.append threads list node

def appendGlobalListQueue (threads : Tid → Kthread) (list : Queue Tid) (node : Tid) :=
  threadList.append threads list node

def removeRunnableKthread (threads : Tid → Kthread) (list : Queue Tid) (runnable : Tid) :=
  threadQ.remove threads list runnable

def removeAlllistKthread (threads : Tid → Kthread) (list : Queue Tid) (runnable : Tid) :=
  threadList.remove threads list runnable

def runnableKthread (k : Kernel) (thread : Tid) : Kernel :=
  let (threads, runQueue) := appendRunQueue k.threads k.runQueue thread
  { k with threads, runQueue }

def alllistKthread (k : Kernel) (thread : Tid) : Kernel :=
  let (threads, allThreadList) := appendGlobalListQueue k.threads k.allThreadList thread
  { k with threads, allThreadList }

def Kthread.ready (thread : Kthread) : Bool := thread.sleeping == 0 && thread.alive

/-- There is no result where the source panics or crawls forever. -/
def nextRunnableKthread (k : Kernel) : Option (Tid × Kernel) := do
  match ← scan (fun crawl => (k.threads crawl).nextInThreadQ)
      (fun crawl => (k.threads crawl).ready) k.runQueue.head with
  | none => none
  | some runnable =>
    let (threads, runQueue) := removeRunnableKthread k.threads k.runQueue runnable
    some (runnable, { k with threads, runQueue })

/-- `Schedule`, with `Switch_To_Thread` as the change of the current thread. -/
def schedule (k : Kernel) : Option Kernel := do
  let (runnable, k) ← nextRunnableKthread k
  return { k with currentThread := runnable }

def allocPid (k : Kernel) : Int × Kernel :=
  (k.nextFreePid + 1, { k with nextFreePid := k.nextFreePid + 1 })

def freePid (k : Kernel) : Kernel := { k with nextFreePid := k.nextFreePid - 1 }

def ptableIndex (pid : Int) : Option (Fin 100) :=
  if h : 0 ≤ pid ∧ pid < 100 then some ⟨pid.toNat, by omega⟩ else none

def Kernel.storePtable (k : Kernel) (index : Fin 100) (thread : Option Tid) : Kernel :=
  { k with ptable := Function.update k.ptable index thread }

def addToPtable (k : Kernel) (thread : Tid) : Option Kernel := do
  let index ← ptableIndex (k.threads thread).pid
  return k.storePtable index (some thread)

/-- `append_join_queue`, with the element `temp` that `sub_malloc` returns. -/
def appendJoinQueue (k : Kernel) (node cthread : Tid) (temp : JoinAddr) : Option Kernel := do
  let joins := Function.update k.joins temp ⟨node, none⟩
  match (k.threads cthread).headNext with
  | none =>
    let k := { k with joins }
    some (k.updateThread cthread fun thread => { thread with headNext := some temp })
  | some first =>
    match ← scan (fun crawl => (joins crawl).next) (fun crawl => (joins crawl).next.isNone) (some first) with
    | none => none
    | some crawl => some { k with joins := Function.update joins crawl ⟨(joins crawl).child, some temp⟩ }

/-- The source dereferences a null link, and has no result here, where the child is not listed. -/
def removeChild (k : Kernel) (parent childNode : Tid) : Option Kernel := do
  let first ← (k.threads parent).headNext
  if (k.joins first).child = childNode then
    return k.updateThread parent fun thread => { thread with headNext := (k.joins first).next }
  else
    let reached (crawl : JoinAddr) := (k.joins crawl).next.all fun next => (k.joins next).child = childNode
    let crawl ← (← scan (fun crawl => (k.joins crawl).next) reached (some first))
    let tmp ← (k.joins crawl).next
    return { k with joins := Function.update k.joins crawl ⟨(k.joins crawl).child, (k.joins tmp).next⟩ }

def threadCleanup (k : Kernel) (thread : Tid) : Option Kernel := do
  let (threads, runQueue) := removeRunnableKthread k.threads k.runQueue thread
  let (threads, allThreadList) := removeAlllistKthread threads k.allThreadList thread
  let k := { k with threads, runQueue, allThreadList }
  match (k.threads thread).parent with
  | none => some k
  | some parentNode => removeChild k parentNode thread

def sysExit (k : Kernel) : Option Kernel := do
  let index ← ptableIndex (k.threads k.currentThread).pid
  let k ← threadCleanup k (← k.ptable index)
  return freePid (k.storePtable index none)

/-- `Init_Thread` leaves the parent and the lists of the page as they are. -/
def initThread (k : Kernel) (thread : Tid) : Kernel :=
  let (pid, k) := allocPid k
  k.updateThread thread fun page =>
    { page with sleeping := 0, kernelThread := 1, alive := true, noStackPages := 1, pid }

def initThreadUser (k : Kernel) (thread : Tid) : Kernel :=
  let k := k.updateThread thread fun page =>
    { page with kernelThread := 0, noStackPages := 1, alive := true, sleeping := 0 }
  if thread ≠ k.currentThread then
    let (pid, k) := allocPid k
    k.updateThread thread fun page => { page with pid }
  else k

def createKthread (k : Kernel) (page : Tid) : Kernel := alllistKthread (initThread k page) page

def createKthreadUser (k : Kernel) (page : Tid) : Kernel := alllistKthread (initThreadUser k page) page

def startKthread (k : Kernel) (page : Tid) : Option Kernel := do
  let k ← addToPtable (createKthread k page) page
  return runnableKthread k page

def schedulerInit (k : Kernel) (mainThread start : Tid) : Option Kernel := do
  let k := initThread k mainThread
  let k := alllistKthread { k with currentThread := mainThread } mainThread
  schedule (← startKthread k start)

def linkVma (k : Kernel) (vma : VmaAddr) (thread : Tid) : Option Kernel :=
  match (k.threads thread).mmap with
  | none => some (k.updateThread thread fun page => { page with mmap := some vma })
  | some _ => do
    let cache ← (k.threads thread).mmapCache
    return { k with vmas := Function.update k.vmas cache { k.vmas cache with vmNext := some vma } }

def insertVma (k : Kernel) (vma : VmaAddr) (thread : Tid) : Option Kernel := do
  let k := { k with vmas := Function.update k.vmas vma { k.vmas vma with vmNext := none } }
  let k ← linkVma k vma thread
  return k.updateThread thread fun page => { page with mmapCache := some vma }

/-- `mmap` on the areas of a thread. The page it maps is left to the paging model. -/
def mmapArea (k : Kernel) (vma : VmaAddr) (addr : BitVec 64) (thread : Tid) : Option Kernel :=
  insertVma { k with vmas := Function.update k.vmas vma ⟨addr, addr + 0x1000, none⟩ } vma thread

/-- The successive calls of `mmap`, each with the area that `sub_malloc` returns. -/
def mmapAreas (k : Kernel) (areas : List (VmaAddr × BitVec 64)) (thread : Tid) : Option Kernel :=
  areas.foldlM (fun k area => mmapArea k area.1 area.2 thread) k

def userStack : BitVec 64 := 0xbff000

def userHeap : BitVec 64 := 0x80000

/-- `do_exec` on an executable it can read, with the page of each of its segments. -/
def doExec (k : Kernel) (page : Tid) (segments : List (VmaAddr × BitVec 64)) (stack heap : VmaAddr) :
    Option Kernel := do
  let k := createKthreadUser k page
  let k ← mmapAreas k (segments ++ [(stack, userStack), (heap, userHeap)]) page
  let k ← addToPtable k page
  return runnableKthread k page

/-- `fork` on the thread structures. The page tables are left to the paging model. -/
def fork (k : Kernel) (page : Tid) (temp : JoinAddr) : Option Kernel := do
  let k := k.updateThread page fun _ => k.threads k.currentThread
  let (pid, k) := allocPid k
  let k := k.updateThread page fun thread => { thread with pid }
  let k ← addToPtable k page
  let k := k.updateThread page fun thread => { thread with parent := some k.currentThread }
  let k ← appendJoinQueue k page k.currentThread temp
  return runnableKthread (alllistKthread k page) page

end Sbunix.Thread
