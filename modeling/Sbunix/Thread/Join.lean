import Sbunix.Library.Chain
import Sbunix.Library.Run
import Sbunix.Thread.Lifecycle

namespace Sbunix.Thread

open Library

structure Family where
  kernel : Kernel
  live : List Tid
  pages : List Tid
  nodes : List JoinAddr

/-- A fork or an exit of a process, with the page and the element that `sub_malloc` returns to it. -/
inductive FamilyCall where
  | fork (parent page : Tid) (temp : JoinAddr)
  | exit (thread : Tid)

def exitTarget (k : Kernel) (thread : Tid) : Option Tid := do
  k.ptable (← ptableIndex (k.threads thread).pid)

def freedNode (k : Kernel) (thread : Tid) : Option JoinAddr := do
  let parent ← (k.threads thread).parent
  let found ← scan (fun node => (k.joins node).next) (fun node => (k.joins node).child = thread)
    (k.threads parent).headNext
  found

def familyStep (s : Family) : FamilyCall → Option Family
  | .fork parent page temp =>
    if parent ∈ s.live ∧ page ∉ s.pages then do
      let kernel ← fork { s.kernel with currentThread := parent } page temp
      return ⟨kernel, page :: s.live, page :: s.pages, temp :: s.nodes⟩
    else none
  | .exit thread =>
    if thread ∈ s.live then do
      let kernel ← sysExit { s.kernel with currentThread := thread }
      let freed := (exitTarget s.kernel thread).bind (freedNode s.kernel)
      return ⟨kernel, s.live.filter fun other => other ≠ thread, s.pages,
        s.nodes.filter fun node => freed ≠ some node⟩
    else none

def waitEnds (k : Kernel) (thread : Tid) : Bool := (k.threads thread).headNext.isNone

def Kernel.child (k : Kernel) (node : JoinAddr) : Tid := (k.joins node).child

/-- The join list of a thread names its live children, each once. -/
structure Tracks (s : Family) (thread : Tid) (nodes : List JoinAddr) : Prop where
  chain : Chain (fun node => (s.kernel.joins node).next) (s.kernel.threads thread).headNext nodes
  once : (nodes.map s.kernel.child).Nodup
  names : ∀ child, child ∈ nodes.map s.kernel.child ↔
    child ∈ s.live ∧ (s.kernel.threads child).parent = some thread

structure Family.Tracked (s : Family) : Prop where
  children : ∀ thread ∈ s.live, ∃ nodes, Tracks s thread nodes
  waits : ∀ thread ∈ s.live, waitEnds s.kernel thread = true ↔
    ∀ child ∈ s.live, (s.kernel.threads child).parent ≠ some thread

/-- A process forks only while its join list is empty and with an element that is not in use, and exits only while the
    process table has it at its pid. -/
def oneChild (s : Family) : FamilyCall → Prop
  | .fork parent _ temp => (s.kernel.threads parent).headNext = none ∧ temp ∉ s.nodes
  | .exit thread => exitTarget s.kernel thread = some thread

structure Family.Sound (s : Family) (lists : Tid → List JoinAddr) : Prop where
  tracks : ∀ thread ∈ s.pages, Tracks s thread (lists thread)
  allocated : ∀ thread ∈ s.pages, ∀ node ∈ lists thread, node ∈ s.nodes
  pages : ∀ thread ∈ s.live, thread ∈ s.pages
  parents : ∀ thread ∈ s.live, ∀ parent, (s.kernel.threads thread).parent = some parent → parent ∈ s.pages

theorem Tracks.waits {s : Family} {thread : Tid} {nodes : List JoinAddr} (tracks : Tracks s thread nodes) :
    waitEnds s.kernel thread = true ↔ ∀ child ∈ s.live, (s.kernel.threads child).parent ≠ some thread := by
  have empty : waitEnds s.kernel thread = true ↔ nodes = [] := by
    rw [waitEnds, Option.isNone_iff_eq_none, tracks.chain.start_eq, List.head?_eq_none_iff]
  rw [empty]
  constructor
  · rintro rfl child live parent
    have listed := (tracks.names child).mpr ⟨live, parent⟩
    cases listed
  · intro childless
    by_contra nonempty
    obtain ⟨node, rest, rfl⟩ := List.exists_cons_of_ne_nil nonempty
    obtain ⟨live, parent⟩ := (tracks.names (s.kernel.child node)).mp List.mem_cons_self
    exact childless _ live parent

section Sound

variable {s : Family} {lists : Tid → List JoinAddr} (sound : s.Sound lists)

include sound

theorem Family.Sound.tracked : s.Tracked where
  children := fun thread live => ⟨lists thread, sound.tracks thread (sound.pages thread live)⟩
  waits := fun thread live => (sound.tracks thread (sound.pages thread live)).waits

/-- No element is on two lists, since the child that it names has one parent. -/
theorem Family.Sound.apart {left right : Tid} (leftPage : left ∈ s.pages) (rightPage : right ∈ s.pages)
    (different : left ≠ right) {node : JoinAddr} (member : node ∈ lists left) : node ∉ lists right := by
  intro other
  have first := ((sound.tracks left leftPage).names _).mp (List.mem_map_of_mem member)
  have second := ((sound.tracks right rightPage).names _).mp (List.mem_map_of_mem other)
  exact different (Option.some.inj (first.2.symm.trans second.2))

end Sound

def Kthread.family (thread : Kthread) : Option Tid × Option JoinAddr := (thread.parent, thread.headNext)

theorem Kthread.parent_of_family {left right : Kthread} (family : left.family = right.family) :
    left.parent = right.parent := congrArg Prod.fst family

theorem Kthread.headNext_of_family {left right : Kthread} (family : left.family = right.family) :
    left.headNext = right.headNext := congrArg Prod.snd family

structure Adopted (k next : Kernel) (parent page : Tid) (temp : JoinAddr) : Prop where
  joins : next.joins = Function.update k.joins temp ⟨page, none⟩
  parentThread : (next.threads parent).family = ((k.threads parent).parent, some temp)
  childThread : (next.threads page).family = (some parent, none)
  others : ∀ other, other ≠ parent → other ≠ page → (next.threads other).family = (k.threads other).family

theorem fork_adopted {k next : Kernel} {page : Tid} {temp : JoinAddr} (new : page ≠ k.currentThread)
    (empty : (k.threads k.currentThread).headNext = none) (executed : fork k page temp = some next) :
    Adopted k next k.currentThread page temp := by
  obtain ⟨index, joined, _, joining, rfl⟩ := fork_copied executed
  have start : ((copied k page index).threads k.currentThread) = k.threads k.currentThread :=
    Function.update_of_ne new.symm _ _
  rw [appendJoinQueue, start, empty] at joining
  cases joining
  have unlinked : ∀ other, ((runnableKthread (alllistKthread (Kernel.updateThread
      { copied k page index with joins := Function.update (copied k page index).joins temp ⟨page, none⟩ }
      k.currentThread fun thread => { thread with headNext := some temp }) page) page).threads other).family =
      ((Kernel.updateThread { copied k page index with
        joins := Function.update (copied k page index).joins temp ⟨page, none⟩ }
      k.currentThread fun thread => { thread with headNext := some temp }).threads other).family := fun other =>
    (Links.view_append Kthread.family (fun _ _ => rfl) (fun _ _ => rfl) page other).trans
      (Links.view_append Kthread.family (fun _ _ => rfl) (fun _ _ => rfl) page other)
  constructor
  · rfl
  · rw [unlinked, updateThread_self]
    change (((copied k page index).threads k.currentThread).parent, some temp) = _
    rw [start]
  · rw [unlinked, updateThread_other _ new]
    change ((copied k page index).threads page).family = _
    rw [copied]
    dsimp only
    rw [Function.update_self]
    exact congrArg (fun link => (some k.currentThread, link)) empty
  · intro other notParent notChild
    rw [unlinked, updateThread_other _ notParent]
    exact congrArg Kthread.family (Function.update_of_ne notChild _ _)

section Adopt

variable {s : Family} {lists : Tid → List JoinAddr} (sound : s.Sound lists) {next : Kernel} {parent page : Tid}
  {temp : JoinAddr} (newPage : page ∉ s.pages) (adopted : Adopted s.kernel next parent page temp)

theorem Adopted.child_parent (adopted : Adopted s.kernel next parent page temp) :
    (next.threads page).parent = some parent := congrArg Prod.fst adopted.childThread

include sound newPage adopted

theorem Adopted.parent_eq {child : Tid} (member : child ∈ s.live) :
    (next.threads child).parent = (s.kernel.threads child).parent := by
  by_cases same : child = parent
  · rw [same]
    exact congrArg Prod.fst adopted.parentThread
  · have old : child ≠ page := fun equal => newPage (equal ▸ sound.pages child member)
    exact Kthread.parent_of_family (adopted.others child same old)

theorem Adopted.child_iff (thread child : Tid) :
    child ∈ page :: s.live ∧ (next.threads child).parent = some thread ↔
      child = page ∧ thread = parent ∨ child ∈ s.live ∧ (s.kernel.threads child).parent = some thread := by
  constructor
  · intro listed
    rcases List.mem_cons.mp listed.1 with rfl | old
    · exact Or.inl ⟨rfl, (Option.some.inj (adopted.child_parent.symm.trans listed.2)).symm⟩
    · exact Or.inr ⟨old, (adopted.parent_eq sound newPage old).symm.trans listed.2⟩
  · rintro (⟨rfl, rfl⟩ | ⟨old, named⟩)
    · exact ⟨List.mem_cons_self, adopted.child_parent⟩
    · exact ⟨List.mem_cons_of_mem _ old, (adopted.parent_eq sound newPage old).trans named⟩

theorem Adopted.tracks_parent (live : parent ∈ s.live) (empty : (s.kernel.threads parent).headNext = none) :
    Tracks ⟨next, page :: s.live, page :: s.pages, temp :: s.nodes⟩ parent [temp] := by
  have tracks := sound.tracks parent (sound.pages parent live)
  have childless : lists parent = [] := by
    have start := tracks.chain.start_eq
    rw [empty] at start
    exact List.head?_eq_none_iff.mp start.symm
  have added : next.child temp = page := by
    rw [Kernel.child, adopted.joins, Function.update_self]
  refine ⟨⟨congrArg Prod.snd adopted.parentThread, ?_⟩, List.nodup_singleton _, ?_⟩
  · change (next.joins temp).next = none
    rw [adopted.joins, Function.update_self]
  · intro child
    change child ∈ [next.child temp] ↔ child ∈ page :: s.live ∧ (next.threads child).parent = some parent
    rw [added, List.mem_singleton, adopted.child_iff sound newPage, ← tracks.names, childless]
    simp

theorem Adopted.tracks_child (live : parent ∈ s.live) :
    Tracks ⟨next, page :: s.live, page :: s.pages, temp :: s.nodes⟩ page [] := by
  refine ⟨congrArg Prod.snd adopted.childThread, List.nodup_nil, ?_⟩
  intro child
  refine iff_of_false List.not_mem_nil ?_
  intro listed
  rcases (adopted.child_iff sound newPage page child).mp listed with ⟨_, same⟩ | ⟨old, named⟩
  · exact newPage (same ▸ sound.pages parent live)
  · exact newPage (sound.parents child old page named)

theorem Adopted.tracks_other (newNode : temp ∉ s.nodes) {thread : Tid} (known : thread ∈ s.pages)
    (notParent : thread ≠ parent) (notChild : thread ≠ page) :
    Tracks ⟨next, page :: s.live, page :: s.pages, temp :: s.nodes⟩ thread (lists thread) := by
  have tracks := sound.tracks thread known
  have untouched : ∀ node ∈ lists thread, next.joins node = s.kernel.joins node := by
    intro node listed
    have old : node ≠ temp := fun same => newNode (same ▸ sound.allocated thread known node listed)
    rw [adopted.joins, Function.update_of_ne old]
  have sameNames : (lists thread).map next.child = (lists thread).map s.kernel.child :=
    List.map_congr_left fun node listed => congrArg JoinNode.child (untouched node listed)
  refine ⟨?_, ?_, ?_⟩
  · change Chain _ (next.threads thread).headNext _
    rw [Kthread.headNext_of_family (adopted.others thread notParent notChild)]
    exact tracks.chain.congr fun node listed => congrArg JoinNode.next (untouched node listed)
  · change ((lists thread).map next.child).Nodup
    rw [sameNames]
    exact tracks.once
  · intro child
    change child ∈ (lists thread).map next.child ↔ child ∈ page :: s.live ∧ (next.threads child).parent = some thread
    rw [sameNames, adopted.child_iff sound newPage, tracks.names]
    exact ⟨Or.inr, fun either => either.resolve_left fun new => notParent new.2⟩

theorem Family.Sound.adopt (live : parent ∈ s.live) (newNode : temp ∉ s.nodes)
    (empty : (s.kernel.threads parent).headNext = none) :
    ∃ changed, Family.Sound ⟨next, page :: s.live, page :: s.pages, temp :: s.nodes⟩ changed := by
  refine ⟨fun thread => if thread = parent then [temp] else if thread = page then [] else lists thread, ?_⟩
  constructor
  · intro thread member
    by_cases isParent : thread = parent
    · rw [if_pos isParent, isParent]
      exact adopted.tracks_parent sound newPage live empty
    · rw [if_neg isParent]
      by_cases isChild : thread = page
      · rw [if_pos isChild, isChild]
        exact adopted.tracks_child sound newPage live
      · rw [if_neg isChild]
        have known : thread ∈ s.pages := (List.mem_cons.mp member).resolve_left isChild
        exact adopted.tracks_other sound newPage newNode known isParent isChild
  · intro thread member node listed
    split at listed
    · rw [List.mem_singleton.mp listed]
      exact List.mem_cons_self
    · split at listed
      · cases listed
      · rename_i isChild
        have known : thread ∈ s.pages := (List.mem_cons.mp member).resolve_left isChild
        exact List.mem_cons_of_mem _ (sound.allocated thread known node listed)
  · intro thread member
    rcases List.mem_cons.mp member with rfl | old
    · exact List.mem_cons_self
    · exact List.mem_cons_of_mem _ (sound.pages thread old)
  · intro thread member other equal
    rcases (adopted.child_iff sound newPage other thread).mp ⟨member, equal⟩ with ⟨_, rfl⟩ | ⟨old, named⟩
    · exact List.mem_cons_of_mem _ (sound.pages other live)
    · exact List.mem_cons_of_mem _ (sound.parents thread old other named)

end Adopt

structure Disowned (k next : Kernel) (parent : Tid) (nodes : List JoinAddr) (front back : List JoinAddr) : Prop where
  chain : Chain (fun node => (next.joins node).next) (next.threads parent).headNext (front ++ back)
  children : next.child = k.child
  joins : ∀ node, node ∉ nodes → next.joins node = k.joins node
  parents : ∀ other, (next.threads other).parent = (k.threads other).parent
  heads : ∀ other, other ≠ parent → (next.threads other).headNext = (k.threads other).headNext

section RemoveChild

variable {k : Kernel} {parent thread : Tid} {front back : List JoinAddr} {before node : JoinAddr}

theorem removeChild_first
    (chain : Chain (fun node => (k.joins node).next) (k.threads parent).headNext (node :: back))
    (named : k.child node = thread) : removeChild k parent thread =
      some (k.updateThread parent fun page => { page with headNext := (k.joins node).next }) := by
  rw [removeChild, chain.1]
  change (if (k.joins node).child = thread then _ else _) = _
  rw [if_pos (show (k.joins node).child = thread from named)]
  rfl

theorem first_disowned
    (chain : Chain (fun node => (k.joins node).next) (k.threads parent).headNext (node :: back)) :
    Disowned k (k.updateThread parent fun page => { page with headNext := (k.joins node).next }) parent (node :: back)
      [] back := by
  constructor
  · rw [updateThread_self]
    exact chain.2
  · rfl
  · exact fun _ _ => rfl
  · intro other
    apply updateThread_view
    intro page
    rfl
  · intro other different
    rw [updateThread_other _ different]

/-- The search stops at the element before that of the child. -/
theorem removeChild_later
    (chain : Chain (fun node => (k.joins node).next) (k.threads parent).headNext (front ++ before :: node :: back))
    (named : k.child node = thread) (once : ∀ other ∈ front ++ [before], k.child other ≠ thread) :
    removeChild k parent thread =
      some { k with joins := Function.update k.joins before ⟨(k.joins before).child, (k.joins node).next⟩ } := by
  obtain ⟨first, start, listed⟩ : ∃ first, (k.threads parent).headNext = some first ∧ first ∈ front ++ [before] := by
    rw [chain.start_eq]
    cases front with
    | nil => exact ⟨before, rfl, List.mem_cons_self⟩
    | cons first front => exact ⟨first, rfl, List.mem_cons_self⟩
  have found : (front ++ before :: node :: back).find?
      (fun crawl => (k.joins crawl).next.all fun next => (k.joins next).child = thread) = some before :=
    chain.find_before (decide_eq_true named) (fun other member => decide_eq_false (once other member))
  have search := chain.scan fun crawl => (k.joins crawl).next.all fun next => (k.joins next).child = thread
  rw [found, start] at search
  have linked : (k.joins before).next = some node := chain.next_eq
  rw [removeChild, start]
  change (if (k.joins first).child = thread then _ else _) = _
  rw [if_neg (show ¬ (k.joins first).child = thread from once first listed), search]
  simp only [Option.bind_eq_bind, Option.bind_some, linked, Option.pure_def]

theorem later_disowned
    (chain : Chain (fun node => (k.joins node).next) (k.threads parent).headNext (front ++ before :: node :: back)) :
    Disowned k { k with joins := Function.update k.joins before ⟨(k.joins before).child, (k.joins node).next⟩ } parent
      (front ++ before :: node :: back) (front ++ [before]) back := by
  have nodup := chain.nodup
  constructor
  · rw [List.append_assoc, List.singleton_append]
    apply chain.bypass
    · dsimp only
      rw [Function.update_self]
    · intro other member
      have different : other ≠ before := by
        rintro rfl
        rw [List.nodup_append, List.nodup_cons] at nodup
        rcases List.mem_append.mp member with early | late
        · exact nodup.2.2 other early other List.mem_cons_self rfl
        · exact nodup.2.1.1 (List.mem_cons_of_mem _ late)
      exact congrArg JoinNode.next (Function.update_of_ne different _ _)
  · funext other
    by_cases same : other = before
    · rw [same, Kernel.child, Kernel.child]
      dsimp only
      rw [Function.update_self]
    · exact congrArg JoinNode.child (Function.update_of_ne same _ _)
  · intro other absent
    have different : other ≠ before := by
      rintro rfl
      exact absent (List.mem_append_right _ List.mem_cons_self)
    exact Function.update_of_ne different _ _
  · exact fun _ => rfl
  · exact fun _ _ => rfl

theorem removeChild_disowned
    (chain : Chain (fun node => (k.joins node).next) (k.threads parent).headNext (front ++ node :: back))
    (named : k.child node = thread) (once : ∀ other ∈ front, k.child other ≠ thread) :
    ∃ next, removeChild k parent thread = some next ∧
      Disowned k next parent (front ++ node :: back) front back := by
  rcases List.eq_nil_or_concat front with rfl | ⟨earlier, before, whole⟩
  · exact ⟨_, removeChild_first chain named, first_disowned chain⟩
  · rw [List.concat_eq_append] at whole
    subst whole
    have shape : earlier ++ [before] ++ node :: back = earlier ++ before :: node :: back := by
      rw [List.append_assoc, List.singleton_append]
    rw [shape] at chain ⊢
    exact ⟨_, removeChild_later chain named once, later_disowned chain⟩

end RemoveChild

structure SameFamily (k next : Kernel) : Prop where
  family : ∀ other, (next.threads other).family = (k.threads other).family
  joins : next.joins = k.joins

theorem SameFamily.parent_eq {k next : Kernel} (same : SameFamily k next) (other : Tid) :
    (next.threads other).parent = (k.threads other).parent := Kthread.parent_of_family (same.family other)

theorem SameFamily.headNext_eq {k next : Kernel} (same : SameFamily k next) (other : Tid) :
    (next.threads other).headNext = (k.threads other).headNext := Kthread.headNext_of_family (same.family other)

theorem SameFamily.child_eq {k next : Kernel} (same : SameFamily k next) : next.child = k.child := by
  funext node
  rw [Kernel.child, Kernel.child, same.joins]

/-- An exit takes the thread off the queues, and then off the list of its parent. -/
theorem sysExit_family {k next : Kernel} (target : exitTarget k k.currentThread = some k.currentThread)
    (executed : sysExit k = some next) : ∃ middle final, SameFamily k middle ∧ SameFamily final next ∧
      match (k.threads k.currentThread).parent with
      | none => final = middle
      | some parent => removeChild middle parent k.currentThread = some final := by
  obtain ⟨index, thread, cleaned, located, entry, cleaning, rfl⟩ := sysExit_cleaned executed
  rw [exitTarget, located] at target
  cases entry.symm.trans target
  have same (other : Tid) : ((unlisted k k.currentThread).threads other).family = (k.threads other).family :=
    (Links.view_remove Kthread.family (fun _ _ => rfl) (fun _ _ => rfl) k.currentThread other).trans
      (Links.view_remove Kthread.family (fun _ _ => rfl) (fun _ _ => rfl) k.currentThread other)
  rw [threadCleanup_eq, Kthread.parent_of_family (same k.currentThread)] at cleaning
  refine ⟨unlisted k k.currentThread, cleaned, ⟨same, rfl⟩, ⟨fun _ => rfl, rfl⟩, ?_⟩
  revert cleaning
  cases (k.threads k.currentThread).parent with
  | none =>
    intro cleaning
    cases cleaning
    rfl
  | some parentNode => exact id

section Exit

variable {s : Family} {lists : Tid → List JoinAddr} (sound : s.Sound lists) {thread : Tid}

include sound

/-- Lists that name all children but one are right once that one has gone. -/
theorem Family.Sound.without {kernel : Kernel} {shorter : Tid → List JoinAddr} {nodes : List JoinAddr}
    (parents : ∀ other, (kernel.threads other).parent = (s.kernel.threads other).parent)
    (children : kernel.child = s.kernel.child)
    (chains : ∀ other ∈ s.pages,
      Chain (fun node => (kernel.joins node).next) (kernel.threads other).headNext (shorter other))
    (sublists : ∀ other ∈ s.pages, (shorter other).Sublist (lists other))
    (names : ∀ other ∈ s.pages, ∀ child, child ∈ (shorter other).map s.kernel.child ↔
      child ∈ (lists other).map s.kernel.child ∧ child ≠ thread)
    (allocated : ∀ other ∈ s.pages, ∀ node ∈ shorter other, node ∈ nodes) :
    Family.Sound ⟨kernel, s.live.filter fun other => other ≠ thread, s.pages, nodes⟩ shorter where
  tracks := by
    intro other member
    have tracks := sound.tracks other member
    refine ⟨chains other member, ?_, ?_⟩
    · change ((shorter other).map kernel.child).Nodup
      rw [children]
      exact tracks.once.sublist ((sublists other member).map _)
    · intro child
      change child ∈ (shorter other).map kernel.child ↔ child ∈ s.live.filter (fun other => other ≠ thread) ∧
        (kernel.threads child).parent = some other
      rw [children, names other member, tracks.names, parents, List.mem_filter, decide_eq_true_iff]
      tauto
  allocated := allocated
  pages := fun other member => sound.pages other (List.mem_filter.mp member).1
  parents := by
    intro other member parent equal
    rw [parents] at equal
    exact sound.parents other (List.mem_filter.mp member).1 parent equal

theorem Family.Sound.exit_orphan {kernel : Kernel} (same : SameFamily s.kernel kernel)
    (orphan : (s.kernel.threads thread).parent = none) :
    Family.Sound ⟨kernel, s.live.filter fun other => other ≠ thread, s.pages,
      s.nodes.filter fun node => freedNode s.kernel thread ≠ some node⟩ lists := by
  refine sound.without same.parent_eq same.child_eq ?_ (fun _ _ => List.Sublist.refl _) ?_ ?_
  · intro other member
    rw [same.headNext_eq, same.joins]
    exact (sound.tracks other member).chain
  · intro other member child
    refine ⟨fun listed => ⟨listed, ?_⟩, fun both => both.1⟩
    rintro rfl
    have named := (((sound.tracks other member).names child).mp listed).2
    rw [orphan] at named
    cases named
  · intro other member node listed
    rw [List.mem_filter, decide_eq_true_iff]
    refine ⟨sound.allocated other member node listed, ?_⟩
    rw [freedNode, orphan]
    exact Option.some_ne_none node ∘ Eq.symm

section Child

variable {parent : Tid} {node : JoinAddr} {front back : List JoinAddr}
  (child : (s.kernel.threads thread).parent = some parent) (page : parent ∈ s.pages)
  (whole : lists parent = front ++ node :: back) (named : s.kernel.child node = thread)

include page whole named

theorem Family.Sound.others_named {other : JoinAddr} (member : other ∈ front ++ back) :
    s.kernel.child other ≠ thread := by
  intro same
  have once := (sound.tracks parent page).once
  rw [whole, List.map_append, List.map_cons, named, List.nodup_middle, List.nodup_cons, ← List.map_append] at once
  exact once.1 (List.mem_map.mpr ⟨other, member, same⟩)

include child

theorem Family.Sound.freedNode_eq : freedNode s.kernel thread = some node := by
  have chain := (sound.tracks parent page).chain
  rw [whole] at chain
  have search := chain.scan fun other => (s.kernel.joins other).child = thread
  have missed : front.find? (fun other => decide ((s.kernel.joins other).child = thread)) = none := by
    rw [List.find?_eq_none]
    intro other member accepted
    exact sound.others_named page whole named (List.mem_append_left _ member) (of_decide_eq_true accepted)
  rw [List.find?_append, missed, Option.none_or, List.find?_cons,
    decide_eq_true (show (s.kernel.joins node).child = thread from named)] at search
  rw [freedNode, child]
  simp only [Option.bind_eq_bind, Option.bind_some, search]

theorem Family.Sound.names_without {other : Tid} (member : other ∈ s.pages) (sibling : Tid) :
    sibling ∈ (Function.update lists parent (front ++ back) other).map s.kernel.child ↔
      sibling ∈ (lists other).map s.kernel.child ∧ sibling ≠ thread := by
  by_cases isParent : other = parent
  · subst isParent
    rw [Function.update_self, whole, List.map_append, List.map_append, List.map_cons, named, ← List.map_append]
    have absent : thread ∉ (front ++ back).map s.kernel.child := by
      intro listed
      obtain ⟨element, inside, same⟩ := List.mem_map.mp listed
      exact sound.others_named page whole named inside same
    constructor
    · intro listed
      refine ⟨?_, fun same => absent (same ▸ listed)⟩
      rw [List.map_append, List.mem_append] at listed
      exact List.mem_append.mpr (listed.imp_right (List.mem_cons_of_mem _))
    · intro both
      rw [List.map_append, List.mem_append]
      refine (List.mem_append.mp both.1).imp_right fun late => ?_
      exact (List.mem_cons.mp late).resolve_left both.2
  · rw [Function.update_of_ne isParent]
    refine ⟨fun inside => ⟨inside, ?_⟩, fun both => both.1⟩
    rintro rfl
    have adopter := (((sound.tracks other member).names sibling).mp inside).2
    rw [child] at adopter
    exact isParent (Option.some.inj adopter).symm

theorem Family.Sound.exit_child {middle final kernel : Kernel} (before : SameFamily s.kernel middle)
    (removal : removeChild middle parent thread = some final) (behind : SameFamily final kernel) :
    Family.Sound ⟨kernel, s.live.filter fun other => other ≠ thread, s.pages,
      s.nodes.filter fun node => freedNode s.kernel thread ≠ some node⟩
        (Function.update lists parent (front ++ back)) := by
  have others (other : JoinAddr) (member : other ∈ front ++ back) : s.kernel.child other ≠ thread :=
    sound.others_named page whole named member
  have shorter : (front ++ back).Sublist (front ++ node :: back) :=
    List.Sublist.append_left (List.sublist_cons_self node back) front
  have elsewhere : ∀ other ∈ s.pages, other ≠ parent → ∀ element ∈ lists other,
      element ∉ front ++ node :: back := by
    intro other member different element inside
    rw [← whole]
    exact sound.apart member page different inside
  have chain : Chain (fun node => (middle.joins node).next) (middle.threads parent).headNext
      (front ++ node :: back) := by
    rw [before.headNext_eq, before.joins, ← whole]
    exact (sound.tracks parent page).chain
  obtain ⟨_, removed, disowned⟩ := removeChild_disowned chain (before.child_eq ▸ named)
    (fun other member => before.child_eq ▸ others other (List.mem_append_left _ member))
  cases removed.symm.trans removal
  refine sound.without ?_ ?_ ?_ ?_ (fun _ member => sound.names_without child page whole named member) ?_
  · intro other
    rw [behind.parent_eq, disowned.parents, before.parent_eq]
  · rw [behind.child_eq, disowned.children, before.child_eq]
  · intro other member
    rw [behind.headNext_eq, behind.joins]
    by_cases isParent : other = parent
    · rw [isParent, Function.update_self]
      exact disowned.chain
    · rw [Function.update_of_ne isParent, disowned.heads other isParent, before.headNext_eq]
      apply (sound.tracks other member).chain.congr
      intro element inside
      rw [disowned.joins element (elsewhere other member isParent element inside), before.joins]
  · intro other member
    by_cases isParent : other = parent
    · rw [isParent, Function.update_self, whole]
      exact shorter
    · rw [Function.update_of_ne isParent]
  · intro other member element inside
    rw [List.mem_filter, decide_eq_true_iff, sound.freedNode_eq child page whole named]
    by_cases isParent : other = parent
    · rw [isParent, Function.update_self] at inside
      refine ⟨sound.allocated parent page element (whole ▸ shorter.subset inside), ?_⟩
      rintro ⟨⟩
      exact others node inside named
    · rw [Function.update_of_ne isParent] at inside
      refine ⟨sound.allocated other member element inside, ?_⟩
      rintro ⟨⟩
      exact elsewhere other member isParent node inside (List.mem_append_right _ List.mem_cons_self)

end Child

theorem Family.Sound.exit {kernel : Kernel} (live : thread ∈ s.live)
    (target : exitTarget s.kernel thread = some thread)
    (executed : sysExit { s.kernel with currentThread := thread } = some kernel) :
    ∃ changed, Family.Sound ⟨kernel, s.live.filter fun other => other ≠ thread, s.pages,
      s.nodes.filter fun node => (exitTarget s.kernel thread).bind (freedNode s.kernel) ≠ some node⟩ changed := by
  obtain ⟨middle, final, before, behind, removal⟩ := sysExit_family target executed
  have unswitched : SameFamily s.kernel middle := ⟨before.family, before.joins⟩
  change match (s.kernel.threads thread).parent with
    | none => final = middle
    | some parent => removeChild middle parent thread = some final at removal
  rw [target, Option.bind_some]
  cases child : (s.kernel.threads thread).parent with
  | none =>
    rw [child] at removal
    subst removal
    have same : SameFamily s.kernel kernel :=
      ⟨fun other => (behind.family other).trans (unswitched.family other), behind.joins.trans unswitched.joins⟩
    exact ⟨lists, sound.exit_orphan same child⟩
  | some parent =>
    rw [child] at removal
    have page := sound.parents thread live parent child
    have listed := ((sound.tracks parent page).names thread).mpr ⟨live, child⟩
    obtain ⟨node, member, named⟩ := List.mem_map.mp listed
    obtain ⟨front, back, whole⟩ := List.append_of_mem member
    exact ⟨_, sound.exit_child child page whole named unswitched removal behind⟩

end Exit

theorem Family.Sound.step {s next : Family} {lists : Tid → List JoinAddr} {call : FamilyCall} (sound : s.Sound lists)
    (admitted : oneChild s call) (stepped : familyStep s call = some next) :
    ∃ changed, next.Sound changed := by
  cases call with
  | fork parent page temp =>
    rw [familyStep] at stepped
    split at stepped
    · rename_i fresh
      obtain ⟨live, newPage⟩ := fresh
      obtain ⟨empty, newNode⟩ := admitted
      simp only [Option.bind_eq_bind, Option.bind_eq_some_iff, Option.pure_def] at stepped
      obtain ⟨kernel, executed, equal⟩ := stepped
      cases equal
      have different : page ≠ parent := fun same => newPage (same ▸ sound.pages parent live)
      have adopted := fork_adopted (k := { s.kernel with currentThread := parent }) different empty executed
      have unswitched : Adopted s.kernel kernel parent page temp :=
        ⟨adopted.joins, adopted.parentThread, adopted.childThread, adopted.others⟩
      exact sound.adopt newPage unswitched live newNode empty
    · cases stepped
  | exit thread =>
    rw [familyStep] at stepped
    split at stepped
    · rename_i live
      simp only [Option.bind_eq_bind, Option.bind_eq_some_iff, Option.pure_def] at stepped
      obtain ⟨kernel, executed, equal⟩ := stepped
      cases equal
      exact sound.exit live admitted executed
    · cases stepped

def lone (k : Kernel) (thread : Tid) : Family := ⟨k, [thread], [thread], []⟩

theorem lone_sound {k : Kernel} {thread : Tid} (empty : (k.threads thread).headNext = none)
    (orphan : (k.threads thread).parent = none) : (lone k thread).Sound fun _ => [] where
  tracks := by
    intro other member
    cases List.mem_singleton.mp member
    refine ⟨empty, List.nodup_nil, ?_⟩
    intro child
    refine iff_of_false List.not_mem_nil ?_
    intro listed
    cases List.mem_singleton.mp listed.1
    exact absurd (listed.2.symm.trans orphan) (Option.some_ne_none _)
  allocated := fun _ _ _ listed => absurd listed List.not_mem_nil
  pages := fun _ member => member
  parents := by
    intro other member parent equal
    cases List.mem_singleton.mp member
    exact absurd (equal.symm.trans orphan) (Option.some_ne_none _)

/-- The join lists are right as long as every process has at most one child at a time, no element is handed out while it
    is in use, and the process table has every process that exits. -/
theorem join_lists_track_children (k : Kernel) (thread : Tid) (empty : (k.threads thread).headNext = none)
    (orphan : (k.threads thread).parent = none) (calls : List FamilyCall)
    (admitted : Admitted familyStep oneChild (lone k thread) calls) :
    Throughout familyStep Family.Tracked (lone k thread) calls := by
  have kept : Throughout familyStep (fun s => ∃ lists, s.Sound lists) (lone k thread) calls := by
    refine throughout_of_admitted (fun s => ∃ lists, s.Sound lists) ?_ ⟨_, lone_sound empty orphan⟩ admitted
    intro s call next sound allowed stepped
    exact sound.choose_spec.step allowed stepped
  intro before isPrefix s executed
  exact (kept before isPrefix s executed).choose_spec.tracked

def firstProcess : Family := lone { bootKernel with currentThread := 1 } 1

def oneForked : Family := (familyStep firstProcess (.fork 1 2 0)).getD firstProcess

theorem one_forked : familyStep firstProcess (.fork 1 2 0) = some oneForked := rfl

theorem grandchild_tracked : Throughout familyStep Family.Tracked firstProcess [.fork 1 2 0, .fork 2 3 1] := by
  apply join_lists_track_children { bootKernel with currentThread := 1 } 1 rfl rfl
  refine ⟨⟨rfl, List.not_mem_nil⟩, ?_⟩
  intro next stepped
  cases one_forked.symm.trans stepped
  exact ⟨⟨rfl, by decide⟩, fun _ _ => trivial⟩

theorem appendJoinQueue_some {k : Kernel} {cthread : Tid} (node : Tid) (temp : JoinAddr) {nodes : List JoinAddr}
    (chain : Chain (fun crawl => (k.joins crawl).next) (k.threads cthread).headNext nodes) (fresh : temp ∉ nodes) :
    ∃ next, appendJoinQueue k node cthread temp = some next ∧
      (∀ other, (next.threads other).parent = (k.threads other).parent) ∧
      ∀ other, other ≠ cthread → (next.threads other).family = (k.threads other).family := by
  cases start : (k.threads cthread).headNext with
  | none =>
    refine ⟨_, by rw [appendJoinQueue, start], ?_, ?_⟩
    · intro other
      by_cases same : other = cthread
      · rw [same, updateThread_self]
      · rw [updateThread_other _ same]
    · intro other different
      exact congrArg Kthread.family (updateThread_other _ different)
  | some first =>
    have kept : Chain (fun crawl => (Function.update k.joins temp ⟨node, none⟩ crawl).next) (some first) nodes := by
      rw [← start]
      apply chain.congr
      intro crawl member
      have different : crawl ≠ temp := fun same => fresh (same ▸ member)
      rw [Function.update_of_ne different]
    rcases List.eq_nil_or_concat nodes with rfl | ⟨front, last, rfl⟩
    · cases kept
    · rw [List.concat_eq_append] at kept
      have search := kept.scan fun crawl => (Function.update k.joins temp ⟨node, none⟩ crawl).next.isNone
      rw [kept.find_last] at search
      simp only [appendJoinQueue, start, search, Option.bind_eq_bind, Option.bind_some]
      exact ⟨_, rfl, fun _ => rfl, fun _ _ => rfl⟩

theorem fork_inherits {k : Kernel} {page : Tid} {index : Fin 100} (temp : JoinAddr) {nodes : List JoinAddr}
    (located : ptableIndex (k.nextFreePid + 1) = some index) (new : page ≠ k.currentThread)
    (chain : Chain (fun crawl => (k.joins crawl).next) (k.threads k.currentThread).headNext nodes)
    (fresh : temp ∉ nodes) : ∃ forked, fork k page temp = some forked ∧
      (forked.threads page).family = (some k.currentThread, (k.threads k.currentThread).headNext) ∧
      ∀ other, other ≠ page → (forked.threads other).parent = (k.threads other).parent := by
  have start : (copied k page index).threads k.currentThread = k.threads k.currentThread :=
    Function.update_of_ne new.symm _ _
  obtain ⟨joined, joining, parents, families⟩ := appendJoinQueue_some (k := copied k page index) page temp
    (start ▸ chain) fresh
  have unlinked : ∀ other, ((runnableKthread (alllistKthread joined page) page).threads other).family =
      (joined.threads other).family := fun other =>
    (Links.view_append Kthread.family (fun _ _ => rfl) (fun _ _ => rfl) page other).trans
      (Links.view_append Kthread.family (fun _ _ => rfl) (fun _ _ => rfl) page other)
  refine ⟨runnableKthread (alllistKthread joined page) page, ?_, ?_, ?_⟩
  · rw [fork_eq, located, Option.bind_some, joining, Option.map_some]
  · rw [unlinked, families page new, copied]
    dsimp only
    rw [Function.update_self]
    rfl
  · intro other different
    rw [Kthread.parent_of_family (unlinked other), parents]
    exact congrArg Kthread.parent (Function.update_of_ne different _ _)

/-- A second child gets the list of its parent, which names the first one. -/
theorem second_child_mistracked : ¬ ∀ (k : Kernel) (thread : Tid), (k.threads thread).headNext = none →
    (k.threads thread).parent = none → ∀ calls, Throughout familyStep Family.Tracked (lone k thread) calls := by
  intro every
  obtain ⟨forked, executed, child, parents⟩ := fork_inherits (k := { oneForked.kernel with currentThread := 1 })
    1 (show ptableIndex _ = some 2 from rfl) (show (3 : Tid) ≠ 1 by decide) (show Chain _ _ [0] from ⟨rfl, rfl⟩)
    (by decide)
  have second : familyStep oneForked (.fork 1 3 1) = some ⟨forked, [3, 2, 1], [3, 2, 1], [1, 0]⟩ := by
    rw [familyStep, if_pos (by decide), executed]
    rfl
  have tracked := every { bootKernel with currentThread := 1 } 1 rfl rfl [.fork 1 2 0, .fork 1 3 1] _
    (List.prefix_refl _) _ (run_cons.mpr ⟨_, one_forked, run_cons.mpr ⟨_, second, rfl⟩⟩)
  have listed : (forked.threads 3).headNext = some 0 := congrArg Prod.snd child
  have childless : ∀ other ∈ [3, 2, 1], (forked.threads other).parent ≠ some 3 := by
    intro other member
    rcases List.mem_cons.mp member with rfl | member
    · rw [show (forked.threads 3).parent = some 1 from congrArg Prod.fst child]
      decide
    · have different : other ≠ 3 := by
        rintro rfl
        revert member
        decide
      rw [parents other different]
      rcases List.mem_cons.mp member with rfl | member
      · decide
      · cases List.mem_singleton.mp member
        decide
  have ended := (tracked.waits 3 List.mem_cons_self).mpr childless
  rw [waitEnds, listed] at ended
  cases ended

end Sbunix.Thread
