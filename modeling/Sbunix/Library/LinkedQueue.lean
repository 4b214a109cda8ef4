import Mathlib.Data.List.Nodup
import Mathlib.Logic.Function.Basic

namespace Library

structure Links (Node Cell : Type) where
  prev : Cell → Option Node
  next : Cell → Option Node
  setPrev : Cell → Option Node → Cell
  setNext : Cell → Option Node → Cell
  prev_setPrev : ∀ cell link, prev (setPrev cell link) = link
  next_setPrev : ∀ cell link, next (setPrev cell link) = next cell
  prev_setNext : ∀ cell link, prev (setNext cell link) = prev cell
  next_setNext : ∀ cell link, next (setNext cell link) = link

structure Queue (Node : Type) where
  head : Option Node
  tail : Option Node
  deriving DecidableEq

variable {Node Cell : Type}

section Scan

abbrev Successor (Node : Type) := Node → Option Node

def Successor.scan (next : Successor Node) (test : Node → Bool) : Option Node → Option (Option Node)
  | none => some none
  | some node => if test node then some (some node) else next |>.scan test (next node)
partial_fixpoint

export Successor (scan)

@[simp] theorem scan_none (next : Node → Option Node) (test : Node → Bool) :
    scan next test none = some none := by
  rw [scan]

theorem scan_some (next : Node → Option Node) (test : Node → Bool) (node : Node) :
    scan next test (some node) = if test node then some (some node) else scan next test (next node) := by
  rw [scan]

theorem scan_mem {next : Node → Option Node} {test : Node → Bool} {Inside : Node → Prop}
    (closed : ∀ node other, Inside node → next node = some other → Inside other)
    {start : Option Node} {found : Node} (inside : ∀ node, start = some node → Inside node)
    (scanned : scan next test start = some (some found)) : Inside found ∧ test found = true := by
  have all : ∀ start result, scan next test start = some result →
      (∀ node, start = some node → Inside node) →
        ∀ found, result = some found → Inside found ∧ test found = true := by
    apply Successor.scan.partial_correctness
    intro recurse hypothesis start result executed inside found equal
    cases start with
    | none =>
      cases executed
      cases equal
    | some node =>
      dsimp only at executed
      split at executed
      · rename_i accepted
        cases executed
        cases equal
        exact ⟨inside _ rfl, accepted⟩
      · exact hypothesis (next node) result executed
          (fun other linked => closed node other (inside node rfl) linked) found equal
  exact all start _ scanned inside found rfl

theorem scan_accepts {next : Node → Option Node} {test : Node → Bool} {start : Option Node} {found : Node}
    (scanned : scan next test start = some (some found)) : test found = true :=
  (@scan_mem Node next test (fun _ => True) (fun _ _ _ _ => trivial) start found (fun _ _ => trivial) scanned).2

end Scan

namespace Links

variable (links : Links Node Cell)

def Linked (heap : Node → Cell) : Option Node → List Node → Option Node → Prop
  | _, [], _ => True
  | before, node :: rest, after =>
    links.prev (heap node) = before ∧ links.next (heap node) = rest.head?.or after ∧
      Linked heap (some node) rest after

structure Represents (heap : Node → Cell) (queue : Queue Node) (nodes : List Node) : Prop where
  head : queue.head = nodes.head?
  tail : queue.tail = nodes.getLast?
  linked : links.Linked heap none nodes none
  nodup : nodes.Nodup

/-- A node outside the queue whose links still lead to the two sides of a place in it. -/
structure Stale (heap : Node → Cell) (queue : Queue Node) (front back : List Node) (node : Node) : Prop where
  represents : links.Represents heap queue (front ++ back)
  prev : links.prev (heap node) = front.getLast?
  next : links.next (heap node) = back.head?

def pair (cell : Cell) : Option Node × Option Node := (links.prev cell, links.next cell)

def SameLinks (heap other : Node → Cell) : Prop :=
  ∀ node, links.prev (other node) = links.prev (heap node) ∧ links.next (other node) = links.next (heap node)

variable {links} {heap : Node → Cell}

theorem linked_append (before after : Option Node) (front back : List Node) :
    links.Linked heap before (front ++ back) after ↔
      links.Linked heap before front (back.head?.or after) ∧
        links.Linked heap (front.getLast?.or before) back after := by
  induction front generalizing before with
  | nil => simp [Linked]
  | cons node rest ih =>
    have last : (node :: rest).getLast?.or before = rest.getLast?.or (some node) := by
      rw [List.getLast?_cons]
      cases rest.getLast? <;> rfl
    have first : (rest ++ back).head?.or after = rest.head?.or (back.head?.or after) := by
      cases rest <;> simp
    simp only [List.cons_append, Linked, ih, last, first, and_assoc]

theorem Linked.congr {other : Node → Cell} {nodes : List Node} {before after : Option Node}
    (linked : links.Linked heap before nodes after)
    (prev : ∀ node ∈ nodes, links.prev (other node) = links.prev (heap node))
    (next : ∀ node ∈ nodes, links.next (other node) = links.next (heap node)) :
    links.Linked other before nodes after := by
  induction nodes generalizing before with
  | nil => trivial
  | cons node rest ih =>
    obtain ⟨back, forth, linked⟩ := linked
    refine ⟨?_, ?_, ?_⟩
    · rw [prev node (by simp), back]
    · rw [next node (by simp), forth]
    · exact ih linked (fun node member => prev node (List.mem_cons_of_mem _ member))
        (fun node member => next node (List.mem_cons_of_mem _ member))

theorem Linked.scan {nodes : List Node} {before : Option Node} (test : Node → Bool)
    (linked : links.Linked heap before nodes none) :
    scan (fun node => links.next (heap node)) test nodes.head? = some (nodes.find? test) := by
  induction nodes generalizing before with
  | nil => simp
  | cons node rest ih =>
    obtain ⟨_, forth, linked⟩ := linked
    rw [List.head?_cons, scan_some, forth, Option.or_none, ih linked, List.find?_cons]
    cases test node <;> rfl

theorem Linked.next_mem {nodes : List Node} {before : Option Node} {node other : Node}
    (linked : links.Linked heap before nodes none) (member : node ∈ nodes)
    (next : links.next (heap node) = some other) : other ∈ nodes := by
  obtain ⟨front, back, rfl⟩ := List.append_of_mem member
  obtain ⟨_, _, forth, _⟩ := (linked_append _ _ _ _).mp linked
  rw [forth, Option.or_none] at next
  exact List.mem_append_right _ (List.mem_cons_of_mem _ (List.mem_of_mem_head? next))

theorem Linked.prev_of_next {nodes : List Node} {before : Option Node} {node other : Node}
    (linked : links.Linked heap before nodes none) (member : node ∈ nodes)
    (next : links.next (heap node) = some other) : links.prev (heap other) = some node := by
  obtain ⟨front, back, rfl⟩ := List.append_of_mem member
  obtain ⟨_, _, forth, linked⟩ := (linked_append _ _ _ _).mp linked
  rw [forth, Option.or_none] at next
  cases back with
  | nil => cases next
  | cons first rest =>
    cases next
    exact linked.1

theorem Linked.unique {nodes others : List Node} {before early : Option Node}
    (linked : links.Linked heap before nodes none) (again : links.Linked heap early others none)
    (head : nodes.head? = others.head?) : nodes = others := by
  induction nodes generalizing others before early with
  | nil => exact (List.head?_eq_none_iff.mp head.symm).symm
  | cons node rest ih =>
    cases others with
    | nil => cases head
    | cons other more =>
      cases head
      obtain ⟨_, forth, linked⟩ := linked
      obtain ⟨_, forthAgain, again⟩ := again
      rw [Option.or_none] at forth forthAgain
      rw [ih linked again (forth.symm.trans forthAgain)]

/-- Nodes at the front of a queue whose links stay are at the front of what is linked then. -/
theorem Linked.common_front {other : Node → Cell} {front back others : List Node} {before early : Option Node}
    (linked : links.Linked heap before (front ++ back) none) (again : links.Linked other early others none)
    (head : others.head? = (front ++ back).head?)
    (same : ∀ node ∈ front, links.next (other node) = links.next (heap node)) : ∀ node ∈ front, node ∈ others := by
  induction front generalizing others before early with
  | nil => simp
  | cons first front ih =>
    cases others with
    | nil => cases head
    | cons second others =>
      cases head
      obtain ⟨_, forth, linked⟩ := linked
      obtain ⟨_, forthAgain, again⟩ := again
      have next := forthAgain.symm.trans ((same first List.mem_cons_self).trans forth)
      rw [Option.or_none, Option.or_none] at next
      intro node member
      rcases List.mem_cons.mp member with rfl | later
      · exact List.mem_cons_self
      · exact List.mem_cons_of_mem _ (ih linked again next (fun other member =>
          same other (List.mem_cons_of_mem _ member)) node later)

theorem Represents.unique {queue : Queue Node} {nodes others : List Node}
    (represents : links.Represents heap queue nodes) (again : links.Represents heap queue others) : nodes = others :=
  represents.linked.unique again.linked (represents.head.symm.trans again.head)

theorem Represents.congr {other : Node → Cell} {queue : Queue Node} {nodes : List Node}
    (represents : links.Represents heap queue nodes)
    (prev : ∀ node ∈ nodes, links.prev (other node) = links.prev (heap node))
    (next : ∀ node ∈ nodes, links.next (other node) = links.next (heap node)) : links.Represents other queue nodes :=
  ⟨represents.head, represents.tail, represents.linked.congr prev next, represents.nodup⟩

theorem sameLinks_of_pair {other : Node → Cell} (same : ∀ node, links.pair (other node) = links.pair (heap node)) :
    links.SameLinks heap other := fun node => Prod.mk.inj (same node)

theorem Represents.sameLinks {other : Node → Cell} {queue : Queue Node} {nodes : List Node}
    (represents : links.Represents heap queue nodes) (same : links.SameLinks heap other) :
    links.Represents other queue nodes :=
  represents.congr (fun node _ => (same node).1) (fun node _ => (same node).2)

theorem Stale.sameLinks {other : Node → Cell} {queue : Queue Node} {front back : List Node} {node : Node}
    (stale : links.Stale heap queue front back node) (same : links.SameLinks heap other) :
    links.Stale other queue front back node :=
  ⟨stale.represents.sameLinks same, (same node).1.trans stale.prev, (same node).2.trans stale.next⟩

theorem represents_nil (heap : Node → Cell) : links.Represents heap ⟨none, none⟩ [] :=
  ⟨rfl, rfl, trivial, List.nodup_nil⟩

theorem Represents.tail_last {queue : Queue Node} {front : List Node} {last : Node}
    (represents : links.Represents heap queue (front ++ [last])) : queue.tail = some last := by
  rw [represents.tail]
  exact List.getLast?_concat

theorem Represents.next_tail {queue : Queue Node} {nodes : List Node} {last : Node}
    (represents : links.Represents heap queue nodes) (tail : queue.tail = some last) :
    links.next (heap last) = none := by
  rw [represents.tail] at tail
  obtain ⟨front, rfl⟩ := List.getLast?_eq_some_iff.mp tail
  obtain ⟨_, _, forth, _⟩ := (linked_append _ _ _ _).mp represents.linked
  exact forth

variable [DecidableEq Node] (links)

def storePrev (heap : Node → Cell) (node : Node) (link : Option Node) : Node → Cell :=
  Function.update heap node (links.setPrev (heap node) link)

def storeNext (heap : Node → Cell) (node : Node) (link : Option Node) : Node → Cell :=
  Function.update heap node (links.setNext (heap node) link)

def append (heap : Node → Cell) (queue : Queue Node) (node : Node) : (Node → Cell) × Queue Node :=
  let heap := links.storeNext heap node none
  match queue.tail with
  | none => (links.storePrev heap node none, ⟨some node, some node⟩)
  | some tail =>
    let heap := links.storeNext heap tail (some node)
    (links.storePrev heap node (some tail), ⟨queue.head, some node⟩)

def bypassPrev (heap : Node → Cell) (queue : Queue Node) (node : Node) : (Node → Cell) × Queue Node :=
  match links.prev (heap node) with
  | some before => (links.storeNext heap before (links.next (heap node)), queue)
  | none => (heap, { queue with head := links.next (heap node) })

def bypassNext (heap : Node → Cell) (queue : Queue Node) (node : Node) : (Node → Cell) × Queue Node :=
  match links.next (heap node) with
  | some after => (links.storePrev heap after (links.prev (heap node)), queue)
  | none => (heap, { queue with tail := links.prev (heap node) })

/-- Take a node out. Its own links stay as they are. -/
def remove (heap : Node → Cell) (queue : Queue Node) (node : Node) : (Node → Cell) × Queue Node :=
  let (heap, queue) := links.bypassPrev heap queue node
  links.bypassNext heap queue node

variable {links} {queue : Queue Node}

@[simp] theorem prev_storePrev (node other : Node) (link : Option Node) :
    links.prev (links.storePrev heap node link other) =
      if other = node then link else links.prev (heap other) := by
  unfold storePrev
  by_cases same : other = node
  · subst same
    simp [links.prev_setPrev]
  · simp [same]

@[simp] theorem next_storePrev (node other : Node) (link : Option Node) :
    links.next (links.storePrev heap node link other) = links.next (heap other) := by
  unfold storePrev
  by_cases same : other = node
  · subst same
    simp [links.next_setPrev]
  · simp [same]

@[simp] theorem prev_storeNext (node other : Node) (link : Option Node) :
    links.prev (links.storeNext heap node link other) = links.prev (heap other) := by
  unfold storeNext
  by_cases same : other = node
  · subst same
    simp [links.prev_setNext]
  · simp [same]

@[simp] theorem next_storeNext (node other : Node) (link : Option Node) :
    links.next (links.storeNext heap node link other) =
      if other = node then link else links.next (heap other) := by
  unfold storeNext
  by_cases same : other = node
  · subst same
    simp [links.next_setNext]
  · simp [same]

section Frame

variable {View : Type} (view : Cell → View)

theorem view_storePrev (unread : ∀ cell link, view (links.setPrev cell link) = view cell)
    (node other : Node) (link : Option Node) :
    view (links.storePrev heap node link other) = view (heap other) := by
  unfold storePrev
  by_cases same : other = node
  · subst same
    simp [unread]
  · simp [same]

theorem view_storeNext (unread : ∀ cell link, view (links.setNext cell link) = view cell)
    (node other : Node) (link : Option Node) :
    view (links.storeNext heap node link other) = view (heap other) := by
  unfold storeNext
  by_cases same : other = node
  · subst same
    simp [unread]
  · simp [same]

variable (prevUnread : ∀ cell link, view (links.setPrev cell link) = view cell)
  (nextUnread : ∀ cell link, view (links.setNext cell link) = view cell)

include prevUnread nextUnread

theorem view_append (node other : Node) :
    view ((links.append heap queue node).1 other) = view (heap other) := by
  unfold append
  cases queue.tail with
  | none => rw [view_storePrev view prevUnread, view_storeNext view nextUnread]
  | some tail =>
    rw [view_storePrev view prevUnread, view_storeNext view nextUnread, view_storeNext view nextUnread]

theorem view_remove (node other : Node) :
    view ((links.remove heap queue node).1 other) = view (heap other) := by
  have first : view ((links.bypassPrev heap queue node).1 other) = view (heap other) := by
    unfold bypassPrev
    cases links.prev (heap node) with
    | none => rfl
    | some before => rw [view_storeNext view nextUnread]
  rw [← first]
  unfold remove bypassNext
  dsimp only
  cases links.next ((links.bypassPrev heap queue node).1 node) with
  | none => rfl
  | some after => rw [view_storePrev view prevUnread]

end Frame

theorem Linked.storeNext_other {nodes : List Node} {before after link : Option Node} {node : Node}
    (linked : links.Linked heap before nodes after) (absent : node ∉ nodes) :
    links.Linked (links.storeNext heap node link) before nodes after := by
  apply linked.congr
  · simp
  · intro other member
    have different : other ≠ node := fun same => absent (same ▸ member)
    simp [different]

theorem Linked.storePrev_other {nodes : List Node} {before after link : Option Node} {node : Node}
    (linked : links.Linked heap before nodes after) (absent : node ∉ nodes) :
    links.Linked (links.storePrev heap node link) before nodes after := by
  apply linked.congr
  · intro other member
    have different : other ≠ node := fun same => absent (same ▸ member)
    simp [different]
  · simp

theorem Linked.storeNext_last {front : List Node} {before after link : Option Node} {last : Node}
    (linked : links.Linked heap before (front ++ [last]) after) (absent : last ∉ front) :
    links.Linked (links.storeNext heap last link) before (front ++ [last]) link := by
  obtain ⟨first, second⟩ := (linked_append _ _ _ _).mp linked
  rw [linked_append]
  refine ⟨?_, ?_⟩
  · exact first.storeNext_other absent
  · obtain ⟨back, _, _⟩ := second
    simp [Linked, back]

theorem Linked.storePrev_first {rest : List Node} {before after link : Option Node} {first : Node}
    (linked : links.Linked heap before (first :: rest) after) (absent : first ∉ rest) :
    links.Linked (links.storePrev heap first link) link (first :: rest) after := by
  obtain ⟨_, forth, linked⟩ := linked
  refine ⟨?_, ?_, ?_⟩
  · simp
  · simp [forth]
  · exact linked.storePrev_other absent

theorem Represents.append {nodes : List Node} {node : Node}
    (represents : links.Represents heap queue nodes) (absent : node ∉ nodes) :
    links.Represents (links.append heap queue node).1 (links.append heap queue node).2
      (nodes ++ [node]) := by
  have distinct : (nodes ++ [node]).Nodup := by
    rw [← List.concat_eq_append]
    exact represents.nodup.concat absent
  unfold Links.append
  rw [represents.tail]
  rcases List.eq_nil_or_concat nodes with rfl | ⟨front, tail, rfl⟩
  · refine ⟨by simp, by simp, ?_, distinct⟩
    simp [Linked]
  · rw [List.concat_eq_append] at *
    have fresh : tail ∉ front := by
      have nodup := represents.nodup
      rw [List.nodup_append] at nodup
      intro member
      exact nodup.2.2 tail member tail (by simp) rfl
    have different : node ≠ tail := fun same => absent (by simp [same])
    simp only [List.getLast?_append, List.getLast?_singleton, Option.some_or]
    refine ⟨?_, by simp, ?_, distinct⟩
    · rw [represents.head]
      cases front <;> simp
    · rw [linked_append]
      refine ⟨?_, ?_⟩
      · apply Linked.storePrev_other ?_ absent
        exact (represents.linked.storeNext_other absent).storeNext_last fresh
      · simp [Linked, different]

theorem bypassPrev_spec (queue : Queue Node) {front back : List Node} {node : Node}
    (linked : links.Linked heap none front (some node)) (prev : links.prev (heap node) = front.getLast?)
    (next : links.next (heap node) = back.head?) (nodup : front.Nodup) (absent : node ∉ front)
    (head : queue.head = (front ++ [node]).head?) :
    links.Linked (links.bypassPrev heap queue node).1 none front back.head? ∧
      (∀ other, links.prev ((links.bypassPrev heap queue node).1 other) = links.prev (heap other)) ∧
      (∀ other, other ∉ front →
        links.next ((links.bypassPrev heap queue node).1 other) = links.next (heap other)) ∧
      (links.bypassPrev heap queue node).2 = ⟨(front ++ back).head?, queue.tail⟩ := by
  unfold bypassPrev
  rw [prev]
  rcases List.eq_nil_or_concat front with rfl | ⟨front, last, rfl⟩
  · simp [Linked, next]
  · rw [List.concat_eq_append] at *
    have fresh : last ∉ front := by
      rw [List.nodup_append] at nodup
      intro member
      exact nodup.2.2 last member last (by simp) rfl
    simp only [List.getLast?_append, List.getLast?_singleton, Option.some_or, next]
    refine ⟨linked.storeNext_last fresh, by simp, ?_, ?_⟩
    · intro other outside
      have different : other ≠ last := fun same => outside (by simp [same])
      simp [different]
    · have first : queue.head = (front ++ [last] ++ back).head? := by
        rw [head]
        cases front <;> simp
      rw [← first]

theorem bypassNext_spec (queue : Queue Node) {back : List Node} {node : Node} {before : Option Node}
    (linked : links.Linked heap (some node) back none) (prev : links.prev (heap node) = before)
    (next : links.next (heap node) = back.head?) (nodup : back.Nodup) :
    links.Linked (links.bypassNext heap queue node).1 before back none ∧
      (∀ other, links.next ((links.bypassNext heap queue node).1 other) = links.next (heap other)) ∧
      (∀ other, other ∉ back →
        links.prev ((links.bypassNext heap queue node).1 other) = links.prev (heap other)) ∧
      (links.bypassNext heap queue node).2 =
        ⟨queue.head, if back = [] then before else queue.tail⟩ := by
  unfold bypassNext
  rw [next]
  cases back with
  | nil => simp [Linked, prev]
  | cons first rest =>
    simp only [List.head?_cons, prev]
    refine ⟨linked.storePrev_first (List.nodup_cons.mp nodup).1, by simp, ?_, by simp⟩
    intro other outside
    have different : other ≠ first := fun same => outside (by simp [same])
    simp [different]

theorem Represents.remove {front back : List Node} {node : Node}
    (represents : links.Represents heap queue (front ++ node :: back)) :
    links.Represents (links.remove heap queue node).1 (links.remove heap queue node).2
      (front ++ back) := by
  obtain ⟨linkedFront, prev, next, linkedBack⟩ := (linked_append _ _ _ _).mp represents.linked
  rw [Option.or_none] at prev next
  have nodup := represents.nodup
  rw [List.nodup_append, List.nodup_cons] at nodup
  obtain ⟨nodupFront, ⟨absentBack, nodupBack⟩, apart⟩ := nodup
  have absentFront : node ∉ front := fun member => apart node member node (by simp) rfl
  have separate (other : Node) (inFront : other ∈ front) : other ∉ back := by
    intro inBack
    exact apart other inFront other (by simp [inBack]) rfl
  obtain ⟨linked₁, prev₁, next₁, queue₁⟩ := bypassPrev_spec queue linkedFront prev next
    nodupFront absentFront (by rw [represents.head]; cases front <;> simp)
  have linkedBack₁ : links.Linked (links.bypassPrev heap queue node).1 (some node) back none :=
    linkedBack.congr (fun other _ => prev₁ other)
      (fun other member => next₁ other fun inFront => separate other inFront member)
  obtain ⟨linked₂, next₂, prev₂, queue₂⟩ := bypassNext_spec
    (links.bypassPrev heap queue node).2 linkedBack₁ ((prev₁ node).trans prev)
    ((next₁ node absentFront).trans next) nodupBack
  unfold Links.remove
  refine ⟨?_, ?_, ?_, ?_⟩
  · rw [queue₂, queue₁]
  · rw [queue₂, queue₁]
    dsimp only
    rw [represents.tail]
    cases back with
    | nil => simp
    | cons first rest => simp
  · rw [linked_append]
    refine ⟨?_, ?_⟩
    · rw [Option.or_none]
      exact linked₁.congr (fun other member => prev₂ other (separate other member))
        (fun other _ => next₂ other)
    · rw [Option.or_none]
      exact linked₂
  · rw [List.nodup_append]
    refine ⟨nodupFront, nodupBack, ?_⟩
    intro left leftMember right rightMember
    exact apart left leftMember right (List.mem_cons_of_mem _ rightMember)

theorem append_other {node other : Node} (different : other ≠ node) (notTail : queue.tail ≠ some other) :
    (links.append heap queue node).1 other = heap other := by
  unfold append
  cases last : queue.tail with
  | none => simp [storePrev, storeNext, different]
  | some tail =>
    have notLast : other ≠ tail := by
      intro same
      exact notTail (by rw [last, same])
    simp [storePrev, storeNext, different, notLast]

theorem remove_self {node : Node} (prev : links.prev (heap node) ≠ some node)
    (next : links.next (heap node) ≠ some node) :
    (links.remove heap queue node).1 node = heap node := by
  have kept : (links.bypassPrev heap queue node).1 node = heap node := by
    unfold bypassPrev
    split
    case h_1 before found =>
      have different : node ≠ before := by
        rintro rfl
        exact prev found
      exact Function.update_of_ne different _ _
    case h_2 => rfl
  unfold Links.remove bypassNext
  dsimp only
  rw [kept]
  split
  case h_1 after found =>
    have different : node ≠ after := by
      rintro rfl
      exact next found
    exact (Function.update_of_ne different _ _).trans kept
  case h_2 => exact kept

/-- A node keeps its own links when it is taken out. -/
theorem Represents.stale {node : Node} {front back : List Node}
    (represents : links.Represents heap queue (front ++ node :: back)) :
    links.Stale (links.remove heap queue node).1 (links.remove heap queue node).2 front back node := by
  obtain ⟨_, prev, next, _⟩ := (linked_append _ _ _ _).mp represents.linked
  rw [Option.or_none] at prev next
  have nodup := represents.nodup
  rw [List.nodup_append, List.nodup_cons] at nodup
  have behind : front.getLast? ≠ some node := by
    intro last
    exact nodup.2.2 node (List.mem_of_getLast? last) node List.mem_cons_self rfl
  have ahead : back.head? ≠ some node := by
    intro first
    exact nodup.2.1.1 (List.mem_of_head? first)
  have own : (links.remove heap queue node).1 node = heap node := remove_self (prev ▸ behind) (next ▸ ahead)
  exact ⟨represents.remove, own ▸ prev, own ▸ next⟩

section Again

variable {node : Node} {front back : List Node} (stale : links.Stale heap queue front back node)

include stale

theorem Stale.bypassPrev :
    (links.bypassPrev heap queue node).2 = queue ∧ links.SameLinks heap (links.bypassPrev heap queue node).1 := by
  obtain ⟨represents, prev, next⟩ := stale
  obtain ⟨linkedFront, _⟩ := (linked_append _ _ _ _).mp represents.linked
  unfold Links.bypassPrev
  rw [prev]
  rcases List.eq_nil_or_concat front with rfl | ⟨front, last, rfl⟩
  · have head : queue.head = back.head? := represents.head
    refine ⟨?_, fun _ => ⟨rfl, rfl⟩⟩
    rw [List.getLast?_nil]
    dsimp only
    rw [next, ← head]
  · rw [List.concat_eq_append, linked_append] at linkedFront
    have forth : links.next (heap last) = back.head? := by
      rw [linkedFront.2.2.1, Option.or_none]
      rfl
    rw [List.concat_eq_append, List.getLast?_concat]
    refine ⟨rfl, fun other => ⟨prev_storeNext _ _ _, ?_⟩⟩
    rw [next_storeNext, next, ← forth]
    split
    case isTrue same => rw [same]
    case isFalse => rfl

theorem Stale.bypassNext :
    (links.bypassNext heap queue node).2 = queue ∧ links.SameLinks heap (links.bypassNext heap queue node).1 := by
  obtain ⟨represents, prev, next⟩ := stale
  obtain ⟨_, linkedBack⟩ := (linked_append _ _ _ _).mp represents.linked
  unfold Links.bypassNext
  rw [next]
  cases back with
  | nil =>
    have tail := represents.tail
    rw [List.append_nil] at tail
    refine ⟨?_, fun _ => ⟨rfl, rfl⟩⟩
    rw [List.head?_nil]
    dsimp only
    rw [prev, ← tail]
  | cons first rest =>
    have back : links.prev (heap first) = front.getLast? := by
      rw [linkedBack.1, Option.or_none]
    rw [List.head?_cons]
    refine ⟨rfl, fun other => ⟨?_, next_storePrev _ _ _⟩⟩
    rw [prev_storePrev, prev, ← back]
    split
    case isTrue same => rw [same]
    case isFalse => rfl

/-- Taking the node out once more changes nothing. -/
theorem Stale.remove :
    links.Stale (links.remove heap queue node).1 (links.remove heap queue node).2 front back node := by
  obtain ⟨first, kept⟩ := stale.bypassPrev
  unfold Links.remove
  dsimp only
  rw [first]
  obtain ⟨second, same⟩ := (stale.sameLinks kept).bypassNext
  rw [second]
  exact (stale.sameLinks kept).sameLinks same

end Again

theorem remove_unlinked {node : Node} (prev : links.prev (heap node) = none)
    (next : links.next (heap node) = none) : (links.remove heap queue node).2 = ⟨none, none⟩ := by
  simp [Links.remove, bypassPrev, bypassNext, prev, next]

variable (queue) in
/-- A removal that does not redirect a tail linked to itself leaves it so. -/
theorem remove_keeps_loop {node tail : Node} (loop : links.next (heap tail) = some tail)
    (prev : links.prev (heap node) = some tail → links.next (heap node) = some tail)
    (next : links.next (heap node) ≠ none) :
    (links.remove heap queue node).2.tail = queue.tail ∧
      links.next ((links.remove heap queue node).1 tail) = some tail := by
  have first : (links.bypassPrev heap queue node).2.tail = queue.tail ∧
      links.next ((links.bypassPrev heap queue node).1 tail) = some tail ∧
      links.next ((links.bypassPrev heap queue node).1 node) ≠ none := by
    unfold bypassPrev
    cases linked : links.prev (heap node) with
    | none => exact ⟨rfl, loop, next⟩
    | some before =>
      refine ⟨rfl, ?_, ?_⟩
      · rw [next_storeNext]
        split
        · rename_i same
          exact prev (by rw [linked, same])
        · exact loop
      · rw [next_storeNext]
        split <;> exact next
  obtain ⟨tailKept, loopKept, linked⟩ := first
  unfold remove bypassNext
  dsimp only
  cases after : links.next ((links.bypassPrev heap queue node).1 node) with
  | none => exact absurd after linked
  | some after => exact ⟨tailKept, by rw [next_storePrev, loopKept]⟩

variable (links heap) in
/-- Appending the tail once more links it to itself. -/
theorem append_tail_twice {tail : Node} (last : queue.tail = some tail) :
    (links.append heap queue tail).2 = queue ∧
      links.next ((links.append heap queue tail).1 tail) = some tail ∧
      links.prev ((links.append heap queue tail).1 tail) = some tail ∧
      ∀ other, other ≠ tail → (links.append heap queue tail).1 other = heap other := by
  unfold append
  rw [last]
  refine ⟨?_, by simp, by simp, ?_⟩
  · exact congrArg (Queue.mk queue.head) last.symm
  · intro other different
    simp [storePrev, storeNext, different]

/-- No queue is left when one of its nodes has been appended once more. -/
theorem Represents.append_again {nodes others : List Node} {node : Node}
    (represents : links.Represents heap queue nodes) (member : node ∈ nodes) :
    ¬ links.Represents (links.append heap queue node).1 (links.append heap queue node).2 others := by
  intro again
  obtain ⟨front, back, rfl⟩ := List.append_of_mem member
  have nodup := represents.nodup
  rw [List.nodup_append, List.nodup_cons] at nodup
  obtain ⟨_, ⟨absentBack, _⟩, apart⟩ := nodup
  rcases List.eq_nil_or_concat back with rfl | ⟨back, tail, rfl⟩
  · -- the tail is linked to itself
    obtain ⟨same, loop, _⟩ := append_tail_twice links heap represents.tail_last
    have ended := again.next_tail (by rw [same]; exact represents.tail_last)
    rw [loop] at ended
    cases ended
  · -- two nodes lead to the node, or one leads to the head
    rw [List.concat_eq_append] at *
    have last : queue.tail = some tail := by
      rw [← List.cons_append, ← List.append_assoc] at represents
      exact represents.tail_last
    have different : node ≠ tail := fun same => absentBack (by simp [same])
    have back_link : links.prev ((links.append heap queue node).1 node) = some tail := by
      unfold Links.append
      rw [last]
      simp
    have sameHead : (links.append heap queue node).2.head = queue.head := by
      unfold Links.append
      rw [last]
    rcases List.eq_nil_or_concat front with rfl | ⟨front, before, rfl⟩
    · have first : (links.append heap queue node).2.head = some node := sameHead.trans represents.head
      rw [again.head] at first
      cases others with
      | nil => cases first
      | cons other others =>
        cases first
        rw [again.linked.1] at back_link
        cases back_link
    · rw [List.concat_eq_append] at *
      have notTail : before ≠ tail := apart before (by simp) tail (by simp)
      have unchanged : ∀ other ∈ front ++ [before], (links.append heap queue node).1 other = heap other := by
        intro other early
        apply append_other (apart other early node (by simp))
        intro same
        exact apart other early tail (by simp) (Option.some.inj (same.symm.trans last))
      have listed : before ∈ others := by
        refine represents.linked.common_front again.linked ?_ ?_ before (by simp)
        · rw [← again.head, sameHead, represents.head]
        · intro other early
          rw [unchanged other early]
      have linked := represents.linked
      rw [List.append_assoc] at linked
      obtain ⟨_, _, forth, _⟩ := (linked_append _ _ _ _).mp linked
      have kept : links.next ((links.append heap queue node).1 before) = some node := by
        rw [unchanged before (by simp)]
        exact forth
      have early := again.linked.prev_of_next listed kept
      exact notTail (Option.some.inj (early.symm.trans back_link))

section Twice

variable {front : List Node} {tail node : Node}
  (represents : links.Represents heap queue (front ++ [tail])) (member : node ∈ front ++ [tail])

include represents member

theorem Represents.twice_next_mem {other : Node}
    (next : links.next ((links.append heap queue tail).1 node) = some other) : other ∈ front ++ [tail] := by
  obtain ⟨_, loop, _, others⟩ := append_tail_twice links heap represents.tail_last
  by_cases same : node = tail
  · subst same
    cases loop.symm.trans next
    exact member
  · rw [others node same] at next
    exact represents.linked.next_mem member next

/-- The node appended twice stays linked to itself whichever thread is taken then. -/
theorem Represents.twice_remove :
    (links.remove (links.append heap queue tail).1 (links.append heap queue tail).2 node).2.tail =
      some tail ∧
    links.next ((links.remove (links.append heap queue tail).1 (links.append heap queue tail).2 node).1
      tail) = some tail := by
  obtain ⟨sameQueue, loop, back, others⟩ :=
    append_tail_twice links heap represents.tail_last
  have kept : (links.prev ((links.append heap queue tail).1 node) = some tail →
        links.next ((links.append heap queue tail).1 node) = some tail) ∧
      links.next ((links.append heap queue tail).1 node) ≠ none := by
    by_cases same : node = tail
    · subst same
      exact ⟨fun _ => loop, by simp [loop]⟩
    · rw [others node same]
      have earlier : node ∈ front := by simpa [same] using member
      obtain ⟨first, second, rfl⟩ := List.append_of_mem earlier
      have nodup := represents.nodup
      have linked := represents.linked
      rw [List.append_assoc, List.cons_append] at linked
      obtain ⟨_, prev, next, _⟩ := (linked_append _ _ _ _).mp linked
      rw [prev, next, Option.or_none]
      constructor
      · intro before
        rw [List.nodup_append] at nodup
        exact absurd rfl (nodup.2.2 tail (List.mem_append_left _ (List.mem_of_getLast? before)) tail (by simp))
      · cases second <;> simp
  have stays := remove_keeps_loop (links.append heap queue tail).2 loop kept.1 kept.2
  exact ⟨by rw [stays.1, sameQueue, represents.tail_last], stays.2⟩

end Twice

end Links

end Library
