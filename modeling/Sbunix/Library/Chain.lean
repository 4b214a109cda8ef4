import Sbunix.Library.LinkedQueue
import Mathlib.Logic.Relation

namespace Library

variable {Node : Type}

/-- The nodes of a singly linked list, from its start to the null link. -/
def Chain (next : Node → Option Node) : Option Node → List Node → Prop
  | start, [] => start = none
  | start, node :: rest => start = some node ∧ Chain next (next node) rest

variable {next changed : Node → Option Node} {start : Option Node} {nodes front back : List Node} {node : Node}

theorem Chain.start_eq (chain : Chain next start nodes) : start = nodes.head? := by
  cases nodes with
  | nil => exact chain
  | cons node rest => exact chain.1

theorem Chain.unique {others : List Node} (chain : Chain next start nodes) (other : Chain next start others) :
    nodes = others := by
  induction nodes generalizing start others with
  | nil =>
    cases others with
    | nil => rfl
    | cons node rest => cases chain.symm.trans other.1
  | cons node rest ih =>
    cases others with
    | nil => cases other.symm.trans chain.1
    | cons second tail =>
      cases chain.1.symm.trans other.1
      rw [ih chain.2 other.2]

theorem Chain.suffix (chain : Chain next start (front ++ back)) : Chain next back.head? back := by
  induction front generalizing start with
  | nil =>
    have first := chain.start_eq
    rw [List.nil_append] at chain first
    exact first ▸ chain
  | cons node front ih => exact ih chain.2

theorem Chain.next_eq (chain : Chain next start (front ++ node :: back)) : next node = back.head? :=
  chain.suffix.2.start_eq

theorem Chain.nodup (chain : Chain next start nodes) : nodes.Nodup := by
  induction nodes generalizing start with
  | nil => exact List.nodup_nil
  | cons node rest ih =>
    refine List.nodup_cons.mpr ⟨?_, ih chain.2⟩
    intro member
    obtain ⟨front, back, rfl⟩ := List.append_of_mem member
    have shorter : Chain next (some node) (node :: back) := Chain.suffix chain.2
    have longer : Chain next (some node) (node :: (front ++ node :: back)) := ⟨rfl, chain.2⟩
    have whole := congrArg List.length (shorter.unique longer)
    simp only [List.length_cons, List.length_append] at whole
    omega

theorem Chain.congr (chain : Chain next start nodes) (same : ∀ node ∈ nodes, changed node = next node) :
    Chain changed start nodes := by
  induction nodes generalizing start with
  | nil => exact chain
  | cons node rest ih =>
    refine ⟨chain.1, ?_⟩
    rw [same node List.mem_cons_self]
    exact ih chain.2 fun other member => same other (List.mem_cons_of_mem _ member)

theorem Chain.splice {tail : List Node} (chain : Chain next start (front ++ node :: back))
    (same : ∀ other ∈ front, changed other = next other) (rest : Chain changed (changed node) tail) :
    Chain changed start (front ++ node :: tail) := by
  induction front generalizing start with
  | nil => exact ⟨chain.1, rest⟩
  | cons first front ih =>
    refine ⟨chain.1, ?_⟩
    rw [same first List.mem_cons_self]
    exact ih chain.2 fun other member => same other (List.mem_cons_of_mem _ member)

theorem Chain.scan (chain : Chain next start nodes) (test : Node → Bool) :
    Library.scan next test start = some (nodes.find? test) := by
  induction nodes generalizing start with
  | nil =>
    rw [show start = none from chain]
    exact scan_none next test
  | cons node rest ih =>
    rw [chain.1, scan_some, ih chain.2, List.find?_cons]
    cases test node <;> rfl

theorem Chain.find_last (chain : Chain next start (front ++ [node])) :
    (front ++ [node]).find? (fun other => (next other).isNone) = some node := by
  induction front generalizing start with
  | nil =>
    have ended : next node = none := chain.2
    rw [List.nil_append, List.find?_cons, ended]
    rfl
  | cons first front ih =>
    have more : (next first).isNone = false := by
      rw [chain.2.start_eq]
      cases front <;> rfl
    rw [List.cons_append, List.find?_cons, more]
    exact ih chain.2

theorem Chain.bypass {before : Node} (chain : Chain next start (front ++ before :: node :: back))
    (redirected : changed before = next node) (same : ∀ other ∈ front ++ back, changed other = next other) :
    Chain changed start (front ++ before :: back) := by
  apply chain.splice fun other member => same other (List.mem_append_left _ member)
  have rest : Chain next (next node) back := chain.suffix.2.2
  rw [redirected]
  exact rest.congr fun other member => same other (List.mem_append_right _ member)

/-- The node before the first one that passes a test. -/
theorem Chain.find_before {before : Node} {test : Node → Bool}
    (chain : Chain next start (front ++ before :: node :: back)) (accepted : test node = true)
    (rejected : ∀ other ∈ front ++ [before], test other = false) :
    (front ++ before :: node :: back).find? (fun other => (next other).all test) = some before := by
  induction front generalizing start with
  | nil =>
    have linked : next before = some node := chain.2.1
    rw [List.nil_append, List.find?_cons, linked]
    simp [accepted]
  | cons first front ih =>
    have later : ∀ other ∈ front ++ [before], test other = false :=
      fun other member => rejected other (List.mem_cons_of_mem _ member)
    obtain ⟨second, linked, listed⟩ : ∃ second, next first = some second ∧ second ∈ front ++ [before] := by
      rw [chain.2.start_eq]
      cases front with
      | nil => exact ⟨before, rfl, List.mem_cons_self⟩
      | cons second front => exact ⟨second, rfl, List.mem_cons_self⟩
    rw [List.cons_append, List.find?_cons, linked]
    simp only [Option.all_some, later second listed]
    exact ih chain.2 later

theorem Chain.mem_iff (chain : Chain next start nodes) : node ∈ nodes ↔
    ∃ first, start = some first ∧ Relation.ReflTransGen (fun left right => next left = some right) first node := by
  induction nodes generalizing start with
  | nil =>
    rw [show start = none from chain]
    exact iff_of_false List.not_mem_nil fun reached => Option.some_ne_none _ reached.choose_spec.1.symm
  | cons head rest ih =>
    rw [List.mem_cons, ih chain.2, chain.1]
    constructor
    · intro member
      rcases member with rfl | ⟨second, linked, path⟩
      · exact ⟨node, rfl, Relation.ReflTransGen.refl⟩
      · exact ⟨head, rfl, Relation.ReflTransGen.head linked path⟩
    · intro reached
      obtain ⟨first, equal, path⟩ := reached
      cases equal
      rcases path.cases_head with same | ⟨second, linked, path⟩
      · exact Or.inl same.symm
      · exact Or.inr ⟨second, linked, path⟩

end Library
