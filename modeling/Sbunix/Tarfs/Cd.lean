import Mathlib.Logic.Relation
import Sbunix.Tarfs.Mirror

namespace Sbunix.Tarfs

open Library

def home : List (BitVec 8) := [104, 111, 109, 101]

/-- The child where the loop of `get_pwd` ends. It is missing where it is null, and there is no result behind the
    array. The loop leaves out the last child of `rootfs`. -/
def getPwd (tree : Nodes) (pwd : Node) (name : List (BitVec 8)) : Option (Option Node) :=
  let crawl := tree.node pwd
  let pchild := if pwd = .rootfs then crawl.child.length - 1 else crawl.child.length
  let i := (crawl.child.take pchild).findIdx fun child => (tree.node child).name = name
  if i < 30 then some crawl.child[i]? else none

def doCd (mem : Memory) (start stop : Nat) (tree : Nodes) (pwd : Option Node) (name : List (BitVec 8)) :
    Option (Int × Option Node) :=
  if name = home then some (0, some .rootfs)
  else do
    match ← tarfsRead mem start stop name with
    | none => some (-1, pwd)
    | some _ => do
      let pwd ← getPwd tree (← pwd) name
      return (0, pwd)

def Reachable (tree : Nodes) (node : Node) : Prop :=
  Relation.ReflTransGen (fun parent child => child ∈ (tree.node parent).child) .rootfs node

def HasChild (tree : Nodes) (pwd : Node) (name : List (BitVec 8)) : Prop :=
  ∃ child ∈ (tree.node pwd).child, (tree.node child).name = name

/-- The move that a call is to make. -/
structure CdCorrect (tree : Nodes) (before : Node) (name : List (BitVec 8)) (result : Int) (pwd : Node) : Prop where
  reachable : Reachable tree pwd
  moved : result = 0 → name ≠ home → pwd ∈ (tree.node before).child ∧ (tree.node pwd).name = name
  stays : name ≠ home → ¬ HasChild tree before name → result = -1 ∧ pwd = before

def CdsCorrect (mem : Memory) (start stop : Nat) (tree : Nodes) : Node → List (List (BitVec 8)) → Prop
  | _, [] => True
  | before, name :: names => ∃ result pwd, doCd mem start stop tree (some before) name = some (result, some pwd) ∧
      CdCorrect tree before name result pwd ∧ CdsCorrect mem start stop tree pwd names

/-- The name is `home`, or not in the archive, or that of a child. -/
def CdFits (mem : Memory) (start stop : Nat) (tree : Nodes) (before : Node) (name : List (BitVec 8)) : Prop :=
  name = home ∨ tarfsRead mem start stop name = some none ∨ HasChild tree before name

def CdsFit (mem : Memory) (start stop : Nat) (tree : Nodes) : Node → List (List (BitVec 8)) → Prop
  | _, [] => True
  | before, name :: names => CdFits mem start stop tree before name ∧
      ∀ result pwd, doCd mem start stop tree (some before) name = some (result, some pwd) →
        CdsFit mem start stop tree pwd names

theorem findIdx_match {Node : Type} {test : Node → Bool} {front : List Node} {last : Option Node}
    (found : ∃ node, (node ∈ front ∨ last = some node) ∧ test node = true) :
    ∃ node, (front ++ last.toList)[front.findIdx test]? = some node ∧ test node = true := by
  by_cases early : ∃ node ∈ front, test node = true
  · have inside := List.findIdx_lt_length_of_exists early
    refine ⟨front[front.findIdx test], ?_, List.findIdx_getElem⟩
    rw [List.getElem?_append_left inside, List.getElem?_eq_getElem inside]
  · obtain ⟨node, listed, accepted⟩ := found
    have none : front.findIdx test = front.length := by
      rw [List.findIdx_eq_length]
      intro other member
      cases tested : test other with
      | false => rfl
      | true => exact absurd ⟨other, member, tested⟩ early
    rcases listed with member | rfl
    · exact absurd ⟨node, member, accepted⟩ early
    · refine ⟨node, ?_, accepted⟩
      rw [none, List.getElem?_append_right (Nat.le_refl _), Nat.sub_self]
      rfl

/-- The children that the loop of `get_pwd` looks at, and the one that it leaves out. -/
theorem children_split (tree : Nodes) (pwd : Node) : ∃ front last,
    (tree.node pwd).child = front ++ Option.toList last ∧ (tree.node pwd).child.take
      (if pwd = .rootfs then (tree.node pwd).child.length - 1 else (tree.node pwd).child.length) = front := by
  by_cases root : pwd = .rootfs
  · rw [if_pos root]
    rcases List.eq_nil_or_concat (tree.node pwd).child with empty | ⟨front, last, split⟩
    · rw [empty]
      exact ⟨[], none, rfl, rfl⟩
    · refine ⟨front, some last, split.trans List.concat_eq_append, ?_⟩
      rw [split, List.concat_eq_append, List.length_append, List.length_singleton, Nat.add_sub_cancel, List.take_left]
  · rw [if_neg root]
    exact ⟨_, none, (List.append_nil _).symm, List.take_length⟩

theorem getPwd_found {tree : Nodes} {pwd : Node} {name : List (BitVec 8)} (bounded : (tree.node pwd).child.length ≤ 30)
    (child : HasChild tree pwd name) : ∃ node ∈ (tree.node pwd).child, (tree.node node).name = name ∧
      getPwd tree pwd name = some (some node) := by
  obtain ⟨front, last, split, taken⟩ := children_split tree pwd
  obtain ⟨other, member, same⟩ := child
  rw [split, List.mem_append, Option.mem_toList] at member
  obtain ⟨node, located, accepted⟩ := findIdx_match
    (show ∃ node, (node ∈ front ∨ last = some node) ∧ decide ((tree.node node).name = name) = true from
      ⟨other, member, decide_eq_true same⟩)
  rw [← split] at located
  obtain ⟨inside, _⟩ := List.getElem?_eq_some_iff.mp located
  refine ⟨node, List.mem_of_getElem? located, of_decide_eq_true accepted, ?_⟩
  simp only [getPwd, taken]
  rw [if_pos (inside.trans_le bounded), located]

theorem doCd_listed {mem : Memory} {start stop address : Nat} {before : Node} {tree : Nodes} {name : List (BitVec 8)}
    (other : name ≠ home) (read : tarfsRead mem start stop name = some (some address)) :
    doCd mem start stop tree (some before) name = (getPwd tree before name).map fun pwd => (0, pwd) := by
  rw [doCd, if_neg other, read, Option.map_eq_bind]
  rfl

section Tree

variable {blocks : List Nat} {mem : Memory} {start stop : Nat} {tree : Nodes}
  (executed : initTarfs blocks mem start stop = some tree)

include executed

theorem initTarfs_bounded (address : Node) : (tree.node address).child.length ≤ 30 := by
  refine walk_tree_invariant (fun nodes => ∀ address, (nodes.node address).child.length ≤ 30) ?_ ?_ executed address
  · intro nodes next tempRt name directory temp before added address
    by_cases parent : address = tempRt
    · rw [parent]
      exact added.room
    · rw [added.child, if_neg parent, List.append_nil]
      split
      · exact Nat.zero_le _
      · exact before address
  · intro address
    exact Nat.zero_le _

theorem tarfsRead_returns (name : List (BitVec 8)) : ∃ found, tarfsRead mem start stop name = some found := by
  have all : ∀ nodes header tree, walkArchive mem stop (treeVisit mem) nodes header = some tree →
      ∀ startAddr, ∃ found, walkArchive mem stop (readVisit mem name) startAddr header = some found := by
    apply Memory.walkArchive.partial_correctness
    intro recurse ih nodes header tree walked startAddr
    split at walked
    · rename_i inside
      simp only [Option.bind_eq_bind, Option.bind_eq_some_iff] at walked
      obtain ⟨result, visited, rest⟩ := walked
      obtain ⟨text, _, _, string, _, rfl⟩ := treeVisit_cases visited
      simp only [Bool.false_eq_true, if_false, Option.bind_eq_some_iff] at rest
      obtain ⟨size, sized, later⟩ := rest
      by_cases same : text = name
      · have found : readVisit mem name startAddr header = some (some (header + headerSize), true) := by
          rw [readVisit, string]
          simp only [Option.bind_eq_bind, Option.bind_some, Option.pure_def, if_pos same]
        exact ⟨_, walkArchive_left inside found⟩
      · have passed : readVisit mem name startAddr header = some (startAddr, false) := by
          rw [readVisit, string]
          simp only [Option.bind_eq_bind, Option.bind_some, Option.pure_def, if_neg same]
        rw [walkArchive_step inside passed sized]
        exact ih _ _ _ later startAddr
    · rename_i outside
      exact ⟨startAddr, walkArchive_end (by omega)⟩
  exact all _ _ _ executed none

theorem doCd_step {before : Node} (reachable : Reachable tree before) (name : List (BitVec 8)) :
    (∃ result pwd, doCd mem start stop tree (some before) name = some (result, some pwd) ∧
      CdCorrect tree before name result pwd) ↔ CdFits mem start stop tree before name := by
  by_cases special : name = home
  · refine iff_of_true ⟨0, .rootfs, if_pos special, ?_⟩ (Or.inl special)
    exact ⟨.refl, fun _ other => absurd special other, fun other => absurd special other⟩
  obtain ⟨found, read⟩ := tarfsRead_returns executed name
  cases found with
  | none =>
    refine iff_of_true ⟨-1, before, ?_, ?_⟩ (Or.inr (Or.inl read))
    · rw [doCd, if_neg special, read]
      rfl
    · exact ⟨reachable, fun zero => absurd zero (by decide), fun _ _ => ⟨rfl, rfl⟩⟩
  | some address =>
    rw [doCd_listed special read]
    constructor
    · rintro ⟨result, pwd, moved, correct⟩
      obtain ⟨_, found, same⟩ := Option.map_eq_some_iff.mp moved
      cases same
      exact Or.inr (Or.inr ⟨pwd, correct.moved rfl special⟩)
    · rintro (same | missing | child)
      · exact absurd same special
      · rw [read] at missing
        cases missing
      · obtain ⟨node, member, same, found⟩ := getPwd_found (initTarfs_bounded executed before) child
        refine ⟨0, node, by rw [found]; rfl, reachable.tail member, fun _ _ => ⟨member, same⟩, ?_⟩
        intro _ missing
        exact absurd child missing

theorem cdsCorrect_iff {before : Node} (reachable : Reachable tree before) (names : List (List (BitVec 8))) :
    CdsCorrect mem start stop tree before names ↔ CdsFit mem start stop tree before names := by
  induction names generalizing before with
  | nil => exact Iff.rfl
  | cons name names ih =>
    rw [CdsCorrect, CdsFit, ← doCd_step executed reachable name]
    constructor
    · rintro ⟨result, pwd, called, correct, later⟩
      refine ⟨⟨result, pwd, called, correct⟩, ?_⟩
      intro other node again
      cases called.symm.trans again
      exact (ih correct.reachable).mp later
    · rintro ⟨⟨result, pwd, called, correct⟩, later⟩
      exact ⟨result, pwd, called, correct, (ih correct.reachable).mpr (later result pwd called)⟩

/-- The working directory is valid after every call exactly where every name fits the directory it is used in. -/
theorem working_directory_valid_iff (names : List (List (BitVec 8))) :
    CdsCorrect mem start stop tree .rootfs names ↔ CdsFit mem start stop tree .rootfs names :=
  cdsCorrect_iff executed .refl names

end Tree

def laterEntries : List Entry := [⟨[103], 1⟩, ⟨[100, 47], 0⟩, ⟨[100, 47, 102], 1⟩]

theorem later_named : Named laterEntries := named_of_bounds (by decide)

theorem later_linked : Linked imageStart (behind imageStart laterEntries + 1024) := ⟨by decide, by decide⟩

def laterTree : Nodes :=
  ((laterEntries.map Entry.heading ++ List.replicate 3 ([], true)).foldlM Nodes.enter (bootNodes bootBlocks)).getD
    (bootNodes [])

theorem later_tree : initTarfs bootBlocks (image imageStart laterEntries) imageStart
    (behind imageStart laterEntries + 1024) = some laterTree := by
  have returned : ((laterEntries.map Entry.heading ++ List.replicate 3 ([], true)).foldlM Nodes.enter
      (bootNodes bootBlocks)).isSome = true := by decide
  rw [initTarfs_image later_named later_linked (by decide), laterTree]
  obtain ⟨tree, entered⟩ := Option.isSome_iff_exists.mp returned
  rw [entered]
  rfl

theorem later_read {name : List (BitVec 8)} (nonempty : name ≠ []) :
    tarfsRead (image imageStart laterEntries) imageStart (behind imageStart laterEntries + 1024) name =
      some (dataOf (placed imageStart laterEntries) name) := by
  have clean : CleanEnd (image imageStart laterEntries) (behind imageStart laterEntries + 1024)
      (laterEntries.map Entry.name) :=
    ⟨[], cString_of_zero (image_behind (by decide)), Or.inl rfl, myAtool_of_zero (image_behind (by decide))⟩
  exact (found_of_harmless later_linked (image_archive imageStart later_named.valid) later_named.valid (by decide)
    trivial clean).read name nonempty

theorem later_down : getPwd laterTree .rootfs [100, 47] = some (some (place bootBlocks 2)) := by decide

theorem down_and_home : CdsCorrect (image imageStart laterEntries) imageStart
    (behind imageStart laterEntries + 1024) laterTree .rootfs [[100, 47], [100, 47, 102], home] := by
  refine (working_directory_valid_iff later_tree _).mpr
    ⟨Or.inr (Or.inr ⟨place bootBlocks 2, by decide, by decide⟩), ?_⟩
  intro result pwd called
  rw [doCd_listed (by decide) (later_read (by decide)), later_down] at called
  cases called
  refine ⟨Or.inr (Or.inr ⟨place bootBlocks 3, by decide, by decide⟩), ?_⟩
  intro result pwd called
  exact ⟨Or.inl rfl, fun _ _ _ => trivial⟩

/-- In `d/` a call with the name of a file of the root returns 0 and leaves no working directory. -/
theorem other_directory_loses_pwd :
    ¬ ∀ heap blocks after count mem start stop tree, heap.base = none →
      Heap.subMallocs heap 304 count = some (blocks, after) → initTarfs blocks mem start stop = some tree →
      ∀ names, CdsCorrect mem start stop tree .rootfs names := by
  intro every
  obtain ⟨after, returned⟩ := bootHeap_blocks
  obtain ⟨result, pwd, called, _, later⟩ :=
    every _ _ after _ _ _ _ _ bootHeap_empty returned later_tree [[100, 47], [103]]
  rw [doCd_listed (by decide) (later_read (by decide)), later_down] at called
  cases called
  obtain ⟨result, pwd, called, _⟩ := later
  rw [doCd_listed (by decide) (later_read (by decide))] at called
  have lost : getPwd laterTree (place bootBlocks 2) [103] = some none := by decide
  rw [lost] at called
  cases called

end Sbunix.Tarfs
