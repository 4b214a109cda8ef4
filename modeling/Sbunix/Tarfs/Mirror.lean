import Sbunix.Heap.Cut
import Sbunix.Tarfs.Tree

namespace Sbunix.Tarfs

open Library

def nameAt (entries : List Entry) (k : Nat) : List (BitVec 8) := ((entries[k]?).map Entry.name).getD []

def nodeName (entries : List Entry) : Nat → List (BitVec 8)
  | 0 => rootName
  | k + 1 => nameAt entries k

def lastDirectory (entries : List Entry) : Nat → Nat
  | 0 => 0
  | k + 1 => if (entries[k]?).any fun entry => entry.size = 0 then k + 1 else lastDirectory entries k

def attachedTo (entries : List Entry) (k : Nat) : Nat :=
  if nodeName entries (lastDirectory entries k) <+: nameAt entries k then lastDirectory entries k else 0

def attached (entries : List Entry) (k parent : Nat) : List Nat :=
  ((List.range k).filter fun j => attachedTo entries j = parent).map (· + 1)

theorem lastDirectory_le (entries : List Entry) (k : Nat) : lastDirectory entries k ≤ k := by
  induction k with
  | zero => exact Nat.le_refl _
  | succ k ih =>
    rw [lastDirectory]
    split
    · exact Nat.le_refl _
    · exact ih.trans (Nat.le_succ k)

theorem attachedTo_le (entries : List Entry) (k : Nat) : attachedTo entries k ≤ k := by
  rw [attachedTo]
  split
  · exact lastDirectory_le entries k
  · exact Nat.zero_le k

theorem attached_succ (entries : List Entry) (k parent : Nat) :
    attached entries (k + 1) parent =
      attached entries k parent ++ if attachedTo entries k = parent then [k + 1] else [] := by
  rw [attached, List.range_succ, List.filter_append, List.map_append, ← attached]
  by_cases same : attachedTo entries k = parent
  · simp [same]
  · simp [same]

theorem attached_new (entries : List Entry) (k : Nat) : attached entries k k = [] := by
  rw [attached, List.map_eq_nil_iff, List.filter_eq_nil_iff]
  intro j inside
  have low := attachedTo_le entries j
  rw [List.mem_range] at inside
  rw [decide_eq_true_iff]
  omega

structure Named (entries : List Entry) : Prop where
  valid : ∀ entry ∈ entries, entry.Valid
  short : ∀ entry ∈ entries, entry.name.length ≤ 49

theorem Named.noNul {entries : List Entry} (named : Named entries) (address : Nat) :
    ∀ character ∈ nodeName entries address, character ≠ 0 := by
  cases address with
  | zero => exact (by decide : ∀ character ∈ rootName, character ≠ 0)
  | succ k =>
    rw [nodeName, nameAt]
    cases found : entries[k]? with
    | none =>
      intro character member
      cases member
    | some entry => exact (named.valid entry (List.mem_of_getElem? found)).noNul

theorem nodeName_ne_nil {entries : List Entry} (named : Named entries) {address : Nat}
    (inside : address ≤ entries.length) : nodeName entries address ≠ [] := by
  cases address with
  | zero => exact List.cons_ne_nil _ _
  | succ k =>
    rw [nodeName, nameAt, List.getElem?_eq_getElem inside]
    exact (named.valid _ (List.getElem_mem inside)).nonempty

def slash : BitVec 8 := 47

def Contains (entries : List Entry) (j k : Nat) : Prop :=
  j < entries.length ∧ k < entries.length ∧ (nameAt entries j).getLast? = some slash ∧
    nameAt entries j <+: nameAt entries k ∧ nameAt entries j ≠ nameAt entries k

instance (entries : List Entry) (j k : Nat) : Decidable (Contains entries j k) :=
  inferInstanceAs (Decidable (_ ∧ _))

def OwnParent (entries : List Entry) (k : Nat) : Nat → Prop
  | 0 => ∀ j < entries.length, ¬ Contains entries j k
  | j + 1 => Contains entries j k ∧
      ∀ i < entries.length, Contains entries i k → (nameAt entries i).length ≤ (nameAt entries j).length

instance (entries : List Entry) (k parent : Nat) : Decidable (OwnParent entries k parent) :=
  match parent with
  | 0 => inferInstanceAs (Decidable (∀ j < entries.length, ¬ Contains entries j k))
  | _ + 1 => inferInstanceAs (Decidable (_ ∧ _))

/-- Every directory precedes its contents, and no directory has more than 29 children. -/
structure DepthFirst (entries : List Entry) : Prop where
  distinct : (entries.map Entry.name).Nodup
  directory : ∀ entry ∈ entries, entry.size = 0 ↔ entry.name.getLast? = some slash
  precedes : ∀ j k, Contains entries j k → j < k
  plain : ∀ entry ∈ entries, entry.size = 0 ∨ entry.size % 512 ≠ 0
  children : ∀ parent ≤ entries.length,
    ((List.range entries.length).filter fun k => OwnParent entries k parent).length ≤ 29

/-- The last directory before an entry contains it, unless no directory does. -/
def FollowsDirectory (entries : List Entry) : Prop :=
  ∀ k < entries.length, nodeName entries (lastDirectory entries k) <+: nameAt entries k ∨
    ∀ j < entries.length, ¬ Contains entries j k

section Parents

variable {entries : List Entry} (depthFirst : DepthFirst entries)

include depthFirst

theorem nameAt_inj {j k : Nat} (left : j < entries.length) (right : k < entries.length)
    (same : nameAt entries j = nameAt entries k) : j = k := by
  have names (i : Nat) (inside : i < entries.length) : (entries.map Entry.name)[i]? = some (nameAt entries i) := by
    simp [nameAt, inside]
  have equal : (entries.map Entry.name)[j]? = (entries.map Entry.name)[k]? := by
    rw [names j left, names k right, same]
  exact (List.getElem?_inj (by rwa [List.length_map]) depthFirst.distinct).mp equal

theorem ownParent_unique {k : Nat} {left right : Nat} (first : OwnParent entries k left)
    (second : OwnParent entries k right) : left = right := by
  cases left with
  | zero =>
    cases right with
    | zero => rfl
    | succ j => exact absurd second.1 (first j second.1.1)
  | succ i =>
    cases right with
    | zero => exact absurd first.1 (second i first.1.1)
    | succ j =>
      have lengths := Nat.le_antisymm (second.2 i first.1.1 first.1) (first.2 j second.1.1 second.1)
      have prefixes := List.prefix_of_prefix_length_le first.1.2.2.2.1 second.1.2.2.2.1 (Nat.le_of_eq lengths)
      rw [nameAt_inj depthFirst first.1.1 second.1.1 (prefixes.eq_of_length lengths)]

theorem nameAt_slash {j : Nat} {entry : Entry} (found : entries[j]? = some entry) :
    (nameAt entries j).getLast? = some slash ↔ entry.size = 0 := by
  rw [depthFirst.directory entry (List.mem_of_getElem? found), nameAt, found]
  rfl

theorem lastDirectory_spec (k : Nat) (inside : k ≤ entries.length) :
    (∀ j, lastDirectory entries k = j + 1 → j < k ∧ (nameAt entries j).getLast? = some slash) ∧
      ∀ i < k, (nameAt entries i).getLast? = some slash → i < lastDirectory entries k := by
  induction k with
  | zero =>
    refine ⟨?_, ?_⟩
    · intro j same
      cases same
    · intro i early
      cases early
  | succ k ih =>
    obtain ⟨earlier, later⟩ := ih (by omega)
    have found : entries[k]? = some entries[k] := List.getElem?_eq_getElem inside
    rw [lastDirectory, found]
    change (∀ j, (if decide (entries[k].size = 0) = true then _ else _) = j + 1 → _) ∧
      ∀ i < k + 1, _ → i < if decide (entries[k].size = 0) = true then _ else _
    by_cases empty : entries[k].size = 0
    · rw [if_pos (decide_eq_true empty)]
      refine ⟨?_, ?_⟩
      · intro j same
        cases same
        exact ⟨Nat.lt_succ_self k, (nameAt_slash depthFirst found).mpr empty⟩
      · intro i early _
        exact early
    · rw [if_neg fun same => empty (of_decide_eq_true same)]
      refine ⟨?_, ?_⟩
      · intro j same
        exact ⟨(earlier j same).1.trans (Nat.lt_succ_self k), (earlier j same).2⟩
      · intro i early ends
        rcases Nat.lt_succ_iff_lt_or_eq.mp early with before | rfl
        · exact later i before ends
        · exact absurd ((nameAt_slash depthFirst found).mp ends) empty

/-- The loop finds the own parent of an entry exactly where the last directory contains it or none does. -/
theorem ownParent_attachedTo {k : Nat} (inside : k < entries.length) :
    OwnParent entries k (attachedTo entries k) ↔
      nodeName entries (lastDirectory entries k) <+: nameAt entries k ∨
        ∀ j < entries.length, ¬ Contains entries j k := by
  obtain ⟨earlier, later⟩ := lastDirectory_spec depthFirst k (Nat.le_of_lt inside)
  by_cases below : nodeName entries (lastDirectory entries k) <+: nameAt entries k
  · refine iff_of_true ?_ (Or.inl below)
    rw [attachedTo, if_pos below]
    cases last : lastDirectory entries k with
    | zero =>
      intro j bound contained
      have recent := later j (depthFirst.precedes j k contained) contained.2.2.1
      omega
    | succ d =>
      obtain ⟨before, ends⟩ := earlier d last
      rw [last, nodeName] at below
      have different : nameAt entries d ≠ nameAt entries k := by
        intro same
        have equal := nameAt_inj depthFirst (before.trans inside) inside same
        omega
      have contains : Contains entries d k := ⟨before.trans inside, inside, ends, below, different⟩
      refine ⟨contains, ?_⟩
      intro i bound contained
      -- a longer name would lie inside the last directory, which precedes its contents
      by_contra longer
      have shorter := List.prefix_of_prefix_length_le below contained.2.2.2.1 (by omega)
      have nested : Contains entries d i := by
        refine ⟨contains.1, bound, ends, shorter, ?_⟩
        intro same
        rw [same] at longer
        exact longer (Nat.le_refl _)
      have recent := later i (depthFirst.precedes i k contained) contained.2.2.1
      have order := depthFirst.precedes d i nested
      omega
  · rw [attachedTo, if_neg below]
    exact (or_iff_right below).symm

theorem attachedTo_eq_iff (follows : FollowsDirectory entries) {k : Nat} (inside : k < entries.length) (parent : Nat) :
    attachedTo entries k = parent ↔ OwnParent entries k parent := by
  have own := (ownParent_attachedTo depthFirst inside).mpr (follows k inside)
  constructor
  · intro same
    rwa [same] at own
  · exact ownParent_unique depthFirst own

/-- The children that the loop gives to a node are its own, and so there is room for them. -/
theorem attached_length (follows : FollowsDirectory entries) {k parent : Nat} (inside : k ≤ entries.length)
    (early : parent ≤ entries.length) : (attached entries k parent).length ≤ 29 := by
  have own : ((List.range k).filter fun j => attachedTo entries j = parent) =
      (List.range k).filter fun j => OwnParent entries j parent := by
    apply List.filter_congr
    intro j member
    rw [decide_eq_decide]
    exact attachedTo_eq_iff depthFirst follows (by rw [List.mem_range] at member; omega) parent
  have shorter := ((List.range_sublist.mpr inside).filter fun j => OwnParent entries j parent).length_le
  rw [attached, List.length_map, own]
  exact shorter.trans (depthFirst.children parent early)

theorem plain_entries : ∀ entry ∈ entries, Overshoots entry.size = false := by
  intro entry member
  rcases depthFirst.plain entry member with empty | part
  · rw [empty]
    rfl
  · simp [Overshoots, part]

end Parents

theorem attached_mem {entries : List Entry} {k parent j : Nat} :
    j + 1 ∈ attached entries k parent ↔ j < k ∧ attachedTo entries j = parent := by
  simp [attached]

def place (blocks : List Nat) : Nat → Node
  | 0 => .rootfs
  | k + 1 => .block (blocks.getD k 0)

/-- Every entry is a child of its own parent directory and of no other node. -/
def Mirrors (blocks : List Nat) (entries : List Entry) (tree : Nodes) : Prop :=
  ∀ k < entries.length, (tree.node (place blocks (k + 1))).name = nameAt entries k ∧
    ∀ address, place blocks (k + 1) ∈ (tree.node address).child ↔
      ∃ parent, OwnParent entries k parent ∧ address = place blocks parent

/-- `sub_malloc` returns a block for each of the headers, and no block of an entry for another header. -/
structure Separate (blocks : List Nat) (entries headers : Nat) : Prop where
  enough : headers ≤ blocks.length
  once : ∀ i < entries, ∀ j < headers, blocks[i]? = blocks[j]? → i = j

section Separate

variable {blocks : List Nat} {entries headers : Nat} (separate : Separate blocks entries headers)
  (many : entries ≤ headers)

include separate many

theorem Separate.place_inj {i j : Nat} (left : i ≤ entries) (right : j ≤ headers)
    (same : place blocks i = place blocks j) : i = j := by
  have enough := separate.enough
  cases i with
  | zero =>
    cases j with
    | zero => rfl
    | succ j => cases same
  | succ i =>
    cases j with
    | zero => cases same
    | succ j =>
      have equal : blocks.getD i 0 = blocks.getD j 0 := Node.block.inj same
      have first : blocks[i]? = some (blocks.getD i 0) := by simp [show i < blocks.length by omega]
      have second : blocks[j]? = some (blocks.getD j 0) := by simp [show j < blocks.length by omega]
      rw [separate.once i left j right (by rw [first, second, equal])]

end Separate

structure Built (blocks : List Nat) (entries : List Entry) (k : Nat) (nodes : Nodes) : Prop where
  name : ∀ i ≤ k, (nodes.node (place blocks i)).name = nodeName entries i
  child : ∀ i ≤ k, (nodes.node (place blocks i)).child = (attached entries k i).map (place blocks)
  other : ∀ address, (∀ i ≤ k, address ≠ place blocks i) → (nodes.node address).child = []
  oldDir : nodes.oldDir = place blocks (lastDirectory entries k)
  rest : nodes.blocks = blocks.drop k

theorem built_zero (blocks : List Nat) (entries : List Entry) : Built blocks entries 0 (bootNodes blocks) where
  name := by
    intro i low
    rw [Nat.le_zero.mp low]
    rfl
  child := by
    intro i low
    rw [Nat.le_zero.mp low]
    rfl
  other := fun _ _ => rfl
  oldDir := rfl
  rest := rfl

section Build

variable {blocks : List Nat} {entries : List Entry} {k : Nat} {nodes next : Nodes} {entry : Entry}
  (built : Built blocks entries k nodes) (found : entries[k]? = some entry)

include built found

theorem Built.enter_eq :
    nodes.enter entry.heading = nodes.add (place blocks (attachedTo entries k)) entry.name (entry.size = 0) := by
  have name : nameAt entries k = entry.name := by
    rw [nameAt, found]
    rfl
  have parent : (if (nodes.node nodes.oldDir).name <+: entry.name then nodes.oldDir else .rootfs) =
      place blocks (attachedTo entries k) := by
    rw [built.oldDir, built.name _ (lastDirectory_le entries k), attachedTo, name]
    split <;> rfl
  rw [Nodes.enter]
  exact congrArg (fun parent => nodes.add parent entry.name (entry.size = 0)) parent

theorem Built.enter_isSome (supply : k < blocks.length) (short : entry.name.length ≤ 49)
    (room : (attached entries k (attachedTo entries k)).length < 30) :
    ∃ next, nodes.enter entry.heading = some next := by
  rw [built.enter_eq found]
  apply add_isSome
  · rw [built.rest]
    exact fun none => absurd (List.drop_eq_nil_iff.mp none) (by omega)
  · omega
  · rw [built.child _ (attachedTo_le entries k), List.length_map]
    exact room

variable (distinct : ∀ i ≤ k + 1, ∀ j ≤ k + 1, place blocks i = place blocks j → i = j)
  (entered : nodes.enter entry.heading = some next)

include distinct entered

theorem Built.step : Built blocks entries (k + 1) next := by
  have low := attachedTo_le entries k
  rw [built.enter_eq found] at entered
  obtain ⟨temp, added⟩ := add_added entered
  have supply := added.blocks
  rw [built.rest] at supply
  have here : .block temp = place blocks (k + 1) := by
    have first : blocks[k]? = some temp := by
      rw [← List.head?_drop, supply]
      rfl
    rw [place, List.getD_eq_getElem?_getD, first]
    rfl
  have name : nodeName entries (k + 1) = entry.name := by
    rw [nodeName, nameAt, found]
    rfl
  have old {i : Nat} (early : i ≤ k) : place blocks i ≠ .block temp := by
    rw [here]
    intro same
    have equal := distinct i (by omega) (k + 1) (Nat.le_refl _) same
    omega
  constructor
  · intro i early
    rw [added.name]
    by_cases new : i = k + 1
    · rw [new, if_pos here.symm, name]
    · rw [if_neg (old (by omega)), built.name i (by omega)]
  · intro i early
    rw [added.child]
    by_cases new : i = k + 1
    · rw [new, if_pos here.symm, attached_new, if_neg fun same => old low (same.symm.trans here.symm)]
      rfl
    · rw [if_neg (old (by omega)), built.child i (by omega), attached_succ, List.map_append]
      by_cases parent : attachedTo entries k = i
      · rw [if_pos parent, if_pos (by rw [parent]), here]
        rfl
      · rw [if_neg parent, if_neg fun same => parent (distinct i early _ (by omega) same).symm]
        rfl
  · intro address outside
    rw [added.child, if_neg (by rw [here]; exact outside (k + 1) (Nat.le_refl _)),
      if_neg (outside _ (by omega)), List.append_nil]
    exact built.other address fun i early => outside i (by omega)
  · rw [added.oldDir, built.oldDir, here, lastDirectory, found]
    by_cases empty : entry.size = 0
    · simp [empty]
    · simp [empty]
  · rw [← List.tail_drop, supply, List.tail_cons]

end Build

structure Listed (blocks : List Nat) (entries : List Entry) (nodes : Nodes) : Prop where
  name : ∀ k < entries.length, (nodes.node (place blocks (k + 1))).name = nameAt entries k
  child : ∀ k < entries.length, ∀ address, place blocks (k + 1) ∈ (nodes.node address).child ↔
    address = place blocks (attachedTo entries k)

section Listed

variable {blocks : List Nat} {entries : List Entry} {nodes next : Nodes}

theorem Built.listed (built : Built blocks entries entries.length nodes)
    (distinct : ∀ i ≤ entries.length, ∀ j ≤ entries.length, place blocks i = place blocks j → i = j) :
    Listed blocks entries nodes where
  name := fun k inside => built.name (k + 1) inside
  child := by
    intro k inside address
    have low := attachedTo_le entries k
    constructor
    · intro member
      by_cases known : ∃ i ≤ entries.length, address = place blocks i
      · obtain ⟨i, early, rfl⟩ := known
        rw [built.child i early] at member
        obtain ⟨j, listed, same⟩ := List.mem_map.mp member
        obtain ⟨m, member, rfl⟩ := List.mem_map.mp listed
        have bound := List.mem_range.mp (List.mem_filter.mp member).1
        have equal := distinct (m + 1) bound (k + 1) inside same
        rw [← of_decide_eq_true (List.mem_filter.mp member).2, show m = k by omega]
      · rw [built.other address fun i early same => known ⟨i, early, same⟩] at member
        cases member
    · rintro rfl
      rw [built.child _ (by omega)]
      exact List.mem_map_of_mem (attached_mem.mpr ⟨inside, rfl⟩)

/-- A node that takes no block of an entry keeps the entries listed. -/
theorem Listed.add (listed : Listed blocks entries nodes) {tempRt : Node} {name : List (BitVec 8)} {directory : Bool}
    {temp : Nat} (added : Added nodes next tempRt name directory temp)
    (other : ∀ i ≤ entries.length, place blocks i ≠ .block temp) : Listed blocks entries next where
  name := by
    intro k inside
    rw [added.name, if_neg (other (k + 1) inside), listed.name k inside]
  child := by
    intro k inside address
    have low := attachedTo_le entries k
    have absent : place blocks (k + 1) ∉ if address = tempRt then [Node.block temp] else [] := by
      split
      · rw [List.mem_singleton]
        exact other (k + 1) inside
      · exact List.not_mem_nil
    rw [added.child, List.mem_append, or_iff_left absent]
    by_cases new : address = .block temp
    · rw [if_pos new, new]
      exact iff_of_false List.not_mem_nil fun same => other _ (show attachedTo entries k ≤ _ by omega) same.symm
    · rw [if_neg new]
      exact listed.child k inside address

end Listed

def RoomFrom (entries : List Entry) (k : Nat) : Prop :=
  ∀ j, k ≤ j → j < entries.length → (attached entries j (attachedTo entries j)).length < 30

section Entries

variable {blocks : List Nat} {entries rest : List Entry} {k : Nat} {nodes : Nodes}

theorem drop_cons {entry : Entry} (split : entries.drop k = entry :: rest) :
    entries[k]? = some entry ∧ entries.drop (k + 1) = rest := by
  constructor
  · rw [← List.head?_drop, split]
    rfl
  · rw [← List.tail_drop, split]
    rfl

theorem Built.all_entries {tree : Nodes} (built : Built blocks entries k nodes) (split : entries.drop k = rest)
    (inside : k ≤ entries.length)
    (distinct : ∀ i ≤ entries.length, ∀ j ≤ entries.length, place blocks i = place blocks j → i = j)
    (entered : (rest.map Entry.heading).foldlM Nodes.enter nodes = some tree) :
    Built blocks entries entries.length tree := by
  induction rest generalizing k nodes with
  | nil =>
    have whole := List.drop_eq_nil_iff.mp split
    cases entered
    rwa [show entries.length = k by omega]
  | cons entry rest ih =>
    obtain ⟨found, others⟩ := drop_cons split
    obtain ⟨early, _⟩ := List.getElem?_eq_some_iff.mp found
    simp only [List.map_cons, List.foldlM_cons, Option.bind_eq_bind, Option.bind_eq_some_iff] at entered
    obtain ⟨next, first, later⟩ := entered
    have step := built.step found (fun i left j right => distinct i (by omega) j (by omega)) first
    exact ih step others early later

theorem Built.all_isSome (built : Built blocks entries k nodes) (split : entries.drop k = rest)
    (inside : k ≤ entries.length) (supply : entries.length ≤ blocks.length) (named : Named entries)
    (distinct : ∀ i ≤ entries.length, ∀ j ≤ entries.length, place blocks i = place blocks j → i = j)
    (room : RoomFrom entries k) : ∃ tree, (rest.map Entry.heading).foldlM Nodes.enter nodes = some tree := by
  induction rest generalizing k nodes with
  | nil => exact ⟨nodes, rfl⟩
  | cons entry rest ih =>
    obtain ⟨found, others⟩ := drop_cons split
    obtain ⟨early, _⟩ := List.getElem?_eq_some_iff.mp found
    obtain ⟨next, first⟩ := built.enter_isSome found (by omega) (named.short entry (List.mem_of_getElem? found))
      (room k (Nat.le_refl k) early)
    have step := built.step found (fun i left j right => distinct i (by omega) j (by omega)) first
    obtain ⟨tree, later⟩ := ih step others early fun j high => room j (by omega)
    refine ⟨tree, ?_⟩
    rw [List.map_cons, List.foldlM_cons, first]
    exact later

end Entries

section Supply

variable {blocks : List Nat} {m : Nat} {nodes next : Nodes} {tempRt : Node} {name : List (BitVec 8)}
  {directory : Bool} {temp : Nat} (added : Added nodes next tempRt name directory temp)
  (rest : nodes.blocks = blocks.drop m)

include added rest

theorem Added.supply : m < blocks.length ∧ .block temp = place blocks (m + 1) ∧ next.blocks = blocks.drop (m + 1) := by
  have split := added.blocks
  rw [rest] at split
  have first : blocks[m]? = some temp := by
    rw [← List.head?_drop, split]
    rfl
  refine ⟨(List.getElem?_eq_some_iff.mp first).1, ?_, ?_⟩
  · rw [place, List.getD_eq_getElem?_getD, first]
    rfl
  · rw [← List.tail_drop, split, List.tail_cons]

end Supply

section Later

variable {blocks : List Nat} {entries : List Entry} {headers : Nat}
  (separate : Separate blocks entries.length headers)

include separate

theorem Listed.later {m : Nat} {nodes next : Nodes} {tempRt : Node} {name : List (BitVec 8)} {directory : Bool}
    {temp : Nat} (listed : Listed blocks entries nodes) (added : Added nodes next tempRt name directory temp)
    (rest : nodes.blocks = blocks.drop m) (past : entries.length ≤ m) (inside : m < headers) :
    Listed blocks entries next := by
  obtain ⟨_, here, _⟩ := added.supply rest
  refine listed.add added ?_
  intro i early same
  have equal := separate.place_inj (by omega) early (show m + 1 ≤ headers by omega) (same.trans here)
  omega

theorem Listed.headings {hs : List Heading} {m : Nat} {nodes tree : Nodes} (listed : Listed blocks entries nodes)
    (rest : nodes.blocks = blocks.drop m) (past : entries.length ≤ m) (inside : m + hs.length ≤ headers)
    (entered : hs.foldlM Nodes.enter nodes = some tree) : Listed blocks entries tree := by
  induction hs generalizing m nodes with
  | nil =>
    cases entered
    exact listed
  | cons heading hs ih =>
    rw [List.length_cons] at inside
    simp only [List.foldlM_cons, Option.bind_eq_bind, Option.bind_eq_some_iff] at entered
    obtain ⟨next, first, later⟩ := entered
    obtain ⟨temp, added⟩ := add_added first
    obtain ⟨_, _, supply⟩ := added.supply rest
    exact ih (listed.later separate added rest past (by omega)) supply (by omega) (by omega) later

theorem Listed.walk {mem : Memory} {stop header : Nat} {nodes tree : Nodes} (whole : headers = blocks.length)
    (listed : Listed blocks entries nodes) (rest : nodes.blocks = blocks.drop entries.length)
    (walked : walkArchive mem stop (treeVisit mem) nodes header = some tree) : Listed blocks entries tree := by
  have kept := walk_tree_invariant
    (fun nodes => ∃ m, entries.length ≤ m ∧ nodes.blocks = blocks.drop m ∧ Listed blocks entries nodes) ?_
    ⟨entries.length, Nat.le_refl _, rest, listed⟩ walked
  · obtain ⟨_, _, _, final⟩ := kept
    exact final
  · rintro nodes next tempRt name directory temp ⟨m, past, rest, listed⟩ added
    obtain ⟨inside, _, supply⟩ := added.supply rest
    exact ⟨m + 1, by omega, supply, listed.later separate added rest past (by omega)⟩

end Later

theorem Listed.mirrors_iff {blocks : List Nat} {entries : List Entry} {tree : Nodes}
    (listed : Listed blocks entries tree) (depthFirst : DepthFirst entries)
    (distinct : ∀ i ≤ entries.length, ∀ j ≤ entries.length, place blocks i = place blocks j → i = j) :
    Mirrors blocks entries tree ↔ FollowsDirectory entries := by
  constructor
  · intro mirrors k inside
    have low := attachedTo_le entries k
    obtain ⟨parent, own, same⟩ := ((mirrors k inside).2 _).mp ((listed.child k inside _).mpr rfl)
    have bound : parent ≤ entries.length := by
      cases parent with
      | zero => exact Nat.zero_le _
      | succ j => exact own.1.1
    rw [← distinct _ (by omega) parent bound same] at own
    exact (ownParent_attachedTo depthFirst inside).mp own
  · intro follows k inside
    refine ⟨listed.name k inside, ?_⟩
    intro address
    rw [listed.child k inside address]
    constructor
    · intro here
      exact ⟨_, (attachedTo_eq_iff depthFirst follows inside _).mp rfl, here⟩
    · rintro ⟨parent, own, here⟩
      rw [here, (attachedTo_eq_iff depthFirst follows inside parent).mpr own]

structure Blank (nodes : Nodes) : Prop where
  name : (nodes.node nodes.oldDir).name = []
  child : (nodes.node nodes.oldDir).child.length ≤ 1

section Blank

variable {nodes next : Nodes}

theorem Blank.enter_isSome (blank : Blank nodes) (supply : nodes.blocks ≠ []) (heading : Heading)
    (short : heading.1.length ≤ 49) : ∃ next, nodes.enter heading = some next := by
  have below := blank.child
  rw [Nodes.enter, blank.name, if_pos List.nil_prefix]
  exact add_isSome _ supply (by omega) (by omega)

/-- The node of a zero block is blank, also where it takes the block of the one before it. -/
theorem blank_of_added {tempRt : Node} {temp : Nat} (added : Added nodes next tempRt [] true temp) : Blank next := by
  have here : next.oldDir = .block temp := added.oldDir
  constructor
  · rw [here, added.name, if_pos rfl]
  · rw [here, added.child, if_pos rfl, List.nil_append]
    split
    · exact Nat.le_refl _
    · exact Nat.zero_le _

theorem Blank.zeros_isSome (blank : Blank nodes) (count : Nat) (supply : count ≤ nodes.blocks.length) :
    ∃ next, (List.replicate count ([], true)).foldlM Nodes.enter nodes = some next ∧ Blank next ∧
      next.blocks.length + count = nodes.blocks.length := by
  induction count generalizing nodes with
  | zero => exact ⟨nodes, rfl, blank, rfl⟩
  | succ count ih =>
    obtain ⟨next, first⟩ := blank.enter_isSome (List.ne_nil_of_length_pos (by omega)) ([], true) (by decide)
    obtain ⟨temp, added⟩ := add_added first
    have shorter := congrArg List.length added.blocks
    rw [List.length_cons] at shorter
    obtain ⟨final, later, blank, left⟩ := ih (blank_of_added added) (by omega)
    refine ⟨final, ?_, blank, by omega⟩
    rw [List.replicate_succ, List.foldlM_cons, first]
    exact later

end Blank

/-- The first zero block becomes the last child of `rootfs`, and the others a chain below it. -/
theorem Built.end_isSome {blocks : List Nat} {entries : List Entry} {nodes : Nodes} {count : Nat} {last : Heading}
    (built : Built blocks entries entries.length nodes) (named : Named entries)
    (supply : entries.length + (count + 1) + 1 ≤ blocks.length) (short : last.1.length ≤ 49)
    (root : (attached entries entries.length 0).length < 30) :
    ∃ tree, (List.replicate (count + 1) ([], true) ++ [last]).foldlM Nodes.enter nodes = some tree := by
  have left : nodes.blocks.length = blocks.length - entries.length := by rw [built.rest, List.length_drop]
  have other : ¬ (nodes.node nodes.oldDir).name <+: [] := by
    rw [built.oldDir, built.name _ (lastDirectory_le entries _), List.prefix_nil]
    exact nodeName_ne_nil named (lastDirectory_le entries _)
  obtain ⟨next, first⟩ : ∃ next, nodes.enter ([], true) = some next := by
    rw [Nodes.enter, if_neg other]
    apply add_isSome _ (List.ne_nil_of_length_pos (by omega)) (by decide)
    have children := built.child 0 (Nat.zero_le _)
    change (nodes.node .rootfs).child = _ at children
    rw [children, List.length_map]
    exact root
  obtain ⟨temp, added⟩ := add_added first
  have shorter := congrArg List.length added.blocks
  rw [List.length_cons] at shorter
  obtain ⟨middle, zeros, blank, fewer⟩ := (blank_of_added added).zeros_isSome count (by omega)
  obtain ⟨tree, final⟩ := blank.enter_isSome (List.ne_nil_of_length_pos (by omega)) _ short
  refine ⟨tree, ?_⟩
  rw [List.foldlM_append, List.replicate_succ, List.foldlM_cons, first]
  change ((List.replicate count ([], true)).foldlM Nodes.enter next).bind _ = _
  rw [zeros, Option.bind_some, List.foldlM_cons, final]
  rfl

section Reuse

variable {blocks : List Nat} {m count : Nat} {nodes tree : Nodes}

theorem foldl_enter_supply {hs : List Heading} (rest : nodes.blocks = blocks.drop m) (inside : m ≤ blocks.length)
    (entered : hs.foldlM Nodes.enter nodes = some tree) :
    m + hs.length ≤ blocks.length ∧ tree.blocks = blocks.drop (m + hs.length) := by
  induction hs generalizing m nodes with
  | nil =>
    cases entered
    exact ⟨inside, rest⟩
  | cons heading hs ih =>
    simp only [List.foldlM_cons, Option.bind_eq_bind, Option.bind_eq_some_iff] at entered
    obtain ⟨next, first, later⟩ := entered
    obtain ⟨temp, added⟩ := add_added first
    obtain ⟨more, _, supply⟩ := added.supply rest
    rw [List.length_cons, ← Nat.add_assoc, Nat.add_right_comm]
    exact ih supply more later

/-- The zero blocks take their names away from the blocks that they get. -/
theorem zeros_named (rest : nodes.blocks = blocks.drop m)
    (entered : (List.replicate count ([], true)).foldlM Nodes.enter nodes = some tree) :
    (∀ address, (nodes.node address).name = [] → (tree.node address).name = []) ∧
      (∀ j, m ≤ j → j < m + count → (tree.node (place blocks (j + 1))).name = []) ∧
      (0 < count → tree.oldDir = place blocks (m + count)) := by
  induction count generalizing m nodes with
  | zero =>
    cases entered
    exact ⟨fun _ => id, fun j low high => absurd high (by omega), fun positive => absurd positive (by omega)⟩
  | succ count ih =>
    simp only [List.replicate_succ, List.foldlM_cons, Option.bind_eq_bind, Option.bind_eq_some_iff] at entered
    obtain ⟨next, first, later⟩ := entered
    obtain ⟨temp, added⟩ := add_added first
    obtain ⟨_, here, supply⟩ := added.supply rest
    obtain ⟨kept, named, last⟩ := ih supply later
    have blank : (next.node (place blocks (m + 1))).name = [] := by rw [added.name, if_pos here.symm]
    refine ⟨?_, ?_, ?_⟩
    · intro address unnamed
      apply kept
      rw [added.name]
      split
      · rfl
      · exact unnamed
    · intro j low high
      by_cases new : j = m
      · rw [new]
        exact kept _ blank
      · exact named j (by omega) (by omega)
    · intro _
      by_cases more : 0 < count
      · rw [last more, Nat.add_assoc, Nat.add_comm 1]
      · obtain rfl : count = 0 := by omega
        cases later
        exact added.oldDir.trans here

end Reuse

/-- The headers behind the entries: the zero blocks have no name, and the last header is a child of the last of them. -/
structure Tail (blocks : List Nat) (tree : Nodes) (first last : Nat) : Prop where
  supply : last < blocks.length
  name : ∀ j, first ≤ j → j < last → place blocks (j + 1) ≠ place blocks (last + 1) →
    (tree.node (place blocks (j + 1))).name = []
  child : place blocks (last + 1) ∈ (tree.node (place blocks last)).child

theorem foldl_enter_tail {blocks : List Nat} {entries : List Entry} {count : Nat} {last : Heading} {tree : Nodes}
    (many : 0 < count)
    (entered : (entries.map Entry.heading ++ List.replicate count ([], true) ++ [last]).foldlM Nodes.enter
      (bootNodes blocks) = some tree) : Tail blocks tree entries.length (entries.length + count) := by
  simp only [List.foldlM_append, List.foldlM_cons, List.foldlM_nil, Option.bind_eq_bind, Option.bind_eq_some_iff,
    Option.pure_def, Option.some.injEq] at entered
  obtain ⟨middle, ⟨first, initial, zeros⟩, final, entered, rfl⟩ := entered
  obtain ⟨enough, supply⟩ := foldl_enter_supply (show (bootNodes blocks).blocks = blocks.drop 0 from rfl)
    (Nat.zero_le _) initial
  rw [List.length_map, Nat.zero_add] at enough supply
  obtain ⟨_, unnamed, oldDir⟩ := zeros_named supply zeros
  have rest : middle.blocks = blocks.drop (entries.length + count) := by
    rw [(foldl_enter_supply supply enough zeros).2, List.length_replicate]
  have blank : (middle.node (place blocks (entries.length + count))).name = [] := by
    have last := unnamed (entries.length + count - 1) (by omega) (by omega)
    rwa [Nat.sub_add_cancel (by omega)] at last
  rw [Nodes.enter, oldDir many, blank, if_pos List.nil_prefix] at entered
  obtain ⟨temp, added⟩ := add_added entered
  obtain ⟨inside, here, _⟩ := added.supply rest
  refine ⟨inside, ?_, ?_⟩
  · intro j low high different
    rw [added.name, if_neg (here ▸ different)]
    exact unnamed j low high
  · rw [added.child, if_pos rfl, ← here]
    exact List.mem_append_right _ List.mem_cons_self

section Necessary

variable {blocks : List Nat} {entries : List Entry} {tree : Nodes} (mirrors : Mirrors blocks entries tree)
  (named : Named entries) (depthFirst : DepthFirst entries)

include mirrors depthFirst in
theorem Mirrors.place_inj {i j : Nat} (left : i < entries.length) (right : j < entries.length)
    (same : place blocks (i + 1) = place blocks (j + 1)) : i = j := by
  apply nameAt_inj depthFirst left right
  rw [← (mirrors i left).1, ← (mirrors j right).1, same]

variable {last : Nat} (tail : Tail blocks tree entries.length last) (many : entries.length < last)

include mirrors named tail

/-- A block that an entry shares with a zero block is also that of the last header, or it would have no name. -/
theorem Mirrors.shared {k j : Nat} (early : k < entries.length) (low : entries.length ≤ j) (high : j < last)
    (same : place blocks (k + 1) = place blocks (j + 1)) : place blocks (k + 1) = place blocks (last + 1) := by
  by_contra different
  have name := tail.name j low high (same ▸ different)
  rw [← same, (mirrors k early).1] at name
  exact nodeName_ne_nil named (show k + 1 ≤ entries.length from early) name

include depthFirst many

/-- The last header would be a child of a node that is not the parent of the entry. -/
theorem Mirrors.unshared {k : Nat} (early : k < entries.length) :
    place blocks (k + 1) ≠ place blocks (last + 1) := by
  intro same
  obtain ⟨before, rfl⟩ : ∃ before, last = before + 1 := ⟨last - 1, by omega⟩
  obtain ⟨parent, own, address⟩ := ((mirrors k early).2 _).mp (same ▸ tail.child)
  cases parent with
  | zero => cases address
  | succ directory =>
    have again := mirrors.shared named tail own.1.1 (by omega) (Nat.lt_succ_self _) address.symm
    have twice := mirrors.place_inj depthFirst own.1.1 early (again.trans same.symm)
    exact own.1.2.2.2.2 (by rw [twice])

theorem Mirrors.separate : Separate blocks entries.length (last + 1) := by
  refine ⟨tail.supply, ?_⟩
  intro i early j bound same
  have places : place blocks (i + 1) = place blocks (j + 1) := by
    rw [place, place, List.getD_eq_getElem?_getD, List.getD_eq_getElem?_getD, same]
  have unshared := mirrors.unshared named depthFirst tail many early
  by_cases entry : j < entries.length
  · exact mirrors.place_inj depthFirst early entry places
  · by_cases zero : j < last
    · exact absurd (mirrors.shared named tail early (by omega) zero places) unshared
    · rw [show j = last by omega] at places
      exact absurd places unshared

end Necessary

def headers (start stop : Nat) (entries : List Entry) : Nat :=
  entries.length + (stop - behind start entries) / 512 + 1

section Exact

variable {mem : Memory} {start stop : Nat} {entries : List Entry} (linked : Linked start stop)
  (archive : Archive mem stop start entries) (named : Named entries) (depthFirst : DepthFirst entries)

include linked archive named depthFirst

theorem initTarfs_mirrors_iff {blocks : List Nat} (separate : Separate blocks entries.length blocks.length)
    {tree : Nodes} (executed : initTarfs blocks mem start stop = some tree) :
    Mirrors blocks entries tree ↔ FollowsDirectory entries := by
  rw [initTarfs, walk_tree_entries linked archive named.valid (plain_entries depthFirst) (bootNodes_nulFree blocks)]
    at executed
  obtain ⟨middle, entered, later⟩ := Option.bind_eq_some_iff.mp executed
  have enough := (foldl_enter_supply (show (bootNodes blocks).blocks = blocks.drop 0 from rfl)
    (Nat.zero_le _) entered).1
  rw [List.length_map, Nat.zero_add] at enough
  have distinct : ∀ i ≤ entries.length, ∀ j ≤ entries.length, place blocks i = place blocks j → i = j :=
    fun i left j right => separate.place_inj enough left (right.trans enough)
  have built := (built_zero blocks entries).all_entries List.drop_zero (Nat.zero_le _) distinct entered
  exact ((built.listed distinct).walk separate rfl built.rest later).mirrors_iff depthFirst distinct

theorem initTarfs_separate_iff {blocks : List Nat} (ends : EndsWell mem stop) :
    (∃ tree, initTarfs blocks mem start stop = some tree ∧ Mirrors blocks entries tree) ↔
      FollowsDirectory entries ∧ Separate blocks entries.length (headers start stop entries) := by
  obtain ⟨text, size, string, short, sized, past⟩ := ends
  obtain ⟨⟨count, many, position⟩, _⟩ := archive.end_archive
  have quotient : (stop - behind start entries) / 512 = count := by omega
  rw [initTarfs_eq linked archive named.valid (plain_entries depthFirst) string sized past, headers, headings, quotient]
  generalize last_eq : (text, !decide (0 < size)) = last
  have short : last.1.length ≤ 49 := last_eq ▸ short
  have listed {tree : Nodes} (separate : Separate blocks entries.length (entries.length + count + 1))
      (entered : (entries.map Entry.heading ++ List.replicate count ([], true) ++ [last]).foldlM Nodes.enter
        (bootNodes blocks) = some tree) : Mirrors blocks entries tree ↔ FollowsDirectory entries := by
    have distinct : ∀ i ≤ entries.length, ∀ j ≤ entries.length, place blocks i = place blocks j → i = j :=
      fun i left j right => separate.place_inj (by omega) left (by omega)
    rw [List.append_assoc, List.foldlM_append] at entered
    obtain ⟨middle, initial, later⟩ := Option.bind_eq_some_iff.mp entered
    have built := (built_zero blocks entries).all_entries List.drop_zero (Nat.zero_le _) distinct initial
    refine ((built.listed distinct).headings separate built.rest (Nat.le_refl _) ?_ later).mirrors_iff depthFirst
      distinct
    rw [List.length_append, List.length_replicate, List.length_singleton, Nat.add_assoc]
  constructor
  · rintro ⟨tree, entered, mirrors⟩
    have separate := mirrors.separate named depthFirst (foldl_enter_tail (by omega) entered) (by omega)
    exact ⟨(listed separate entered).mp mirrors, separate⟩
  · rintro ⟨follows, separate⟩
    have enough := separate.enough
    have distinct : ∀ i ≤ entries.length, ∀ j ≤ entries.length, place blocks i = place blocks j → i = j :=
      fun i left j right => separate.place_inj (by omega) left (by omega)
    have room : RoomFrom entries 0 := by
      intro j _ inside
      have low := attachedTo_le entries j
      exact Nat.lt_succ_of_le (attached_length depthFirst follows (Nat.le_of_lt inside) (by omega))
    obtain ⟨middle, initial⟩ := (built_zero blocks entries).all_isSome List.drop_zero (Nat.zero_le _) (by omega) named
      distinct room
    have built := (built_zero blocks entries).all_entries List.drop_zero (Nat.zero_le _) distinct initial
    obtain ⟨more, rfl⟩ : ∃ more, count = more + 1 := ⟨count - 1, by omega⟩
    obtain ⟨tree, final⟩ := built.end_isSome named enough short
      (Nat.lt_succ_of_le (attached_length depthFirst follows (Nat.le_refl _) (Nat.zero_le _)))
    have entered : (entries.map Entry.heading ++ List.replicate (more + 1) ([], true) ++ [last]).foldlM Nodes.enter
        (bootNodes blocks) = some tree := by
      rw [List.append_assoc, List.foldlM_append, initial]
      exact final
    exact ⟨tree, entered, (listed separate entered).mpr follows⟩

omit linked named depthFirst in
theorem boot_not_separate {blocks : List Nat} {heap after : Heap.Arena} (empty : heap.base = none)
    (returned : Heap.subMallocs heap 304 (headers start stop entries) = some (blocks, after)) (some : entries ≠ []) :
    ¬ Separate blocks entries.length (headers start stop entries) := by
  intro separate
  obtain ⟨⟨count, many, position⟩, _⟩ := archive.end_archive
  have quotient : (stop - behind start entries) / 512 = count := by omega
  have positive := List.length_pos_of_ne_nil some
  obtain ⟨more, twice⟩ : ∃ more, headers start stop entries = more + 2 :=
    ⟨entries.length + count - 1, by rw [headers, quotient]; omega⟩
  rw [twice] at returned separate
  have same := separate.once 0 positive 1 (by omega) (Heap.subMallocs_repeat empty returned)
  cases same

/-- The tree mirrors the archive exactly where the last directory before an entry contains it or none does, and
    `sub_malloc` returns no block of an entry twice, as it does while the heap is empty. -/
theorem tree_mirrors_iff (blocks : List Nat) :
    (Separate blocks entries.length blocks.length → ∀ tree, initTarfs blocks mem start stop = some tree →
        (Mirrors blocks entries tree ↔ FollowsDirectory entries)) ∧
      (EndsWell mem stop →
        ((∃ tree, initTarfs blocks mem start stop = some tree ∧ Mirrors blocks entries tree) ↔
          FollowsDirectory entries ∧ Separate blocks entries.length (headers start stop entries))) ∧
      ∀ heap after, heap.base = none →
        Heap.subMallocs heap 304 (headers start stop entries) = some (blocks, after) → entries ≠ [] →
          ¬ Separate blocks entries.length (headers start stop entries) :=
  ⟨fun separate _ executed => initTarfs_mirrors_iff linked archive named depthFirst separate executed,
    fun ends => initTarfs_separate_iff linked archive named depthFirst ends,
    fun _ _ empty returned some => boot_not_separate archive empty returned some⟩

end Exact

theorem named_of_bounds {entries : List Entry} (bounds : ∀ entry ∈ entries, entry.name ≠ [] ∧
    entry.name.length ≤ 49 ∧ (∀ character ∈ entry.name, character ≠ 0) ∧ entry.size < 2 ^ 31) : Named entries where
  valid entry member := by
    obtain ⟨nonempty, short, noNul, size⟩ := bounds entry member
    exact ⟨nonempty, by omega, noNul, size⟩
  short entry member := (bounds entry member).2.1

theorem image_endsWell {start : Nat} {entries : List Entry} (below : behind start entries + 1536 < 2 ^ 64) :
    EndsWell (image start entries) (behind start entries + 1024) := by
  refine ⟨[], 0, cString_of_zero (image_behind (by omega)), by decide, myAtool_of_zero (image_behind (by omega)), ?_⟩
  exact nextHeader_end (by omega)

def imageStart : Nat := 0xFFFFFFFF80200000

def shallowEntries : List Entry := [⟨[100, 47], 0⟩, ⟨[100, 47, 102], 1⟩, ⟨[103], 1⟩]

theorem shallow_named : Named shallowEntries := named_of_bounds (by decide)

theorem shallow_linked : Linked imageStart (behind imageStart shallowEntries + 1024) := ⟨by decide, by decide⟩

theorem shallow_depthFirst : DepthFirst shallowEntries := by
  have precedes : ∀ j < 3, ∀ k < 3, Contains shallowEntries j k → j < k := by decide
  exact ⟨by decide, by decide, fun j k contained => precedes j contained.1 k contained.2.1 contained, by decide,
    by decide⟩

def pageBlocks : List Nat := Heap.parts 0xFFFFFFFF80400010 336 6

theorem shallow_tree_mirrors :
    ∃ tree, initTarfs pageBlocks (image imageStart shallowEntries) imageStart
        (behind imageStart shallowEntries + 1024) = some tree ∧ Mirrors pageBlocks shallowEntries tree := by
  have follows : FollowsDirectory shallowEntries := by
    unfold FollowsDirectory
    decide
  have separate : Separate pageBlocks 3 6 := ⟨by decide, by decide⟩
  exact ((tree_mirrors_iff shallow_linked (image_archive imageStart shallow_named.valid) shallow_named
    shallow_depthFirst pageBlocks).2.1 (image_endsWell (by decide))).mpr ⟨follows, separate⟩

def nestedEntries : List Entry := [⟨[100, 47], 0⟩, ⟨[100, 47, 101, 47], 0⟩, ⟨[100, 47, 102], 1⟩]

theorem initTarfs_image {start : Nat} {entries : List Entry} (named : Named entries)
    (linked : Linked start (behind start entries + 1024)) (plain : ∀ entry ∈ entries, Overshoots entry.size = false)
    (blocks : List Nat) : initTarfs blocks (image start entries) start (behind start entries + 1024) =
      (entries.map Entry.heading ++ List.replicate 3 ([], true)).foldlM Nodes.enter (bootNodes blocks) := by
  have high := linked.high
  have zero (m : Nat) (past : behind start entries ≤ m) : image start entries m = 0 := image_behind past
  rw [initTarfs_eq linked (image_archive start named.valid) named.valid plain (cString_of_zero (zero _ (by omega)))
    (myAtool_of_zero (zero _ (by omega))) (nextHeader_end (by omega)), headings, Nat.add_sub_cancel_left]
  rw [List.append_assoc]
  rfl

/-- The blocks of the first page of an empty heap. The first of them is returned twice. -/
def bootBlocks : List Nat := 0xFFFFFFFF80400010 :: Heap.parts 0xFFFFFFFF80400010 336 5

def bootHeap : Heap.Arena := (Heap.boot (fun _ => 0) ⟨0xFFFFFFFF803FF000, 0⟩).heap

theorem bootHeap_empty : bootHeap.base = none := rfl

theorem bootHeap_blocks : ∃ after, Heap.subMallocs bootHeap 304 6 = some (bootBlocks, after) :=
  Heap.boot_subMallocs (fun _ => 0) 3 (by decide) (by decide)

/-- The file that follows a subdirectory becomes a child of `rootfs`. -/
theorem sibling_of_subdirectory_misplaced :
    ¬ ∀ heap blocks after mem start stop entries, heap.base = none →
      Heap.subMallocs heap 304 (headers start stop entries) = some (blocks, after) → Linked start stop →
      Archive mem stop start entries → Named entries → DepthFirst entries →
      ∀ tree, initTarfs blocks mem start stop = some tree → Mirrors blocks entries tree := by
  intro every
  have named : Named nestedEntries := named_of_bounds (by decide)
  have depthFirst : DepthFirst nestedEntries := by
    have precedes : ∀ j < 3, ∀ k < 3, Contains nestedEntries j k → j < k := by decide
    exact ⟨by decide, by decide, fun j k contained => precedes j contained.1 k contained.2.1 contained, by decide,
      by decide⟩
  have linked : Linked imageStart (behind imageStart nestedEntries + 1024) := ⟨by decide, by decide⟩
  have root : (initTarfs bootBlocks (image imageStart nestedEntries) imageStart
      (behind imageStart nestedEntries + 1024)).map (fun tree => (tree.node .rootfs).child) =
      some [place bootBlocks 1, place bootBlocks 3, place bootBlocks 4] := by
    rw [initTarfs_image named linked (by decide)]
    decide
  obtain ⟨tree, executed, child⟩ := Option.map_eq_some_iff.mp root
  obtain ⟨after, returned⟩ := bootHeap_blocks
  have rounds : headers imageStart (behind imageStart nestedEntries + 1024) nestedEntries = 6 := by decide
  rw [← rounds] at returned
  have mirrors := every _ _ after _ _ _ _ bootHeap_empty returned linked (image_archive imageStart named.valid) named
    depthFirst tree executed
  obtain ⟨parent, own, same⟩ := ((mirrors 2 (by decide)).2 .rootfs).mp (by rw [child]; decide)
  cases parent with
  | zero =>
    revert own
    decide
  | succ parent => cases same

end Sbunix.Tarfs
