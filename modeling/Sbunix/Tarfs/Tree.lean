import Sbunix.Tarfs.Image

namespace Sbunix.Tarfs

open Library

/-- The address of a `struct fs_tree`: `rootfs` is a variable of the kernel, and the others are blocks of the heap. -/
inductive Node where
  | rootfs
  | block (address : Nat)
deriving DecidableEq

/-- The name and the first `no_child` children. The others are null. -/
structure FsTree where
  name : List (BitVec 8)
  child : List Node

structure Nodes where
  node : Node → FsTree
  oldDir : Node
  /-- What the next calls of `sub_malloc` return, whether or not it is in use. -/
  blocks : List Nat

def rootName : List (BitVec 8) := [114, 111, 111, 116, 102, 115, 47]

/-- The first `strlen(src)` characters are compared. -/
def strncmp (mem : Memory) : List (BitVec 8) → Nat → Bool
  | [], _ => false
  | character :: src, dst => if character = mem dst then strncmp mem src (dst + 1) else true

def bootNodes (blocks : List Nat) : Nodes where
  node address := ⟨if address = .rootfs then rootName else [], []⟩
  oldDir := .rootfs
  blocks := blocks

def Nodes.tempRt (mem : Memory) (nodes : Nodes) (header : Nat) : Node :=
  if strncmp mem (nodes.node nodes.oldDir).name header = false then nodes.oldDir else .rootfs

/-- The block is cleared and named, and then it is the next child of `tempRt`. There is no result where the name or the
    child does not fit, and where `sub_malloc` does not return. -/
def Nodes.add (nodes : Nodes) (tempRt : Node) (name : List (BitVec 8)) (directory : Bool) : Option Nodes :=
  match nodes.blocks with
  | [] => none
  | temp :: blocks =>
    let node := Function.update nodes.node (.block temp) ⟨name, []⟩
    if name.length < 50 ∧ (node tempRt).child.length < 30 then
      some ⟨Function.update node tempRt ⟨(node tempRt).name, (node tempRt).child ++ [.block temp]⟩,
        if directory then .block temp else nodes.oldDir, blocks⟩
    else none

def treeVisit (mem : Memory) (nodes : Nodes) (header : Nat) : Option (Nodes × Bool) := do
  let tempRt := nodes.tempRt mem header
  let size ← myAtool mem (header + sizeField)
  let name ← cString mem header
  let attached := if 0 < size then nodes.add tempRt name false else nodes.add tempRt name true
  attached.map fun nodes => (nodes, false)

def initTarfs (blocks : List Nat) (mem : Memory) (start stop : Nat) : Option Nodes :=
  walkArchive mem stop (treeVisit mem) (bootNodes blocks) start

structure Added (nodes next : Nodes) (tempRt : Node) (name : List (BitVec 8)) (directory : Bool) (temp : Nat) :
    Prop where
  blocks : nodes.blocks = temp :: next.blocks
  oldDir : next.oldDir = if directory then .block temp else nodes.oldDir
  name : ∀ address, (next.node address).name = if address = .block temp then name else (nodes.node address).name
  child : ∀ address, (next.node address).child =
    (if address = .block temp then [] else (nodes.node address).child) ++ if address = tempRt then [.block temp] else []
  room : (next.node tempRt).child.length ≤ 30

theorem add_added {nodes next : Nodes} {tempRt : Node} {name : List (BitVec 8)} {directory : Bool}
    (executed : nodes.add tempRt name directory = some next) : ∃ temp, Added nodes next tempRt name directory temp := by
  unfold Nodes.add at executed
  split at executed
  · cases executed
  · rename_i temp blocks supply
    dsimp only at executed
    split at executed
    · rename_i fits
      cases executed
      refine ⟨temp, supply, rfl, ?_, ?_, ?_⟩
      · intro address
        dsimp only
        by_cases parent : address = tempRt
        · subst parent
          rw [Function.update_self, Function.update_apply]
          split <;> rfl
        · rw [Function.update_of_ne parent, Function.update_apply]
          split <;> rfl
      · intro address
        dsimp only
        by_cases parent : address = tempRt
        · subst parent
          rw [Function.update_self, Function.update_apply, if_pos rfl]
          split <;> rfl
        · rw [Function.update_of_ne parent, Function.update_apply, if_neg parent, List.append_nil]
          split <;> rfl
      · dsimp only
        rw [Function.update_self, List.length_append]
        exact fits.2
    · cases executed

theorem add_isSome {nodes : Nodes} {tempRt : Node} {name : List (BitVec 8)} (directory : Bool)
    (supply : nodes.blocks ≠ []) (short : name.length < 50) (room : (nodes.node tempRt).child.length < 30) :
    ∃ next, nodes.add tempRt name directory = some next := by
  obtain ⟨temp, blocks, split⟩ := List.exists_cons_of_ne_nil supply
  have cleared : (Function.update nodes.node (.block temp) ⟨name, []⟩ tempRt).child.length < 30 := by
    rw [Function.update_apply]
    split
    · exact Nat.zero_lt_succ _
    · exact room
  unfold Nodes.add
  rw [split]
  dsimp only
  rw [if_pos ⟨short, cleared⟩]
  exact ⟨_, rfl⟩

/-- Every round that has a result adds one node. -/
theorem treeVisit_cases {mem : Memory} {nodes : Nodes} {header : Nat} {result : Nodes × Bool}
    (visited : treeVisit mem nodes header = some result) :
    ∃ name directory next, cString mem header = some name ∧
      nodes.add (nodes.tempRt mem header) name directory = some next ∧ result = (next, false) := by
  simp only [treeVisit, Option.bind_eq_bind, Option.bind_eq_some_iff, Option.map_eq_some_iff] at visited
  obtain ⟨size, _, name, string, next, added, rfl⟩ := visited
  split at added
  · exact ⟨name, false, next, string, added, rfl⟩
  · exact ⟨name, true, next, string, added, rfl⟩

theorem walk_tree_invariant (Invariant : Nodes → Prop) {mem : Memory} {stop : Nat}
    (preserved : ∀ nodes next tempRt name directory temp, Invariant nodes →
      Added nodes next tempRt name directory temp → Invariant next)
    {nodes tree : Nodes} {header : Nat} (initial : Invariant nodes)
    (walked : walkArchive mem stop (treeVisit mem) nodes header = some tree) : Invariant tree := by
  have all : ∀ nodes header tree, walkArchive mem stop (treeVisit mem) nodes header = some tree →
      Invariant nodes → Invariant tree := by
    apply Memory.walkArchive.partial_correctness
    intro recurse ih nodes header tree walked initial
    split at walked
    · simp only [Option.bind_eq_bind, Option.bind_eq_some_iff] at walked
      obtain ⟨result, visited, rest⟩ := walked
      obtain ⟨name, directory, next, _, executed, rfl⟩ := treeVisit_cases visited
      obtain ⟨temp, added⟩ := add_added executed
      simp only [Bool.false_eq_true, if_false, Option.bind_eq_some_iff] at rest
      obtain ⟨size, _, later⟩ := rest
      exact ih _ _ _ later (preserved nodes next _ name directory temp initial added)
    · cases walked
      exact initial
  exact all nodes header tree walked initial

abbrev Heading := List (BitVec 8) × Bool

def Nodes.enter (nodes : Nodes) (heading : Heading) : Option Nodes :=
  nodes.add (if (nodes.node nodes.oldDir).name <+: heading.1 then nodes.oldDir else .rootfs) heading.1 heading.2

def Nodes.NulFree (nodes : Nodes) : Prop := ∀ address, ∀ character ∈ (nodes.node address).name, character ≠ 0

theorem bootNodes_nulFree (blocks : List Nat) : (bootNodes blocks).NulFree := by
  intro address
  change ∀ character ∈ if address = .rootfs then rootName else [], character ≠ 0
  split
  · decide
  · exact fun _ member => absurd member List.not_mem_nil

theorem Added.nulFree {nodes next : Nodes} {tempRt : Node} {name : List (BitVec 8)} {directory : Bool} {temp : Nat}
    (added : Added nodes next tempRt name directory temp) (nulFree : nodes.NulFree)
    (string : ∀ character ∈ name, character ≠ 0) : next.NulFree := by
  intro address
  rw [added.name]
  split
  · exact string
  · exact nulFree address

theorem strncmp_eq_false {mem : Memory} {header : Nat} {src name : List (BitVec 8)}
    (string : cString mem header = some name) (noNul : ∀ character ∈ src, character ≠ 0) :
    strncmp mem src header = false ↔ src <+: name := by
  induction src generalizing header name with
  | nil => exact iff_of_true rfl List.nil_prefix
  | cons character src ih =>
    have nonzero := noNul character List.mem_cons_self
    rw [strncmp]
    rw [cString] at string
    split at string
    · rename_i ended
      cases string
      rw [ended, if_neg nonzero]
      simp
    · simp only [Option.bind_eq_bind, Option.bind_eq_some_iff, Option.pure_def, Option.some.injEq] at string
      obtain ⟨rest, later, rfl⟩ := string
      rw [List.cons_prefix_cons, ← ih later fun other member => noNul other (List.mem_cons_of_mem _ member)]
      by_cases same : character = mem header
      · simp [same]
      · simp [same]

theorem treeVisit_eq {mem : Memory} {nodes : Nodes} {header : Nat} {size : BitVec 32} {name : List (BitVec 8)}
    (nulFree : nodes.NulFree) (sized : myAtool mem (header + sizeField) = some size)
    (string : cString mem header = some name) :
    treeVisit mem nodes header = (nodes.enter (name, !decide (0 < size))).map fun next => (next, false) := by
  have parent : nodes.tempRt mem header =
      if (nodes.node nodes.oldDir).name <+: name then nodes.oldDir else .rootfs := by
    rw [Nodes.tempRt]
    simp only [strncmp_eq_false string (nulFree nodes.oldDir)]
  rw [treeVisit, sized, string, Nodes.enter, parent]
  simp only [Option.bind_eq_bind, Option.bind_some]
  by_cases positive : 0 < size
  · rw [if_pos positive, decide_eq_true positive]
    rfl
  · rw [if_neg positive, decide_eq_false positive]
    rfl

section Walk

variable {mem : Memory} {stop : Nat}

theorem walk_enter {nodes : Nodes} {header : Nat} {size : BitVec 32} {name : List (BitVec 8)} (inside : header ≤ stop)
    (nulFree : nodes.NulFree) (sized : myAtool mem (header + sizeField) = some size)
    (string : cString mem header = some name) :
    walkArchive mem stop (treeVisit mem) nodes header = (nodes.enter (name, !decide (0 < size))).bind fun next =>
      walkArchive mem stop (treeVisit mem) next (nextHeader header size) := by
  have visited := treeVisit_eq nulFree sized string
  cases entered : nodes.enter (name, !decide (0 < size)) with
  | none =>
    rw [entered] at visited
    exact walkArchive_stuck inside visited
  | some next =>
    rw [entered] at visited
    exact walkArchive_step inside visited sized

theorem enter_nulFree {nodes next : Nodes} {heading : Heading} (nulFree : nodes.NulFree)
    (string : ∀ character ∈ heading.1, character ≠ 0) (entered : nodes.enter heading = some next) : next.NulFree := by
  obtain ⟨_, added⟩ := add_added entered
  exact added.nulFree nulFree string

def Entry.heading (entry : Entry) : Heading := (entry.name, entry.size = 0)

theorem Entry.Valid.heading_eq {entry : Entry} (valid : entry.Valid) :
    (entry.name, !decide (0 < BitVec.ofNat 32 entry.size)) = entry.heading := by
  by_cases empty : entry.size = 0
  · rw [Entry.heading, empty]
    rfl
  · rw [Entry.heading, decide_eq_true (valid.size_pos (Nat.pos_of_ne_zero empty)), decide_eq_false empty]
    rfl

theorem walk_tree_entries {nodes : Nodes} {address : Nat} {entries : List Entry} (linked : Linked address stop)
    (archive : Archive mem stop address entries) (valid : ∀ entry ∈ entries, entry.Valid)
    (plain : ∀ entry ∈ entries, Overshoots entry.size = false) (nulFree : nodes.NulFree) :
    walkArchive mem stop (treeVisit mem) nodes address =
      ((entries.map Entry.heading).foldlM Nodes.enter nodes).bind fun next =>
        walkArchive mem stop (treeVisit mem) next (behind address entries) := by
  induction entries generalizing nodes address with
  | nil => rfl
  | cons entry entries ih =>
    have first := valid entry List.mem_cons_self
    have room := archive.2.below
    have low := linked.low
    have later : Linked (after address entry) stop := ⟨by unfold after; omega, linked.high⟩
    have before : address ≤ stop := by
      unfold after at room
      omega
    have next := archive.2.nextHeader linked
    rw [plain entry List.mem_cons_self] at next
    rw [walk_enter before nulFree (archive.1.size first) (archive.1.string first), first.heading_eq, next,
      List.map_cons, List.foldlM_cons, Option.bind_eq_bind, Option.bind_assoc]
    refine Option.bind_congr ?_
    intro tree entered
    exact ih later archive.2 (fun other member => valid other (List.mem_cons_of_mem _ member))
      (fun other member => plain other (List.mem_cons_of_mem _ member)) (enter_nulFree nulFree first.noNul entered)

theorem walk_tree_zeros {nodes : Nodes} {header blocks : Nat} (below : stop + 512 < 2 ^ 64)
    (last : stop = header + 512 * blocks) (zeros : ∀ m, header ≤ m → m < stop → mem m = 0) (nulFree : nodes.NulFree) :
    walkArchive mem stop (treeVisit mem) nodes header =
      ((List.replicate blocks ([], true)).foldlM Nodes.enter nodes).bind fun next =>
        walkArchive mem stop (treeVisit mem) next stop := by
  induction blocks generalizing nodes header with
  | zero =>
    rw [show stop = header from last]
    rfl
  | succ blocks ih =>
    have first : mem header = 0 := zeros header (Nat.le_refl _) (by omega)
    have sized : myAtool mem (header + sizeField) = some 0 :=
      myAtool_of_zero (zeros (header + 124) (by omega) (by omega))
    rw [walk_enter (by omega) nulFree sized (cString_of_zero first), nextHeader_zero (by omega), List.replicate_succ,
      List.foldlM_cons, Option.bind_eq_bind, Option.bind_assoc]
    refine Option.bind_congr ?_
    intro tree entered
    exact ih (by omega) (fun m low high => zeros m (by omega) high)
      (enter_nulFree nulFree (fun _ member => absurd member List.not_mem_nil) entered)

/-- The block behind the image reads as a header that fits into a node and that no header follows. -/
def EndsWell (mem : Memory) (stop : Nat) : Prop :=
  ∃ text size, cString mem stop = some text ∧ text.length ≤ 49 ∧ myAtool mem (stop + sizeField) = some size ∧
    stop < nextHeader stop size

theorem foldl_enter_nulFree {headings : List Heading} {nodes tree : Nodes} (nulFree : nodes.NulFree)
    (strings : ∀ heading ∈ headings, ∀ character ∈ heading.1, character ≠ 0)
    (entered : headings.foldlM Nodes.enter nodes = some tree) : tree.NulFree := by
  induction headings generalizing nodes with
  | nil =>
    cases entered
    exact nulFree
  | cons heading headings ih =>
    simp only [List.foldlM_cons, Option.bind_eq_bind, Option.bind_eq_some_iff] at entered
    obtain ⟨next, first, rest⟩ := entered
    exact ih (enter_nulFree nulFree (strings heading List.mem_cons_self) first)
      (fun other member => strings other (List.mem_cons_of_mem _ member)) rest

end Walk

theorem Archive.end_archive {mem : Memory} {address stop : Nat} {entries : List Entry}
    (archive : Archive mem stop address entries) : Archive mem stop (behind address entries) [] := by
  induction entries generalizing address with
  | nil => exact archive
  | cons entry entries ih => exact ih archive.2

/-- The headers that the loop reads: those of the entries, the zero blocks, and the one behind the image. -/
def headings (start stop : Nat) (entries : List Entry) (last : Heading) : List Heading :=
  entries.map Entry.heading ++ List.replicate ((stop - behind start entries) / 512) ([], true) ++ [last]

theorem initTarfs_eq {mem : Memory} {start stop : Nat} {entries : List Entry} {text : List (BitVec 8)}
    {size : BitVec 32}
    (linked : Linked start stop) (archive : Archive mem stop start entries) (valid : ∀ entry ∈ entries, entry.Valid)
    (plain : ∀ entry ∈ entries, Overshoots entry.size = false) (string : cString mem stop = some text)
    (sized : myAtool mem (stop + sizeField) = some size) (past : stop < nextHeader stop size) (blocks : List Nat) :
    initTarfs blocks mem start stop =
      (headings start stop entries (text, !decide (0 < size))).foldlM Nodes.enter (bootNodes blocks) := by
  obtain ⟨⟨count, many, last⟩, zeros⟩ := archive.end_archive
  have quotient : (stop - behind start entries) / 512 = count := by omega
  have strings : ∀ heading ∈ entries.map Entry.heading, ∀ character ∈ heading.1, character ≠ 0 := by
    intro heading member
    obtain ⟨entry, listed, rfl⟩ := List.mem_map.mp member
    exact (valid entry listed).noNul
  rw [initTarfs, walk_tree_entries linked archive valid plain (bootNodes_nulFree blocks), headings, quotient,
    List.foldlM_append, List.foldlM_append, Option.bind_eq_bind, Option.bind_assoc]
  refine Option.bind_congr ?_
  intro middle entered
  have nulFree := foldl_enter_nulFree (bootNodes_nulFree blocks) strings entered
  rw [walk_tree_zeros linked.high last zeros nulFree]
  refine Option.bind_congr ?_
  intro tree blank
  have ended := foldl_enter_nulFree nulFree (fun heading member => by
    rw [List.eq_of_mem_replicate member]
    exact fun _ absent => absurd absent List.not_mem_nil) blank
  rw [walk_enter (Nat.le_refl _) ended sized string, List.foldlM_cons, Option.bind_eq_bind]
  refine Option.bind_congr ?_
  intro final _
  exact walkArchive_end past

end Sbunix.Tarfs
