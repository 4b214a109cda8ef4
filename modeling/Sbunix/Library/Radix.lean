import Mathlib.Data.List.Induction

namespace Library

/-- Tables of entries in a memory. An entry leads to a further table or to none. -/
structure Radix (Address Word Table Index : Type) where
  slot : Table → Index → Address
  decode : Word → Option Table
  slot_injective : ∀ {left right : Table} {i j : Index}, slot left i = slot right j → left = right ∧ i = j

namespace Radix

variable {Address Word Table Index : Type} (radix : Radix Address Word Table Index)

def descend (memory : Address → Word) (root : Table) (path : List Index) : Option Table :=
  path.foldlM (fun table i => radix.decode (memory (radix.slot table i))) root

def Tree (Valid : List Index → Prop) (memory : Address → Word) (root : Table) : Prop :=
  ∀ left right table, Valid left → Valid right → radix.descend memory root left = some table →
    radix.descend memory root right = some table → left = right

variable {radix} {Valid : List Index → Prop} {memory changed : Address → Word} {root : Table}

@[simp] theorem descend_nil : radix.descend memory root [] = some root := rfl

theorem descend_concat (path : List Index) (i : Index) :
    radix.descend memory root (path ++ [i]) =
      (radix.descend memory root path).bind fun table => radix.decode (memory (radix.slot table i)) := by
  simp only [descend, List.foldlM_append, List.foldlM_cons, List.foldlM_nil, Option.bind_eq_bind]
  cases path.foldlM (fun table i => radix.decode (memory (radix.slot table i))) root with
  | none => rfl
  | some table =>
    simp only [Option.bind_some]
    cases radix.decode (memory (radix.slot table i)) <;> rfl

theorem descend_cons (i : Index) (path : List Index) :
    radix.descend memory root (i :: path) =
      (radix.decode (memory (radix.slot root i))).bind fun table => radix.descend memory table path := by
  simp only [descend, List.foldlM_cons, Option.bind_eq_bind]

theorem descend_congr {path : List Index}
    (kept : ∀ parent i table, parent ++ [i] <+: path → radix.descend memory root parent = some table →
      radix.decode (changed (radix.slot table i)) = radix.decode (memory (radix.slot table i))) :
    radix.descend changed root path = radix.descend memory root path := by
  induction path using List.reverseRecOn with
  | nil => rfl
  | append_singleton path i ih =>
    have shorter := ih fun parent j table inside =>
      kept parent j table (inside.trans (List.prefix_append path [i]))
    rw [descend_concat, descend_concat, shorter]
    cases found : radix.descend memory root path with
    | none => rfl
    | some table => exact kept path i table (List.prefix_refl _) found

theorem Tree.congr (tree : radix.Tree Valid memory root)
    (descend : ∀ path, Valid path → radix.descend changed root path = radix.descend memory root path) :
    radix.Tree Valid changed root := by
  intro left right found leftValid rightValid leftFound rightFound
  rw [descend left leftValid] at leftFound
  rw [descend right rightValid] at rightFound
  exact tree left right found leftValid rightValid leftFound rightFound

theorem descend_decode {path parent : List Index} {i : Index} {table found : Table}
    (reached : radix.descend memory root path = some found) (inside : parent ++ [i] <+: path)
    (parent_reached : radix.descend memory root parent = some table) :
    radix.decode (memory (radix.slot table i)) ≠ none := by
  intro ended
  obtain ⟨rest, rfl⟩ := inside
  have stopped : radix.descend memory root (parent ++ [i]) = none := by
    rw [descend_concat, parent_reached, Option.bind_some, ended]
  rw [descend, List.foldlM_append] at reached
  rw [descend] at stopped
  rw [stopped] at reached
  cases reached

theorem descend_shorter {path parent : List Index} (reached : radix.descend memory root path ≠ none)
    (inside : parent <+: path) : radix.descend memory root parent ≠ none := by
  intro ended
  obtain ⟨rest, rfl⟩ := inside
  rw [descend, List.foldlM_append] at reached
  rw [descend] at ended
  rw [ended] at reached
  exact reached rfl

def leaf {Leaf : Type} (radix : Radix Address Word Table Index) (view : Word → Option Leaf)
    (memory : Address → Word) (root : Table) (path : List Index) (i : Index) : Option Leaf :=
  (radix.descend memory root path).bind fun table => view (memory (radix.slot table i))

/-- A fresh table without entries has been put under an unused entry, and nothing else has changed. -/
structure Grown (radix : Radix Address Word Table Index) (memory changed : Address → Word) (table : Table)
    (i : Index) (fresh : Table) : Prop where
  unset : radix.decode (memory (radix.slot table i)) = none
  set : radix.decode (changed (radix.slot table i)) = some fresh
  empty : ∀ j, radix.decode (changed (radix.slot fresh j)) = none
  kept : ∀ other j, other ≠ fresh → ¬ (other = table ∧ j = i) →
    changed (radix.slot other j) = memory (radix.slot other j)

/-- A fresh table has been put under the entry `i` of a table. Where a path goes on from it, it is without entries. -/
structure Attached (radix : Radix Address Word Table Index) (Valid : List Index → Prop)
    (memory changed : Address → Word) (parent : List Index) (table : Table) (i : Index) (fresh : Table) : Prop where
  unset : radix.decode (memory (radix.slot table i)) = none
  set : radix.decode (changed (radix.slot table i)) = some fresh
  empty : ∀ j, Valid (parent ++ [i] ++ [j]) → radix.decode (changed (radix.slot fresh j)) = none
  kept : ∀ other j, other ≠ fresh → ¬ (other = table ∧ j = i) →
    changed (radix.slot other j) = memory (radix.slot other j)

theorem Grown.attached {table fresh : Table} {i : Index} (grown : radix.Grown memory changed table i fresh)
    (parent : List Index) : radix.Attached Valid memory changed parent table i fresh :=
  ⟨grown.unset, grown.set, fun j _ => grown.empty j, grown.kept⟩

section Attach

variable [DecidableEq Index] {parent : List Index} {i : Index} {table fresh : Table}
  (closed : ∀ path i, Valid (path ++ [i]) → Valid path) (tree : radix.Tree Valid memory root)
  (valid : Valid parent) (reached : radix.descend memory root parent = some table)
  (unused : ∀ path, Valid path → radix.descend memory root path ≠ some fresh)
  (attached : radix.Attached Valid memory changed parent table i fresh)

include closed tree valid reached unused attached

/-- A new table adds its own path and changes no other. -/
theorem descend_attach {path : List Index} (path_valid : Valid path) :
    radix.descend changed root path =
      if path = parent ++ [i] then some fresh else radix.descend memory root path := by
  induction path using List.reverseRecOn with
  | nil => simp
  | append_singleton path j ih =>
    have shorter := closed path j path_valid
    rw [descend_concat, ih shorter]
    by_cases here : path = parent ++ [i]
    · subst here
      have longer : parent ++ [i] ++ [j] ≠ parent ++ [i] := by simp
      rw [if_pos rfl, if_neg longer, Option.bind_some, attached.empty j path_valid, descend_concat, descend_concat,
        reached, Option.bind_some, attached.unset]
      rfl
    · rw [if_neg here]
      cases found : radix.descend memory root path with
      | none =>
        have elsewhere : path ++ [j] ≠ parent ++ [i] := by
          intro same
          obtain ⟨rfl, _⟩ := List.append_inj' same rfl
          rw [found] at reached
          cases reached
        rw [if_neg elsewhere, descend_concat, found]
        rfl
      | some other =>
        by_cases same : path ++ [j] = parent ++ [i]
        · obtain ⟨rfl, last⟩ := List.append_inj' same rfl
          cases last
          cases found.symm.trans reached
          rw [if_pos rfl, Option.bind_some, attached.set]
        · rw [if_neg same, descend_concat, found, Option.bind_some, Option.bind_some]
          apply congrArg radix.decode
          apply attached.kept other j
          · intro equal
            exact unused path shorter (equal ▸ found)
          · intro equal
            obtain ⟨rfl, rfl⟩ := equal
            cases tree path parent other shorter valid found reached
            exact same rfl

theorem Tree.attach : radix.Tree Valid changed root := by
  intro left right found leftValid rightValid leftFound rightFound
  rw [descend_attach closed tree valid reached unused attached leftValid] at leftFound
  rw [descend_attach closed tree valid reached unused attached rightValid] at rightFound
  split at leftFound
  · rename_i leftNew
    split at rightFound
    · rename_i rightNew
      rw [leftNew, rightNew]
    · cases leftFound
      exact absurd rightFound (unused right rightValid)
  · split at rightFound
    · cases rightFound
      exact absurd leftFound (unused left leftValid)
    · exact tree left right found leftValid rightValid leftFound rightFound

end Attach

section Grow

variable [DecidableEq Index] {parent : List Index} {i : Index} {table fresh : Table}
  (closed : ∀ path i, Valid (path ++ [i]) → Valid path) (tree : radix.Tree Valid memory root)
  (valid : Valid parent) (reached : radix.descend memory root parent = some table)
  (unused : ∀ path, Valid path → radix.descend memory root path ≠ some fresh)
  (grown : radix.Grown memory changed table i fresh)

include closed tree valid reached unused grown

theorem descend_grow {path : List Index} (path_valid : Valid path) :
    radix.descend changed root path =
      if path = parent ++ [i] then some fresh else radix.descend memory root path :=
  descend_attach closed tree valid reached unused (grown.attached parent) path_valid

theorem Tree.grow : radix.Tree Valid changed root :=
  tree.attach closed valid reached unused (grown.attached parent)

/-- A new table shows no leaf, and hides none. -/
theorem leaf_grow {Leaf : Type} {view : Word → Option Leaf}
    (hidden : ∀ j, view (changed (radix.slot fresh j)) = none) {path : List Index} (path_valid : Valid path)
    (other : path ≠ parent) (j : Index) :
    radix.leaf view changed root path j = radix.leaf view memory root path j := by
  unfold leaf
  rw [descend_grow closed tree valid reached unused grown path_valid]
  by_cases here : path = parent ++ [i]
  · rw [if_pos here, here, descend_concat, reached, Option.bind_some, Option.bind_some, grown.unset, hidden]
    rfl
  · rw [if_neg here]
    cases found : radix.descend memory root path with
    | none => rfl
    | some last =>
      rw [Option.bind_some, Option.bind_some]
      apply congrArg view
      apply grown.kept last j
      · intro equal
        exact unused path path_valid (equal ▸ found)
      · intro equal
        obtain ⟨rfl, rfl⟩ := equal
        exact other (tree path parent last path_valid valid found reached)

end Grow

section Store

variable {path : List Index} {i : Index} {table : Table}
  (closed : ∀ path i, Valid (path ++ [i]) → Valid path) (tree : radix.Tree Valid memory root)
  (valid : Valid path) (last : ∀ j, ¬ Valid (path ++ [j]))
  (reached : radix.descend memory root path = some table)
  (kept : ∀ other j, ¬ (other = table ∧ j = i) → changed (radix.slot other j) = memory (radix.slot other j))

include closed tree valid last reached kept

theorem descend_store {other : List Index} (other_valid : Valid other) :
    radix.descend changed root other = radix.descend memory root other := by
  induction other using List.reverseRecOn with
  | nil => rfl
  | append_singleton other j ih =>
    have shorter := closed other j other_valid
    rw [descend_concat, descend_concat, ih shorter]
    cases found : radix.descend memory root other with
    | none => rfl
    | some parent =>
      rw [Option.bind_some, Option.bind_some]
      apply congrArg radix.decode
      apply kept parent j
      intro equal
      obtain ⟨rfl, _⟩ := equal
      cases tree other path parent shorter valid found reached
      exact last j other_valid

theorem leaf_store {Leaf : Type} (view : Word → Option Leaf) {other : List Index} {j : Index}
    (other_valid : Valid other) (different : ¬ (other = path ∧ j = i)) :
    radix.leaf view changed root other j = radix.leaf view memory root other j := by
  unfold leaf
  rw [descend_store closed tree valid last reached kept other_valid]
  cases found : radix.descend memory root other with
  | none => rfl
  | some parent =>
    rw [Option.bind_some, Option.bind_some]
    apply congrArg view
    apply kept parent j
    intro equal
    obtain ⟨rfl, rfl⟩ := equal
    exact different ⟨tree other path parent other_valid valid found reached, rfl⟩

end Store

end Radix

end Library
