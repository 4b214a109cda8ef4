import Sbunix.Paging.Copy

namespace Sbunix.Paging

open Library

section Parent

variable (old : Memory)

def below (table : BitVec 40) (i : BitVec 9) : BitVec 40 := frameOf (old (slot table i))

/-- The entries that a loop copies: those before the first zero entry, or all that are not zero. -/
def Followed (leading : Bool) (table : BitVec 40) (i : BitVec 9) : Prop :=
  if leading then ∀ j : BitVec 9, j.toNat ≤ i.toNat → old (slot table j) ≠ 0 else old (slot table i) ≠ 0

def Within : List Bool → BitVec 40 → BitVec 40 → Prop
  | [], table, other => other = table
  | leading :: levels, table, other =>
    other = table ∨ ∃ i, Followed old leading table i ∧ Within levels (below old table i) other

def Leaf : List Bool → BitVec 40 → BitVec 40 → Prop
  | [], table, other => other = table
  | leading :: levels, table, other => ∃ i, Followed old leading table i ∧ Leaf levels (below old table i) other

def Separate : List Bool → BitVec 40 → Prop
  | [], _ => True
  | leading :: levels, table =>
    (∀ i, Followed old leading table i →
      ¬ Within old levels (below old table i) table ∧ Separate levels (below old table i)) ∧
    ∀ i j other, Followed old leading table i → Followed old leading table j →
      Within old levels (below old table i) other → Within old levels (below old table j) other → i = j

def Ended : List Bool → BitVec 40 → Prop
  | [], _ => True
  | leading :: levels, table =>
    (leading = true → ∃ i, old (slot table i) = 0) ∧
      ∀ i, Followed old leading table i → Ended levels (below old table i)

def countFrom (leading : Bool) (count : BitVec 40 → Nat) (table : BitVec 40) : Nat → Nat → Nat
  | _, 0 => 0
  | i, remaining + 1 =>
    if old (slot table (BitVec.ofNat 9 i)) = 0 then
      if leading then 0 else countFrom leading count table (i + 1) remaining
    else 1 + count (below old table (BitVec.ofNat 9 i)) + countFrom leading count table (i + 1) remaining

def tableCount : List Bool → BitVec 40 → Nat
  | [], _ => 0
  | leading :: levels, table => countFrom old leading (tableCount levels) table 0 512

/-- The pages under a table are shared with its copy, whose tables are among the used frames. -/
def Shared (used : List (BitVec 40)) (next : Memory) : List Bool → BitVec 40 → BitVec 40 → Prop
  | [], table, copied => ∀ l, next (slot table l) = sharedEntry (old (slot table l)) ∧
      next (slot copied l) = sharedEntry (old (slot table l))
  | leading :: levels, table, copied => ∀ i, Followed old leading table i →
      ∃ dir ∈ used, decode (next (slot copied i)) = some dir ∧ Shared used next levels (below old table i) dir

variable {old} {leading : Bool} {levels : List Bool} {table : BitVec 40}

theorem Followed.nonzero {i : BitVec 9} (followed : Followed old leading table i) : old (slot table i) ≠ 0 := by
  cases leading with
  | false => exact followed
  | true => exact followed i (Nat.le_refl _)

theorem Within.self : Within old levels table table := by
  cases levels with
  | nil => rfl
  | cons _ _ => exact Or.inl rfl

theorem Leaf.within {other : BitVec 40} (leaf : Leaf old levels table other) : Within old levels table other := by
  induction levels generalizing table with
  | nil => exact leaf
  | cons leading levels ih =>
    obtain ⟨i, followed, leaf⟩ := leaf
    exact Or.inr ⟨i, followed, ih leaf⟩

theorem Shared.congr {used more : List (BitVec 40)} {next later : Memory} {copied : BitVec 40}
    (shared : Shared old used next levels table copied) (sub : ∀ frame ∈ used, frame ∈ more)
    (same : ∀ other, other = copied ∨ other ∈ used ∨ Leaf old levels table other →
      ∀ i, later (slot other i) = next (slot other i)) : Shared old more later levels table copied := by
  induction levels generalizing table copied with
  | nil =>
    intro l
    rw [same table (Or.inr (Or.inr rfl)), same copied (Or.inl rfl)]
    exact shared l
  | cons leading levels ih =>
    intro i followed
    obtain ⟨dir, member, leads, shared⟩ := shared i followed
    refine ⟨dir, sub dir member, ?_, ih shared ?_⟩
    · rw [same copied (Or.inl rfl)]
      exact leads
    · intro other inside
      rcases inside with rfl | inside | leaf
      · exact same other (Or.inr (Or.inl member))
      · exact same other (Or.inr (Or.inl inside))
      · exact same other (Or.inr (Or.inr ⟨i, followed, leaf⟩))

end Parent

section Copy

variable (old : Memory)

def Entry : List Bool → BitVec 40 → BitVec 9 → Prop
  | [], _, _ => True
  | leading :: _, table, i => Followed old leading table i

def Planted (used : List (BitVec 40)) (next : Memory) : List Bool → BitVec 40 → BitVec 40 → Prop
  | [], _, _ => True
  | leading :: levels, table, copied => ∀ i, Followed old leading table i →
      ∃ dir ∈ used, decode (next (slot copied i)) = some dir ∧
        (∀ j, ¬ Entry old levels (below old table i) j → next (slot dir j) = 0) ∧
        Planted used next levels (below old table i) dir

variable {old} in
theorem Planted.congr {levels : List Bool} {used more : List (BitVec 40)} {next later : Memory}
    {table copied : BitVec 40} (planted : Planted old used next levels table copied)
    (sub : ∀ frame ∈ used, frame ∈ more)
    (same : ∀ other, other = copied ∨ other ∈ used → ∀ i, later (slot other i) = next (slot other i)) :
    Planted old more later levels table copied := by
  induction levels generalizing table copied with
  | nil => trivial
  | cons leading levels ih =>
    intro i followed
    obtain ⟨dir, member, leads, blank, planted⟩ := planted i followed
    refine ⟨dir, sub dir member, ?_, ?_, ih planted ?_⟩
    · rw [same copied (Or.inl rfl)]
      exact leads
    · intro j unwritten
      rw [same dir (Or.inr member)]
      exact blank j unwritten
    · intro other inside
      rcases inside with rfl | inside
      · exact same other (Or.inr member)
      · exact same other (Or.inr inside)

/-- What the copy of a table needs: the tables below it are still as they were, and the frames are
    apart from them and from the copy. -/
structure Copyable (levels : List Bool) (m : Memory) (frames : List (BitVec 40)) (table copied : BitVec 40) :
    Prop where
  same : ∀ other, Within old levels table other → ∀ i, m (slot other i) = old (slot other i)
  separate : Separate old levels table
  ended : Ended old levels table
  apart : ¬ Within old levels table copied
  fresh : ∀ frame ∈ frames, ¬ Within old levels table frame ∧ frame ≠ copied
  distinct : frames.Nodup
  bound : ∀ frame ∈ frames, frame.toNat < 2 ^ 19
  clear : levels ≠ [] → ∀ i, Entry old levels table i → HighClear (m (slot copied i))
  enough : tableCount old levels table ≤ frames.length

structure Copied (levels : List Bool) (m next : Memory) (used : List (BitVec 40)) (table copied : BitVec 40) :
    Prop where
  shared : Shared old used next levels table copied
  kept : ∀ other i, other ∉ used → ¬ Leaf old levels table other → ¬ (other = copied ∧ Entry old levels table i) →
    next (slot other i) = m (slot other i)

def Plants (levels : List Bool)
    (copy : Memory → List (BitVec 64) → BitVec 64 → BitVec 64 → Option (Memory × List (BitVec 64))) : Prop :=
  ∀ m frames table copied, Copyable old levels m frames table copied →
    ∃ next used rest, frames = used ++ rest ∧ used.length = tableCount old levels table ∧
      copy m (frames.map frameAddress) (frameAddress table) (frameAddress copied) =
        some (next, rest.map frameAddress) ∧
      Copied old levels m next used table copied ∧ Planted old used next levels table copied

structure Pending (leading : Bool) (levels : List Bool) (table copied : BitVec 40) (i : Nat) (m : Memory)
    (frames : List (BitVec 40)) : Prop where
  tableSame : ∀ j, m (slot table j) = old (slot table j)
  same : ∀ j, i ≤ j.toNat → Followed old leading table j → ∀ other, Within old levels (below old table j) other →
    ∀ l, m (slot other l) = old (slot other l)
  run : leading = true → ∀ j : BitVec 9, j.toNat < i → old (slot table j) ≠ 0
  fresh : ∀ frame ∈ frames, ¬ Within old (leading :: levels) table frame ∧ frame ≠ copied
  distinct : frames.Nodup
  bound : ∀ frame ∈ frames, frame.toNat < 2 ^ 19
  clear : ∀ j, i ≤ j.toNat → Followed old leading table j → HighClear (m (slot copied j))

structure CopiedEntry (levels : List Bool) (m next : Memory) (frame : BitVec 40) (used : List (BitVec 40))
    (table copied : BitVec 40) (i : BitVec 9) : Prop where
  leads : decode (next (slot copied i)) = some frame
  shared : Shared old used next levels (below old table i) frame
  kept : ∀ other j, other ≠ frame → other ∉ used → ¬ Leaf old levels (below old table i) other →
    ¬ (other = copied ∧ j = i) → next (slot other j) = m (slot other j)

structure CopiedFrom (leading : Bool) (levels : List Bool) (m next : Memory) (used : List (BitVec 40))
    (table copied : BitVec 40) (i : Nat) : Prop where
  shared : ∀ j, i ≤ j.toNat → Followed old leading table j →
    ∃ dir ∈ used, decode (next (slot copied j)) = some dir ∧ Shared old used next levels (below old table j) dir
  kept : ∀ other l, other ∉ used →
    (∀ j, i ≤ j.toNat → Followed old leading table j → ¬ Leaf old levels (below old table j) other) →
    ¬ (other = copied ∧ i ≤ l.toNat ∧ Followed old leading table l) → next (slot other l) = m (slot other l)

def PlantedFrom (leading : Bool) (levels : List Bool) (next : Memory) (used : List (BitVec 40))
    (table copied : BitVec 40) (i : Nat) : Prop :=
  ∀ j, i ≤ j.toNat → Followed old leading table j →
    ∃ dir ∈ used, decode (next (slot copied j)) = some dir ∧
      (∀ l, ¬ Entry old levels (below old table j) l → next (slot dir l) = 0) ∧
      Planted old used next levels (below old table j) dir

theorem copyPages_plants : Plants old [] copyPages := by
  intro m frames table copied copyable
  have apart : copied ≠ table := copyable.apart
  refine ⟨_, [], frames, rfl, rfl, rfl, ⟨?_, ?_⟩, trivial⟩
  · intro l
    rw [copyPages_slot apart, if_pos (Or.inr rfl), copyPages_slot apart, if_pos (Or.inl rfl),
      copyable.same table rfl]
    exact ⟨rfl, rfl⟩
  · intro other i _ notTable notCopied
    rw [copyPages_slot apart, if_neg]
    intro either
    cases either with
    | inl same => exact notCopied ⟨same, trivial⟩
    | inr same => exact notTable same

theorem memsetZero_self (m : Memory) (frame : BitVec 40) {n : Nat} (small : n ≤ 512) {i : BitVec 9}
    (inside : i.toNat < n) : memsetZero m (frameAddress frame) n (slot frame i) = 0 := by
  induction n with
  | zero => omega
  | succ n ih =>
    rw [memsetZero, slot_ofNat frame (by omega)]
    by_cases last : slot frame i = slot frame (BitVec.ofNat 9 n)
    · rw [last, Function.update_self]
    · have other : ¬ (frame = frame ∧ i.toNat = n) := fun same => last ((slot_eq_ofNat (by omega)).mpr same)
      rw [Function.update_of_ne last]
      exact ih (by omega) (by simp at other; omega)

theorem copyEntry_create {Source : Type} {subMalloc : Source → Option (BitVec 64 × Source)}
    {copy : Memory → Source → BitVec 64 → BitVec 64 → Option (Memory × Source)} {m next : Memory}
    {source rest : Source} {dir dirPhy entry copied : BitVec 64} {words : Nat} {isUser : Bool}
    (taken : subMalloc source = some (dir, rest)) (nonnull : dir ≠ 0) (phys : dir - virtBase = dirPhy)
    (written : next = Function.update (memsetZero m dirPhy words) copied
      (setEntry (memsetZero m dirPhy words copied) dirPhy isUser)) :
    copyEntry subMalloc setEntry copy words isUser m source entry copied =
      copy next rest (pagePhysicalAddress (next entry)) dirPhy := by
  subst written phys
  simp only [copyEntry, taken, Option.bind_eq_bind, Option.bind_some, if_neg nonnull]

section Round

variable {old} {leading : Bool} {levels : List Bool} {table copied : BitVec 40} {m first next : Memory}
  {frame : BitVec 40} {used others frames rest : List (BitVec 40)} {e : BitVec 9}

theorem CopiedFrom.nothing {i : Nat} (past : ∀ j : BitVec 9, i ≤ j.toNat → ¬ Followed old leading table j) :
    CopiedFrom old leading levels m m [] table copied i where
  shared j later followed := absurd followed (past j later)
  kept _ _ _ _ _ := rfl

theorem Followed.passed (zero : old (slot table e) = 0) {j : BitVec 9} (later : e.toNat ≤ j.toNat)
    (followed : Followed old leading table j) : e.toNat + 1 ≤ j.toNat := by
  have other : e.toNat ≠ j.toNat := by
    intro equal
    rw [BitVec.eq_of_toNat_eq equal] at zero
    exact followed.nonzero zero
  omega

theorem Pending.pass (leads : leading ≠ true)
    (pending : Pending old leading levels table copied e.toNat m frames) :
    Pending old leading levels table copied (e.toNat + 1) m frames where
  tableSame := pending.tableSame
  same j later := pending.same j (by omega)
  run leads' := absurd leads' leads
  fresh := pending.fresh
  distinct := pending.distinct
  bound := pending.bound
  clear j later := pending.clear j (by omega)

theorem CopiedFrom.pass (zero : old (slot table e) = 0)
    (done : CopiedFrom old leading levels m next used table copied (e.toNat + 1)) :
    CopiedFrom old leading levels m next used table copied e.toNat where
  shared j later followed := done.shared j (followed.passed zero later) followed
  kept other l notUsed notLeaf notCopied := by
    apply done.kept other l notUsed fun j later => notLeaf j (by omega)
    exact fun equal => notCopied ⟨equal.1, by omega, equal.2.2⟩

theorem Pending.run_succ (pending : Pending old leading levels table copied e.toNat m frames)
    (nonzero : old (slot table e) ≠ 0) (leads : leading = true) (j : BitVec 9) (before : j.toNat < e.toNat + 1) :
    old (slot table j) ≠ 0 := by
  by_cases earlier : j.toNat < e.toNat
  · exact pending.run leads j earlier
  · obtain rfl : j = e := BitVec.eq_of_toNat_eq (by omega)
    exact nonzero

theorem Pending.followed (pending : Pending old leading levels table copied e.toNat m frames)
    (nonzero : old (slot table e) ≠ 0) : Followed old leading table e := by
  unfold Followed
  split
  · rename_i leads
    exact fun j before => pending.run_succ nonzero leads j (by omega)
  · exact nonzero

variable (separate : Separate old (leading :: levels) table) (apart : ¬ Within old (leading :: levels) table copied)
  (followed : Followed old leading table e)
  (pending : Pending old leading levels table copied e.toNat m (frame :: (used ++ rest)))
  (round : CopiedEntry old levels m first frame used table copied e)

include apart pending round in
theorem CopiedEntry.kept_within {other : BitVec 40} (within : Within old (leading :: levels) table other)
    (noLeaf : ¬ Leaf old levels (below old table e) other) (l : BitVec 9) :
    first (slot other l) = m (slot other l) := by
  apply round.kept
  · exact fun equal => (pending.fresh frame (by simp)).1 (equal ▸ within)
  · exact fun member => (pending.fresh other (by simp [member])).1 within
  · exact noLeaf
  · exact fun equal => apart (equal.1 ▸ within)

include apart followed pending round in
theorem CopiedEntry.kept_copied {j : BitVec 9} (other : j ≠ e) : first (slot copied j) = m (slot copied j) := by
  apply round.kept
  · exact (pending.fresh frame (by simp)).2.symm
  · exact fun member => (pending.fresh copied (by simp [member])).2 rfl
  · exact fun leaf => apart (Or.inr ⟨e, followed, leaf.within⟩)
  · exact fun equal => other equal.2

include separate followed in
theorem Separate.not_later {j : BitVec 9} {other : BitVec 40} (later : e.toNat + 1 ≤ j.toNat)
    (other_followed : Followed old leading table j) (within : Within old levels (below old table e) other) :
    ¬ Within old levels (below old table j) other := by
  intro below
  have equal := separate.2 e j other followed other_followed within below
  rw [equal] at later
  omega

include separate apart followed pending round

theorem Pending.step : Pending old leading levels table copied (e.toNat + 1) first rest where
  tableSame j := by
    rw [round.kept_within apart pending Within.self fun leaf => (separate.1 e followed).1 leaf.within]
    exact pending.tableSame j
  same j later other_followed other within l := by
    have noLeaf : ¬ Leaf old levels (below old table e) other :=
      fun leaf => separate.not_later followed later other_followed leaf.within within
    rw [round.kept_within apart pending (Or.inr ⟨j, other_followed, within⟩) noLeaf]
    exact pending.same j (by omega) other_followed other within l
  run := pending.run_succ followed.nonzero
  fresh other member := pending.fresh other (by simp [member])
  distinct := (List.nodup_append.mp (List.nodup_cons.mp pending.distinct).2).2.1
  bound other member := pending.bound other (by simp [member])
  clear j later other_followed := by
    have other : j ≠ e := by
      rintro rfl
      omega
    rw [round.kept_copied apart followed pending other]
    exact pending.clear j (by omega) other_followed

/-- The later rounds leave the tables of a round alone: its frames, and the page tables below its entry. -/
theorem CopiedFrom.kept_earlier (taken : ∀ other ∈ others, other ∈ rest)
    (done : CopiedFrom old leading levels first next others table copied (e.toNat + 1)) {other : BitVec 40}
    (origin : other ∈ frame :: used ∨ Leaf old levels (below old table e) other) (l : BitVec 9) :
    next (slot other l) = first (slot other l) := by
  obtain ⟨distinctFrame, distinctUsed⟩ := List.nodup_cons.mp pending.distinct
  obtain ⟨_, _, disjoint⟩ := List.nodup_append.mp distinctUsed
  have listed (member : other ∈ frame :: used) : other ∈ frame :: (used ++ rest) := by
    rcases List.mem_cons.mp member with rfl | member
    · exact List.mem_cons_self
    · exact List.mem_cons_of_mem _ (List.mem_append_left _ member)
  have within (leaf : Leaf old levels (below old table e) other) : Within old (leading :: levels) table other :=
    Or.inr ⟨e, followed, leaf.within⟩
  apply done.kept
  · intro later
    have member := taken other later
    rcases origin with origin | leaf
    · rcases List.mem_cons.mp origin with rfl | origin
      · exact distinctFrame (List.mem_append_right _ member)
      · exact disjoint other origin other member rfl
    · exact (pending.fresh other (by simp [member])).1 (within leaf)
  · intro j later other_followed leaf
    rcases origin with origin | origin
    · exact (pending.fresh other (listed origin)).1 (Or.inr ⟨j, other_followed, leaf.within⟩)
    · exact separate.not_later followed later other_followed origin.within leaf.within
  · intro equal
    rcases origin with origin | leaf
    · exact (pending.fresh other (listed origin)).2 equal.1
    · exact apart (equal.1 ▸ within leaf)

omit separate followed in
theorem CopiedEntry.leads_later (taken : ∀ other ∈ others, other ∈ rest)
    (done : CopiedFrom old leading levels first next others table copied (e.toNat + 1)) :
    decode (next (slot copied e)) = some frame := by
  rw [← round.leads]
  apply congrArg decode
  apply done.kept
  · exact fun member => (pending.fresh copied (by simp [taken copied member])).2 rfl
  · exact fun k _ after leaf => apart (Or.inr ⟨k, after, leaf.within⟩)
  · exact fun equal => Nat.not_succ_le_self _ equal.2.1

theorem CopiedEntry.cons (taken : ∀ other ∈ others, other ∈ rest)
    (done : CopiedFrom old leading levels first next others table copied (e.toNat + 1)) :
    CopiedFrom old leading levels m next (frame :: used ++ others) table copied e.toNat where
  shared j from_e other_followed := by
    by_cases later : e.toNat + 1 ≤ j.toNat
    · obtain ⟨dir, member, leads, shared⟩ := done.shared j later other_followed
      refine ⟨dir, List.mem_append_right _ member, leads, ?_⟩
      exact shared.congr (fun other inside => List.mem_append_right _ inside) fun _ _ _ => rfl
    · obtain rfl : j = e := BitVec.eq_of_toNat_eq (by omega)
      refine ⟨frame, by simp, round.leads_later apart pending taken done, ?_⟩
      refine round.shared.congr (fun other inside => by simp [inside]) fun other origin => ?_
      apply done.kept_earlier separate apart followed pending round taken
      rcases origin with rfl | member | leaf
      · exact Or.inl List.mem_cons_self
      · exact Or.inl (List.mem_cons_of_mem _ member)
      · exact Or.inr leaf
  kept other l unused noLeaf unwritten := by
    simp only [List.cons_append, List.mem_cons, List.mem_append, not_or] at unused
    rw [done.kept other l unused.2.2 (fun j later => noLeaf j (by omega))
      fun equal => unwritten ⟨equal.1, by omega, equal.2.2⟩]
    apply round.kept other l unused.1 unused.2.1 (noLeaf e (Nat.le_refl _) followed)
    intro equal
    rw [equal.2] at unwritten
    exact unwritten ⟨equal.1, Nat.le_refl _, followed⟩

theorem PlantedFrom.cons (taken : ∀ other ∈ others, other ∈ rest)
    (done : CopiedFrom old leading levels first next others table copied (e.toNat + 1))
    (blank : ∀ l, ¬ Entry old levels (below old table e) l → first (slot frame l) = 0)
    (planted : Planted old used first levels (below old table e) frame)
    (others_planted : PlantedFrom old leading levels next others table copied (e.toNat + 1)) :
    PlantedFrom old leading levels next (frame :: used ++ others) table copied e.toNat := by
  intro j from_e other_followed
  by_cases later : e.toNat + 1 ≤ j.toNat
  · obtain ⟨dir, member, leads, blank, planted⟩ := others_planted j later other_followed
    refine ⟨dir, List.mem_append_right _ member, leads, blank, ?_⟩
    exact planted.congr (fun other inside => List.mem_append_right _ inside) fun _ _ _ => rfl
  · obtain rfl : j = e := BitVec.eq_of_toNat_eq (by omega)
    have kept {other : BitVec 40} (member : other ∈ frame :: used) (l : BitVec 9) :
        next (slot other l) = first (slot other l) :=
      done.kept_earlier separate apart followed pending round taken (Or.inl member) l
    refine ⟨frame, by simp, round.leads_later apart pending taken done, ?_, ?_⟩
    · intro l unwritten
      rw [kept List.mem_cons_self]
      exact blank l unwritten
    · refine planted.congr (fun other inside => by simp [inside]) fun other origin => kept ?_
      rcases origin with rfl | member
      · exact List.mem_cons_self
      · exact List.mem_cons_of_mem _ member

end Round

section Loop

variable {old} {leading : Bool} {levels : List Bool}
  {copy : Memory → List (BitVec 64) → BitVec 64 → BitVec 64 → Option (Memory × List (BitVec 64))} {words : Nat}
  (isUser : Bool) {table copied : BitVec 40} (body : Plants old levels copy) (small : words ≤ 512)
  (cleared : levels ≠ [] → words = 512) (separate : Separate old (leading :: levels) table)
  (ended : Ended old (leading :: levels) table) (apart : ¬ Within old (leading :: levels) table copied)

include small cleared separate ended apart

variable (copy) in
/-- A round clears its frame, puts it in the copy of the entry and goes on with the table below. -/
theorem copyEntry_enters {m : Memory} {frame : BitVec 40} {frames : List (BitVec 40)} {i : BitVec 9}
    (followed : Followed old leading table i)
    (pending : Pending old leading levels table copied i.toNat m (frame :: frames))
    (enough : tableCount old levels (below old table i) ≤ frames.length) :
    ∃ written : Memory,
      copyEntry takePage setEntry copy words isUser m ((frame :: frames).map frameAddress) (slot table i)
        (slot copied i) =
        copy written (frames.map frameAddress) (frameAddress (below old table i)) (frameAddress frame) ∧
      Copyable old levels written frames (below old table i) frame ∧
      written (slot copied i) = setEntry (m (slot copied i)) (frameAddress frame) isUser ∧
      (∀ other j, other ≠ frame → ¬ (other = copied ∧ j = i) → written (slot other j) = m (slot other j)) ∧
      (levels ≠ [] → ∀ j, written (slot frame j) = 0) := by
  obtain ⟨tableSame, same, _, fresh, distinct, bound, clear⟩ := pending
  have frameFresh := fresh frame (by simp)
  have frameBound := bound frame (by simp)
  have inside {other : BitVec 40} (within : Within old levels (below old table i) other) :
      Within old (leading :: levels) table other := Or.inr ⟨i, followed, within⟩
  have frameOther {other : BitVec 40} (within : Within old (leading :: levels) table other) : other ≠ frame :=
    fun equal => frameFresh.1 (equal ▸ within)
  have copiedOther {other : BitVec 40} (within : Within old (leading :: levels) table other) : other ≠ copied :=
    fun equal => apart (equal ▸ within)
  obtain ⟨written, writes⟩ : ∃ written : Memory,
      written = Function.update (memsetZero m (frameAddress frame) words) (slot copied i)
        (setEntry (memsetZero m (frameAddress frame) words (slot copied i)) (frameAddress frame) isUser) := ⟨_, rfl⟩
  have elsewhere (other : BitVec 40) (j : BitVec 9) (notFrame : other ≠ frame)
      (notCopied : ¬ (other = copied ∧ j = i)) : written (slot other j) = m (slot other j) := by
    rw [writes, Function.update_of_ne fun equal => notCopied (slot_injective equal), memsetZero_slot notFrame j small]
  have blank (deeper : levels ≠ []) (j : BitVec 9) : written (slot frame j) = 0 := by
    have full := cleared deeper
    have apartSlots : slot frame j ≠ slot copied i := fun equal => frameFresh.2 (slot_injective equal).1
    rw [writes, Function.update_of_ne apartSlots, memsetZero_self m frame small (by have := j.isLt; omega)]
  refine ⟨written, ?_, ?_, ?_, elsewhere, blank⟩
  · have taken : takePage ((frame :: frames).map frameAddress) =
        some (frameAddress frame + virtBase, frames.map frameAddress) := rfl
    have pointer : pagePhysicalAddress (written (slot table i)) = frameAddress (below old table i) := by
      rw [pagePhysicalAddress_eq, elsewhere _ _ (frameOther Within.self) fun equal => copiedOther Within.self equal.1,
        tableSame]
      rfl
    rw [copyEntry_create taken (linear_ne_zero frameBound) (BitVec.add_sub_cancel _ _) writes, pointer]
  · constructor
    · intro other within j
      rw [elsewhere _ _ (frameOther (inside within)) fun equal => copiedOther (inside within) equal.1]
      exact same i (Nat.le_refl _) followed other within j
    · exact (separate.1 i followed).2
    · exact ended.2 i followed
    · exact fun within => frameFresh.1 (inside within)
    · intro other member
      refine ⟨fun within => (fresh other (List.mem_cons_of_mem _ member)).1 (inside within), ?_⟩
      intro equal
      exact (List.nodup_cons.mp distinct).1 (equal ▸ member)
    · exact (List.nodup_cons.mp distinct).2
    · exact fun other member => bound other (List.mem_cons_of_mem _ member)
    · intro deeper j _
      rw [blank deeper]
      rfl
    · exact enough
  · rw [writes, Function.update_self, memsetZero_slot frameFresh.2.symm i small]

include body

theorem copyEntry_step {m : Memory} {frame : BitVec 40} {frames : List (BitVec 40)} {i : BitVec 9}
    (followed : Followed old leading table i)
    (pending : Pending old leading levels table copied i.toNat m (frame :: frames))
    (enough : tableCount old levels (below old table i) ≤ frames.length) :
    ∃ next used rest, frames = used ++ rest ∧ used.length = tableCount old levels (below old table i) ∧
      copyEntry takePage setEntry copy words isUser m ((frame :: frames).map frameAddress) (slot table i)
        (slot copied i) = some (next, rest.map frameAddress) ∧
      CopiedEntry old levels m next frame used table copied i ∧
      (∀ l, ¬ Entry old levels (below old table i) l → next (slot frame l) = 0) ∧
      Planted old used next levels (below old table i) frame := by
  obtain ⟨written, entered, copyable, entry, elsewhere, blank⟩ :=
    copyEntry_enters copy isUser small cleared separate ended apart followed pending enough
  obtain ⟨_, _, _, fresh, distinct, bound, clear⟩ := pending
  have frameFresh := fresh frame (by simp)
  have frameBound := bound frame (by simp)
  have inside {other : BitVec 40} (within : Within old levels (below old table i) other) :
      Within old (leading :: levels) table other := Or.inr ⟨i, followed, within⟩
  obtain ⟨next, used, rest, split, length, executed, done, planted⟩ := body _ _ _ _ copyable
  have copiedKept : next (slot copied i) = written (slot copied i) := by
    apply done.kept
    · intro member
      have taken : copied ∈ frames := by
        rw [split]
        exact List.mem_append_left _ member
      exact (fresh copied (List.mem_cons_of_mem _ taken)).2 rfl
    · exact fun leaf => apart (inside leaf.within)
    · exact fun equal => frameFresh.2 equal.1.symm
  refine ⟨next, used, rest, split, length, entered.trans executed, ⟨?_, done.shared, ?_⟩, ?_, planted⟩
  · rw [copiedKept, entry, decode, if_neg (setEntry_present _ _ _),
      frameOf_setEntry (clear i (Nat.le_refl _) followed) (Nat.lt_trans frameBound (by decide))]
  · intro other j notFrame notUsed notLeaf notCopied
    rw [done.kept other j notUsed notLeaf fun equal => notFrame equal.1, elsewhere other j notFrame notCopied]
  · intro l unwritten
    have deeper : levels ≠ [] := by
      rintro rfl
      exact unwritten trivial
    rw [done.kept frame l, blank deeper]
    · intro member
      exact (List.nodup_cons.mp distinct).1 (split ▸ List.mem_append_left _ member)
    · exact fun leaf => frameFresh.1 (inside leaf.within)
    · exact fun entry => unwritten entry.2

theorem copyEntries_from (remaining i : Nat) (total : i + remaining = 512) (m : Memory) (frames : List (BitVec 40))
    (pending : Pending old leading levels table copied i m frames)
    (enough : countFrom old leading (tableCount old levels) table i remaining ≤ frames.length) :
    ∃ next used rest, frames = used ++ rest ∧
      used.length = countFrom old leading (tableCount old levels) table i remaining ∧
      copyEntries takePage setEntry leading copy words isUser (frameAddress table) (frameAddress copied) i remaining m
        (frames.map frameAddress) = some (next, rest.map frameAddress) ∧
      CopiedFrom old leading levels m next used table copied i ∧
      PlantedFrom old leading levels next used table copied i := by
  -- by induction on the rounds that are left: a round hands `Pending` on to the next
  induction remaining generalizing i m frames with
  | zero =>
    have finished (j : BitVec 9) (later : i ≤ j.toNat) : ¬ Followed old leading table j := by
      have := j.isLt
      omega
    have stops : leading ≠ true := by
      intro leads
      obtain ⟨j, zero⟩ := ended.1 leads
      exact pending.run leads j (by have := j.isLt; omega) zero
    refine ⟨m, [], frames, rfl, rfl, ?_, CopiedFrom.nothing finished,
      fun j later followed => absurd followed (finished j later)⟩
    rw [copyEntries, if_neg stops]
  | succ remaining ih =>
    obtain ⟨e, rfl⟩ : ∃ e : BitVec 9, e.toNat = i := ⟨BitVec.ofNat 9 i, by rw [BitVec.toNat_ofNat]; omega⟩
    have name : BitVec.ofNat 9 e.toNat = e := by rw [BitVec.ofNat_toNat, BitVec.setWidth_eq]
    rw [copyEntries, slot_ofNat table e.isLt, slot_ofNat copied e.isLt, name, pending.tableSame]
    rw [countFrom, name] at enough ⊢
    by_cases zero : old (slot table e) = 0
    · rw [if_pos zero] at enough ⊢
      rw [if_pos zero]
      by_cases leads : leading = true
      · -- the loop ends: no entry from here on belongs to the leading run
        have past (j : BitVec 9) (later : e.toNat ≤ j.toNat) : ¬ Followed old leading table j := by
          intro followed
          subst leads
          exact followed e later zero
        rw [if_pos leads, if_pos leads]
        exact ⟨m, [], frames, rfl, rfl, rfl, CopiedFrom.nothing past,
          fun j later followed => absurd followed (past j later)⟩
      · rw [if_neg leads] at enough
        rw [if_neg leads, if_neg leads]
        obtain ⟨next, used, rest, split, length, executed, done, planted⟩ :=
          ih (e.toNat + 1) (by omega) m frames (pending.pass leads) enough
        exact ⟨next, used, rest, split, length, executed, done.pass zero,
          fun j later followed => planted j (followed.passed zero later) followed⟩
    · rw [if_neg zero] at enough ⊢
      rw [if_neg zero]
      have followed := pending.followed zero
      cases frames with
      | nil =>
        rw [List.length_nil] at enough
        omega
      | cons frame frames =>
        rw [List.length_cons] at enough
        obtain ⟨first, used, rest, rfl, length, executed, round, blank, planted⟩ :=
          copyEntry_step isUser body small cleared separate ended apart followed pending (by omega)
        rw [List.length_append] at enough
        obtain ⟨next, others, left, rfl, lengthLater, executedLater, done, othersPlanted⟩ :=
          ih (e.toNat + 1) (by omega) first rest (pending.step separate apart followed round) (by omega)
        have taken : ∀ other ∈ others, other ∈ others ++ left := fun other => List.mem_append_left left
        refine ⟨next, frame :: used ++ others, left, by simp, ?_, ?_,
          round.cons separate apart followed pending taken done,
          PlantedFrom.cons separate apart followed pending round taken done blank planted othersPlanted⟩
        · rw [List.length_append, List.length_cons, length, lengthLater]
          omega
        · rw [executed, Option.bind_eq_bind, Option.bind_some]
          exact executedLater

omit separate ended apart in
variable (leading) in
theorem copyEntries_plants : Plants old (leading :: levels) fun m source table copied =>
    copyEntries takePage setEntry leading copy words isUser table copied 0 512 m source := by
  intro m frames table copied copyable
  have pending : Pending old leading levels table copied 0 m frames := by
    constructor
    · exact copyable.same table Within.self
    · exact fun j _ followed other within => copyable.same other (Or.inr ⟨j, followed, within⟩)
    · exact fun _ j before => absurd before (Nat.not_lt_zero _)
    · exact copyable.fresh
    · exact copyable.distinct
    · exact copyable.bound
    · exact fun j _ followed => copyable.clear (by simp) j followed
  obtain ⟨next, used, rest, split, length, executed, done, planted⟩ :=
    copyEntries_from isUser body small cleared copyable.separate copyable.ended copyable.apart 512 0 (by decide) m
      frames pending copyable.enough
  refine ⟨next, used, rest, split, length, executed, ⟨fun j followed => done.shared j (Nat.zero_le _) followed, ?_⟩,
    fun j followed => planted j (Nat.zero_le _) followed⟩
  intro other l unused noLeaf unwritten
  apply done.kept other l unused
  · exact fun j _ followed leaf => noLeaf ⟨j, followed, leaf⟩
  · exact fun equal => unwritten ⟨equal.1, equal.2.2⟩

end Loop

/-- The levels of `copy_page_table`: the PML4 and the page directory pointer tables are read up to the
    first zero entry, the page directories to their end. -/
def forkLevels : List Bool := [true, true, false]

theorem copyPageTable_plants (isUser : Bool) :
    Plants old forkLevels fun m source parent child => copyPageTable takePage m source parent child isUser :=
  copyEntries_plants true isUser
    (copyEntries_plants true isUser
      (copyEntries_plants false isUser (copyPages_plants old) (by decide) fun deeper => absurd rfl deeper)
      (by decide) fun _ => rfl)
    (by decide) fun _ => rfl

end Copy

/-- The tables as `copy_page_table` finds them, which tests the entries against zero. -/
def forkRadix : Radix (BitVec 64) (BitVec 64) (BitVec 40) (BitVec 9) where
  slot := slot
  decode e := if e = 0 then none else some (frameOf e)
  slot_injective := slot_injective

section Tree

variable {m : Memory} {parent : BitVec 40}

theorem forkRadix_cons {table : BitVec 40} {i : BitVec 9} (nonzero : m (slot table i) ≠ 0) (path : List (BitVec 9)) :
    forkRadix.descend m table (i :: path) = forkRadix.descend m (below m table i) path := by
  rw [Radix.descend_cons]
  change (if m (slot table i) = 0 then none else some (below m table i)).bind _ = _
  rw [if_neg nonzero, Option.bind_some]

theorem forkRadix_append {root table : BitVec 40} {path : List (BitVec 9)}
    (reached : forkRadix.descend m root path = some table) (rest : List (BitVec 9)) :
    forkRadix.descend m root (path ++ rest) = forkRadix.descend m table rest := by
  rw [Radix.descend] at reached ⊢
  rw [List.foldlM_append, reached]
  rfl

theorem Followed.path {leading : Bool} {levels : List Bool} {table other : BitVec 40} {i : BitVec 9}
    {path : List (BitVec 9)} (followed : Followed m leading table i)
    (reached : forkRadix.descend m (below m table i) path = some other) :
    forkRadix.descend m table (i :: path) = some other ∧
      ∀ first rest j, leading :: levels = first :: rest → (i :: path).head? = some j → Followed m first table j := by
  constructor
  · rw [forkRadix_cons followed.nonzero]
    exact reached
  · intro _ _ j same head
    cases same
    cases head
    exact followed

theorem Within.path {levels : List Bool} {table other : BitVec 40} (within : Within m levels table other) :
    ∃ path, path.length ≤ levels.length ∧ forkRadix.descend m table path = some other ∧
      ∀ leading rest i, levels = leading :: rest → path.head? = some i → Followed m leading table i := by
  induction levels generalizing table with
  | nil => exact ⟨[], Nat.le_refl _, congrArg some (Eq.symm within), fun _ _ _ absurdity => by cases absurdity⟩
  | cons leading levels ih =>
    rcases within with rfl | ⟨i, followed, within⟩
    · exact ⟨[], Nat.zero_le _, rfl, fun _ _ _ _ absurdity => by cases absurdity⟩
    · obtain ⟨path, short, reached, _⟩ := ih within
      exact ⟨i :: path, by simpa using short, followed.path reached⟩

theorem Leaf.path {levels : List Bool} {table other : BitVec 40} (leaf : Leaf m levels table other) :
    ∃ path, path.length = levels.length ∧ forkRadix.descend m table path = some other ∧
      ∀ leading rest i, levels = leading :: rest → path.head? = some i → Followed m leading table i := by
  induction levels generalizing table with
  | nil => exact ⟨[], rfl, congrArg some (Eq.symm leaf), fun _ _ _ absurdity => by cases absurdity⟩
  | cons leading levels ih =>
    obtain ⟨i, followed, leaf⟩ := leaf
    obtain ⟨path, long, reached, _⟩ := ih leaf
    exact ⟨i :: path, by simpa using long, followed.path reached⟩

theorem separate_of_tree {root table : BitVec 40} {levels : List Bool} {path : List (BitVec 9)}
    (tree : forkRadix.Tree TablePath m root) (reached : forkRadix.descend m root path = some table)
    (short : path.length + levels.length ≤ 3)
    (outside : ∀ leading rest, levels = leading :: rest → ∀ i, Followed m leading table i →
      (path ++ [i]).head? ≠ some 510) : Separate m levels table := by
  induction levels generalizing table path with
  | nil => trivial
  | cons leading levels ih =>
    rw [List.length_cons] at short
    have step {i : BitVec 9} (followed : Followed m leading table i) :
        forkRadix.descend m root (path ++ [i]) = some (below m table i) := by
      rw [forkRadix_append reached, forkRadix_cons followed.nonzero, Radix.descend_nil]
    have longer {i : BitVec 9} (followed : Followed m leading table i) {rest : List (BitVec 9)}
        (within : rest.length ≤ levels.length) : TablePath (path ++ [i] ++ rest) := by
      refine ⟨by simp only [List.length_append, List.length_singleton]; omega, ?_⟩
      rw [List.head?_append_of_ne_nil _ (by simp)]
      exact outside leading levels rfl i followed
    constructor
    · intro i followed
      constructor
      · intro within
        obtain ⟨rest, length, down, _⟩ := within.path
        have valid : TablePath path := tablePath_closed path i (by simpa using longer followed (Nat.zero_le _))
        have same := tree _ _ table valid (longer followed length) reached
          ((forkRadix_append (step followed) rest).trans down)
        have lengths := congrArg List.length same
        simp only [List.length_append, List.length_singleton] at lengths
        omega
      · apply ih (step followed) (by simp only [List.length_append, List.length_singleton]; omega)
        intro _ _ _ j _
        rw [List.head?_append_of_ne_nil _ (by simp)]
        exact outside leading levels rfl i followed
    · intro i j other followed pending withinLeft withinRight
      obtain ⟨left, leftLength, leftDown, _⟩ := withinLeft.path
      obtain ⟨right, rightLength, rightDown, _⟩ := withinRight.path
      have same := tree _ _ other (longer followed leftLength) (longer pending rightLength)
        ((forkRadix_append (step followed) left).trans leftDown)
        ((forkRadix_append (step pending) right).trans rightDown)
      rw [List.append_assoc, List.append_assoc] at same
      have tails := List.append_cancel_left same
      exact (List.cons.inj tails).1

structure FreshTables (m : Memory) (parent : BitVec 40) (frames : List (BitVec 40)) : Prop where
  distinct : frames.Nodup
  bound : ∀ frame ∈ frames, frame.toNat < 2 ^ 19
  unused : ∀ frame ∈ frames, ∀ path, TablePath path → forkRadix.descend m parent path ≠ some frame

section Zero

variable (zero : ∃ i : BitVec 9, i.toNat < 510 ∧ m (slot parent i) = 0)

include zero

theorem Followed.below_recursive {i : BitVec 9} (followed : Followed m true parent i) : i.toNat < 510 := by
  obtain ⟨first, early, empty⟩ := zero
  by_contra late
  exact followed first (by omega) empty

theorem tablePath_of_followed {path : List (BitVec 9)} (short : path.length ≤ 3)
    (head : ∀ i, path.head? = some i → Followed m true parent i) : TablePath path := by
  refine ⟨short, ?_⟩
  intro recursive
  have early := (head 510 recursive).below_recursive zero
  exact absurd early (by decide)

theorem Within.tablePath {other : BitVec 40} (within : Within m forkLevels parent other) :
    ∃ path, TablePath path ∧ forkRadix.descend m parent path = some other := by
  obtain ⟨path, short, reached, head⟩ := within.path
  exact ⟨path, tablePath_of_followed zero short fun i first => head _ _ i rfl first, reached⟩

theorem Leaf.tablePath {other : BitVec 40} (leaf : Leaf m forkLevels parent other) :
    ∃ path, path.length = 3 ∧ TablePath path ∧ forkRadix.descend m parent path = some other := by
  obtain ⟨path, length, reached, head⟩ := leaf.path
  have valid := tablePath_of_followed zero (Nat.le_of_eq length) fun i first => head _ _ i rfl first
  exact ⟨path, length, valid, reached⟩

theorem clonePgdir_copyable {child : BitVec 40} {frames : List (BitVec 40)}
    (tree : forkRadix.Tree TablePath m parent)
    (linear : ∀ path table, TablePath path → forkRadix.descend m parent path = some table → table.toNat < 2 ^ 19)
    (pointerZero : ∀ i, Followed m true parent i → ∃ j, m (slot (below m parent i) j) = 0)
    (fresh : FreshTables m parent (child :: frames)) (enough : tableCount m forkLevels parent ≤ frames.length) :
    Copyable m forkLevels (clonePgdir m (frameAddress parent) (frameAddress child)) frames parent child := by
  have root : TablePath [] := ⟨Nat.zero_le _, by simp⟩
  have apart {frame : BitVec 40} (member : frame ∈ child :: frames) : ¬ Within m forkLevels parent frame := by
    intro within
    obtain ⟨path, valid, reached⟩ := within.tablePath zero
    exact fresh.unused frame member path valid reached
  have childParent : child ≠ parent := fun same => fresh.unused child (by simp) [] root (congrArg some same.symm)
  constructor
  · intro other within i
    rw [clonePgdir_slot childParent, if_neg]
    intro same
    exact apart (by simp) (same ▸ within)
  · apply separate_of_tree tree (show forkRadix.descend m parent [] = some parent from rfl) (by decide)
    intro leading rest same i followed head
    cases same
    have early := followed.below_recursive zero
    cases head
    exact absurd early (by decide)
  · refine ⟨fun _ => ?_, fun i followed => ⟨fun _ => pointerZero i followed, fun j _ => ⟨fun never => ?_, ?_⟩⟩⟩
    · obtain ⟨i, _, empty⟩ := zero
      exact ⟨i, empty⟩
    · cases never
    · exact fun _ _ => trivial
  · exact apart (by simp)
  · intro frame member
    refine ⟨apart (by simp [member]), ?_⟩
    intro same
    exact (List.nodup_cons.mp fresh.distinct).1 (same ▸ member)
  · exact (List.nodup_cons.mp fresh.distinct).2
  · exact fun frame member => fresh.bound frame (by simp [member])
  · intro _ i followed
    have early := Followed.below_recursive zero followed
    have recursive : i ≠ 510 := by
      intro same
      rw [same] at early
      exact absurd early (by decide)
    have valid : TablePath [i] := ⟨by simp, fun head => recursive (Option.some.inj head)⟩
    have pointer : forkRadix.descend m parent [i] = some (below m parent i) := by
      rw [forkRadix_cons followed.nonzero, Radix.descend_nil]
    rw [clonePgdir_slot childParent, if_pos rfl, if_neg recursive]
    exact highClear_of_frameOf (Nat.lt_trans (linear _ _ valid pointer) (by decide))
  · exact enough

end Zero

end Tree

theorem decode_recursive (child : BitVec 40) :
    decode (frameAddress child ||| pteUser ||| ptePresent ||| pteWritable) = some child := by
  have present : (frameAddress child ||| pteUser ||| ptePresent ||| pteWritable) &&& ptePresent ≠ 0 := by
    rw [present_iff]
    simp [ptePresent]
  have frame : frameOf (frameAddress child ||| pteUser ||| ptePresent ||| pteWritable) = child := by
    change frameOf (ptEntryAddAttrib (ptEntryAddAttrib (ptEntryAddAttrib _ _) _) _) = child
    rw [frameOf_addAttrib _ (by decide), frameOf_addAttrib _ (by decide), frameOf_addAttrib _ (by decide),
      frameOf_frameAddress]
  rw [decode, if_neg present, frame]

/-- The tables above the page tables are only read. -/
theorem Copied.upper_kept {m next : Memory} {parent child : BitVec 40} {used rest : List (BitVec 40)}
    (tree : forkRadix.Tree TablePath m parent) (zero : ∃ i : BitVec 9, i.toNat < 510 ∧ m (slot parent i) = 0)
    (fresh : FreshTables m parent (child :: (used ++ rest))) (apart : child ≠ parent)
    (done : Copied m forkLevels (clonePgdir m (frameAddress parent) (frameAddress child)) next used parent child)
    {path : List (BitVec 9)} {l : BitVec 9} {table : BitVec 40} (valid : TablePath (path ++ [l]))
    (found : forkRadix.descend m parent path = some table) (i : BitVec 9) :
    next (slot table i) = m (slot table i) := by
  have shorter := tablePath_closed path l valid
  have unused {frame : BitVec 40} (member : frame ∈ child :: (used ++ rest)) : table ≠ frame :=
    fun same => fresh.unused frame member path shorter (same ▸ found)
  rw [done.kept table i, clonePgdir_slot apart, if_neg (unused (by simp))]
  · exact fun member => unused (List.mem_cons_of_mem _ (List.mem_append_left _ member)) rfl
  · intro leaf
    obtain ⟨other, long, otherValid, otherFound⟩ := leaf.tablePath zero
    cases tree _ _ table shorter otherValid found otherFound
    have short := valid.1
    rw [List.length_append, long, List.length_singleton] at short
    omega
  · exact fun entry => unused (by simp) entry.1

theorem Copied.parent_descend {m next : Memory} {parent child : BitVec 40} {used rest : List (BitVec 40)}
    (tree : forkRadix.Tree TablePath m parent) (zero : ∃ i : BitVec 9, i.toNat < 510 ∧ m (slot parent i) = 0)
    (fresh : FreshTables m parent (child :: (used ++ rest))) (apart : child ≠ parent)
    (done : Copied m forkLevels (clonePgdir m (frameAddress parent) (frameAddress child)) next used parent child)
    {path : List (BitVec 9)} (valid : TablePath path) :
    forkRadix.descend next parent path = forkRadix.descend m parent path := by
  apply Radix.descend_congr
  intro path' l table inside found
  exact congrArg _ (done.upper_kept tree zero fresh apart (valid.shorter inside) found l)

theorem Copied.child_kept {m next : Memory} {parent child : BitVec 40} {used rest : List (BitVec 40)}
    (copyable : Copyable m forkLevels (clonePgdir m (frameAddress parent) (frameAddress child)) (used ++ rest) parent
      child)
    (done : Copied m forkLevels (clonePgdir m (frameAddress parent) (frameAddress child)) next used parent child)
    {i : BitVec 9} (unfollowed : ¬ Followed m true parent i) :
    next (slot child i) =
      if i = 510 then frameAddress child ||| pteUser ||| ptePresent ||| pteWritable else m (slot parent i) := by
  have apart : child ≠ parent := fun same => copyable.apart (same ▸ Within.self)
  rw [done.kept child i, clonePgdir_slot apart, if_pos rfl]
  · exact fun member => (copyable.fresh child (List.mem_append_left _ member)).2 rfl
  · exact fun leaf => copyable.apart leaf.within
  · exact fun entry => unfollowed entry.2

theorem Shared.reaches {m next : Memory} {used : List (BitVec 40)} {parent child : BitVec 40} {i j k : BitVec 9}
    (shared : Shared m used next forkLevels parent child) (run : Followed m true parent i)
    (pointerRun : Followed m true (below m parent i) j)
    (directory : Followed m false (below m (below m parent i) j) k) :
    ∃ copied, pageRadix.descend next child [i, j, k] = some copied ∧
      Shared m used next [] (below m (below m (below m parent i) j) k) copied := by
  obtain ⟨pdpe, _, pdpeLeads, pdpeShared⟩ := shared i run
  obtain ⟨pde, _, pdeLeads, pdeShared⟩ := pdpeShared j pointerRun
  obtain ⟨pte, _, pteLeads, pteShared⟩ := pdeShared k directory
  refine ⟨pte, ?_, pteShared⟩
  rw [Radix.descend_cons]
  change (decode (next (slot child i))).bind _ = _
  rw [pdpeLeads, Option.bind_some, Radix.descend_cons]
  change (decode (next (slot pdpe j))).bind _ = _
  rw [pdeLeads, Option.bind_some, Radix.descend_cons]
  change (decode (next (slot pde k))).bind _ = _
  rw [pteLeads, Option.bind_some, Radix.descend_nil]

/-- After `clone_pgdir` and `copy_page_table` the parent and the child share the pages copy-on-write. -/
theorem fork_shares_copy_on_write (m : Memory) (parent child : BitVec 40) (frames : List (BitVec 40))
    (tree : forkRadix.Tree TablePath m parent)
    (linear : ∀ path table, TablePath path → forkRadix.descend m parent path = some table → table.toNat < 2 ^ 19)
    (zero : ∃ i : BitVec 9, i.toNat < 510 ∧ m (slot parent i) = 0)
    (pointerZero : ∀ i, Followed m true parent i → ∃ j, m (slot (below m parent i) j) = 0)
    (fresh : FreshTables m parent (child :: frames)) (enough : tableCount m forkLevels parent ≤ frames.length) :
    ∃ next rest,
      copyPageTable takePage (clonePgdir m (frameAddress parent) (frameAddress child)) (frames.map frameAddress)
        (frameAddress parent) (frameAddress child) true = some (next, rest) ∧
      (∀ i j k page, Followed m true parent i → Followed m true (below m parent i) j →
        forkRadix.descend m parent [i, j, k] = some page →
        forkRadix.descend next parent [i, j, k] = some page ∧
        ∃ copied, pageRadix.descend next child [i, j, k] = some copied ∧
          ∀ l, next (slot page l) = sharedEntry (m (slot page l)) ∧
            next (slot copied l) = sharedEntry (m (slot page l))) ∧
      decode (next (slot child 510)) = some child ∧
      ∀ i, ¬ Followed m true parent i → i ≠ 510 → next (slot child i) = m (slot parent i) := by
  have copyable := clonePgdir_copyable zero tree linear pointerZero fresh enough
  obtain ⟨next, used, rest, rfl, _, executed, done, _⟩ := copyPageTable_plants m true _ _ _ _ copyable
  have childParent : child ≠ parent := fun same => copyable.apart (same ▸ Within.self)
  refine ⟨next, rest.map frameAddress, executed, ?_, ?_, ?_⟩
  · intro i j k page run pointerRun reached
    rw [forkRadix_cons run.nonzero, forkRadix_cons pointerRun.nonzero] at reached
    have directory : m (slot (below m (below m parent i) j) k) ≠ 0 := by
      intro empty
      rw [Radix.descend_cons] at reached
      change (if m (slot (below m (below m parent i) j) k) = 0 then none else some _).bind _ = some page at reached
      rw [if_pos empty] at reached
      cases reached
    rw [forkRadix_cons directory, Radix.descend_nil] at reached
    cases reached
    have path : TablePath [i, j, k] :=
      tablePath_of_followed zero (Nat.le_refl _) fun first head => Option.some.inj head ▸ run
    constructor
    · rw [done.parent_descend tree zero fresh childParent path, forkRadix_cons run.nonzero,
        forkRadix_cons pointerRun.nonzero, forkRadix_cons directory, Radix.descend_nil]
    · obtain ⟨copied, leads, pages⟩ := done.shared.reaches run pointerRun directory
      exact ⟨copied, leads, pages⟩
  · have unfollowed : ¬ Followed m true parent 510 := by
      intro followed
      exact absurd (followed.below_recursive zero) (by decide)
    rw [done.child_kept copyable unfollowed, if_pos rfl, decode_recursive]
  · intro i unfollowed notRecursive
    rw [done.child_kept copyable unfollowed, if_neg notRecursive]

def onePage : Memory := fun address =>
  if address = slot 1 0 then 0x2007
  else if address = slot 2 0 then 0x3007
  else if address = slot 3 0 then 0x4007
  else if address = slot 4 0 then 0x5007
  else emptyTables 1 address

theorem onePage_slot (table : BitVec 40) (i : BitVec 9) :
    onePage (slot table i) =
      if table = 1 ∧ i = 0 then 0x2007 else if table = 2 ∧ i = 0 then 0x3007
      else if table = 3 ∧ i = 0 then 0x4007 else if table = 4 ∧ i = 0 then 0x5007
      else emptyTables 1 (slot table i) := by
  have same (frame : BitVec 40) (j : BitVec 9) : slot table i = slot frame j ↔ table = frame ∧ i = j :=
    ⟨slot_injective, fun equal => by rw [equal.1, equal.2]⟩
  simp only [onePage, same]

theorem onePage_zero {table : BitVec 40} {i : BitVec 9} (later : i ≠ 0) (other : ¬ (table = 1 ∧ i = 510)) :
    onePage (slot table i) = 0 := by
  simp only [onePage_slot, later, and_false, if_false]
  exact emptyTables_zero other

theorem onePage_descend {path : List (BitVec 9)} {table : BitVec 40} (valid : TablePath path)
    (reached : forkRadix.descend onePage 1 path = some table) :
    path = List.replicate path.length 0 ∧ table = BitVec.ofNat 40 (path.length + 1) := by
  induction path using List.reverseRecOn generalizing table with
  | nil => exact ⟨rfl, (Option.some.inj reached).symm⟩
  | append_singleton path i ih =>
    rw [Radix.descend_concat, Option.bind_eq_some_iff] at reached
    obtain ⟨parent, found, entry⟩ := reached
    obtain ⟨zeros, rfl⟩ := ih (tablePath_closed path i valid) found
    change (if onePage (slot _ i) = 0 then none else some (frameOf (onePage (slot _ i)))) = some table at entry
    have short := valid.1
    rw [List.length_append, List.length_singleton] at short
    by_cases first : i = 0
    · subst first
      have depth : path.length = 0 ∨ path.length = 1 ∨ path.length = 2 := by omega
      rw [onePage_slot] at entry
      rw [List.length_append, List.length_singleton]
      refine ⟨?_, ?_⟩
      · rw [List.replicate_succ', ← zeros]
      · rcases depth with depth | depth | depth <;> rw [depth] at entry ⊢ <;> cases entry <;> rfl
    · have other : ¬ (BitVec.ofNat 40 (path.length + 1) = 1 ∧ i = 510) := by
        intro recursive
        have depth := congrArg BitVec.toNat recursive.1
        rw [BitVec.toNat_ofNat, Nat.mod_eq_of_lt (by omega)] at depth
        have start : path.length = 0 := Nat.succ.inj depth
        rw [List.length_eq_zero_iff.mp start, recursive.2] at valid
        exact valid.2 rfl
      rw [onePage_zero first other, if_pos rfl] at entry
      cases entry

theorem onePage_tree : forkRadix.Tree TablePath onePage 1 := by
  intro left right table leftValid rightValid leftReached rightReached
  obtain ⟨leftZeros, leftTable⟩ := onePage_descend leftValid leftReached
  obtain ⟨rightZeros, rightTable⟩ := onePage_descend rightValid rightReached
  have same := congrArg BitVec.toNat (leftTable.symm.trans rightTable)
  have leftShort := leftValid.1
  have rightShort := rightValid.1
  rw [BitVec.toNat_ofNat, BitVec.toNat_ofNat] at same
  rw [leftZeros, rightZeros, show left.length = right.length by omega]

theorem onePage_bound {path : List (BitVec 9)} {table : BitVec 40} (valid : TablePath path)
    (reached : forkRadix.descend onePage 1 path = some table) : table.toNat ≤ 4 := by
  have short := valid.1
  rw [(onePage_descend valid reached).2, BitVec.toNat_ofNat]
  omega

theorem onePage_linear (path : List (BitVec 9)) (table : BitVec 40) (valid : TablePath path)
    (reached : forkRadix.descend onePage 1 path = some table) : table.toNat < 2 ^ 19 :=
  Nat.lt_of_le_of_lt (onePage_bound valid reached) (by decide)

theorem onePage_followed {table : BitVec 40} (nonzero : onePage (slot table 0) ≠ 0) :
    Followed onePage true table 0 := by
  intro j before
  rw [show j = 0 from BitVec.eq_of_toNat_eq (Nat.le_zero.mp before)]
  exact nonzero

theorem onePage_pointerZero (i : BitVec 9) (followed : Followed onePage true 1 i) :
    ∃ j, onePage (slot (below onePage 1 i) j) = 0 := by
  have only : i = 0 := by
    by_contra later
    have after : 1 ≤ i.toNat := Nat.one_le_iff_ne_zero.mpr fun zero => later (BitVec.eq_of_toNat_eq zero)
    exact followed 1 after (onePage_zero (by decide) (by decide))
  refine ⟨1, ?_⟩
  rw [only]
  exact onePage_zero (by decide) (by decide)

theorem onePage_fresh : FreshTables onePage 1 [6, 7, 8, 9] := by
  refine ⟨by decide, by simp, ?_⟩
  intro frame member path valid reached
  have later : ∀ frame ∈ ([6, 7, 8, 9] : List (BitVec 40)), 4 < frame.toNat := by simp
  exact Nat.not_le.mpr (later frame member) (onePage_bound valid reached)

theorem one_page_shared :
    ∃ next rest,
      copyPageTable takePage (clonePgdir onePage 0x1000 0x6000) [0x7000, 0x8000, 0x9000] 0x1000 0x6000 true =
        some (next, rest) ∧
      next (slot 4 0) = 0x4000000000005005 ∧
      ∃ copied, pageRadix.descend next 6 [0, 0, 0] = some copied ∧ next (slot copied 0) = 0x4000000000005005 := by
  obtain ⟨next, rest, executed, pages, _⟩ := fork_shares_copy_on_write onePage 1 6 [7, 8, 9] onePage_tree onePage_linear
    ⟨1, by decide, onePage_zero (by decide) (by decide)⟩ onePage_pointerZero onePage_fresh (by decide +kernel)
  have pointer : Followed onePage true 2 0 := onePage_followed (by decide)
  obtain ⟨_, copied, reached, shared⟩ := pages 0 0 0 4 (onePage_followed (by decide)) pointer (by decide +kernel)
  exact ⟨next, rest, executed, (shared 0).1.trans (by decide +kernel), copied, reached,
    (shared 0).2.trans (by decide +kernel)⟩

end Sbunix.Paging
