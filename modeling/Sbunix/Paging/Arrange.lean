import Sbunix.Paging.Marks
import Mathlib.Data.List.Lattice

namespace Sbunix.Paging

open Library

section Arrange

variable (old next : Memory)

def Parted (leading : Bool) (Deeper : BitVec 40 → BitVec 40 → List (BitVec 40) → Prop) (table copied : BitVec 40)
    (used : List (BitVec 40)) (i : Nat) : Prop :=
  ∃ parts : BitVec 9 → List (BitVec 40),
    (∀ j, i ≤ j.toNat → Followed old leading table j → ∃ dir deeper, parts j = dir :: deeper ∧ (parts j).Nodup ∧
      parts j ⊆ used ∧ decode (next (slot copied j)) = some dir ∧ Deeper (below old table j) dir deeper) ∧
    ∀ j k, i ≤ j.toNat → i ≤ k.toNat → Followed old leading table j → Followed old leading table k → j ≠ k →
      (parts j).Disjoint (parts k)

def Arranged : List Bool → BitVec 40 → BitVec 40 → List (BitVec 40) → Prop
  | [], _, _, _ => True
  | leading :: levels, table, copied, used => Parted old next leading (Arranged levels) table copied used 0

variable {old next} {leading : Bool} {levels : List Bool} {table copied found : BitVec 40} {used : List (BitVec 40)}

theorem Arranged.congr {later : Memory} (arranged : Arranged old next levels table copied used)
    (same : ∀ other, other ∈ copied :: used → ∀ i, later (slot other i) = next (slot other i)) :
    Arranged old later levels table copied used := by
  induction levels generalizing table copied used with
  | nil => trivial
  | cons leading levels ih =>
    obtain ⟨parts, leads, apart⟩ := arranged
    refine ⟨parts, ?_, apart⟩
    intro i start followed
    obtain ⟨dir, deeper, part, distinct, inside, leads, arranged⟩ := leads i start followed
    refine ⟨dir, deeper, part, distinct, inside, ?_, ih arranged ?_⟩
    · rw [same copied List.mem_cons_self]
      exact leads
    · intro other member
      exact same other (List.mem_cons_of_mem _ (inside (part ▸ member)))

theorem Arranged.enter {others : List (BitVec 40)} (arranged : Arranged old next (leading :: levels) table copied used)
    (planted : Planted old others next (leading :: levels) table copied) {i : BitVec 9}
    (followed : Followed old leading table i) {rest : List (BitVec 9)}
    (reached : pageRadix.descend next copied (i :: rest) = some found) :
    ∃ dir deeper, (dir :: deeper).Nodup ∧ dir :: deeper ⊆ used ∧
      Arranged old next levels (below old table i) dir deeper ∧
      (∀ j, ¬ Entry old levels (below old table i) j → next (slot dir j) = 0) ∧
      Planted old others next levels (below old table i) dir ∧ pageRadix.descend next dir rest = some found := by
  obtain ⟨parts, leads, _⟩ := arranged
  obtain ⟨dir, deeper, part, distinct, inside, leads, arranged⟩ := leads i (Nat.zero_le _) followed
  obtain ⟨planted_dir, _, planted_leads, empty, planted, reached⟩ := planted.enter followed reached
  cases leads.symm.trans planted_leads
  rw [part] at distinct inside
  exact ⟨dir, deeper, distinct, inside, arranged, empty, planted, reached⟩

/-- Where what is not written is zero, a path goes on at the written entries only. -/
theorem entry_of_reached (blank : ∀ j, ¬ Entry old levels table j → next (slot copied j) = 0) {path : List (BitVec 9)}
    (reached : pageRadix.descend next copied path = some found) (i : BitVec 9) (head : path.head? = some i) :
    Entry old levels table i := by
  cases levels with
  | nil => trivial
  | cons leading levels =>
    cases path with
    | nil => cases head
    | cons j rest =>
      cases head
      exact followed_of_reached blank reached

theorem Arranged.tables {others : List (BitVec 40)} (arranged : Arranged old next levels table copied used)
    (planted : Planted old others next levels table copied) {path : List (BitVec 9)}
    (head : ∀ i, path.head? = some i → Entry old levels table i) (short : path.length ≤ levels.length)
    (reached : pageRadix.descend next copied path = some found) :
    found ∈ copied :: used ∧ (path ≠ [] → found ∈ used) := by
  induction levels generalizing table copied used path with
  | nil =>
    cases List.length_eq_zero_iff.mp (Nat.le_zero.mp short)
    cases reached
    exact ⟨List.mem_cons_self, fun longer => absurd rfl longer⟩
  | cons leading levels ih =>
    cases path with
    | nil =>
      cases reached
      exact ⟨List.mem_cons_self, fun longer => absurd rfl longer⟩
    | cons i rest =>
      obtain ⟨dir, deeper, _, inside, arranged, empty, planted, reached⟩ :=
        arranged.enter planted (head i rfl) reached
      have member := inside (ih arranged planted (entry_of_reached empty reached) (by simpa using short) reached).1
      exact ⟨List.mem_cons_of_mem _ member, fun _ => member⟩

/-- Different paths lead to different tables of a copy. -/
theorem Arranged.injective {others : List (BitVec 40)} (arranged : Arranged old next levels table copied used)
    (planted : Planted old others next levels table copied) (apart : copied ∉ used) {left right : List (BitVec 9)}
    (leftHead : ∀ i, left.head? = some i → Entry old levels table i) (leftShort : left.length ≤ levels.length)
    (leftReached : pageRadix.descend next copied left = some found)
    (rightHead : ∀ i, right.head? = some i → Entry old levels table i) (rightShort : right.length ≤ levels.length)
    (rightReached : pageRadix.descend next copied right = some found) : left = right := by
  induction levels generalizing table copied used left right with
  | nil =>
    rw [List.length_eq_zero_iff.mp (Nat.le_zero.mp leftShort), List.length_eq_zero_iff.mp (Nat.le_zero.mp rightShort)]
  | cons leading levels ih =>
    cases left with
    | nil =>
      cases right with
      | nil => rfl
      | cons j right =>
        cases leftReached
        exact absurd ((arranged.tables planted rightHead rightShort rightReached).2 (by simp)) apart
    | cons i left =>
      cases right with
      | nil =>
        cases rightReached
        exact absurd ((arranged.tables planted leftHead leftShort leftReached).2 (by simp)) apart
      | cons j right =>
        have leftFollowed : Followed old leading table i := leftHead i rfl
        have rightFollowed : Followed old leading table j := rightHead j rfl
        obtain ⟨parts, leads, disjoint⟩ := arranged
        obtain ⟨dir, deeper, part, distinct, _, leftLeads, deeperLeft⟩ := leads i (Nat.zero_le _) leftFollowed
        obtain ⟨other, others, otherPart, _, _, rightLeads, deeperRight⟩ := leads j (Nat.zero_le _) rightFollowed
        obtain ⟨_, _, leftSame, leftBlank, leftPlanted, leftReached⟩ := planted.enter leftFollowed leftReached
        obtain ⟨_, _, rightSame, rightBlank, rightPlanted, rightReached⟩ := planted.enter rightFollowed rightReached
        cases leftLeads.symm.trans leftSame
        cases rightLeads.symm.trans rightSame
        have leftHead := entry_of_reached leftBlank leftReached
        have rightHead := entry_of_reached rightBlank rightReached
        by_cases same : i = j
        · subst same
          cases leftLeads.symm.trans rightLeads
          rw [part] at distinct
          rw [ih deeperLeft leftPlanted (List.nodup_cons.mp distinct).1 leftHead (by simpa using leftShort) leftReached
            rightHead (by simpa using rightShort) rightReached]
        · have first := (deeperLeft.tables leftPlanted leftHead (by simpa using leftShort) leftReached).1
          have second := (deeperRight.tables rightPlanted rightHead (by simpa using rightShort) rightReached).1
          rw [← part] at first
          rw [← otherPart] at second
          exact absurd second (disjoint i j (Nat.zero_le _) (Nat.zero_le _) leftFollowed rightFollowed same first)

end Arrange

section Loop

variable (old : Memory)

def Arranges (levels : List Bool)
    (copy : Memory → List (BitVec 64) → BitVec 64 → BitVec 64 → Option (Memory × List (BitVec 64))) : Prop :=
  ∀ m frames table copied, Copyable old levels m frames table copied →
    ∀ next used rest, frames = used ++ rest →
      copy m (frames.map frameAddress) (frameAddress table) (frameAddress copied) =
        some (next, rest.map frameAddress) →
      Arranged old next levels table copied used

variable {old} {leading : Bool} {levels : List Bool}
  {copy : Memory → List (BitVec 64) → BitVec 64 → BitVec 64 → Option (Memory × List (BitVec 64))} {words : Nat}
  (isUser : Bool) {table copied : BitVec 40}

theorem map_frameAddress_injective {left right : List (BitVec 40)}
    (same : left.map frameAddress = right.map frameAddress) : left = right :=
  List.map_injective_iff.mpr (fun _ _ => frameAddress_injective) same

theorem Parted.nothing {next : Memory} {Deeper : BitVec 40 → BitVec 40 → List (BitVec 40) → Prop}
    {used : List (BitVec 40)} {i : Nat} (past : ∀ j : BitVec 9, i ≤ j.toNat → ¬ Followed old leading table j) :
    Parted old next leading Deeper table copied used i :=
  ⟨fun _ => [], fun j later followed => absurd followed (past j later),
    fun j _ later _ followed => absurd followed (past j later)⟩

section Round

variable {m first next : Memory} {frame : BitVec 40} {used others rest : List (BitVec 40)} {e : BitVec 9}
  (separate : Separate old (leading :: levels) table) (apart : ¬ Within old (leading :: levels) table copied)
  (followed : Followed old leading table e)
  (pending : Pending old leading levels table copied e.toNat m (frame :: (used ++ rest)))
  (round : CopiedEntry old levels m first frame used table copied e)

include separate apart followed pending round

theorem Parted.cons (taken : ∀ other ∈ others, other ∈ rest)
    (done : CopiedFrom old leading levels first next others table copied (e.toNat + 1))
    (arranged : Arranged old first levels (below old table e) frame used)
    (parted : Parted old next leading (Arranged old next levels) table copied others (e.toNat + 1)) :
    Parted old next leading (Arranged old next levels) table copied (frame :: used ++ others) e.toNat := by
  obtain ⟨parts, leads, disjoint⟩ := parted
  have distinct := pending.distinct
  rw [← List.cons_append] at distinct
  obtain ⟨own, _, fresh⟩ := List.nodup_append.mp distinct
  have later {j : BitVec 9} (start : e.toNat ≤ j.toNat) (other : j ≠ e) : e.toNat + 1 ≤ j.toNat := by
    have different : j.toNat ≠ e.toNat := fun same => other (BitVec.eq_of_toNat_eq same)
    omega
  have apartParts {j : BitVec 9} (start : e.toNat + 1 ≤ j.toNat) (other_followed : Followed old leading table j) :
      (frame :: used).Disjoint (parts j) := by
    obtain ⟨_, _, _, _, inside, _⟩ := leads j start other_followed
    intro other member listed
    exact fresh other member other (taken other (inside listed)) rfl
  refine ⟨fun j => if j = e then frame :: used else parts j, ?_, ?_⟩
  · intro j start other_followed
    by_cases here : j = e
    · subst here
      simp only [if_true]
      refine ⟨frame, used, rfl, own, List.subset_append_left _ _, round.leads_later apart pending taken done, ?_⟩
      apply arranged.congr
      exact fun other member => done.kept_earlier separate apart followed pending round taken (Or.inl member)
    · obtain ⟨dir, deeper, part, distinct, inside, leads, arranged⟩ := leads j (later start here) other_followed
      simp only [if_neg here]
      exact ⟨dir, deeper, part, distinct, fun other member => List.mem_append_right _ (inside member), leads, arranged⟩
  · intro j k jStart kStart jFollowed kFollowed different
    by_cases first : j = e
    · have second : k ≠ e := fun same => different (first.trans same.symm)
      simp only [if_pos first, if_neg second]
      exact apartParts (later kStart second) kFollowed
    · by_cases second : k = e
      · simp only [if_neg first, if_pos second]
        exact (apartParts (later jStart first) jFollowed).symm
      · simp only [if_neg first, if_neg second]
        exact disjoint j k (later jStart first) (later kStart second) jFollowed kFollowed different

end Round

variable (body : Plants old levels copy) (arranges : Arranges old levels copy) (small : words ≤ 512)
  (cleared : levels ≠ [] → words = 512)

include body arranges small cleared

theorem copyEntries_parted (separate : Separate old (leading :: levels) table)
    (ended : Ended old (leading :: levels) table) (apart : ¬ Within old (leading :: levels) table copied)
    (remaining i : Nat) (total : i + remaining = 512) (m : Memory) (frames : List (BitVec 40))
    (pending : Pending old leading levels table copied i m frames)
    (enough : countFrom old leading (tableCount old levels) table i remaining ≤ frames.length) {next : Memory}
    {used rest : List (BitVec 40)} (split : frames = used ++ rest)
    (executed : copyEntries takePage setEntry leading copy words isUser (frameAddress table)
      (frameAddress copied) i remaining m (frames.map frameAddress) = some (next, rest.map frameAddress)) :
    Parted old next leading (Arranged old next levels) table copied used i := by
  induction remaining generalizing i m frames used with
  | zero =>
    apply Parted.nothing
    intro j later
    have := j.isLt
    omega
  | succ remaining ih =>
    obtain ⟨e, rfl⟩ : ∃ e : BitVec 9, e.toNat = i := ⟨BitVec.ofNat 9 i, by rw [BitVec.toNat_ofNat]; omega⟩
    have name : BitVec.ofNat 9 e.toNat = e := by rw [BitVec.ofNat_toNat, BitVec.setWidth_eq]
    rw [copyEntries, slot_ofNat table e.isLt, slot_ofNat copied e.isLt, name, pending.tableSame] at executed
    rw [countFrom, name] at enough
    by_cases zero : old (slot table e) = 0
    · rw [if_pos zero] at enough executed
      by_cases leads : leading = true
      · apply Parted.nothing
        intro j later followed
        subst leads
        exact followed e later zero
      · rw [if_neg leads] at enough executed
        obtain ⟨parts, holds, disjoint⟩ :=
          ih (e.toNat + 1) (by omega) m frames (pending.pass leads) enough split executed
        refine ⟨parts, fun j later followed => holds j (followed.passed zero later) followed, ?_⟩
        exact fun j k jLater kLater jFollowed kFollowed =>
          disjoint j k (jFollowed.passed zero jLater) (kFollowed.passed zero kLater) jFollowed kFollowed
    · rw [if_neg zero] at enough executed
      have followed := pending.followed zero
      cases frames with
      | nil =>
        rw [List.length_nil] at enough
        omega
      | cons frame frames =>
        rw [List.length_cons] at enough
        obtain ⟨written, entered, copyable, _⟩ :=
          copyEntry_enters copy isUser small cleared separate ended apart followed pending (by omega)
        obtain ⟨first, inner, left, rfl, length, performed, round, _, _⟩ :=
          copyEntry_step isUser body small cleared separate ended apart followed pending (by omega)
        have arranged := arranges _ _ _ _ copyable first inner left rfl (entered.symm.trans performed)
        rw [performed, Option.bind_eq_bind, Option.bind_some] at executed
        rw [List.length_append] at enough
        obtain ⟨last, others, unused, rfl, _, finished, done, _⟩ :=
          copyEntries_from isUser body small cleared separate ended apart remaining (e.toNat + 1) (by omega) first left
            (pending.step separate apart followed round) (by omega)
        obtain ⟨rfl, same⟩ := Prod.mk.inj (Option.some.inj (finished.symm.trans executed))
        cases map_frameAddress_injective same
        rw [← List.append_assoc, ← List.cons_append, List.append_cancel_right_eq] at split
        subst split
        refine Parted.cons separate apart followed pending round (fun other => List.mem_append_left _) done arranged ?_
        exact ih (e.toNat + 1) (by omega) first _ (pending.step separate apart followed round) (by omega) rfl executed

variable (leading) in
theorem copyEntries_arranges : Arranges old (leading :: levels) fun m source table copied =>
    copyEntries takePage setEntry leading copy words isUser table copied 0 512 m source := by
  intro m frames table copied copyable next used rest split executed
  have pending : Pending old leading levels table copied 0 m frames := by
    constructor
    · exact copyable.same table Within.self
    · exact fun j _ followed other within => copyable.same other (Or.inr ⟨j, followed, within⟩)
    · exact fun _ j before => absurd before (Nat.not_lt_zero _)
    · exact copyable.fresh
    · exact copyable.distinct
    · exact copyable.bound
    · exact fun j _ followed => copyable.clear (by simp) j followed
  exact copyEntries_parted isUser body arranges small cleared copyable.separate copyable.ended copyable.apart 512 0
    (by decide) m frames pending copyable.enough split executed

end Loop

/-- The tables that `copy_page_table` creates are all different. -/
theorem copyPageTable_arranges (old : Memory) (isUser : Bool) :
    Arranges old forkLevels fun m source parent child => copyPageTable takePage m source parent child isUser := by
  have pages : Arranges old [] copyPages := fun _ _ _ _ _ _ _ _ _ _ => trivial
  have directories := copyEntries_plants false isUser (copyPages_plants old) (show pointerWords ≤ 512 by decide)
    fun deeper => absurd rfl deeper
  exact copyEntries_arranges true isUser
    (copyEntries_plants true isUser directories (show tableWords ≤ 512 by decide) fun _ => rfl)
    (copyEntries_arranges true isUser directories
      (copyEntries_arranges false isUser (copyPages_plants old) pages (by decide) fun deeper => absurd rfl deeper)
      (by decide) fun _ => rfl)
    (by decide) fun _ => rfl

end Sbunix.Paging
