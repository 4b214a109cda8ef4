import Sbunix.Paging.UserPage

namespace Sbunix.Paging

open Library

structure Spare (m : Memory) (root : BitVec 40) (frames : List (BitVec 40)) : Prop where
  distinct : frames.Nodup
  nonnull : ∀ frame ∈ frames, frame ≠ 0
  bound : ∀ frame ∈ frames, frame.toNat < 2 ^ 32
  unused : ∀ frame ∈ frames, ∀ path, TablePath path → pageRadix.descend m root path ≠ some frame

theorem Spare.congr {m next : Memory} {root : BitVec 40} {frames : List (BitVec 40)} (spare : Spare m root frames)
    (descend : ∀ path, TablePath path → pageRadix.descend next root path = pageRadix.descend m root path) :
    Spare next root frames := by
  refine ⟨spare.distinct, spare.nonnull, spare.bound, ?_⟩
  intro frame member path valid
  rw [descend path valid]
  exact spare.unused frame member path valid

def UpperClear (m : Memory) (root : BitVec 40) (virt : BitVec 64) : Prop :=
  ∀ path j, path ++ [j] <+: pagePath virt → ∀ table, pageRadix.descend m root path = some table →
    m (slot table j) &&& ptePresent = 0 → HighClear (m (slot table j))

def AbsentClear (m : Memory) (root : BitVec 40) : Prop :=
  ∀ path j table, TablePath path → pageRadix.descend m root path = some table → m (slot table j) &&& ptePresent = 0 →
    HighClear (m (slot table j))

theorem AbsentClear.upper {m : Memory} {root : BitVec 40} {virt : BitVec 64} (clear : AbsentClear m root)
    (outside : pml4Index virt ≠ 510) : UpperClear m root virt := by
  intro path j inside table reached absent
  exact clear path j table ((pagePath_valid outside).shorter ((List.prefix_append _ _).trans inside)) reached absent

theorem memsetZero_own (m : Memory) (frame : BitVec 40) (i : BitVec 9) {n : Nat} (small : n ≤ 512) :
    memsetZero m (frameAddress frame) n (slot frame i) = if i.toNat < n then 0 else m (slot frame i) := by
  induction n with
  | zero => rfl
  | succ n ih =>
    rw [memsetZero, slot_ofNat frame (by omega)]
    by_cases here : i.toNat = n
    · rw [(slot_eq_ofNat (by omega)).mpr ⟨rfl, here⟩, Function.update_self, if_pos (by omega)]
    · rw [Function.update_of_ne fun same => here ((slot_eq_ofNat (by omega)).mp same).2, ih (by omega)]
      have bounds : i.toNat < n ↔ i.toNat < n + 1 := by omega
      simp only [bounds]

theorem decode_address {e : BitVec 64} {table : BitVec 40} (leads : decode e = some table) :
    pagePhysicalAddress e = frameAddress table := by
  unfold decode at leads
  split at leads
  · cases leads
  · rw [pagePhysicalAddress_eq, Option.some.inj leads]

structure Opened (m next : Memory) (root : BitVec 40) (frames rest : List (BitVec 40)) (path : List (BitVec 9))
    (words : Nat) (table : BitVec 40) : Prop where
  tables : Tables next root
  spare : Spare next root rest
  reached : pageRadix.descend next root path = some table
  taken : pageRadix.descend m root path = some table ∧ next = m ∧ rest = frames ∨
    pageRadix.descend m root path = none ∧ frames = table :: rest ∧
      ∀ j, next (slot table j) = if j.toNat < words then 0 else m (slot table j)
  descend : ∀ other, TablePath other → other ≠ path →
    pageRadix.descend next root other = pageRadix.descend m root other
  kept : ∀ other found j, TablePath other → other ++ [j] ≠ path → pageRadix.descend m root other = some found →
    next (slot found j) = m (slot found j)
  untouched : ∀ frame ∈ rest, ∀ j, next (slot frame j) = m (slot frame j)

section EnsureTable

variable {m : Memory} {root table : BitVec 40} {parent : List (BitVec 9)} {i : BitVec 9}
  {frames : List (BitVec 40)} {words : Nat} (isUser : Bool) (tables : Tables m root)
  (spare : Spare m root frames) (valid : TablePath (parent ++ [i]))
  (reached : pageRadix.descend m root parent = some table)

def withTable (m : Memory) (address : BitVec 64) (frame : BitVec 40) (words : Nat) (isUser : Bool) : Memory :=
  Function.update (memsetZero m (frameAddress frame) words) address
    (setEntry (memsetZero m (frameAddress frame) words address) (frameAddress frame) isUser)

theorem withTable_own {frame : BitVec 40} (other : frame ≠ table) (small : words ≤ 512) (j : BitVec 9) :
    withTable m (slot table i) frame words isUser (slot frame j) = if j.toNat < words then 0 else m (slot frame j) := by
  rw [withTable, Function.update_of_ne fun same => other (slot_injective same).1, memsetZero_own _ _ _ small]

theorem withTable_kept {frame left : BitVec 40} {j : BitVec 9} (other : left ≠ frame)
    (different : ¬ (left = table ∧ j = i)) (small : words ≤ 512) :
    withTable m (slot table i) frame words isUser (slot left j) = m (slot left j) := by
  rw [withTable, Function.update_of_ne fun same => different (slot_injective same), memsetZero_slot other j small]

include spare valid reached

/-- Only the tables of the upper levels have to be cleared as a whole. -/
theorem withTable_attached {frame : BitVec 40} (member : frame ∈ frames) (absent : m (slot table i) &&& ptePresent = 0)
    (clear : HighClear (m (slot table i))) (small : words ≤ 512) (whole : words = 512 ∨ parent.length = 2) :
    pageRadix.Attached TablePath m (withTable m (slot table i) frame words isUser) parent table i frame := by
  have notTable : frame ≠ table := fun same =>
    spare.unused frame member parent (tablePath_closed parent i valid) (same ▸ reached)
  constructor
  · exact decode_eq_none.mpr absent
  · change decode (withTable m (slot table i) frame words isUser (slot table i)) = _
    rw [withTable, Function.update_self, memsetZero_slot notTable.symm i small, decode,
      if_neg (setEntry_present _ _ _), frameOf_setEntry clear (spare.bound frame member) isUser]
  · intro j longer
    have all : words = 512 := by
      rcases whole with all | deep
      · exact all
      · have length := longer.1
        simp only [List.length_append, List.length_singleton] at length
        omega
    have inside : j.toNat < words := all ▸ j.isLt
    change decode (withTable m (slot table i) frame words isUser (slot frame j)) = none
    rw [withTable_own isUser notTable small, if_pos inside]
    rfl
  · intro left j other different
    exact withTable_kept isUser other different small

include tables

theorem withTable_opened {frame : BitVec 40} {rest : List (BitVec 40)} (split : frames = frame :: rest)
    (absent : m (slot table i) &&& ptePresent = 0) (clear : HighClear (m (slot table i))) (small : words ≤ 512)
    (whole : words = 512 ∨ parent.length = 2) :
    Opened m (withTable m (slot table i) frame words isUser) root frames rest (parent ++ [i]) words frame := by
  subst split
  have unused := spare.unused frame (by simp)
  have shorter := tablePath_closed parent i valid
  have attached := withTable_attached isUser spare valid reached List.mem_cons_self absent clear small whole
  have notTable : ∀ other ∈ frame :: rest, other ≠ table := fun other member same =>
    spare.unused other member parent shorter (same ▸ reached)
  have descend {path : List (BitVec 9)} (path_valid : TablePath path) :=
    Radix.descend_attach tablePath_closed tables.tree shorter reached unused attached path_valid
  have distinct := List.nodup_cons.mp spare.distinct
  refine ⟨⟨?_, ?_⟩, ⟨distinct.2, ?_, ?_, ?_⟩, ?_, Or.inr ⟨?_, rfl, ?_⟩, ?_, ?_, ?_⟩
  · exact tables.tree.attach tablePath_closed shorter reached unused attached
  · intro path path_valid null
    rw [descend path_valid] at null
    split at null
    · exact spare.nonnull frame (by simp) (Option.some.inj null)
    · exact tables.nonnull path path_valid null
  · exact fun other member => spare.nonnull other (List.mem_cons_of_mem _ member)
  · exact fun other member => spare.bound other (List.mem_cons_of_mem _ member)
  · intro later member path path_valid used
    rw [descend path_valid] at used
    split at used
    · cases used
      exact distinct.1 member
    · exact spare.unused later (List.mem_cons_of_mem _ member) path path_valid used
  · rw [descend valid, if_pos rfl]
  · rw [Radix.descend_concat, reached, Option.bind_some]
    exact decode_eq_none.mpr absent
  · exact withTable_own isUser (notTable frame (by simp)) small
  · intro other otherValid different
    rw [descend otherValid, if_neg different]
  · intro other found j otherValid different reachedOther
    apply withTable_kept isUser _ _ small
    · exact fun same => unused other otherValid (same ▸ reachedOther)
    · rintro ⟨rfl, rfl⟩
      cases tables.tree other parent found otherValid shorter reachedOther reached
      exact different rfl
  · intro later member j
    apply withTable_kept isUser _ _ small
    · exact fun same => distinct.1 (same ▸ member)
    · exact fun same => notTable later (List.mem_cons_of_mem _ member) same.1

variable (parent words) in
theorem ensureTable_opened (small : words ≤ 512) (whole : words = 512 ∨ parent.length = 2)
    (clear : m (slot table i) &&& ptePresent = 0 → HighClear (m (slot table i)))
    (enough : pageRadix.descend m root (parent ++ [i]) = none → frames ≠ []) :
    ∃ next rest below,
      ensureTable takeFrame setEntry m (frames.map frameAddress) (slot table i) words isUser =
        some (next, rest.map frameAddress) ∧ Opened m next root frames rest (parent ++ [i]) words below := by
  by_cases absent : m (slot table i) &&& ptePresent = 0
  · have none : pageRadix.descend m root (parent ++ [i]) = none := by
      rw [Radix.descend_concat, reached, Option.bind_some]
      exact decode_eq_none.mpr absent
    cases frames with
    | nil => exact absurd rfl (enough none)
    | cons frame rest =>
      have opened := withTable_opened isUser tables spare valid reached rfl absent (clear absent) small whole
      refine ⟨_, rest, frame, ?_, opened⟩
      have nonnull : frameAddress frame ≠ 0 :=
        fun null => spare.nonnull frame (by simp) (frameAddress_eq_zero.mp null)
      simp only [ensureTable, absent, if_true, takeFrame, List.map_cons, Option.bind_eq_bind, Option.bind_some, nonnull,
        if_false]
      rfl
  · have found : pageRadix.descend m root (parent ++ [i]) = some (frameOf (m (slot table i))) := by
      rw [Radix.descend_concat, reached, Option.bind_some]
      exact if_neg absent
    exact ⟨m, frames, _, if_neg absent, tables, spare, found, Or.inl ⟨found, rfl, rfl⟩, fun _ _ _ => rfl,
      fun _ _ _ _ _ _ => rfl, fun _ _ _ => rfl⟩

end EnsureTable

section Opened

variable {m next : Memory} {root table : BitVec 40} {frames rest : List (BitVec 40)} {path : List (BitVec 9)}
  {words : Nat} (opened : Opened m next root frames rest path words table)

include opened

theorem Opened.leaf {other : List (BitVec 9)} (valid : TablePath other) (different : other ≠ path)
    {j : BitVec 9} (longer : other ++ [j] ≠ path) :
    pageRadix.leaf presentEntry next root other j = pageRadix.leaf presentEntry m root other j := by
  rw [Radix.leaf, Radix.leaf, opened.descend other valid different]
  cases found : pageRadix.descend m root other with
  | none => rfl
  | some last => exact congrArg presentEntry (opened.kept other last j valid longer found)

theorem Opened.entry {parent : List (BitVec 9)} {i : BitVec 9} {above : BitVec 40} (whole : path = parent ++ [i])
    (found : pageRadix.descend next root parent = some above) :
    pagePhysicalAddress (next (slot above i)) = frameAddress table := by
  have reached := opened.reached
  rw [whole, Radix.descend_concat, found, Option.bind_some] at reached
  exact decode_address reached

theorem Opened.length : frames.length ≤ rest.length + 1 := by
  rcases opened.taken with ⟨_, _, rfl⟩ | ⟨_, rfl, _⟩
  · exact Nat.le_succ _
  · exact Nat.le_refl _

theorem Opened.subset {frame : BitVec 40} (member : frame ∈ rest) : frame ∈ frames := by
  rcases opened.taken with ⟨_, _, rfl⟩ | ⟨_, rfl, _⟩
  · exact member
  · exact List.mem_cons_of_mem _ member

theorem Opened.added {other : List (BitVec 9)} {found : BitVec 40} (valid : TablePath other)
    (reached : pageRadix.descend next root other = some found) :
    pageRadix.descend m root other = some found ∨ found ∈ frames := by
  by_cases here : other = path
  · subst here
    cases opened.reached.symm.trans reached
    rcases opened.taken with ⟨existed, _⟩ | ⟨_, rfl, _⟩
    · exact Or.inl existed
    · exact Or.inr List.mem_cons_self
  · rw [opened.descend other valid here] at reached
    exact Or.inl reached

/-- An entry that leads nowhere is an old one, or belongs to the new table. -/
theorem Opened.absent {other : List (BitVec 9)} {found : BitVec 40} {j : BitVec 9} (valid : TablePath other)
    (different : other ≠ path) (reached : pageRadix.descend next root other = some found)
    (absent : next (slot found j) &&& ptePresent = 0) :
    pageRadix.descend m root other = some found ∧ next (slot found j) = m (slot found j) := by
  have before := reached
  rw [opened.descend other valid different] at before
  refine ⟨before, opened.kept other found j valid ?_ before⟩
  intro entry
  have leads : pageRadix.descend next root (other ++ [j]) = some table := entry ▸ opened.reached
  rw [Radix.descend_concat, reached, Option.bind_some] at leads
  change decode (next (slot found j)) = _ at leads
  rw [decode_eq_none.mpr absent] at leads
  cases leads

theorem Opened.absentClear (zero : ∀ frame ∈ frames, ∀ j, m (slot frame j) = 0) (clear : AbsentClear m root) :
    AbsentClear next root := by
  intro other j found valid reached absent
  by_cases here : other = path
  · subst here
    cases opened.reached.symm.trans reached
    rcases opened.taken with ⟨existed, rfl, _⟩ | ⟨_, split, contents⟩
    · exact clear other j table valid existed absent
    · rw [contents, zero table (split ▸ List.mem_cons_self), ite_self]
      rfl
  · obtain ⟨before, same⟩ := opened.absent valid here reached absent
    rw [same] at absent ⊢
    exact clear other j found valid before absent

theorem Opened.unchanged (existed : pageRadix.descend m root path ≠ none) : next = m ∧ rest = frames := by
  rcases opened.taken with ⟨_, same⟩ | ⟨missing, _⟩
  · exact same
  · exact absurd missing existed

theorem Opened.split (missing : pageRadix.descend m root path = none) : frames = table :: rest := by
  rcases opened.taken with ⟨found, _⟩ | ⟨_, split, _⟩
  · rw [missing] at found
    cases found
  · exact split

theorem Opened.upperClear {virt : BitVec 64} (clear : UpperClear m root virt) (outside : pml4Index virt ≠ 510)
    (whole : words = 512) : UpperClear next root virt := by
  intro other j inside found reached absent
  have valid : TablePath other :=
    (pagePath_valid outside).shorter ((List.prefix_append _ _).trans inside)
  rcases opened.taken with ⟨_, rfl, _⟩ | ⟨missing, _, contents⟩
  · exact clear other j inside found reached absent
  · by_cases here : other = path
    · rw [here, opened.reached] at reached
      cases reached
      have bound : j.toNat < words := whole ▸ j.isLt
      rw [contents, if_pos bound]
      rfl
    · obtain ⟨before, same⟩ := opened.absent valid here reached absent
      rw [same] at absent ⊢
      exact clear other j inside found before absent

end Opened

/-- The frame that becomes the page table of a page, where it has none: the frames before it are for the missing tables
    above. -/
def pageTableFrame (m : Memory) (root : BitVec 40) (virt : BitVec 64) (frames : List (BitVec 40)) :
    Option (BitVec 40) :=
  if (pageRadix.descend m root [pml4Index virt]).isNone then frames[2]?
  else if (pageRadix.descend m root [pml4Index virt, pointerIndex virt]).isNone then frames[1]?
  else frames[0]?

structure PageOpened (m next : Memory) (root : BitVec 40) (frames rest : List (BitVec 40)) (virt : BitVec 64)
    (table : BitVec 40) : Prop where
  tables : Tables next root
  spare : Spare next root rest
  reached : pageRadix.descend next root (pagePath virt) = some table
  taken : pageRadix.descend m root (pagePath virt) = some table ∧ next = m ∧ rest = frames ∨
    pageRadix.descend m root (pagePath virt) = none ∧ pageTableFrame m root virt frames = some table ∧
      ∀ j, next (slot table j) = if j = 0 then 0 else m (slot table j)
  leaves : ∀ path j, TablePath path → path.length = 3 → path ≠ pagePath virt →
    pageRadix.leaf presentEntry next root path j = pageRadix.leaf presentEntry m root path j
  recursive : next (slot root 510) = m (slot root 510)
  length : frames.length ≤ rest.length + 3
  subset : ∀ frame ∈ rest, frame ∈ frames
  untouched : ∀ frame ∈ rest, ∀ j, next (slot frame j) = m (slot frame j)
  added : ∀ path found, TablePath path → pageRadix.descend next root path = some found →
    pageRadix.descend m root path = some found ∨ found ∈ frames
  clear : (∀ frame ∈ frames, ∀ j, m (slot frame j) = 0) → AbsentClear m root → AbsentClear next root

section PageEntry

variable {m m₁ m₂ m₃ : Memory} {root pdpe pde table : BitVec 40} {frames frames₁ frames₂ frames₃ : List (BitVec 40)}
  {virt : BitVec 64} (opened₁ : Opened m m₁ root frames frames₁ [pml4Index virt] tableWords pdpe)
  (opened₂ : Opened m₁ m₂ root frames₁ frames₂ [pml4Index virt, pointerIndex virt] tableWords pde)
  (opened₃ : Opened m₂ m₃ root frames₂ frames₃ (pagePath virt) pointerWords table)
  (outside : pml4Index virt ≠ 510)

include opened₁ opened₂

theorem descend_upper {path : List (BitVec 9)} (valid : TablePath path) (last : path.length = 3) :
    pageRadix.descend m₂ root path = pageRadix.descend m root path := by
  rw [opened₂.descend path valid fun same => by simp [same] at last,
    opened₁.descend path valid fun same => by simp [same] at last]

theorem pageTableFrame_eq (outside : pml4Index virt ≠ 510) : pageTableFrame m root virt frames = frames₂.head? := by
  have path₂ : TablePath [pml4Index virt, pointerIndex virt] := (pagePath_valid outside).shorter ⟨_, rfl⟩
  have second : pageRadix.descend m₁ root [pml4Index virt, pointerIndex virt] =
      pageRadix.descend m root [pml4Index virt, pointerIndex virt] := opened₁.descend _ path₂ (by simp)
  unfold pageTableFrame
  cases pointer : pageRadix.descend m root [pml4Index virt] with
  | none =>
    have below : pageRadix.descend m root [pml4Index virt, pointerIndex virt] = none := by
      by_contra existed
      exact Radix.descend_shorter existed ⟨[pointerIndex virt], rfl⟩ pointer
    rw [opened₁.split pointer, opened₂.split (second.trans below), List.head?_eq_getElem?]
    rfl
  | some _ =>
    obtain ⟨rfl, rfl⟩ := opened₁.unchanged (by simp [pointer])
    cases directory : pageRadix.descend m₁ root [pml4Index virt, pointerIndex virt] with
    | none =>
      rw [opened₂.split directory, List.head?_eq_getElem?]
      rfl
    | some _ =>
      obtain ⟨rfl, rfl⟩ := opened₂.unchanged (by simp [directory])
      rw [List.head?_eq_getElem?]
      rfl

theorem untouched_upper {frame : BitVec 40} (member : frame ∈ frames₂) (j : BitVec 9) :
    m₂ (slot frame j) = m (slot frame j) := by
  rw [opened₂.untouched frame member, opened₁.untouched frame (opened₂.subset member)]

include opened₃ outside

theorem PageOpened.of_steps : PageOpened m m₃ root frames frames₃ virt table := by
  have upper := descend_upper opened₁ opened₂ (pagePath_valid outside) rfl
  have length₁ := opened₁.length
  have length₂ := opened₂.length
  have length₃ := opened₃.length
  have subset₂ (frame : BitVec 40) (member : frame ∈ frames₂) : frame ∈ frames := opened₁.subset (opened₂.subset member)
  refine ⟨opened₃.tables, opened₃.spare, opened₃.reached, ?_, ?_, ?_, by omega,
    fun frame member => subset₂ frame (opened₃.subset member), ?_, ?_, ?_⟩
  · rcases opened₃.taken with ⟨found, rfl, rfl⟩ | ⟨missing, split, contents⟩
    · -- the page table was there, and so were the tables above it
      rw [upper] at found
      have existed : pageRadix.descend m root (pagePath virt) ≠ none := by simp [found]
      obtain ⟨rfl, rfl⟩ := opened₁.unchanged (Radix.descend_shorter existed ⟨_, rfl⟩)
      obtain ⟨rfl, rfl⟩ := opened₂.unchanged (Radix.descend_shorter existed ⟨_, rfl⟩)
      exact Or.inl ⟨found, rfl, rfl⟩
    · refine Or.inr ⟨upper.symm.trans missing, ?_, ?_⟩
      · rw [pageTableFrame_eq opened₁ opened₂ outside, split]
        rfl
      · intro j
        have first : j.toNat < pointerWords ↔ j = 0 := by
          rw [pointerWords, Nat.lt_one_iff]
          exact ⟨fun zero => BitVec.eq_of_toNat_eq zero, fun zero => by rw [zero]; rfl⟩
        rw [contents, untouched_upper opened₁ opened₂ (split ▸ List.mem_cons_self)]
        simp only [first]
  · intro path j valid deep different
    have longer {short : List (BitVec 9)} (bound : short.length ≤ 3) : path ++ [j] ≠ short := by
      intro same
      rw [← same, List.length_append, deep] at bound
      exact absurd bound (by simp)
    rw [opened₃.leaf valid different (longer (by simp [pagePath])),
      opened₂.leaf valid (fun same => by simp [same] at deep) (longer (by simp)),
      opened₁.leaf valid (fun same => by simp [same] at deep) (longer (by simp))]
  · have kept {path : List (BitVec 9)} (head : path.head? = some (pml4Index virt)) : [] ++ [510] ≠ path := by
      intro same
      rw [← same] at head
      exact outside (Option.some.inj head).symm
    have empty : TablePath [] := ⟨by decide, by simp⟩
    rw [opened₃.kept [] root 510 empty (kept rfl) rfl, opened₂.kept [] root 510 empty (kept rfl) rfl,
      opened₁.kept [] root 510 empty (kept rfl) rfl]
  · intro frame member j
    rw [opened₃.untouched frame member, untouched_upper opened₁ opened₂ (opened₃.subset member)]
  · intro path found valid reached
    rcases opened₃.added valid reached with reached | member
    · rcases opened₂.added valid reached with reached | member
      · exact opened₁.added valid reached
      · exact Or.inr (opened₁.subset member)
    · exact Or.inr (subset₂ found member)
  · intro zero clear
    have zero₁ (frame : BitVec 40) (member : frame ∈ frames₁) (j : BitVec 9) : m₁ (slot frame j) = 0 := by
      rw [opened₁.untouched frame member, zero frame (opened₁.subset member)]
    have zero₂ (frame : BitVec 40) (member : frame ∈ frames₂) (j : BitVec 9) : m₂ (slot frame j) = 0 := by
      rw [untouched_upper opened₁ opened₂ member, zero frame (subset₂ frame member)]
    exact opened₃.absentClear zero₂ (opened₂.absentClear zero₁ (opened₁.absentClear zero clear))

end PageEntry

theorem ensurePageEntry_opened {m : Memory} {root : BitVec 40} {virt : BitVec 64} {frames : List (BitVec 40)}
    (isUser : Bool) (tables : Tables m root) (spare : Spare m root frames) (enough : 3 ≤ frames.length)
    (outside : pml4Index virt ≠ 510) (clear : UpperClear m root virt) :
    ∃ next rest table,
      ensurePageEntry takeFrame (frameAddress root) m (frames.map frameAddress) virt isUser =
        some (slot table (tableIndex virt), next, rest.map frameAddress) ∧
      PageOpened m next root frames rest virt table := by
  have path₃ := pagePath_valid outside
  have path₂ : TablePath [pml4Index virt, pointerIndex virt] := path₃.shorter ⟨_, rfl⟩
  have path₁ : TablePath [pml4Index virt] := path₃.shorter ⟨_, rfl⟩
  have some_left {left : List (BitVec 40)} (long : 1 ≤ left.length) : left ≠ [] := by
    rintro rfl
    simp at long
  obtain ⟨m₁, frames₁, pdpe, executed₁, opened₁⟩ := ensureTable_opened [] tableWords isUser tables spare path₁ rfl
    (by decide) (Or.inl rfl) (clear [] _ ⟨_, rfl⟩ root rfl) fun _ => some_left (by omega)
  have clear₁ := opened₁.upperClear clear outside rfl
  have length₁ := opened₁.length
  obtain ⟨m₂, frames₂, pde, executed₂, opened₂⟩ := ensureTable_opened [pml4Index virt] tableWords isUser
    opened₁.tables opened₁.spare path₂ opened₁.reached (by decide) (Or.inl rfl)
    (clear₁ [pml4Index virt] _ ⟨_, rfl⟩ pdpe opened₁.reached) fun _ => some_left (by omega)
  have clear₂ := opened₂.upperClear clear₁ outside rfl
  have length₂ := opened₂.length
  obtain ⟨m₃, frames₃, table, executed₃, opened₃⟩ := ensureTable_opened [pml4Index virt, pointerIndex virt] pointerWords
    isUser opened₂.tables opened₂.spare path₃ opened₂.reached (by decide) (Or.inr rfl)
    (clear₂ [pml4Index virt, pointerIndex virt] _ ⟨_, rfl⟩ pde opened₂.reached) fun _ => some_left (by omega)
  refine ⟨m₃, frames₃, table, ?_, PageOpened.of_steps opened₁ opened₂ opened₃ outside⟩
  have reached₁ : pageRadix.descend m₂ root [pml4Index virt] = some pdpe := by
    rw [opened₂.descend _ path₁ (by simp)]
    exact opened₁.reached
  have reached₂ : pageRadix.descend m₃ root [pml4Index virt, pointerIndex virt] = some pde := by
    rw [opened₃.descend _ path₂ (by simp)]
    exact opened₂.reached
  have entry₁ := opened₁.entry rfl rfl
  have entry₂ := opened₂.entry rfl reached₁
  have entry₃ := opened₃.entry rfl reached₂
  have root_nonnull : root ≠ 0 := fun null => tables.nonnull [] ⟨by decide, by simp⟩ (congrArg some null)
  have pdpe_nonnull : pdpe ≠ 0 := fun null => opened₁.tables.nonnull _ path₁ (null ▸ opened₁.reached)
  have pde_nonnull : pde ≠ 0 := fun null => opened₂.tables.nonnull _ path₂ (null ▸ opened₂.reached)
  have table_nonnull : table ≠ 0 := fun null => opened₃.tables.nonnull _ path₃ (null ▸ opened₃.reached)
  simp only [ensurePageEntry, vmmgrPml4DirectoryLookupEntry, vmmgrPagePointerDirectoryLookupEntry,
    vmmgrPageDirectoryLookupEntry, vmmgrPtableLookupEntry, Option.bind_eq_bind,
    lookupEntry_frame root_nonnull, (slot_offset root virt).1, Option.bind_some, executed₁, entry₁,
    lookupEntry_frame pdpe_nonnull, (slot_offset pdpe virt).2.1, executed₂, entry₂,
    lookupEntry_frame pde_nonnull, (slot_offset pde virt).2.2.1, executed₃, entry₃,
    lookupEntry_frame table_nonnull, (slot_offset table virt).2.2.2]
  rfl

def withPage (m : Memory) (table : BitVec 40) (phys virt : BitVec 64) (isUser : Bool) : Memory :=
  Function.update m (slot table (tableIndex virt)) (setEntry (m (slot table (tableIndex virt))) phys isUser)

section WithPage

variable {m next : Memory} {root table : BitVec 40} {frames rest : List (BitVec 40)} {virt : BitVec 64}
  (opened : PageOpened m next root frames rest virt table) (outside : pml4Index virt ≠ 510) (phys : BitVec 64)
  (isUser : Bool)

theorem withPage_kept (other : BitVec 40) (j : BitVec 9) (different : ¬ (other = table ∧ j = tableIndex virt)) :
    withPage next table phys virt isUser (slot other j) = next (slot other j) :=
  Function.update_of_ne (fun same => different (slot_injective same)) _ _

theorem not_tablePath_longer (virt : BitVec 64) (j : BitVec 9) : ¬ TablePath (pagePath virt ++ [j]) := by
  intro longer
  have length := longer.1
  simp [pagePath] at length

include opened outside

theorem PageOpened.descend {path : List (BitVec 9)} (valid : TablePath path) :
    pageRadix.descend (withPage next table phys virt isUser) root path = pageRadix.descend next root path :=
  Radix.descend_store tablePath_closed opened.tables.tree (pagePath_valid outside) (not_tablePath_longer virt)
    opened.reached (withPage_kept phys isUser) valid

theorem PageOpened.walk_other {other : BitVec 64} (elsewhere : pml4Index other ≠ 510)
    (different : pagePath other ≠ pagePath virt) :
    walk (withPage next table phys virt isUser) (frameAddress root) other = walk m (frameAddress root) other := by
  have valid := pagePath_valid elsewhere
  rw [walk_eq, walk_eq, Radix.leaf_store tablePath_closed opened.tables.tree (pagePath_valid outside)
    (not_tablePath_longer virt) opened.reached (withPage_kept phys isUser) presentEntry valid
    fun same => different same.1]
  exact opened.leaves _ _ valid rfl different

theorem PageOpened.walk_beside {other : BitVec 64} (path : pagePath other = pagePath virt)
    (different : tableIndex other ≠ tableIndex virt) :
    walk (withPage next table phys virt isUser) (frameAddress root) other =
      presentEntry (next (slot table (tableIndex other))) := by
  rw [walk_eq, path, Radix.leaf, opened.descend outside phys isUser (pagePath_valid outside), opened.reached,
    Option.bind_some]
  exact congrArg presentEntry (withPage_kept phys isUser table _ fun same => different same.2)

theorem PageOpened.walk_page :
    walk (withPage next table phys virt isUser) (frameAddress root) virt =
      some (setEntry (next (slot table (tableIndex virt))) phys isUser) := by
  rw [walk_eq, Radix.leaf, opened.descend outside phys isUser (pagePath_valid outside), opened.reached,
    Option.bind_some]
  change presentEntry (withPage next table phys virt isUser (slot table (tableIndex virt))) = _
  rw [withPage, Function.update_self]
  exact if_neg (setEntry_present _ _ _)

end WithPage

def pageBeside (virt : BitVec 64) (j : BitVec 9) : BitVec 64 :=
  BitVec.ofNat 64 (virt.toNat / 2 ^ 21 * 2 ^ 21 + j.toNat * 2 ^ 12)

section Beside

variable (virt : BitVec 64) (j : BitVec 9)

theorem pageBeside_toNat : (pageBeside virt j).toNat = virt.toNat / 2 ^ 21 * 2 ^ 21 + j.toNat * 2 ^ 12 := by
  have bound := virt.isLt
  rw [pageBeside, BitVec.toNat_ofNat]
  omega

theorem pagePath_beside : pagePath (pageBeside virt j) = pagePath virt := by
  have index {start : Nat} (high : 21 ≤ start) :
      (pageBeside virt j).toNat / 2 ^ start = virt.toNat / 2 ^ start := by
    obtain ⟨k, rfl⟩ := Nat.exists_eq_add_of_le high
    rw [Nat.pow_add, ← Nat.div_div_eq_div_mul, ← Nat.div_div_eq_div_mul, pageBeside_toNat]
    apply congrArg (· / 2 ^ k)
    omega
  have same {start : Nat} (high : 21 ≤ start) :
      (pageBeside virt j).extractLsb' start 9 = virt.extractLsb' start 9 := by
    apply BitVec.eq_of_toNat_eq
    rw [BitVec.extractLsb'_toNat, BitVec.extractLsb'_toNat, Nat.shiftRight_eq_div_pow, Nat.shiftRight_eq_div_pow,
      index high]
  rw [pagePath, pagePath, pml4Index, pointerIndex, directoryIndex, same (by decide), same (by decide),
    same (by decide)]
  rfl

theorem tableIndex_beside : tableIndex (pageBeside virt j) = j := by
  apply BitVec.eq_of_toNat_eq
  rw [tableIndex, BitVec.extractLsb'_toNat, pageBeside_toNat, Nat.shiftRight_eq_div_pow]
  omega

theorem pagePml4Offset_beside : pagePml4Offset (pageBeside virt j) = pagePml4Offset virt := by
  have same : pml4Index (pageBeside virt j) = pml4Index virt := (List.cons.inj (pagePath_beside virt j)).1
  rw [pagePml4Offset, pagePml4Offset, offset_eq, offset_eq]
  exact congrArg (BitVec.setWidth 64) same

end Beside

theorem indices_of_pageNumber {left right : BitVec 64} (same : pageNumber left = pageNumber right) :
    pagePath left = pagePath right ∧ tableIndex left = tableIndex right := by
  have index {start : Nat} (low : 12 ≤ start) (high : start ≤ 39) :
      left.extractLsb' start 9 = right.extractLsb' start 9 := by
    apply BitVec.eq_of_getLsbD_eq
    intro i bound
    have bit := congrArg (fun number => number.getLsbD (start - 12 + i)) same
    have inside : start - 12 + i < 36 := by omega
    simp only [pageNumber, BitVec.getLsbD_extractLsb', inside, decide_true, Bool.true_and,
      show 12 + (start - 12 + i) = start + i by omega] at bit
    rw [BitVec.getLsbD_extractLsb', BitVec.getLsbD_extractLsb', bit]
  rw [pagePath, pagePath, pml4Index, pointerIndex, directoryIndex, tableIndex, tableIndex,
    index (by decide) (by decide), index (by decide) (by decide), index (by decide) (by decide),
    index (by decide) (by decide)]
  exact ⟨rfl, rfl⟩

/-- No page outside the recursive slot that was not mapped is mapped, apart from one. -/
def MapsNoOther (m next : Memory) (root : BitVec 40) (virt : BitVec 64) : Prop :=
  ∀ other, pageNumber other ≠ pageNumber virt → pagePml4Offset other ≠ 510 →
    walk m (frameAddress root) other = none → walk next (frameAddress root) other = none

/-- The frame that becomes the page table, if any does, holds no present entry. Its first word is cleared, and the
    entry of the page is written. -/
def HoldsNoEntry (m : Memory) (root : BitVec 40) (virt : BitVec 64) (frames : List (BitVec 40)) : Prop :=
  pageRadix.descend m root (pagePath virt) = none → ∀ table, pageTableFrame m root virt frames = some table →
    ∀ j, j ≠ 0 → j ≠ tableIndex virt → m (slot table j) &&& ptePresent = 0

theorem PageOpened.maps_no_other_iff {m next : Memory} {root table : BitVec 40} {frames rest : List (BitVec 40)}
    {virt : BitVec 64} (opened : PageOpened m next root frames rest virt table) (outside : pagePml4Offset virt ≠ 510)
    (phys : BitVec 64) (isUser : Bool) :
    MapsNoOther m (withPage next table phys virt isUser) root virt ↔ HoldsNoEntry m root virt frames := by
  have index := pml4Index_ne outside
  constructor
  · intro alone missing found frame j first elsewhere
    rcases opened.taken with ⟨existed, _⟩ | ⟨_, taken, contents⟩
    · rw [missing] at existed
      cases existed
    · rw [taken] at frame
      cases frame
      have path := pagePath_beside virt j
      have last := tableIndex_beside virt j
      have beside : tableIndex (pageBeside virt j) ≠ tableIndex virt := by
        rw [last]
        exact elsewhere
      have unmapped : walk m (frameAddress root) (pageBeside virt j) = none := by
        rw [walk_eq, path, Radix.leaf, missing, Option.bind_none]
      have hidden := alone (pageBeside virt j) (fun same => beside (indices_of_pageNumber same).2)
        (pagePml4Offset_beside virt j ▸ outside) unmapped
      rw [opened.walk_beside index phys isUser path beside, last, contents, if_neg first] at hidden
      by_contra present
      rw [presentEntry, if_neg present] at hidden
      cases hidden
  · intro blank other different elsewhere hidden
    by_cases path : pagePath other = pagePath virt
    · have last : tableIndex other ≠ tableIndex virt := fun same => different (pageNumber_of_indices path same)
      rw [opened.walk_beside index phys isUser path last]
      rcases opened.taken with ⟨existed, rfl, _⟩ | ⟨missing, taken, contents⟩
      · rw [walk_eq, path, Radix.leaf, existed, Option.bind_some] at hidden
        exact hidden
      · rw [contents]
        split
        · rfl
        · rename_i first
          exact if_pos (blank missing table taken _ first last)
    · rw [opened.walk_other index phys isUser (pml4Index_ne elsewhere) path, hidden]

theorem Spare.ready {m : Memory} {root : BitVec 40} {virt : BitVec 64} {frames : List (BitVec 40)}
    (spare : Spare m root frames) (outside : pml4Index virt ≠ 510) (self : SelfMapped m root)
    (bound : ∀ frame ∈ frames, frame.toNat < 2 ^ 19) : Ready m root (pml4Index virt) frames where
  self := self
  distinct := spare.distinct
  nonnull := spare.nonnull
  bound := bound
  notRoot frame member same := spare.unused frame member [] ⟨by decide, by simp⟩ (congrArg some same)
  notPointer frame member := spare.unused frame member _ ((pagePath_valid outside).shorter ⟨_, rfl⟩)

/-- A mapping maps no other page, whatever the frames hold, exactly where no frame that becomes a page table holds
    present entries: of a new page table only the first word is cleared. -/
theorem map_page_maps_no_other_iff (m : Memory) (root : BitVec 40) (phys virt : BitVec 64) (isUser : Bool)
    (frames : List (BitVec 40)) (tables : Tables m root) (spare : Spare m root frames) (enough : 3 ≤ frames.length)
    (outside : pagePml4Offset virt ≠ 510) (clear : UpperClear m root virt) :
    (∃ next rest,
      vmmgrMapPage takeFrame (frameAddress root) m (frames.map frameAddress) phys virt = some (next, rest) ∧
      (MapsNoOther m next root virt ↔ HoldsNoEntry m root virt frames)) ∧
    (SelfMapped m root → (∀ frame ∈ frames, frame.toNat < 2 ^ 19) →
      ∃ next rest,
        vmmgrMapPageAfterPaging takePage (frameAddress root) m (frames.map frameAddress) phys virt isUser =
          some (next, rest) ∧
        (MapsNoOther m next root virt ↔ HoldsNoEntry m root virt frames)) := by
  have index := pml4Index_ne outside
  constructor
  · obtain ⟨next, rest, table, executed, opened⟩ := ensurePageEntry_opened false tables spare enough index clear
    exact ⟨_, _, vmmgrMapPage_eq executed phys, opened.maps_no_other_iff outside phys false⟩
  · intro self bound
    obtain ⟨next, rest, table, executed, opened⟩ := ensurePageEntry_opened isUser tables spare enough index clear
    exact ⟨_, _, afterPaging_of_walk (spare.ready index self bound) executed phys,
      opened.maps_no_other_iff outside phys isUser⟩

section Blank

variable {m : Memory} {root : BitVec 40} (blank : ∀ i, i ≠ 510 → m (slot root i) = 0)

include blank

theorem blank_spare {frames : List (BitVec 40)} (distinct : (root :: frames).Nodup)
    (nonnull : ∀ frame ∈ frames, frame ≠ 0) (bound : ∀ frame ∈ frames, frame.toNat < 2 ^ 32) :
    Spare m root frames where
  distinct := (List.nodup_cons.mp distinct).2
  nonnull := nonnull
  bound := bound
  unused frame member path valid used := by
    rw [(blank_descend blank valid.2 used).2] at member
    exact (List.nodup_cons.mp distinct).1 member

theorem blank_upperClear {virt : BitVec 64} (outside : pml4Index virt ≠ 510) : UpperClear m root virt := by
  intro path j inside table reached _
  have valid := (pagePath_valid outside).shorter inside
  obtain ⟨rfl, rfl⟩ := blank_descend blank (tablePath_closed path j valid).2 reached
  rw [blank j fun same => valid.2 (congrArg some same)]
  rfl

end Blank

theorem first_page_alone :
    ∃ next rest,
      vmmgrMapPage takeFrame 0x1000 (emptyTables 1) [0x2000, 0x3000, 0x4000] 0x5000 0 = some (next, rest) ∧
      MapsNoOther (emptyTables 1) next 1 0 := by
  have blank := emptyTables_blank 1
  obtain ⟨⟨next, rest, executed, exactly⟩, _⟩ :=
    map_page_maps_no_other_iff (emptyTables 1) 1 0x5000 0 false [2, 3, 4] (blank_tables blank (by decide))
      (blank_spare blank (by decide) (by simp) (by simp)) (by decide) (by decide) (blank_upperClear blank (by decide))
  refine ⟨next, rest, executed, exactly.mpr ?_⟩
  intro _ table frame j _ _
  have created : table = 4 := by
    have pointer : pageRadix.descend (emptyTables 1) 1 [pml4Index 0] = none := by decide
    rw [pageTableFrame, pointer] at frame
    exact (Option.some.inj frame).symm
  rw [created, emptyTables_zero (by simp)]
  rfl

def recycledTables : Memory := Function.update (emptyTables 1) (slot 4 1) 0x7003

theorem stale_entry_maps_page :
    ∃ next rest,
      vmmgrMapPageAfterPaging takePage 0x1000 recycledTables [0x2000, 0x3000, 0x4000] 0x5000 0 true =
        some (next, rest) ∧
      walk recycledTables 0x1000 0x1000 = none ∧ walk next 0x1000 0x1000 = some 0x7003 := by
  have blank (i : BitVec 9) (other : i ≠ 510) : recycledTables (slot 1 i) = 0 := by
    rw [recycledTables, Function.update_of_ne fun same => absurd (slot_injective same).1 (by decide),
      emptyTables_blank 1 i other]
  have spare : Spare recycledTables 1 [2, 3, 4] := blank_spare blank (by decide) (by simp) (by simp)
  have self : SelfMapped recycledTables 1 := by
    rw [SelfMapped, recycledTables, Function.update_of_ne fun same => absurd (slot_injective same).1 (by decide)]
    exact emptyTables_self (by decide)
  have pointer : pageRadix.descend recycledTables 1 [pml4Index 0] = none := by decide
  have missing : pageRadix.descend recycledTables 1 (pagePath 0) = none := by decide
  obtain ⟨next, rest, table, executed, opened⟩ :=
    ensurePageEntry_opened true (blank_tables blank (by decide)) spare (by decide) (show pml4Index 0 ≠ 510 by decide)
      (blank_upperClear blank (by decide))
  refine ⟨_, _, afterPaging_of_walk (spare.ready (by decide) self (by simp)) executed 0x5000, by decide, ?_⟩
  have path : pagePath 0x1000 = pagePath 0 := by decide
  change walk (withPage next table 0x5000 0 true) (frameAddress 1) 0x1000 = _
  rw [opened.walk_beside (by decide) 0x5000 true path (by decide)]
  rcases opened.taken with ⟨found, _⟩ | ⟨_, frame, contents⟩
  · rw [missing] at found
    cases found
  · rw [pageTableFrame, pointer] at frame
    cases Option.some.inj frame
    rw [contents, if_neg (by decide)]
    decide

end Sbunix.Paging
