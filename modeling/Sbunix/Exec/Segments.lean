import Sbunix.Exec.Model

namespace Sbunix.Exec

open Library Paging Thread Fault

/-- Every byte that is copied goes to a page that has been mapped before. -/
def CopiesMapped (events : List Event) : Prop :=
  ∀ before dest src n after, events = before ++ .memcpy dest src n :: after →
    ∀ k, k < n.toNat → ∃ vma addr, .mmap vma addr ∈ before ∧ pageNumber (dest + BitVec.ofNat 64 k) = pageNumber addr

def Covered : List (BitVec 64) → List Event → Prop
  | _, [] => True
  | mapped, .mmap _ addr :: events => Covered (addr :: mapped) events
  | mapped, .memcpy dest _ n :: events =>
    (∀ k, k < n.toNat → ∃ addr ∈ mapped, pageNumber (dest + BitVec.ofNat 64 k) = pageNumber addr) ∧
      Covered mapped events

def CopiesInto (mapped : List (BitVec 64)) (events : List Event) : Prop :=
  ∀ before dest src n after, events = before ++ .memcpy dest src n :: after →
    ∀ k, k < n.toNat → ∃ addr, (addr ∈ mapped ∨ ∃ vma, .mmap vma addr ∈ before) ∧
      pageNumber (dest + BitVec.ofNat 64 k) = pageNumber addr

theorem copiesInto_mmap {mapped : List (BitVec 64)} {vma : VmaAddr} {addr : BitVec 64} {events : List Event} :
    CopiesInto mapped (.mmap vma addr :: events) ↔ CopiesInto (addr :: mapped) events := by
  have known_iff (found : BitVec 64) (before : List Event) :
      (found ∈ mapped ∨ ∃ area, Event.mmap area found ∈ Event.mmap vma addr :: before) ↔
        found ∈ addr :: mapped ∨ ∃ area, Event.mmap area found ∈ before := by
    simp only [List.mem_cons, Event.mmap.injEq, exists_or, exists_and_right, exists_eq, true_and]
    tauto
  constructor
  · intro copies before dest src n after split k inside
    obtain ⟨found, known, page⟩ := copies (.mmap vma addr :: before) dest src n after
      (by rw [split, List.cons_append]) k inside
    exact ⟨found, (known_iff found before).mp known, page⟩
  · intro copies before dest src n after split k inside
    cases before with
    | nil => cases split
    | cons first before =>
      injection split with same split
      subst same
      obtain ⟨found, known, page⟩ := copies before dest src n after split k inside
      exact ⟨found, (known_iff found before).mpr known, page⟩

theorem copiesInto_memcpy {mapped : List (BitVec 64)} {dest : BitVec 64} {src : BitVec 64} {n : BitVec 32}
    {events : List Event} : CopiesInto mapped (.memcpy dest src n :: events) ↔
      (∀ k, k < n.toNat → ∃ addr ∈ mapped, pageNumber (dest + BitVec.ofNat 64 k) = pageNumber addr) ∧
        CopiesInto mapped events := by
  have known_iff (found : BitVec 64) (before : List Event) :
      (∃ area, Event.mmap area found ∈ Event.memcpy dest src n :: before) ↔
        ∃ area, Event.mmap area found ∈ before := by
    simp only [List.mem_cons, reduceCtorEq, false_or]
  constructor
  · intro copies
    constructor
    · intro k inside
      obtain ⟨found, known, page⟩ := copies [] dest src n events rfl k inside
      rcases known with known | ⟨_, none⟩
      · exact ⟨found, known, page⟩
      · cases none
    · intro before target source count after split k inside
      obtain ⟨found, known, page⟩ := copies (.memcpy dest src n :: before) target source count after
        (by rw [split, List.cons_append]) k inside
      exact ⟨found, known.imp_right (known_iff found before).mp, page⟩
  · intro copies before target source count after split k inside
    cases before with
    | nil =>
      cases split
      obtain ⟨found, known, page⟩ := copies.1 k inside
      exact ⟨found, Or.inl known, page⟩
    | cons first before =>
      injection split with same split
      subst same
      obtain ⟨found, known, page⟩ := copies.2 before target source count after split k inside
      exact ⟨found, known.imp_right (known_iff found before).mpr, page⟩

theorem copiesInto_iff_covered {mapped : List (BitVec 64)} {events : List Event} :
    CopiesInto mapped events ↔ Covered mapped events := by
  induction events generalizing mapped with
  | nil =>
    refine iff_of_true ?_ trivial
    intro before dest src n after split
    cases before <;> cases split
  | cons event events ih =>
    cases event with
    | mmap vma addr => rw [copiesInto_mmap, ih, Covered]
    | memcpy dest src n => rw [copiesInto_memcpy, ih, Covered]

theorem copiesMapped_iff_covered {events : List Event} : CopiesMapped events ↔ Covered [] events := by
  rw [← copiesInto_iff_covered]
  constructor
  · intro copies before dest src n after split k inside
    obtain ⟨vma, addr, known, page⟩ := copies before dest src n after split k inside
    exact ⟨addr, Or.inr ⟨vma, known⟩, page⟩
  · intro covered before dest src n after split k inside
    obtain ⟨addr, known, page⟩ := covered before dest src n after split k inside
    rcases known with none | ⟨vma, known⟩
    · cases none
    · exact ⟨vma, addr, known, page⟩

theorem covered_execEvents {mapped : List (BitVec 64)} {segments : List (VmaAddr × ExecSegment)}
    {stack heap : VmaAddr} :
    Covered mapped (execEvents segments stack heap) ↔
      ∀ (i : Nat) (area : VmaAddr × ExecSegment), segments[i]? = some area → ∀ k, k < area.2.segLength.toNat →
        ∃ addr, (addr ∈ mapped ∨ ∃ (j : Nat) (other : VmaAddr × ExecSegment),
            j ≤ i ∧ segments[j]? = some other ∧ addr = other.2.segPageStart) ∧
          pageNumber (area.2.segActualStart + BitVec.ofNat 64 k) = pageNumber addr := by
  induction segments generalizing mapped with
  | nil =>
    refine iff_of_true ⟨⟩ ?_
    intro i area none
    cases none
  | cons head segments ih =>
    change Covered (head.2.segPageStart :: mapped)
      (.memcpy head.2.segActualStart head.2.segMem head.2.segLength :: execEvents segments stack heap) ↔ _
    rw [Covered, ih]
    constructor
    · intro covered i area found k inside
      cases i with
      | zero =>
        cases found
        obtain ⟨addr, known, page⟩ := covered.1 k inside
        refine ⟨addr, ?_, page⟩
        rcases List.mem_cons.mp known with rfl | known
        · exact Or.inr ⟨0, head, Nat.le_refl 0, rfl, rfl⟩
        · exact Or.inl known
      | succ i =>
        obtain ⟨addr, known, page⟩ := covered.2 i area found k inside
        refine ⟨addr, ?_, page⟩
        rcases known with known | ⟨j, other, low, there, start⟩
        · rcases List.mem_cons.mp known with rfl | known
          · exact Or.inr ⟨0, head, Nat.zero_le _, rfl, rfl⟩
          · exact Or.inl known
        · exact Or.inr ⟨j + 1, other, Nat.succ_le_succ low, there, start⟩
    · intro covered
      constructor
      · intro k inside
        obtain ⟨addr, known, page⟩ := covered 0 head rfl k inside
        refine ⟨addr, ?_, page⟩
        rcases known with known | ⟨j, other, low, there, rfl⟩
        · exact List.mem_cons_of_mem _ known
        · cases Nat.le_zero.mp low
          cases there
          exact List.mem_cons_self
      · intro i area found k inside
        obtain ⟨addr, known, page⟩ := covered (i + 1) area found k inside
        refine ⟨addr, ?_, page⟩
        rcases known with known | ⟨j, other, low, there, rfl⟩
        · exact Or.inl (List.mem_cons_of_mem _ known)
        · cases j with
          | zero =>
            cases there
            exact Or.inl List.mem_cons_self
          | succ j => exact Or.inr ⟨j, other, Nat.le_of_succ_le_succ low, there, rfl⟩

theorem segLength_segment (mem : Tarfs.Memory) (bin : BitVec 64) (i : Nat) :
    (segment mem bin i).segLength.toNat = (pMemsz mem bin i).toNat % 2 ^ 32 :=
  BitVec.toNat_setWidth ..

theorem segment_at {mem : Tarfs.Memory} {bin : BitVec 64} {n : Nat} {areas : List (VmaAddr × ExecSegment)}
    (same : areas.map Prod.snd = (List.range n).map (segment mem bin)) (i : Nat) :
    (areas[i]?).map Prod.snd = if i < n then some (segment mem bin i) else none := by
  rw [← List.getElem?_map, same, List.getElem?_map]
  split
  · rename_i inside
    rw [List.getElem?_range inside, Option.map_some]
  · rename_i outside
    rw [List.getElem?_eq_none (by simpa using outside), Option.map_none]

/-- What `do_exec` and `do_exec1` copy goes to mapped pages exactly where each segment, whose length in memory counts
    modulo 2^32, lies in the single pages at `p_vaddr - p_offset` of the segments up to it. -/
theorem exec_copies_mapped_iff (mem : Tarfs.Memory) (start stop binStart : Nat) (name : List (BitVec 8))
    (found : Tarfs.tarfsRead mem start stop name = some (some binStart))
    (few : (pgmEntries mem (BitVec.ofNat 64 binStart)).toNat ≤ 20) :
    ∃ segments entry, readelf mem start stop name = some (some (segments, entry)) ∧
      ∀ areas stack heap, areas.map Prod.snd = segments →
        (CopiesMapped (execEvents areas stack heap) ↔
          ∀ i, i < (pgmEntries mem (BitVec.ofNat 64 binStart)).toNat →
            ∀ k, k < (pMemsz mem (BitVec.ofNat 64 binStart) i).toNat % 2 ^ 32 →
              ∃ j, j ≤ i ∧ pageNumber (loadAddr mem (BitVec.ofNat 64 binStart) i + BitVec.ofNat 64 k) =
                pageNumber (pVaddr mem (BitVec.ofNat 64 binStart) j - pOffset mem (BitVec.ofNat 64 binStart) j)) := by
  generalize located : BitVec.ofNat 64 binStart = bin at few ⊢
  refine ⟨(List.range (pgmEntries mem bin).toNat).map (segment mem bin), readWord mem (bin + 24), ?_, ?_⟩
  · simp only [readelf, found, located, Option.bind_eq_bind, Option.bind_some, if_pos few]
  · intro areas stack heap same
    rw [copiesMapped_iff_covered, covered_execEvents]
    constructor
    · intro covered i inside k small
      have here := segment_at same i
      rw [if_pos inside, Option.map_eq_some_iff] at here
      obtain ⟨area, there, equal⟩ := here
      rw [← segLength_segment, ← equal] at small
      obtain ⟨addr, known, page⟩ := covered i area there k small
      rcases known with none | ⟨j, other, low, other_there, rfl⟩
      · cases none
      · have other_here := segment_at same j
        rw [other_there, Option.map_some, if_pos (by omega)] at other_here
        rw [equal, Option.some.inj other_here] at page
        exact ⟨j, low, page⟩
    · intro covered i area there k small
      have here := segment_at same i
      rw [there, Option.map_some] at here
      split at here
      · rename_i inside
        have equal := Option.some.inj here
        rw [equal] at small ⊢
        rw [segLength_segment] at small
        obtain ⟨j, low, page⟩ := covered i inside k small
        have other_here := segment_at same j
        rw [if_pos (by omega), Option.map_eq_some_iff] at other_here
        obtain ⟨other, other_there, other_equal⟩ := other_here
        refine ⟨_, Or.inr ⟨j, other, low, other_there, rfl⟩, ?_⟩
        rw [other_equal]
        exact page
      · cases here

def oneSegment (size : BitVec 8) : Tarfs.Memory := fun address =>
  if address = 0 then 0x61
  else if address = 553 then 1
  else if address = 568 then 2
  else if address = 594 ∨ address = 850 then 0x40
  else if address = 617 then size
  else 0

theorem oneSegment_found (size : BitVec 8) : Tarfs.tarfsRead (oneSegment size) 0 4096 [0x61] = some (some 512) := by
  have name : cString (oneSegment size) 0 = some [0x61] := by
    apply cString_eq
    · intro k inside
      cases Nat.lt_one_iff.mp inside
      rfl
    · intro character member
      rw [List.mem_singleton.mp member]
      decide
    · rfl
  rw [Tarfs.tarfsRead, Tarfs.walkArchive, if_pos (by decide), Tarfs.readVisit, name]
  rfl

theorem one_page_copied :
    ∃ segments entry, readelf (oneSegment 0x10) 0 4096 [0x61] = some (some (segments, entry)) ∧
      ∀ areas stack heap, areas.map Prod.snd = segments → CopiesMapped (execEvents areas stack heap) := by
  have single : (pgmEntries (oneSegment 0x10) (BitVec.ofNat 64 512)).toNat = 1 := by decide +kernel
  obtain ⟨segments, entry, read, exactly⟩ := exec_copies_mapped_iff (oneSegment 0x10) 0 4096 512 [0x61]
    (oneSegment_found 0x10) (by rw [single]; decide)
  refine ⟨segments, entry, read, ?_⟩
  intro areas stack heap same
  apply (exactly areas stack heap same).mpr
  intro i inside k small
  rw [single] at inside
  cases Nat.lt_one_iff.mp inside
  refine ⟨0, Nat.le_refl 0, ?_⟩
  have size : (pMemsz (oneSegment 0x10) (BitVec.ofNat 64 512) 0).toNat % 2 ^ 32 = 4096 := by decide +kernel
  have dest : loadAddr (oneSegment 0x10) (BitVec.ofNat 64 512) 0 = 0x400000 := by decide +kernel
  have page : pVaddr (oneSegment 0x10) (BitVec.ofNat 64 512) 0 - pOffset (oneSegment 0x10) (BitVec.ofNat 64 512) 0 =
      0x400000 := by decide +kernel
  rw [size] at small
  rw [dest, page]
  apply BitVec.eq_of_toNat_eq
  rw [pageNumber_toNat, pageNumber_toNat, BitVec.toNat_add, BitVec.toNat_ofNat]
  change (0x400000 + k % 2 ^ 64) % 2 ^ 64 / 4096 % 2 ^ 36 = 0x400000 / 4096 % 2 ^ 36
  omega

/-- Of a segment of two pages only the first is mapped. -/
theorem second_page_not_mapped :
    readelf (oneSegment 0x20) 0 4096 [0x61] = some (some ([⟨0x2000, 0x400000, 0x400000, 632⟩], 0)) ∧
      ¬ CopiesMapped (execEvents [(0, ⟨0x2000, 0x400000, 0x400000, 632⟩)] 1 2) := by
  constructor
  · rw [readelf, oneSegment_found]
    rfl
  · intro copies
    obtain ⟨vma, addr, known, page⟩ := copies [.mmap 0 0x400000] 0x400000 632 0x2000 _ rfl 0x1000 (by decide)
    cases List.mem_singleton.mp known
    exact absurd page (by decide)

end Sbunix.Exec
