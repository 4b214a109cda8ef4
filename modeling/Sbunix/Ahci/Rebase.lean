import Sbunix.Ahci.Command

namespace Sbunix.Ahci

open Library Library.Ahci
open Library.X86 (Memory Same Apart)
open Fs.Controller (low high high_append_low ControllerArea)

def tableOffset (slot : Nat) : Nat := 0xA000 + 256 * slot

structure Rebased (start : BitVec 64) (h : Hba) : Prop where
  list : h.port.clbu ++ h.port.clb = start
  fis : h.receivedFis = start + 0x8000
  tables : ∀ slot, slot < 32 → h.commandTable slot = start + BitVec.ofNat 64 (tableOffset slot)

section Offsets

variable {start x : BitVec 64} {offset length : Nat}

theorem outside_area (apart : (x - start).toNat < offset ∨ offset + length ≤ (x - start).toNat)
    (small : offset + length < 2 ^ 64) : length ≤ (x - (start + BitVec.ofNat 64 offset)).toNat := by
  bv_omega

theorem offset_inside (inside : (x - (start + BitVec.ofNat 64 offset)).toNat < length)
    (small : offset + length < 2 ^ 64) : offset ≤ (x - start).toNat ∧ (x - start).toNat < offset + length := by
  bv_omega

theorem put_outside {mem : Memory} {source : Nat → BitVec 8}
    (apart : (x - start).toNat < offset ∨ offset + length ≤ (x - start).toNat) (small : offset + length < 2 ^ 64) :
    put mem (start + BitVec.ofNat 64 offset) source length x = mem x :=
  if_neg (Nat.not_lt.mpr (outside_area apart small))

theorem load_area {left right : Memory} {count : Nat} (small : offset + count < 2 ^ 64)
    (same : ∀ x, offset ≤ (x - start).toNat → (x - start).toNat < offset + count → left x = right x) :
    load left (start + BitVec.ofNat 64 offset) count = load right (start + BitVec.ofNat 64 offset) count := by
  apply load_congr _ (by omega)
  intro x inside
  obtain ⟨lower, upper⟩ := offset_inside inside small
  exact same x lower upper

theorem add_offset (start : BitVec 64) (first second : Nat) :
    start + BitVec.ofNat 64 first + BitVec.ofNat 64 second = start + BitVec.ofNat 64 (first + second) := by
  bv_omega

end Offsets

section Loop

variable (start : BitVec 64) (mem : Memory) {i : Nat}

def rebaseHeader (start : BitVec 64) (mem : Memory) (i : Nat) : Memory :=
  store (store (store mem (start + BitVec.ofNat 64 (32 * i) + 2) 8#16 2) (start + BitVec.ofNat 64 (32 * i) + 8)
    (low (start + 0xA000 + BitVec.ofNat 64 (256 * i))) 4) (start + BitVec.ofNat 64 (32 * i) + 12)
    (high (start + 0xA000 + BitVec.ofNat 64 (256 * i))) 4

theorem table_address (i : Nat) :
    start + 0xA000 + BitVec.ofNat 64 (256 * i) = start + BitVec.ofNat 64 (tableOffset i) :=
  add_offset start 0xA000 (256 * i)

theorem rebaseHeader_table (i : Nat) : load (rebaseHeader start mem i) (start + BitVec.ofNat 64 (32 * i) + 8) 8 =
    start + BitVec.ofNat 64 (tableOffset i) := by
  have lower (memory : Memory) (value : BitVec 32) : load (store memory (start + BitVec.ofNat 64 (32 * i) + 8) value 4)
      (start + BitVec.ofNat 64 (32 * i) + 8) 4 = value := load_store 4 value (by decide)
  have upper (memory : Memory) (value : BitVec 32) : load (store memory (start + BitVec.ofNat 64 (32 * i) + 12) value 4)
      (start + BitVec.ofNat 64 (32 * i) + 12) 4 = value := load_store 4 value (by decide)
  rw [← load_header]
  unfold rebaseHeader
  simp (disch := decide) only [load_store_apart, lower, upper]
  rw [← table_address]
  exact high_append_low _

theorem rebaseHeader_outside {x : BitVec 64} (inside : i < 32)
    (outside : (x - start).toNat < 32 * i ∨ 32 * i + 16 ≤ (x - start).toNat) : rebaseHeader start mem i x = mem x := by
  have far := outside_area outside (show 32 * i + 16 < 2 ^ 64 by omega)
  unfold rebaseHeader
  simp (disch := decide) only [store_outside far]

theorem rebaseSlot_eq (i : Nat) : rebaseSlot start start mem i =
    put (rebaseHeader start mem i) (start + BitVec.ofNat 64 (tableOffset i)) (fun _ => 0) 256 := by
  have table := rebaseHeader_table start mem i
  rw [← load_header] at table
  unfold rebaseHeader at table ⊢
  unfold rebaseSlot
  dsimp only
  rw [table]

theorem rebaseSlot_spec (inside : i < 32) :
    load (rebaseSlot start start mem i) (start + BitVec.ofNat 64 (32 * i) + 8) 8 =
        start + BitVec.ofNat 64 (tableOffset i) ∧
      ∀ x, (x - start).toNat < 32 * i ∨ 32 * i + 16 ≤ (x - start).toNat → (x - start).toNat < 0xA000 →
        rebaseSlot start start mem i x = mem x := by
  have spared {x : BitVec 64} (below : (x - start).toNat < 0xA000) :
      rebaseSlot start start mem i x = rebaseHeader start mem i x := by
    rw [rebaseSlot_eq]
    exact put_outside (Or.inl (Nat.lt_of_lt_of_le below (Nat.le_add_right _ _))) (by unfold tableOffset; omega)
  constructor
  · rw [← rebaseHeader_table start mem i, show start + BitVec.ofNat 64 (32 * i) + 8 =
      start + BitVec.ofNat 64 (32 * i + 8) from add_offset start (32 * i) 8]
    apply load_area (by omega)
    intro x lower upper
    exact spared (by omega)
  · intro x outside below
    rw [spared below, rebaseHeader_outside start mem inside outside]

theorem rebaseSlots_tables {count slot : Nat} (inside : count ≤ 32) (done : slot < count) :
    load ((List.range count).foldl (rebaseSlot start start) mem) (start + BitVec.ofNat 64 (32 * slot) + 8) 8 =
      start + BitVec.ofNat 64 (tableOffset slot) := by
  induction count with
  | zero => exact absurd done (Nat.not_lt_zero _)
  | succ count ih =>
    rw [List.range_succ, List.foldl_append, List.foldl_cons, List.foldl_nil]
    obtain ⟨table, others⟩ := rebaseSlot_spec start ((List.range count).foldl (rebaseSlot start start) mem)
      (show count < 32 by omega)
    by_cases last : slot = count
    · subst last
      exact table
    · rw [← ih (by omega) (by omega), show start + BitVec.ofNat 64 (32 * slot) + 8 =
        start + BitVec.ofNat 64 (32 * slot + 8) from add_offset start (32 * slot) 8]
      apply load_area (by omega)
      intro x lower upper
      exact others x (by omega) (by omega)

end Loop

/-- Whatever the memory held, `port_rebase` sets up the slots. -/
theorem portRebase_rebased (h : Hba) {start : BitVec 64} (reachable : start.toNat < 2 ^ 32) :
    Rebased start (portRebase h start) := by
  have list : (0 : BitVec 32) ++ low start = start := by
    apply BitVec.eq_of_toNat_eq
    rw [BitVec.toNat_append, low, BitVec.extractLsb'_toNat]
    simpa using reachable
  refine ⟨list, high_append_low _, ?_⟩
  intro slot inside
  rw [Hba.commandTable, Hba.commandHeader]
  change load ((List.range 32).foldl (rebaseSlot start (0 ++ low start)) _) ((0 ++ low start) + _ + 8) 8 = _
  rw [list]
  exact rebaseSlots_tables start _ (Nat.le_refl 32) inside

def places (h : Hba) : Fs.Controller.Port where
  clb := h.port.clb
  clbu := h.port.clbu
  fb := h.port.fb
  fbu := h.port.fbu
  ctba i := load h.memory (h.commandHeader i + 8) 4
  ctbau i := load h.memory (h.commandHeader i + 12) 4

theorem controllerArea_portRebase (h : Hba) {start : BitVec 64} (reachable : start.toNat < 2 ^ 32) (x : BitVec 64) :
    ControllerArea (places (portRebase h start)) x ↔ ControllerArea (Fs.Controller.portRebase start) x := by
  have tables (slot : Nat) (inside : slot < 32) :
      (places (portRebase h start)).ctbau slot ++ (places (portRebase h start)).ctba slot =
        (Fs.Controller.portRebase start).ctbau slot ++ (Fs.Controller.portRebase start).ctba slot := by
    have table := (portRebase_rebased h reachable).tables slot inside
    rw [Hba.commandTable, ← load_header] at table
    refine table.trans ((table_address start slot).symm.trans ?_)
    rw [BitVec.ofNat_mul]
    exact (high_append_low _).symm
  refine or_congr Iff.rfl (or_congr Iff.rfl (exists_congr fun slot => and_congr_right fun inside => ?_))
  rw [tables slot inside]

section Slot

variable {start : BitVec 64} {h after : Hba} {slot : Nat}

theorem Rebased.congr (rebased : Rebased start h) (list : after.port.clbu ++ after.port.clb = start)
    (received : after.receivedFis = start + 0x8000)
    (same : ∀ slot x, slot < 32 → 32 * slot + 8 ≤ (x - start).toNat → (x - start).toNat < 32 * slot + 16 →
      after.memory x = h.memory x) : Rebased start after := by
  refine ⟨list, received, ?_⟩
  intro slot inside
  have pointer : start + BitVec.ofNat 64 (32 * slot) + 8 = start + BitVec.ofNat 64 (32 * slot + 8) :=
    add_offset start (32 * slot) 8
  rw [← rebased.tables slot inside, Hba.commandTable, Hba.commandTable, Hba.commandHeader, Hba.commandHeader, list,
    rebased.list, pointer]
  apply load_area (by omega)
  intro x lower upper
  exact same slot x inside lower (by omega)

theorem Rebased.header (rebased : Rebased start h) (slot : Nat) :
    h.commandHeader slot = start + BitVec.ofNat 64 (32 * slot) := by
  rw [Hba.commandHeader, rebased.list]

theorem Rebased.apart (rebased : Rebased start h) (inside : slot < 32) :
    Apart (start + BitVec.ofNat 64 (tableOffset slot)) tableSize (h.commandHeader slot) 16 := by
  rw [rebased.header]
  exact (apart_areas start (by decide) (by unfold tableOffset; omega) (by unfold tableOffset tableSize; omega)).symm

theorem Rebased.setCommand_outside (rebased : Rebased start h) (inside : slot < 32) {w : Bool}
    {command countl : BitVec 8} {startl starth : BitVec 32} {buf x : BitVec 64}
    (header : (x - start).toNat < 32 * slot ∨ 32 * slot + 4 ≤ (x - start).toNat)
    (table : (x - start).toNat < tableOffset slot ∨ tableOffset slot + tableSize ≤ (x - start).toNat) :
    setCommand h.memory (h.commandHeader slot) w command countl startl starth buf x = h.memory x := by
  rw [setCommand_eq (rebased.tables slot inside), setTable_outside, setHeader_outside]
  · rw [rebased.header]
    exact outside_area header (by omega)
  · exact outside_area table (by unfold tableOffset tableSize; omega)

end Slot

end Sbunix.Ahci
