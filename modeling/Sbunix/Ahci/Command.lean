import Sbunix.Ahci.Model
import Mathlib.Tactic.IntervalCases

namespace Sbunix.Ahci

open Library Library.Ahci
open Library.X86 (Memory Same Apart)
open Fs.Controller (low high)

section Bytes

variable {mem : Memory} {base x : BitVec 64} {length : Nat}

theorem setByte_outside (outside : length ≤ (x - base).toNat) {offset : BitVec 64} (inside : offset.toNat < length)
    (value : BitVec 8) : setByte mem (base + offset) value x = mem x := by
  apply Function.update_of_ne
  rintro rfl
  bv_omega

theorem setByte_first_outside (outside : length ≤ (x - base).toNat) (inside : 0 < length) (value : BitVec 8) :
    setByte mem base value x = mem x := by
  apply Function.update_of_ne
  rintro rfl
  rw [BitVec.sub_self] at outside
  exact absurd inside (Nat.not_lt.mpr outside)

theorem store_outside {width : Nat} (outside : length ≤ (x - base).toNat) {offset : BitVec 64} {count : Nat}
    (inside : offset.toNat + count ≤ length) (value : BitVec width) :
    store mem (base + offset) value count x = mem x := by
  apply if_neg
  bv_omega

theorem load_store_apart {width offset other : Nat} {value : BitVec width} {first second : BitVec 64}
    (apart : Apart first offset second other) (small : other ≤ 2 ^ 64) :
    load (store mem (base + first) value offset) (base + second) other = load mem (base + second) other :=
  load_congr (put_same (apart.add base)) small

variable (mem base) in
theorem setByte_add (offset other : BitVec 64) (value : BitVec 8) :
    setByte mem (base + offset) value (base + other) = if other = offset then value else mem (base + other) := by
  rw [setByte, Function.update_apply]
  congr 1
  rw [eq_iff_iff]
  exact BitVec.add_right_inj base

variable (mem base) in
theorem setByte_first (other : BitVec 64) (value : BitVec 8) :
    setByte mem base value (base + other) = if other = 0 then value else mem (base + other) := by
  have first := setByte_add mem base 0 other value
  rwa [show base + 0 = base from BitVec.add_zero base] at first

end Bytes

section Header

variable (mem : Memory) (header : BitVec 64) (w : Bool)

theorem setHeader_outside {x : BitVec 64} (outside : 4 ≤ (x - header).toNat) : setHeader mem header w x = mem x := by
  unfold setHeader setBits
  simp (disch := decide) only [store_outside outside, setByte_outside outside, setByte_first_outside outside]

theorem setHeader_prdtl : load (setHeader mem header w) (header + 2) 2 = 1#16 := by
  unfold setHeader
  exact load_store 2 1#16 (by decide)

theorem setHeader_flags :
    (setHeader mem header w header).extractLsb' 0 5 = 5#5 ∧ (setHeader mem header w header).getLsbD 6 = w := by
  have flags : setHeader mem header w header =
      (mem header &&& ~~~0x1F ||| 5) &&& ~~~0x40 ||| (if w then 0x40 else 0) := by
    have later : store (setBits (setBits (setBits mem header 0x1F 5) header 0x40 (if w then 0x40 else 0)) (header + 1)
        0x04 0x04) (header + 2) 1#16 2 header =
        setBits (setBits (setBits mem header 0x1F 5) header 0x40 (if w then 0x40 else 0)) (header + 1) 0x04 0x04
          header := by
      apply if_neg
      bv_omega
    have next : setBits (setBits (setBits mem header 0x1F 5) header 0x40 (if w then 0x40 else 0)) (header + 1) 0x04 0x04
        header = setBits (setBits mem header 0x1F 5) header 0x40 (if w then 0x40 else 0) header := by
      apply Function.update_of_ne
      bv_omega
    refine (later.trans next).trans ?_
    rw [setBits, setByte, Function.update_self, setBits, setByte, Function.update_self]
  rw [flags]
  generalize mem header = old
  cases w with
  | true => revert old; decide
  | false => revert old; decide

end Header

section Table

variable (mem : Memory) (table : BitVec 64) (command countl : BitVec 8) (startl starth : BitVec 32) (buf : BitVec 64)

theorem setRegion_outside {x : BitVec 64} (outside : tableSize ≤ (x - table).toNat) :
    setRegion mem table buf x = mem x := by
  unfold setRegion
  simp (disch := decide) only [store_outside outside]

theorem setFis_outside {x : BitVec 64} (outside : 14 ≤ (x - table).toNat) :
    setFis mem table command countl startl starth x = mem x := by
  unfold setFis setBits
  simp (disch := decide) only [setByte_outside outside, setByte_first_outside outside]

theorem setTable_outside {x : BitVec 64} (outside : tableSize ≤ (x - table).toNat) :
    setTable mem table command countl startl starth buf x = mem x := by
  unfold setTable
  rw [setFis_outside _ _ _ _ _ _ (Nat.le_trans (by decide) outside), setRegion_outside _ _ _ outside]
  exact if_neg (Nat.not_lt.mpr outside)

theorem setRegion_region :
    load (setRegion mem table buf) (table + 0x80) 8 = buf ∧
      (load (setRegion mem table buf) (table + 0x8C) 4).extractLsb' 0 22 = 4095#22 := by
  have upper : table + 0x80 + 4 = table + 0x84 := by bv_omega
  have lower (memory : Memory) (value : BitVec 32) :
      load (store memory (table + 0x80) value 4) (table + 0x80) 4 = value := load_store 4 value (by decide)
  have higher (memory : Memory) (value : BitVec 32) :
      load (store memory (table + 0x84) value 4) (table + 0x84) 4 = value := load_store 4 value (by decide)
  have length (memory : Memory) (value : BitVec 32) :
      load (store memory (table + 0x8C) value 4) (table + 0x8C) 4 = value := load_store 4 value (by decide)
  unfold setRegion
  rw [load_eight, upper]
  simp (disch := decide) only [load_store_apart, lower, higher, length]
  refine ⟨Fs.Controller.high_append_low buf, ?_⟩
  generalize load mem (table + 0x8C) 4 = old
  change BitVec.extractLsb' 0 22 ((old &&& ~~~0x3FFFFF#32 ||| 4095#32) &&& ~~~0x80000000#32) = _
  rw [BitVec.extractLsb'_and, BitVec.extractLsb'_or, BitVec.extractLsb'_and]
  generalize BitVec.extractLsb' 0 22 old = part
  have masked : part &&& BitVec.extractLsb' 0 22 (~~~0x3FFFFF#32) = 0 := by
    rw [show BitVec.extractLsb' 0 22 (~~~0x3FFFFF#32) = 0#22 by decide]
    exact BitVec.and_zero
  rw [masked]
  decide

def fisByte (old : Nat → BitVec 8) : Nat → BitVec 8
  | 0 => 0x27
  | 1 => old 1 &&& ~~~0x80 ||| 0x80
  | 2 => command
  | 4 => byteAt startl 0
  | 5 => byteAt startl 1
  | 6 => byteAt startl 2
  | 7 => 0x40
  | 8 => byteAt startl 3
  | 9 => byteAt starth 0
  | 10 => byteAt starth 1
  | 12 => countl
  | 13 => 0
  | i => old i

theorem setFis_byte {i : Nat} (bound : i < 14) :
    setFis mem table command countl startl starth (table + BitVec.ofNat 64 i) =
      fisByte command countl startl starth (fun i => mem (table + BitVec.ofNat 64 i)) i := by
  unfold setFis setBits
  interval_cases i <;> simp only [setByte_add, setByte_first] <;> rfl

theorem setTable_regions :
    decodeRegions (setTable mem table command countl startl starth buf) table 1 = [(buf, 4096)] := by
  obtain ⟨address, length⟩ := setRegion_region (put mem table (fun _ => 0) tableSize) table buf
  have above {offset count : Nat} (low : 14 ≤ offset) (high : offset + count < 2 ^ 64) :
      Same (setTable mem table command countl startl starth buf)
        (setRegion (put mem table (fun _ => 0) tableSize) table buf) (table + BitVec.ofNat 64 offset) count := by
    intro x inside
    apply setFis_outside
    bv_omega
  change [(load _ (table + BitVec.ofNat 64 0x80) 8,
    ((load _ (table + BitVec.ofNat 64 0x8C) 4).extractLsb' 0 22).toNat + 1)] = _
  rw [load_congr (above (by decide) (by decide)) (by decide), load_congr (above (by decide) (by decide)) (by decide)]
  change [(load _ (table + 0x80) 8, ((load _ (table + 0x8C) 4).extractLsb' 0 22).toNat + 1)] = _
  rw [address, length]
  rfl

end Table

theorem byteAt_append_low {upper i : Nat} {high : BitVec upper} {low : BitVec 32} (inside : i < 4) :
    byteAt (high ++ low) i = byteAt low i := by
  apply BitVec.eq_of_getLsbD_eq
  intro bit bound
  rw [byteAt, byteAt, BitVec.getLsbD_extractLsb', BitVec.getLsbD_extractLsb', BitVec.getLsbD_append]
  simp [show 8 * i + bit < 32 by omega]

theorem byteAt_append_high {upper i : Nat} {high : BitVec upper} {low : BitVec 32} :
    byteAt (high ++ low) (4 + i) = byteAt high i := by
  apply BitVec.eq_of_getLsbD_eq
  intro bit bound
  rw [byteAt, byteAt, BitVec.getLsbD_extractLsb', BitVec.getLsbD_extractLsb', BitVec.getLsbD_append]
  simp [show ¬ 8 * (4 + i) + bit < 32 by omega, show 8 * (4 + i) + bit - 32 = 8 * i + bit by omega]

theorem byteAt_setWidth {width i : Nat} {word : BitVec 32} (inside : 8 * i + 8 ≤ width) :
    byteAt (word.setWidth width) i = byteAt word i := by
  apply BitVec.eq_of_getLsbD_eq
  intro bit bound
  rw [byteAt, byteAt, BitVec.getLsbD_extractLsb', BitVec.getLsbD_extractLsb', BitVec.getLsbD_setWidth]
  simp [show 8 * i + bit < width by omega]

theorem lba_byte {i : Nat} (bound : i < 6) (command countl : BitVec 8) (startl starth : BitVec 32)
    (old : Nat → BitVec 8) :
    fisByte command countl startl starth old (if i < 3 then 4 + i else 5 + i) =
      byteAt (starth.setWidth 16 ++ startl) i := by
  by_cases first : i < 4
  · rw [byteAt_append_low first]
    interval_cases i <;> rfl
  · obtain ⟨j, rfl⟩ := Nat.exists_eq_add_of_le (Nat.le_of_not_lt first)
    rw [byteAt_append_high, byteAt_setWidth (by omega)]
    have small : j < 2 := by omega
    interval_cases j <;> rfl

section Written

variable {mem memory : Memory} {header table buf : BitVec 64} {w : Bool} {command countl : BitVec 8}
  {startl starth : BitVec 32}

theorem load_header (mem : Memory) (header : BitVec 64) :
    load mem (header + 12) 4 ++ load mem (header + 8) 4 = load mem (header + 8) 8 := by
  rw [load_eight, show header + 8 + 4 = header + 12 by bv_omega]

theorem setCommand_eq (found : load mem (header + 8) 8 = table) :
    setCommand mem header w command countl startl starth buf =
      setTable (setHeader mem header w) table command countl startl starth buf := by
  have kept : load (setHeader mem header w) (header + 8) 8 = table := by
    rw [← found]
    apply load_congr _ (by decide)
    intro x inside
    apply setHeader_outside
    bv_omega
  unfold setCommand
  dsimp only
  rw [load_header, kept]

variable (found : load mem (header + 8) 8 = table)
  (written : memory = setCommand mem header w command countl startl starth buf)

include found written

theorem written_fis : ∃ old, ∀ i, i < 14 →
    memory (table + BitVec.ofNat 64 i) = fisByte command countl startl starth old i := by
  rw [written, setCommand_eq found]
  exact ⟨_, fun i bound => setFis_byte _ table _ _ _ _ bound⟩

theorem written_lba : littleEndian (fun i => memory (table + BitVec.ofNat 64 (if i < 3 then 4 + i else 5 + i))) 6 =
    starth.setWidth 16 ++ startl := by
  obtain ⟨old, bytes⟩ := written_fis found written
  rw [← @littleEndian_byteAt 6 (starth.setWidth 16 ++ startl)]
  apply littleEndian_congr
  intro i bound
  rw [bytes _ (by split <;> omega)]
  exact lba_byte bound _ _ _ _ _

theorem written_regions : decodeRegions memory table 1 = [(buf, 4096)] := by
  rw [written, setCommand_eq found]
  exact setTable_regions _ _ _ _ _ _ _

variable (apart : Apart table tableSize header 16)

include apart

theorem written_header : Same memory (setHeader mem header w) header 16 := by
  rw [written, setCommand_eq found]
  intro x inside
  exact setTable_outside _ _ _ _ _ _ _ (apart.outside inside)

theorem written_table : load memory (header + 8) 8 = table := by
  rw [← found]
  apply load_congr _ (by decide)
  intro x inside
  rw [written_header found written apart x (by bv_omega)]
  exact setHeader_outside _ _ _ (by bv_omega)

theorem written_flags :
    (memory header).extractLsb' 0 5 = 5#5 ∧ (memory header).getLsbD 6 = w ∧ load memory (header + 2) 2 = 1#16 := by
  obtain ⟨length, direction⟩ := setHeader_flags mem header w
  have same := written_header found written apart
  rw [same header (by rw [BitVec.sub_self]; decide)]
  refine ⟨length, direction, ?_⟩
  rw [← setHeader_prdtl mem header w]
  exact load_congr (fun x inside => same x (by bv_omega)) (by decide)

end Written

/-- The controller finds in a slot what the driver has written for it. -/
theorem decode_written {h : Hba} {slot : Nat} {w : Bool} {countl : BitVec 8} {startl starth : BitVec 32}
    {buf table : BitVec 64} {memory : Memory} (found : h.commandTable slot = table)
    (apart : Apart table tableSize (h.commandHeader slot) 16) (sectors : countl ≠ 0)
    (written : memory =
      setCommand h.memory (h.commandHeader slot) w (if w then 0x35 else 0x25) countl startl starth buf) :
    decode { h with memory } slot = some ⟨w, starth.setWidth 16 ++ startl, countl.toNat, [(buf, 4096)]⟩ := by
  have kept : Hba.commandTable { h with memory } slot = table := written_table found written apart
  obtain ⟨length, direction, regions⟩ := written_flags found written apart
  obtain ⟨old, bytes⟩ := written_fis found written
  have command : (old 1 &&& ~~~0x80 ||| 0x80).getLsbD 7 = true := by
    generalize old 1 = byte
    revert byte
    decide
  have count : (0#8 ++ countl).toNat = countl.toNat := by
    rw [BitVec.toNat_append]
    simp
  have nonzero : countl.toNat ≠ 0 := fun zero => sectors (BitVec.eq_of_toNat_eq zero)
  have accepted : (memory (h.commandHeader slot)).extractLsb' 0 5 = 5#5 ∧ memory (table + BitVec.ofNat 64 0) = 0x27 ∧
      (memory (table + BitVec.ofNat 64 1)).getLsbD 7 = true ∧
      memory (table + BitVec.ofNat 64 2) = (if (memory (h.commandHeader slot)).getLsbD 6 then 0x35 else 0x25) ∧
      (memory (table + BitVec.ofNat 64 7)).getLsbD 6 = true := by
    rw [bytes 0 (by decide), bytes 1 (by decide), bytes 2 (by decide), bytes 7 (by decide), direction]
    exact ⟨length, rfl, command, rfl, show (0x40#8).getLsbD 6 = true by decide⟩
  have place : Hba.commandHeader { h with memory } slot = h.commandHeader slot := rfl
  have sector : (memory (table + BitVec.ofNat 64 13) ++ memory (table + BitVec.ofNat 64 12)).toNat = countl.toNat := by
    rw [bytes 13 (by decide), bytes 12 (by decide)]
    exact count
  unfold decode
  dsimp only
  rw [kept, place, if_pos accepted, direction, written_lba found written, sector, if_neg nonzero, regions]
  exact congrArg (fun regions => some (Transfer.mk w _ countl.toNat regions)) (written_regions found written)

end Sbunix.Ahci
