import Sbunix.Ahci.Slots
import Sbunix.Library.Run

namespace Sbunix.Ahci

open Library Library.Ahci
open Library.X86 (Memory Same Apart)

/-- The controller is set up, it has slots that the driver looks at, and there is neither a command nor an error. -/
structure Ready (start : BitVec 64) (h : Hba) : Prop where
  rebased : Rebased start h
  slots : 0 < numOfSlots h.cap
  sact : h.port.sact = 0
  ci : h.port.ci = 0
  clear : Clear h

section Issue

variable {start buf : BitVec 64} {h after : Hba} {w : Bool} {countl : BitVec 8} {startl starth : BitVec 32}
  {activities : List (Activity × Activity)}

theorem interface_first (ready : Ready start h) :
    interface w (if w then 0x35 else 0x25) countl activities h startl starth buf =
      poll 0 activities (issuedAt h 0 w countl startl starth buf) := by
  have free : findCmdslot (h.writeIs 0xffff) = some 0 := by
    obtain ⟨more, count⟩ := Nat.exists_eq_add_one_of_ne_zero (Nat.ne_of_gt ready.slots)
    change findCmdslotFrom (numOfSlots h.cap) 0 (h.port.sact ||| h.port.ci) = some 0
    rw [count, ready.sact, ready.ci]
    rfl
  unfold interface
  dsimp only
  rw [free]
  rfl

theorem issued_ci (ready : Ready start h) : (issuedAt h 0 w countl startl starth buf).port.ci = slotBit 0 := by
  change h.port.ci ||| slotBit 0 = slotBit 0
  rw [ready.ci]
  exact BitVec.zero_or

theorem issued_clear (ready : Ready start h) : Clear (issuedAt h 0 w countl startl starth buf) := by
  change (h.port.is &&& ~~~0xffff) &&& taskFileError = 0
  rw [BitVec.and_assoc, BitVec.and_comm (~~~0xffff), ← BitVec.and_assoc, ready.clear]
  exact BitVec.zero_and

theorem issued_memory (ready : Ready start h) {x : BitVec 64} (low : 8 ≤ (x - start).toNat)
    (high : (x - start).toNat < 0x8000) : (issuedAt h 0 w countl startl starth buf).memory x = h.memory x :=
  ready.rebased.setCommand_outside (by decide) (Or.inr (by omega)) (Or.inl (by unfold tableOffset; omega))

end Issue

/-- The buffers of the file system lie in the pages of the controller. Two sectors of the write buffer are
    transferred. -/
structure Backs (start : BitVec 64) (h : Hba) (s : Fs.State) : Prop where
  disk : h.disk = s.disk
  writeBuffer : ∀ k, k < 1024 → h.memory (start + BitVec.ofNat 64 (0x5000 + k)) = s.writeBuffer k
  readBuffer : ∀ k, k < 12800 → h.memory (start + BitVec.ofNat 64 (0x1000 + k)) = s.readBuffer k

section Ended

variable {start buf : BitVec 64} {h after : Hba} {t : Transfer} {w : Bool} {countl : BitVec 8}
  {startl starth : BitVec 32}

theorem finish_memory (list : h.port.clbu ++ h.port.clb = start) (received : h.receivedFis = start + 0x8000)
    {size : Nat}
    {fis : Nat → BitVec 8} {status : BitVec 32} {x : BitVec 64} (low : 8 ≤ (x - start).toNat)
    (high : (x - start).toNat < 0x8000) : (finish h 0 size fis status).memory x = h.memory x := by
  have count : h.commandHeader 0 + 4 = start + BitVec.ofNat 64 4 := by
    rw [Hba.commandHeader, list]
    exact add_offset start 0 4
  change put (store h.memory (h.commandHeader 0 + 4) _ 4) h.receivedFis fis 256 x = _
  rw [received, count]
  refine (put_outside (Or.inl (show _ < 0x8000 from high)) (by decide)).trans ?_
  exact put_outside (Or.inr low) (by decide)

theorem Ready.ended_memory (ready : Ready start h)
    (ended : Over (issuedAt h 0 w countl startl starth buf) 0 t after) {x : BitVec 64} (low : 8 ≤ (x - start).toNat)
    (high : (x - start).toNat < 0x8000) :
    after.memory x = (transfer (issuedAt h 0 w countl startl starth buf) t).memory x := by
  obtain ⟨fis, status, _, rfl⟩ := ended
  apply finish_memory _ _ low high
  · rw [port_transfer]
    exact ready.rebased.list
  · rw [Hba.receivedFis, port_transfer]
    exact ready.rebased.fis

theorem cap_transfer (h : Hba) (t : Transfer) : (transfer h t).cap = h.cap := by
  unfold transfer
  split
  · rfl
  · rfl

theorem Ready.ended (ready : Ready start h) (ended : Over (issuedAt h 0 w countl startl starth buf) 0 t after)
    (list : ∀ x, 8 ≤ (x - start).toNat → (x - start).toNat < 0x400 →
      (transfer (issuedAt h 0 w countl startl starth buf) t).memory x = h.memory x) : Ready start after := by
  obtain ⟨done, clear⟩ := ended.done (issued_ci ready) (issued_clear ready)
  have kept (slot : Nat) (x : BitVec 64) (inside : slot < 32) (low : 32 * slot + 8 ≤ (x - start).toNat)
      (high : (x - start).toNat < 32 * slot + 16) : after.memory x = h.memory x :=
    (ready.ended_memory ended (by omega) (by omega)).trans (list x (by omega) (by omega))
  obtain ⟨fis, status, _, rfl⟩ := ended
  have port := port_transfer (issuedAt h 0 w countl startl starth buf) t
  refine ⟨ready.rebased.congr ?_ ?_ kept, ?_, ?_, done, clear⟩
  · change (transfer _ t).port.clbu ++ (transfer _ t).port.clb = start
    rw [port]
    exact ready.rebased.list
  · change (transfer _ t).port.fbu ++ (transfer _ t).port.fb = start + 0x8000
    rw [port]
    exact ready.rebased.fis
  · change 0 < numOfSlots (transfer _ t).cap
    rw [cap_transfer]
    exact ready.slots
  · change (transfer _ t).port.sact = 0
    rw [port]
    exact ready.sact

end Ended

/-- What the file system asks of the driver. A write copies to the write buffer first: `write_disk` a string, and the
    functions for the metadata a structure. The controller works while the driver waits. -/
inductive Request where
  | write (source : Bytes) (count : Nat) (offset : BitVec 32) (activities : List (Activity × Activity))
  | read (offset : BitVec 32) (activities : List (Activity × Activity))

def succeeded (result : BitVec 32 × Hba) : Option Hba := if result.1 = 1 then some result.2 else none

def Request.step (start : BitVec 64) (h : Hba) : Request → Option Hba
  | write source count offset activities =>
    let h := { h with memory := put h.memory (start + 0x5000) source count }
    (writeInterface activities h offset 0 (start + 0x5000)).bind succeeded
  | read offset activities => (readInterface activities h offset 0 (start + 0x1000)).bind succeeded

def Request.perform (s : Fs.State) : Request → Fs.State
  | write source count offset _ =>
    Fs.writeInterface { s with writeBuffer := blit s.writeBuffer 0 source count } offset
  | read offset _ => Fs.readInterface s offset

def Request.Served : Request → Prop
  | write _ count _ activities => count ≤ Fs.inodeListSize ∧ Serving 0 activities
  | read _ activities => Serving 0 activities

section Requests

variable {start : BitVec 64} {h : Hba} {s : Fs.State} {activities : List (Activity × Activity)}

theorem put_at (mem : Memory) (start : BitVec 64) (offset : Nat) (source : Nat → BitVec 8) {count k : Nat}
    (small : k < 2 ^ 64) :
    put mem (start + BitVec.ofNat 64 offset) source count (start + BitVec.ofNat 64 (offset + k)) =
      if k < count then source k else mem (start + BitVec.ofNat 64 (offset + k)) := by
  rw [← add_offset, put, X86.offset_toNat small]

/-- The copy reaches past the write buffer, but neither to the read buffer nor to the command list. -/
theorem Ready.copied (ready : Ready start h) (source : Bytes) {count : Nat} (bound : count ≤ 12800) :
    Ready start { h with memory := put h.memory (start + 0x5000) source count } := by
  refine { ready with rebased := ready.rebased.congr ready.rebased.list ready.rebased.fis ?_ }
  intro slot x inside _ high
  exact put_outside (Or.inl (show _ < 0x5000 by omega)) (show 0x5000 + count < 2 ^ 64 by omega)

theorem Backs.copied (backs : Backs start h s) (source : Bytes) {count : Nat} (bound : count ≤ 12800) :
    Backs start { h with memory := put h.memory (start + 0x5000) source count }
      { s with writeBuffer := blit s.writeBuffer 0 source count } := by
  refine ⟨backs.disk, ?_, ?_⟩
  · intro k inside
    change put h.memory (start + BitVec.ofNat 64 0x5000) source count _ = blit s.writeBuffer 0 source count k
    rw [put_at _ _ _ _ (by omega)]
    by_cases copied : k < count
    · rw [if_pos copied, blit_zero copied]
    · rw [if_neg copied, blit_outside (by omega), backs.writeBuffer k inside]
  · intro k inside
    rw [← backs.readBuffer k inside]
    apply put_outside (Or.inl _) (show 0x5000 + count < 2 ^ 64 by omega)
    rw [X86.offset_toNat (by omega)]
    omega

theorem lba_toNat (startl : BitVec 32) : (BitVec.setWidth 16 (0 : BitVec 32) ++ startl).toNat = startl.toNat := by
  rw [BitVec.toNat_append]
  simp

theorem transfer_write (h : Hba) (lba : BitVec 48) (buf : BitVec 64) :
    (transfer h ⟨true, lba, 2, [(buf, 4096)]⟩).memory = h.memory ∧
      (transfer h ⟨true, lba, 2, [(buf, 4096)]⟩).disk =
        blit h.disk (512 * lba.toNat) (fun k => h.memory (buf + BitVec.ofNat 64 k)) 1024 := by
  refine ⟨rfl, ?_⟩
  change blit h.disk (512 * lba.toNat) (gather h.memory [(buf, 4096)]) 1024 = _
  apply blit_congr
  intro k inside
  exact if_pos (by omega)

theorem transfer_read (h : Hba) (lba : BitVec 48) (buf : BitVec 64) :
    (transfer h ⟨false, lba, 1, [(buf, 4096)]⟩).disk = h.disk ∧
      (transfer h ⟨false, lba, 1, [(buf, 4096)]⟩).memory =
        put h.memory buf (fun k => h.disk (512 * lba.toNat + k)) 512 :=
  ⟨rfl, rfl⟩

/-- A command that the controller serves is performed once, and the driver reports success. -/
theorem Ready.served (ready : Ready start h) (serving : Serving 0 activities) (w : Bool) {countl : BitVec 8}
    (sectors : countl ≠ 0) (offset : BitVec 32) (buf : BitVec 64) :
    ∃ after, interface w (if w then 0x35 else 0x25) countl activities h offset 0 buf = some (1, after) ∧
      Over (issuedAt h 0 w countl offset 0 buf) 0
        ⟨w, BitVec.setWidth 16 (0 : BitVec 32) ++ offset, countl.toNat, [(buf, 4096)]⟩ after := by
  obtain ⟨after, ended, polled⟩ := poll_serves (issued_ci ready) (by decide)
      (issuedAt_decode ready.rebased (by decide) sectors)
    (issued_clear ready) serving
  exact ⟨after, (interface_first ready).trans polled, ended⟩

theorem issued_area (ready : Ready start h) (w : Bool) (countl : BitVec 8) (offset : BitVec 32) (buf : BitVec 64)
    {k : Nat}
    (low : 8 ≤ k) (high : k < 0x8000) :
    (issuedAt h 0 w countl offset 0 buf).memory (start + BitVec.ofNat 64 k) = h.memory (start + BitVec.ofNat 64 k) := by
  have place : (start + BitVec.ofNat 64 k - start).toNat = k := X86.offset_toNat (by omega)
  apply issued_memory ready
  · rwa [place]
  · rwa [place]

theorem Ready.ended_area (ready : Ready start h) {w : Bool} {countl : BitVec 8} {offset : BitVec 32} {buf : BitVec 64}
    {t : Transfer} {after : Hba} (ended : Over (issuedAt h 0 w countl offset 0 buf) 0 t after) {k : Nat} (low : 8 ≤ k)
    (high : k < 0x8000) : after.memory (start + BitVec.ofNat 64 k) =
      (transfer (issuedAt h 0 w countl offset 0 buf) t).memory (start + BitVec.ofNat 64 k) := by
  have place : (start + BitVec.ofNat 64 k - start).toNat = k := X86.offset_toNat (by omega)
  apply ready.ended_memory ended
  · rwa [place]
  · rwa [place]

theorem write_matched (ready : Ready start h) (backs : Backs start h s) (serving : Serving 0 activities)
    (offset : BitVec 32) : ∃ after, writeInterface activities h offset 0 (start + 0x5000) = some (1, after) ∧
      Ready start after ∧ Backs start after (Fs.writeInterface s offset) := by
  obtain ⟨after, interfaced, ended⟩ := ready.served serving true (show (2 : BitVec 8) ≠ 0 by decide) offset
    (start + 0x5000)
  change Over _ 0 ⟨true, _, 2, _⟩ after at ended
  obtain ⟨memory, disk⟩ := transfer_write (issuedAt h 0 true 2 offset 0 (start + 0x5000))
    (BitVec.setWidth 16 (0 : BitVec 32) ++ offset) (start + 0x5000)
  have area {k : Nat} (low : 8 ≤ k) (high : k < 0x8000) :
      after.memory (start + BitVec.ofNat 64 k) = h.memory (start + BitVec.ofNat 64 k) :=
    ((ready.ended_area ended low high).trans (congrFun memory _)).trans (issued_area ready _ _ _ _ low high)
  refine ⟨after, interfaced, ready.ended ended ?_, ?_, ?_, ?_⟩
  · intro x low high
    exact (congrFun memory x).trans (issued_memory ready low (by omega))
  · obtain ⟨_, _, _, rfl⟩ := ended
    refine disk.trans ?_
    change blit h.disk _ _ 1024 = blit s.disk _ s.writeBuffer 1024
    rw [lba_toNat, backs.disk]
    apply blit_congr
    intro k inside
    rw [← backs.writeBuffer k inside, ← issued_area ready true 2 offset (start + 0x5000) (by omega) (by omega),
      ← add_offset start 0x5000 k]
    rfl
  · intro k inside
    rw [area (by omega) (by omega)]
    exact backs.writeBuffer k inside
  · intro k inside
    rw [area (by omega) (by omega)]
    exact backs.readBuffer k inside

theorem read_matched (ready : Ready start h) (backs : Backs start h s) (serving : Serving 0 activities)
    (offset : BitVec 32) : ∃ after, readInterface activities h offset 0 (start + 0x1000) = some (1, after) ∧
      Ready start after ∧ Backs start after (Fs.readInterface s offset) := by
  obtain ⟨after, interfaced, ended⟩ := ready.served serving false (show (1 : BitVec 8) ≠ 0 by decide) offset
    (start + 0x1000)
  change Over _ 0 ⟨false, _, 1, _⟩ after at ended
  obtain ⟨disk, memory⟩ := transfer_read (issuedAt h 0 false 1 offset 0 (start + 0x1000))
    (BitVec.setWidth 16 (0 : BitVec 32) ++ offset) (start + 0x1000)
  rw [lba_toNat] at memory
  have outside {x : BitVec 64} (apart : (x - start).toNat < 0x1000 ∨ 0x1200 ≤ (x - start).toNat) :
      (transfer (issuedAt h 0 false 1 offset 0 (start + 0x1000))
        ⟨false, BitVec.setWidth 16 (0 : BitVec 32) ++ offset, 1, [(start + 0x1000, 4096)]⟩).memory x =
          (issuedAt h 0 false 1 offset 0 (start + 0x1000)).memory x :=
    (congrFun memory x).trans (put_outside apart (by decide))
  refine ⟨after, interfaced, ready.ended ended ?_, ?_, ?_, ?_⟩
  · intro x low high
    exact (outside (Or.inl (by omega))).trans (issued_memory ready low (by omega))
  · obtain ⟨_, _, _, rfl⟩ := ended
    exact disk.trans backs.disk
  · intro k inside
    refine (ready.ended_area ended (by omega) (by omega)).trans ?_
    refine (outside (Or.inr ?_)).trans ?_
    · rw [X86.offset_toNat (by omega)]
      omega
    · exact (issued_area ready _ _ _ _ (by omega) (by omega)).trans (backs.writeBuffer k inside)
  · intro k inside
    refine ((ready.ended_area ended (by omega) (by omega)).trans (congrFun memory _)).trans ?_
    refine (put_at _ start 0x1000 _ (by omega)).trans ?_
    change _ = blit s.readBuffer 0 (fun i => s.disk (512 * offset.toNat + i)) 512 k
    by_cases first : k < 512
    · rw [if_pos first, blit_zero first, ← backs.disk]
      rfl
    · rw [if_neg first, blit_outside (by omega), issued_area ready _ _ _ _ (by omega) (by omega)]
      exact backs.readBuffer k inside

theorem Request.step_matched (start : BitVec 64) (h : Hba) (s : Fs.State) (request : Request)
    (related : Ready start h ∧ Backs start h s) (served : request.Served) :
    ∃ next, request.step start h = some next ∧ Ready start next ∧ Backs start next (request.perform s) := by
  obtain ⟨ready, backs⟩ := related
  cases request with
  | write source count offset activities =>
    obtain ⟨bound, serving⟩ := served
    obtain ⟨after, written, matched⟩ := write_matched (ready.copied source bound) (backs.copied source bound)
      serving offset
    refine ⟨after, ?_, matched⟩
    simp only [Request.step, written]
    rfl
  | read offset activities =>
    obtain ⟨after, loaded, matched⟩ := read_matched ready backs served offset
    refine ⟨after, ?_, matched⟩
    simp only [Request.step, loaded]
    rfl

end Requests

/-- The driver and the controller together are the disk that the file system assumes. After `port_rebase` every sequence
    of served requests succeeds, each write transfers two sectors from the write buffer, and each read one sector to the
    read buffer. -/
theorem driver_refines_disk (h : Hba) (start : BitVec 64) (s : Fs.State) (requests : List Request)
    (reachable : start.toNat < 2 ^ 32) (slots : 0 < numOfSlots h.cap) (sact : h.port.sact = 0) (ci : h.port.ci = 0)
    (clear : Clear h) (backs : Backs start (portRebase h start) s) (served : ∀ request ∈ requests, request.Served) :
    ∃ final, run (Request.step start) (portRebase h start) requests = some final ∧
      Backs start final (requests.foldl Request.perform s) := by
  have cleared : Clear (portRebase h start) := by
    change (h.port.is &&& ~~~0) &&& taskFileError = 0
    rw [show h.port.is &&& ~~~0 = h.port.is from BitVec.and_allOnes]
    exact clear
  have ready : Ready start (portRebase h start) := ⟨portRebase_rebased h reachable, slots, sact, ci, cleared⟩
  have admitted : Admitted (Request.step start) (fun _ request => request.Served) (portRebase h start) requests :=
    admitted_of_forall (fun request member _ => served request member) _
  obtain ⟨final, executed, _, final_backs⟩ := run_refines (fun h s => Ready start h ∧ Backs start h s) Request.perform
    (fun h s request related served => Request.step_matched start h s request related served) ⟨ready, backs⟩ admitted
  exact ⟨final, executed, final_backs⟩

def backing (start : BitVec 64) (h : Hba) : Fs.State where
  sb _ := 0
  memoryMap _ := 0
  inodeList _ := 0
  usedBlocks := 0
  readBuffer k := h.memory (start + BitVec.ofNat 64 (0x1000 + k))
  writeBuffer k := h.memory (start + BitVec.ofNat 64 (0x5000 + k))
  disk := h.disk

theorem backs_backing (start : BitVec 64) (h : Hba) : Backs start h (backing start h) :=
  ⟨rfl, fun _ _ => rfl, fun _ _ => rfl⟩

def completing : List (Activity × Activity) := [(.idle, .idle), (.complete 0 (fun _ => 0) 0, .idle)]

theorem completing_serving : Serving 0 completing := by
  refine ⟨?_, (.complete 0 (fun _ => 0) 0, .idle), List.mem_cons_of_mem _ List.mem_cons_self, _, _, rfl⟩
  intro pair member
  rcases List.mem_cons.mp member with rfl | member
  · exact ⟨trivial, trivial⟩
  · rw [List.mem_singleton] at member
    subst member
    exact ⟨show (0 : BitVec 32) &&& taskFileError = 0 by decide, trivial⟩

theorem written_sector_read_back :
    ∃ final, run (Request.step 0x200000) (portRebase emptyHba 0x200000)
        [.write (fun _ => 0x41) 1 7 completing, .read 7 completing] = some final ∧
      final.memory (0x200000 + BitVec.ofNat 64 0x1000) = 0x41 := by
  obtain ⟨final, executed, backs⟩ := driver_refines_disk emptyHba 0x200000
    (backing 0x200000 (portRebase emptyHba 0x200000))
    [.write (fun _ => 0x41) 1 7 completing, .read 7 completing] (by decide) (by decide) rfl rfl (by decide : _ = _)
    (backs_backing _ _) (by
      intro request member
      rcases List.mem_cons.mp member with rfl | member
      · exact ⟨by decide, completing_serving⟩
      · rw [List.mem_singleton] at member
        subst member
        exact completing_serving)
  exact ⟨final, executed, (backs.readBuffer 0 (by decide)).trans rfl⟩

end Sbunix.Ahci
