import Sbunix.Tarfs.Exact

namespace Sbunix.Tarfs

open Library

def entryByte (entry : Entry) (k : Nat) : BitVec 8 :=
  if k < 100 then entry.name.getD k 0
  else if 124 ≤ k ∧ k < 135 then BitVec.ofNat 8 (48 + entry.size / 8 ^ (134 - k) % 8)
  else 0

def image : Nat → List Entry → Memory
  | _, [] => fun _ => 0
  | address, entry :: entries => fun m =>
    if m < after address entry then entryByte entry (m - address) else image (after address entry) entries m

def behind : Nat → List Entry → Nat
  | address, [] => address
  | address, entry :: entries => behind (after address entry) entries

theorem image_cons (address : Nat) (entry : Entry) (entries : List Entry) (m : Nat) :
    image address (entry :: entries) m =
      if m < after address entry then entryByte entry (m - address) else image (after address entry) entries m := rfl

theorem image_entry {address k : Nat} {entry : Entry} {entries : List Entry} (inside : k < 512) :
    image address (entry :: entries) (address + k) = entryByte entry k := by
  rw [image_cons, if_pos (by unfold after; omega), Nat.add_sub_cancel_left]

theorem image_header (address : Nat) {entry : Entry} (valid : entry.Valid) (entries : List Entry) :
    Header (image address (entry :: entries)) address entry := by
  have short := valid.short
  constructor
  · intro k inside
    rw [image_entry (by omega), entryByte, if_pos (by omega)]
  · rw [image_entry (by omega), entryByte, if_pos (by omega)]
    simp
  · intro k inside
    rw [Nat.add_assoc, image_entry (by omega), entryByte, if_neg (by omega), if_pos (by omega),
      show 134 - (124 + k) = 10 - k by omega]
  · rw [image_entry (by omega), entryByte, if_neg (by omega), if_neg (by omega)]

theorem le_behind (address : Nat) (entries : List Entry) : address ≤ behind address entries := by
  induction entries generalizing address with
  | nil => exact Nat.le_refl _
  | cons entry entries ih =>
    have later := ih (after address entry)
    rw [behind]
    unfold after at later ⊢
    omega

theorem image_behind {address m : Nat} {entries : List Entry} (past : behind address entries ≤ m) :
    image address entries m = 0 := by
  induction entries generalizing address with
  | nil => rfl
  | cons entry entries ih =>
    have later := le_behind (after address entry) entries
    rw [behind] at past
    rw [image_cons, if_neg (by omega)]
    exact ih past

theorem image_archive (address : Nat) {entries : List Entry} (valid : ∀ entry ∈ entries, entry.Valid) :
    Archive (image address entries) (behind address entries + 1024) address entries := by
  induction entries generalizing address with
  | nil => exact ⟨⟨2, Nat.le_refl _, rfl⟩, fun _ _ _ => rfl⟩
  | cons entry entries ih =>
    refine ⟨image_header address (valid entry List.mem_cons_self) entries, ?_⟩
    refine (ih (after address entry) fun other member => valid other (List.mem_cons_of_mem _ member)).congr ?_
    intro m low
    rw [image_cons, if_neg (by omega)]

end Sbunix.Tarfs
