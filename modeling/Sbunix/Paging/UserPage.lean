import Sbunix.Paging.Recursive
import Sbunix.Paging.Copy

namespace Sbunix.Paging

open Library

def memcpyFrom (m : Memory) (base src : BitVec 64) (buf : Nat → BitVec 64) : Nat → Option (Nat → BitVec 64)
  | 0 => some buf
  | n + 1 => do
    let buf ← memcpyFrom m base src buf n
    let word ← load m base (src + 8 * BitVec.ofNat 64 n)
    return Function.update buf n word

def memcpyTo (m : Memory) (base dst : BitVec 64) (buf : Nat → BitVec 64) : Nat → Option Memory
  | 0 => some m
  | n + 1 => do
    let m ← memcpyTo m base dst buf n
    modify m base (dst + 8 * BitVec.ofNat 64 n) fun _ => buf n

def UserHalf (virt : BitVec 64) : Prop := virt.extractLsb' 47 17 = 0

instance (virt : BitVec 64) : Decidable (UserHalf virt) := inferInstanceAs (Decidable (_ = _))

theorem UserHalf.toNat_lt {virt : BitVec 64} (user : UserHalf virt) : virt.toNat < 2 ^ 47 := by
  have high := congrArg BitVec.toNat user
  rw [BitVec.extractLsb'_toNat, Nat.shiftRight_eq_div_pow] at high
  have bound := virt.isLt
  change virt.toNat / 2 ^ 47 % 2 ^ 17 = 0 at high
  omega

section Page

variable {virt : BitVec 64} (user : UserHalf virt) (i : BitVec 9)

include user

theorem page_toNat : (slot (frameOf virt) i).toNat = virt.toNat / 4096 * 4096 + 8 * i.toNat := by
  have bound := user.toNat_lt
  rw [slot_toNat, frameOf, BitVec.extractLsb'_toNat, Nat.shiftRight_eq_div_pow]
  omega

theorem page_indices : pagePath (slot (frameOf virt) i) = pagePath virt ∧
    tableIndex (slot (frameOf virt) i) = tableIndex virt := by
  have word := i.isLt
  have pml4 : pml4Index (slot (frameOf virt) i) = pml4Index virt := by
    apply BitVec.eq_of_toNat_eq
    rw [pml4Index, pml4Index, BitVec.extractLsb'_toNat, BitVec.extractLsb'_toNat, page_toNat user,
      Nat.shiftRight_eq_div_pow, Nat.shiftRight_eq_div_pow]
    omega
  have pointer : pointerIndex (slot (frameOf virt) i) = pointerIndex virt := by
    apply BitVec.eq_of_toNat_eq
    rw [pointerIndex, pointerIndex, BitVec.extractLsb'_toNat, BitVec.extractLsb'_toNat, page_toNat user,
      Nat.shiftRight_eq_div_pow, Nat.shiftRight_eq_div_pow]
    omega
  have directory : directoryIndex (slot (frameOf virt) i) = directoryIndex virt := by
    apply BitVec.eq_of_toNat_eq
    rw [directoryIndex, directoryIndex, BitVec.extractLsb'_toNat, BitVec.extractLsb'_toNat, page_toNat user,
      Nat.shiftRight_eq_div_pow, Nat.shiftRight_eq_div_pow]
    omega
  refine ⟨by rw [pagePath, pagePath, pml4, pointer, directory], ?_⟩
  apply BitVec.eq_of_toNat_eq
  rw [tableIndex, tableIndex, BitVec.extractLsb'_toNat, BitVec.extractLsb'_toNat, page_toNat user,
    Nat.shiftRight_eq_div_pow, Nat.shiftRight_eq_div_pow]
  omega

theorem page_offset : slot (frameOf virt) i &&& 0xFFF = 8 * i.setWidth 64 := by
  have word := i.isLt
  apply BitVec.eq_of_toNat_eq
  rw [BitVec.toNat_and, page_toNat user, BitVec.toNat_mul, BitVec.toNat_setWidth]
  change _ &&& (2 ^ 12 - 1) = 8 * (i.toNat % 2 ^ 64) % 2 ^ 64
  rw [Nat.and_two_pow_sub_one_eq_mod]
  omega

variable {m : Memory} {root table frame : BitVec 40}
  (reached : pageRadix.descend m root (pagePath virt) = some table)
  (leads : decode (m (slot table (tableIndex virt))) = some frame)

include reached leads

theorem translate_page : translate m (frameAddress root) (slot (frameOf virt) i) = some (slot frame i) := by
  have canonical : Canonical (slot (frameOf virt) i) := by
    refine Or.inl (BitVec.eq_of_toNat_eq ?_)
    have bound := user.toNat_lt
    have word := i.isLt
    rw [BitVec.extractLsb'_toNat, page_toNat user, Nat.shiftRight_eq_div_pow]
    change _ = 0
    omega
  obtain ⟨path, index⟩ := page_indices user i
  rw [translate, if_pos canonical, walk_eq, path, index, page_offset user, Radix.leaf, reached, Option.bind_some]
  change (presentEntry (m (slot table (tableIndex virt)))).map _ = _
  unfold decode at leads
  unfold presentEntry
  split at leads
  · cases leads
  · rename_i present
    cases leads
    rw [if_neg present, Option.map_some, pagePhysicalAddress_eq]
    rfl

end Page

theorem memcpyFrom_page {virt : BitVec 64} (user : UserHalf virt) {m : Memory} {root table frame : BitVec 40}
    (reached : pageRadix.descend m root (pagePath virt) = some table)
    (leads : decode (m (slot table (tableIndex virt))) = some frame) (buf : Nat → BitVec 64) {n : Nat}
    (small : n ≤ 512) :
    ∃ copy, memcpyFrom m (frameAddress root) (pagePhysicalAddress virt) buf n = some copy ∧
      ∀ i : BitVec 9, i.toNat < n → copy i.toNat = m (slot frame i) := by
  induction n with
  | zero => exact ⟨buf, rfl, fun i below => absurd below (Nat.not_lt_zero _)⟩
  | succ n ih =>
    obtain ⟨copy, copied, same⟩ := ih (by omega)
    have word : load m (frameAddress root) (pagePhysicalAddress virt + 8 * BitVec.ofNat 64 n) =
        some (m (slot frame (BitVec.ofNat 9 n))) := by
      rw [load, pagePhysicalAddress_eq, slot_ofNat _ (by omega), translate_page user _ reached leads]
      rfl
    refine ⟨_, by rw [memcpyFrom, copied, Option.bind_eq_bind, Option.bind_some, word]; rfl, ?_⟩
    intro i below
    by_cases last : i.toNat = n
    · subst last
      rw [Function.update_self, BitVec.ofNat_toNat, BitVec.setWidth_eq]
    · rw [Function.update_of_ne last, same i (by omega)]

/-- A walk whose entries lie outside a frame does not depend on the frame. -/
theorem Avoids.descend_eq {m next : Memory} {root frame : BitVec 40} {path : List (BitVec 9)}
    (avoids : Avoids m root path frame) (kept : ∀ table i, table ≠ frame → next (slot table i) = m (slot table i)) :
    pageRadix.descend next root path = pageRadix.descend m root path := by
  apply Radix.descend_congr
  intro parent i table inside found
  have other : table ≠ frame := fun same => avoids parent i inside (same ▸ found)
  exact congrArg decode (kept table i other)

/-- A copy to a page fills its frame, where no entry of the walk lies in it. -/
theorem memcpyTo_page {virt : BitVec 64} (user : UserHalf virt) {m : Memory} {root table frame : BitVec 40}
    (reached : pageRadix.descend m root (pagePath virt) = some table)
    (leads : decode (m (slot table (tableIndex virt))) = some frame) (avoids : Avoids m root (pagePath virt) frame)
    (apart : table ≠ frame) (buf : Nat → BitVec 64) {n : Nat} (small : n ≤ 512) :
    ∃ next, memcpyTo m (frameAddress root) (pagePhysicalAddress virt) buf n = some next ∧
      (∀ i : BitVec 9, i.toNat < n → next (slot frame i) = buf i.toNat) ∧
      ∀ other i, other ≠ frame → next (slot other i) = m (slot other i) := by
  induction n with
  | zero => exact ⟨m, rfl, fun i below => absurd below (Nat.not_lt_zero _), fun _ _ _ => rfl⟩
  | succ n ih =>
    obtain ⟨before, copied, same, kept⟩ := ih (by omega)
    have stillReached := (avoids.descend_eq kept).trans reached
    have stillLeads : decode (before (slot table (tableIndex virt))) = some frame := by
      rw [kept table _ apart, leads]
    have stored : modify before (frameAddress root) (pagePhysicalAddress virt + 8 * BitVec.ofNat 64 n)
        (fun _ => buf n) = some (Function.update before (slot frame (BitVec.ofNat 9 n)) (buf n)) := by
      rw [modify, pagePhysicalAddress_eq, slot_ofNat _ (by omega), translate_page user _ stillReached stillLeads]
      rfl
    refine ⟨_, by rw [memcpyTo, copied, Option.bind_eq_bind, Option.bind_some, stored], ?_, ?_⟩
    · intro i below
      by_cases last : i.toNat = n
      · rw [(slot_eq_ofNat (by omega)).mpr ⟨rfl, last⟩, Function.update_self, last]
      · have elsewhere : slot frame i ≠ slot frame (BitVec.ofNat 9 n) :=
          fun equal => last ((slot_eq_ofNat (by omega)).mp equal).2
        rw [Function.update_of_ne elsewhere, same i (by omega)]
    · intro other i different
      have elsewhere : slot other i ≠ slot frame (BitVec.ofNat 9 n) :=
        fun equal => different (slot_injective equal).1
      rw [Function.update_of_ne elsewhere, kept other i different]

section Present

variable {Source : Type} {subMalloc : Source → Option (BitVec 64 × Source)} {m : Memory} {root : BitVec 40}

theorem ensureTableRecurse_present {source : Source} {b c d i : BitVec 9} {table : BitVec 40} {words : Nat}
    {isUser : Bool} (reached : pageRadix.descend m root [510, b, c, d] = some table)
    (leads : decode (m (slot table i)) ≠ none) :
    ensureTableRecurse subMalloc setEntryRecurse (frameAddress root) m source (window b c d i) words isUser =
      some (m, source) := by
  have loaded : load m (frameAddress root) (window b c d i) = some (m (slot table i)) := by
    rw [load, translate_window, reached]
    rfl
  have present : ¬ m (slot table i) &&& ptePresent = 0 := fun absent => leads (decode_eq_none.mpr absent)
  simp only [ensureTableRecurse, loaded, Option.bind_eq_bind, Option.bind_some, if_neg present]

/-- Where the page table is there, `vmmgr_map_page_after_paging` writes its entry and nothing else. -/
theorem afterPaging_present {virt : BitVec 64} {table : BitVec 40} (self : SelfMapped m root)
    (reached : pageRadix.descend m root (pagePath virt) = some table) (source : Source) (phys : BitVec 64)
    (isUser : Bool) :
    vmmgrMapPageAfterPaging subMalloc (frameAddress root) m source phys virt isUser =
      some (Function.update m (slot table (tableIndex virt)) (setEntry (m (slot table (tableIndex virt))) phys isUser),
        source) := by
  have inner {path : List (BitVec 9)} {parent : BitVec 40} {i : BitVec 9} (inside : path ++ [i] <+: pagePath virt)
      (found : pageRadix.descend m root path = some parent) : decode (m (slot parent i)) ≠ none :=
    Radix.descend_decode reached inside found
  have shorter {path : List (BitVec 9)} {i : BitVec 9} (inside : path ++ [i] <+: pagePath virt) :
      ∃ parent, pageRadix.descend m root path = some parent := by
    obtain ⟨rest, whole⟩ := inside
    cases found : pageRadix.descend m root path with
    | some parent => exact ⟨parent, rfl⟩
    | none =>
      rw [Radix.descend] at found
      rw [← whole, Radix.descend, List.foldlM_append, List.foldlM_append, found] at reached
      cases reached
  have pointerInside : [pml4Index virt] ++ [pointerIndex virt] <+: pagePath virt := ⟨[directoryIndex virt], rfl⟩
  have directoryInside : [pml4Index virt, pointerIndex virt] ++ [directoryIndex virt] <+: pagePath virt := ⟨[], rfl⟩
  obtain ⟨pointer, pointerFound⟩ := shorter pointerInside
  obtain ⟨directory, directoryFound⟩ := shorter directoryInside
  have first : ensureTableRecurse subMalloc setEntryRecurse (frameAddress root) m source
      (getPml4eOffsetRecurse virt) tableWords isUser = some (m, source) := by
    have window : pageRadix.descend m root [510, 510, 510, 510] = some root := by
      simp only [self.descend, Radix.descend_nil]
    have inside : [] ++ [pml4Index virt] <+: pagePath virt := ⟨_, rfl⟩
    rw [getPml4eOffsetRecurse_eq, ensureTableRecurse_present window (inner inside rfl)]
  have second : ensureTableRecurse subMalloc setEntryRecurse (frameAddress root) m source
      (getPdpeOffsetRecurse virt) tableWords isUser = some (m, source) := by
    have window : pageRadix.descend m root [510, 510, 510, pml4Index virt] = some pointer := by
      simp only [self.descend, pointerFound]
    rw [getPdpeOffsetRecurse_eq, ensureTableRecurse_present window (inner pointerInside pointerFound)]
  have third : ensureTableRecurse subMalloc setEntryRecurse (frameAddress root) m source
      (getPdeOffsetRecurse virt) pointerWords isUser = some (m, source) := by
    have window : pageRadix.descend m root [510, 510, pml4Index virt, pointerIndex virt] = some directory := by
      simp only [self.descend, directoryFound]
    rw [getPdeOffsetRecurse_eq, ensureTableRecurse_present window (inner directoryInside directoryFound)]
  have leaf : pageRadix.descend m root (510 :: pagePath virt) = some table := (self.descend _).trans reached
  have stored := setPhysVirtRecurse_eq leaf phys isUser
  rw [vmmgrMapPageAfterPaging]
  generalize ensureTableRecurse subMalloc setEntryRecurse (frameAddress root) = ensure at first second third ⊢
  generalize setPhysVirtRecurse = store at stored ⊢
  rw [first, Option.bind_eq_bind, Option.bind_some]
  simp only [second, third, stored, Option.bind_some, Option.bind_eq_bind]
  rfl

theorem load_pte {virt : BitVec 64} {table : BitVec 40} (self : SelfMapped m root)
    (reached : pageRadix.descend m root (pagePath virt) = some table) :
    load m (frameAddress root) (getPteRecurse virt) = some (m (slot table (tableIndex virt))) := by
  rw [load, getPteRecurse_eq, translate_window]
  change ((pageRadix.descend m root (510 :: pagePath virt)).map _).map _ = _
  rw [self.descend, reached]
  rfl

end Present

end Sbunix.Paging
