import Sbunix.Paging.MapPage

namespace Sbunix.Paging

open Library

def window (b c d e : BitVec 9) : BitVec 64 :=
  BitVec.ofNat 64 (0xFFFFFF0000000000 + b.toNat * 2 ^ 30 + c.toNat * 2 ^ 21 + d.toNat * 2 ^ 12 + e.toNat * 8)

section Window

variable (b c d e : BitVec 9)

theorem window_toNat :
    (window b c d e).toNat =
      0xFFFFFF0000000000 + b.toNat * 2 ^ 30 + c.toNat * 2 ^ 21 + d.toNat * 2 ^ 12 + e.toNat * 8 := by
  rw [window, BitVec.toNat_ofNat]
  omega

theorem pagePath_window : pagePath (window b c d e) = [510, b, c] := by
  have pml4 : pml4Index (window b c d e) = 510 := by
    apply BitVec.eq_of_toNat_eq
    rw [pml4Index, BitVec.extractLsb'_toNat, window_toNat, Nat.shiftRight_eq_div_pow]
    change _ = 510
    omega
  have pointer : pointerIndex (window b c d e) = b := by
    apply BitVec.eq_of_toNat_eq
    rw [pointerIndex, BitVec.extractLsb'_toNat, window_toNat, Nat.shiftRight_eq_div_pow]
    omega
  have directory : directoryIndex (window b c d e) = c := by
    apply BitVec.eq_of_toNat_eq
    rw [directoryIndex, BitVec.extractLsb'_toNat, window_toNat, Nat.shiftRight_eq_div_pow]
    omega
  rw [pagePath, pml4, pointer, directory]

theorem tableIndex_window : tableIndex (window b c d e) = d := by
  apply BitVec.eq_of_toNat_eq
  rw [tableIndex, BitVec.extractLsb'_toNat, window_toNat, Nat.shiftRight_eq_div_pow]
  omega

theorem window_offset : window b c d e &&& 0xFFF = 8 * e.setWidth 64 := by
  apply BitVec.eq_of_toNat_eq
  rw [BitVec.toNat_and, window_toNat, BitVec.toNat_mul, BitVec.toNat_setWidth]
  change _ &&& (2 ^ 12 - 1) = 8 * (e.toNat % 2 ^ 64) % 2 ^ 64
  rw [Nat.and_two_pow_sub_one_eq_mod]
  omega

theorem translate_window (m : Memory) (root : BitVec 40) :
    translate m (frameAddress root) (window b c d e) =
      (pageRadix.descend m root [510, b, c, d]).map fun table => slot table e := by
  have canonical : Canonical (window b c d e) := by
    refine Or.inr (BitVec.eq_of_toNat_eq ?_)
    rw [BitVec.extractLsb'_toNat, window_toNat, Nat.shiftRight_eq_div_pow]
    change _ = 0x1FFFF
    omega
  rw [translate, if_pos canonical, walk_eq, pagePath_window, tableIndex_window, window_offset, Radix.leaf,
    show [510, b, c, d] = [510, b, c] ++ [d] from rfl, Radix.descend_concat]
  cases pageRadix.descend m root [510, b, c] with
  | none => rfl
  | some table =>
    change (presentEntry (m (slot table d))).map _ = (decode (m (slot table d))).map _
    unfold presentEntry decode
    split
    · rfl
    · simp only [Option.map_some, pagePhysicalAddress_eq, slot]

end Window

section Addresses

variable (virt : BitVec 64)

theorem getPml4eOffsetRecurse_eq : getPml4eOffsetRecurse virt = window 510 510 510 (pml4Index virt) := by
  apply BitVec.eq_of_toNat_eq
  have pml4 := (pml4Index virt).isLt
  rw [window_toNat, getPml4eOffsetRecurse, pagePml4Offset, offset_eq]
  change (recursiveEntry + 8 * (pml4Index virt).setWidth 64).toNat = _
  simp only [recursiveEntry, BitVec.toNat_add, BitVec.toNat_mul, BitVec.toNat_setWidth,
    BitVec.ofNat_eq_ofNat, BitVec.toNat_ofNat]
  omega

theorem getPdpeOffsetRecurse_eq :
    getPdpeOffsetRecurse virt = window 510 510 (pml4Index virt) (pointerIndex virt) := by
  apply BitVec.eq_of_toNat_eq
  have pml4 := (pml4Index virt).isLt
  have pointer := (pointerIndex virt).isLt
  rw [window_toNat, getPdpeOffsetRecurse, pagePml4Offset, pagePointerOffset, offset_eq, offset_eq]
  change (((recursivePagePointerEntry >>> 12) + (pml4Index virt).setWidth 64) <<< 12 +
    8 * (pointerIndex virt).setWidth 64).toNat = _
  simp only [recursivePagePointerEntry, BitVec.toNat_add, BitVec.toNat_mul, BitVec.toNat_setWidth,
    BitVec.ofNat_eq_ofNat, BitVec.toNat_ofNat, BitVec.toNat_shiftLeft, BitVec.toNat_ushiftRight, Nat.shiftLeft_eq,
    Nat.shiftRight_eq_div_pow]
  omega

theorem getPdeOffsetRecurse_eq : getPdeOffsetRecurse virt =
    window 510 (pml4Index virt) (pointerIndex virt) (directoryIndex virt) := by
  apply BitVec.eq_of_toNat_eq
  have pml4 := (pml4Index virt).isLt
  have pointer := (pointerIndex virt).isLt
  have directory := (directoryIndex virt).isLt
  rw [window_toNat, getPdeOffsetRecurse, pagePml4Offset, pagePointerOffset, pageDirectoryOffset, offset_eq,
    offset_eq, offset_eq]
  change (((((recursivePageDirectoryEntry >>> 21) + (pml4Index virt).setWidth 64) <<< 21) >>> 12 +
    (pointerIndex virt).setWidth 64) <<< 12 + 8 * (directoryIndex virt).setWidth 64).toNat = _
  simp only [recursivePageDirectoryEntry, BitVec.toNat_add, BitVec.toNat_mul, BitVec.toNat_setWidth,
    BitVec.ofNat_eq_ofNat, BitVec.toNat_ofNat, BitVec.toNat_shiftLeft, BitVec.toNat_ushiftRight, Nat.shiftLeft_eq,
    Nat.shiftRight_eq_div_pow]
  omega

theorem getPteRecurse_eq : getPteRecurse virt =
    window (pml4Index virt) (pointerIndex virt) (directoryIndex virt) (tableIndex virt) := by
  apply BitVec.eq_of_toNat_eq
  have pml4 := (pml4Index virt).isLt
  have pointer := (pointerIndex virt).isLt
  have directory := (directoryIndex virt).isLt
  have table := (tableIndex virt).isLt
  rw [window_toNat, getPteRecurse, pagePml4Offset, pagePointerOffset, pageDirectoryOffset, pageTableOffset,
    offset_eq, offset_eq, offset_eq, offset_eq]
  change (((((((recursivePageTableEntry >>> 30) + (pml4Index virt).setWidth 64) <<< 30) >>> 21 +
    (pointerIndex virt).setWidth 64) <<< 21) >>> 12 + (directoryIndex virt).setWidth 64) <<< 12 +
    8 * (tableIndex virt).setWidth 64).toNat = _
  simp only [recursivePageTableEntry, BitVec.toNat_add, BitVec.toNat_mul, BitVec.toNat_setWidth,
    BitVec.ofNat_eq_ofNat, BitVec.toNat_ofNat, BitVec.toNat_shiftLeft, BitVec.toNat_ushiftRight, Nat.shiftLeft_eq,
    Nat.shiftRight_eq_div_pow]
  omega

end Addresses

def SelfMapped (m : Memory) (root : BitVec 40) : Prop := decode (m (slot root 510)) = some root

theorem SelfMapped.descend {m : Memory} {root : BitVec 40} (self : SelfMapped m root) (path : List (BitVec 9)) :
    pageRadix.descend m root (510 :: path) = pageRadix.descend m root path := by
  rw [Radix.descend_cons]
  change (decode (m (slot root 510))).bind _ = _
  rw [self, Option.bind_some]

theorem SelfMapped.descend_replicate {m : Memory} {root : BitVec 40} (self : SelfMapped m root) (n : Nat)
    (path : List (BitVec 9)) :
    pageRadix.descend m root (List.replicate n 510 ++ path) = pageRadix.descend m root path := by
  induction n with
  | zero => rfl
  | succ n ih => rw [List.replicate_succ, List.cons_append, self.descend, ih]

theorem frameOf_addAttrib (e : BitVec 64) {attrib : BitVec 64}
    (low : ∀ i : Fin 64, 3 ≤ i.val → attrib.getLsbD i.val = false) :
    frameOf (ptEntryAddAttrib e attrib) = frameOf e := by
  apply frameOf_eq
  intro i bound
  rw [ptEntryAddAttrib, BitVec.getLsbD_or, low ⟨12 + i, by omega⟩ (by simp only; omega), Bool.or_false, frameOf,
    BitVec.getLsbD_extractLsb']
  simp [bound]

theorem decode_addAttrib {e attrib : BitVec 64} (low : ∀ i : Fin 64, 3 ≤ i.val → attrib.getLsbD i.val = false)
    (leads : decode e ≠ none) : decode (ptEntryAddAttrib e attrib) = decode e := by
  have present : e &&& ptePresent ≠ 0 := fun absent => leads (decode_eq_none.mpr absent)
  have still : ptEntryAddAttrib e attrib &&& ptePresent ≠ 0 := by
    rw [present_iff] at present ⊢
    rw [ptEntryAddAttrib, BitVec.getLsbD_or, present, Bool.true_or]
  rw [decode, decode, if_neg present, if_neg still, frameOf_addAttrib e low]

section Window

variable {m : Memory} {root table : BitVec 40} {b c d : BitVec 9} (e : BitVec 9)

/-- Attributes may be set in any entry, also in one that the walk itself uses. -/
theorem descend_addAttrib {path : List (BitVec 9)} (attrib : BitVec 64)
    (low : ∀ i : Fin 64, 3 ≤ i.val → attrib.getLsbD i.val = false)
    (reached : pageRadix.descend m root path = some table) (address : BitVec 64) :
    pageRadix.descend (Function.update m address (ptEntryAddAttrib (m address) attrib)) root path = some table := by
  rw [← reached]
  apply Radix.descend_congr
  intro parent i found inside parentReached
  have leads := Radix.descend_decode reached inside parentReached
  change decode (Function.update m address _ (slot found i)) = decode (m (slot found i))
  by_cases here : slot found i = address
  · subst here
    rw [Function.update_self]
    exact decode_addAttrib low leads
  · rw [Function.update_of_ne here]

theorem modify_window (reached : pageRadix.descend m root [510, b, c, d] = some table)
    (change : BitVec 64 → BitVec 64) :
    modify m (frameAddress root) (window b c d e) change =
      some (Function.update m (slot table e) (change (m (slot table e)))) := by
  rw [modify, translate_window, reached]
  rfl

theorem setEntryRecurse_window (reached : pageRadix.descend m root [510, b, c, d] = some table) (dir : BitVec 64)
    (isUser : Bool) :
    setEntryRecurse m (frameAddress root) (window b c d e) dir isUser =
      some (Function.update m (slot table e) (setEntry (m (slot table e)) dir isUser)) := by
  have present := descend_addAttrib ptePresent (by decide) reached (slot table e)
  have writable := descend_addAttrib pteWritable (by decide) present (slot table e)
  have user := descend_addAttrib pteUser (by decide) writable (slot table e)
  simp only [Function.update_idem, Function.update_self] at writable user
  rw [setEntryRecurse, modify_window e reached, Option.bind_eq_bind, Option.bind_some, modify_window e present,
    Option.bind_some, Function.update_idem, Function.update_self]
  cases isUser with
  | false =>
    rw [if_neg Bool.false_ne_true, Option.bind_some, modify_window e writable, Function.update_idem,
      Function.update_self]
    rfl
  | true =>
    rw [if_pos rfl, modify_window e writable, Option.bind_some, Function.update_idem, Function.update_self,
      modify_window e user, Function.update_idem, Function.update_self]
    rfl

theorem setPhysVirtRecurse_eq {virt : BitVec 64}
    (reached : pageRadix.descend m root (510 :: pagePath virt) = some table) (phys : BitVec 64) (isUser : Bool) :
    setPhysVirtRecurse (frameAddress root) m phys virt isUser = some (Function.update m (slot table (tableIndex virt))
      (setEntry (m (slot table (tableIndex virt))) phys isUser)) := by
  rw [setPhysVirtRecurse, getPteRecurse_eq]
  exact setEntryRecurse_window (tableIndex virt) reached phys isUser

end Window

def Avoids (m : Memory) (root : BitVec 40) (path : List (BitVec 9)) (frame : BitVec 40) : Prop :=
  ∀ parent i, parent ++ [i] <+: path → pageRadix.descend m root parent ≠ some frame

theorem Avoids.nil {m : Memory} {root frame : BitVec 40} : Avoids m root [] frame := by
  intro parent i inside
  have length := inside.length_le
  simp at length

theorem Avoids.concat {m : Memory} {root frame : BitVec 40} {path : List (BitVec 9)} {i : BitVec 9}
    (avoids : Avoids m root path frame) (other : pageRadix.descend m root path ≠ some frame) :
    Avoids m root (path ++ [i]) frame := by
  intro parent j inside
  rw [List.prefix_concat_iff] at inside
  cases inside with
  | inl whole =>
    obtain ⟨rfl, _⟩ := List.append_inj' whole rfl
    exact other
  | inr inside => exact avoids parent j inside

theorem Avoids.recursive {m : Memory} {root frame : BitVec 40} {path : List (BitVec 9)} (self : SelfMapped m root)
    (other : root ≠ frame) (avoids : Avoids m root path frame) : Avoids m root (510 :: path) frame := by
  intro parent i inside
  cases parent with
  | nil => exact fun same => other (Option.some.inj same)
  | cons j rest =>
    rw [List.cons_append, List.cons_prefix_cons] at inside
    obtain ⟨rfl, inside⟩ := inside
    rw [self.descend]
    exact avoids rest i inside

theorem Avoids.replicate {m : Memory} {root frame : BitVec 40} {path : List (BitVec 9)} (self : SelfMapped m root)
    (other : root ≠ frame) (avoids : Avoids m root path frame) (n : Nat) :
    Avoids m root (List.replicate n 510 ++ path) frame := by
  induction n with
  | zero => exact avoids
  | succ n ih =>
    rw [List.replicate_succ, List.cons_append]
    exact ih.recursive self other

theorem memsetZero_slot {m : Memory} {table frame : BitVec 40} (other : table ≠ frame) (i : BitVec 9) {n : Nat}
    (small : n ≤ 512) : memsetZero m (frameAddress frame) n (slot table i) = m (slot table i) := by
  induction n with
  | zero => rfl
  | succ n ih =>
    rw [memsetZero, slot_ofNat frame (by omega),
      Function.update_of_ne fun same => other (slot_injective same).1]
    exact ih (by omega)

theorem descend_memsetZero {m : Memory} {root frame : BitVec 40} {path : List (BitVec 9)}
    (avoids : Avoids m root path frame) {n : Nat} (small : n ≤ 512) :
    pageRadix.descend (memsetZero m (frameAddress frame) n) root path = pageRadix.descend m root path := by
  apply Radix.descend_congr
  intro parent i table inside reached
  have other : table ≠ frame := fun same => avoids parent i inside (same ▸ reached)
  exact congrArg decode (memsetZero_slot other i small)

theorem linear_ne_zero {frame : BitVec 40} (bound : frame.toNat < 2 ^ 19) : frameAddress frame + virtBase ≠ 0 := by
  intro zero
  have address : frameAddress frame = 0 - virtBase := by rw [← zero, BitVec.add_sub_cancel]
  have value := congrArg BitVec.toNat address
  rw [frameAddress_toNat, show (0 - virtBase : BitVec 64).toNat = 2 ^ 31 from rfl] at value
  omega

theorem ensureTableRecurse_create {Source : Type} {subMalloc : Source → Option (BitVec 64 × Source)} {m : Memory}
    {source rest : Source} {base e dir entry : BitVec 64} (loaded : load m base e = some entry)
    (absent : entry &&& ptePresent = 0) (taken : subMalloc source = some (dir, rest)) (nonnull : dir ≠ 0)
    (words : Nat) (isUser : Bool) :
    ensureTableRecurse subMalloc setEntryRecurse base m source e words isUser =
      (setEntryRecurse (memsetZero m (dir - virtBase) words) base e (dir - virtBase) isUser).bind
        fun next => some (next, rest) := by
  simp only [ensureTableRecurse, loaded, Option.bind_eq_bind, Option.bind_some, if_pos absent, taken,
    if_neg nonnull]

section EnsureTable

variable {m next : Memory} {root table : BitVec 40} {b c d : BitVec 9} {i : BitVec 9}
  {frames : List (BitVec 40)} {words : Nat} {isUser : Bool}

/-- Through the window a table is created just as at its address. -/
theorem ensureTableRecurse_eq (reached : pageRadix.descend m root [510, b, c, d] = some table) (small : words ≤ 512)
    (nonnull : ∀ frame ∈ frames, frame ≠ 0) (bound : ∀ frame ∈ frames, frame.toNat < 2 ^ 19)
    (avoids : ∀ frame ∈ frames, Avoids m root [510, b, c, d] frame) :
    ensureTableRecurse takePage setEntryRecurse (frameAddress root) m (frames.map frameAddress) (window b c d i)
      words isUser = ensureTable takeFrame setEntry m (frames.map frameAddress) (slot table i) words isUser := by
  have loaded : load m (frameAddress root) (window b c d i) = some (m (slot table i)) := by
    rw [load, translate_window, reached]
    rfl
  by_cases absent : m (slot table i) &&& ptePresent = 0
  · cases frames with
    | nil =>
      rw [ensureTableRecurse, ensureTable, loaded, if_pos absent, Option.bind_eq_bind, Option.bind_some,
        if_pos absent]
      simp only [List.map_nil, takePage, takeFrame, Option.map_none, Option.bind_eq_bind, Option.bind_none]
    | cons frame rest =>
      have here : frame ∈ frame :: rest := List.mem_cons_self
      have null : frameAddress frame ≠ 0 := fun zero => nonnull frame here (frameAddress_eq_zero.mp zero)
      have cleared := (descend_memsetZero (avoids frame here) small).trans reached
      have taken : takePage ((frame :: rest).map frameAddress) =
          some (frameAddress frame + virtBase, rest.map frameAddress) := rfl
      rw [ensureTableRecurse_create loaded absent taken (linear_ne_zero (bound frame here)),
        BitVec.add_sub_cancel, setEntryRecurse_window i cleared, Option.bind_some, ensureTable, if_pos absent]
      simp only [takeFrame, List.map_cons, Option.bind_eq_bind, Option.bind_some, if_neg null]
  · rw [ensureTableRecurse, ensureTable, loaded, if_neg absent, Option.bind_eq_bind, Option.bind_some,
      if_neg absent]

theorem ensureTable_cases {rest : List (BitVec 64)} {address : BitVec 64}
    (executed : ensureTable takeFrame setEntry m (frames.map frameAddress) address words isUser = some (next, rest)) :
    (m address &&& ptePresent ≠ 0 ∧ next = m ∧ rest = frames.map frameAddress) ∨
    ∃ frame others, m address &&& ptePresent = 0 ∧ frames = frame :: others ∧ rest = others.map frameAddress ∧
      next = Function.update (memsetZero m (frameAddress frame) words) address
        (setEntry (memsetZero m (frameAddress frame) words address) (frameAddress frame) isUser) := by
  unfold ensureTable at executed
  split at executed
  · rename_i absent
    cases frames with
    | nil => cases executed
    | cons frame others =>
      simp only [takeFrame, List.map_cons, Option.bind_eq_bind, Option.bind_some] at executed
      split at executed
      · cases executed
      · cases executed
        exact Or.inr ⟨frame, others, absent, rfl, rfl, rfl⟩
  · rename_i present
    cases executed
    exact Or.inl ⟨present, rfl, rfl⟩

section Executed

variable {rest : List (BitVec 64)}
  (executed : ensureTable takeFrame setEntry m (frames.map frameAddress) (slot table i) words isUser =
    some (next, rest))
  (small : words ≤ 512)

include executed small

theorem ensureTable_keeps {path : List (BitVec 9)} {found : BitVec 40}
    (reached : pageRadix.descend m root path = some found)
    (avoids : ∀ frame ∈ frames, Avoids m root path frame) : pageRadix.descend next root path = some found := by
  rcases ensureTable_cases executed with ⟨_, rfl, _⟩ | ⟨frame, others, absent, rfl, _, rfl⟩
  · exact reached
  · rw [← reached]
    apply Radix.descend_congr
    intro parent j parentTable inside parentReached
    have leads := Radix.descend_decode reached inside parentReached
    have other : parentTable ≠ frame := fun same => avoids frame (by simp) parent j inside (same ▸ parentReached)
    have elsewhere : slot parentTable j ≠ slot table i := by
      intro same
      apply leads
      change decode (m (slot parentTable j)) = none
      rw [same, decode_eq_none]
      exact absent
    change decode (Function.update (memsetZero m (frameAddress frame) words) (slot table i) _ (slot parentTable j)) =
      decode (m (slot parentTable j))
    rw [Function.update_of_ne elsewhere, memsetZero_slot other j small]

theorem ensureTable_reaches {parent : List (BitVec 9)} (reached : pageRadix.descend m root parent = some table)
    (avoids : ∀ frame ∈ frames, Avoids m root parent frame) :
    pageRadix.descend next root (parent ++ [i]) = some (frameOf (next (slot table i))) := by
  have present : next (slot table i) &&& ptePresent ≠ 0 := by
    rcases ensureTable_cases executed with ⟨present, rfl, _⟩ | ⟨frame, others, _, _, _, rfl⟩
    · exact present
    · rw [Function.update_self]
      exact setEntry_present _ _ _
  rw [Radix.descend_concat, ensureTable_keeps executed small reached avoids, Option.bind_some]
  exact if_neg present

end Executed

end EnsureTable

theorem frameOf_setEntry_low (e : BitVec 64) {frame : BitVec 40} (bound : frame.toNat < 2 ^ 32) (isUser : Bool) :
    (frameOf (setEntry e (frameAddress frame) isUser)).toNat % 2 ^ 32 = frame.toNat := by
  apply Nat.eq_of_testBit_eq
  intro i
  rw [Nat.testBit_mod_two_pow]
  change (decide (i < 32) && (frameOf (setEntry e (frameAddress frame) isUser)).getLsbD i) = frame.getLsbD i
  by_cases low : i < 32
  · have inside : 12 ≤ 12 + i ∧ 12 + i < 44 := by omega
    rw [frameOf, BitVec.getLsbD_extractLsb', getLsbD_setEntry _ _ _ (by omega), getLsbD_frameAddress _ (by omega),
      show 12 + i - 12 = i by omega]
    have short : i < 40 := by omega
    simp [low, inside, short]
  · rw [getLsbD_high_frame bound (by omega)]
    simp [low]

/-- What both paths keep while they create tables: the recursive slot, and frames that hold neither the
    PML4 nor the table under its entry `i`. -/
structure Ready (m : Memory) (root : BitVec 40) (i : BitVec 9) (frames : List (BitVec 40)) : Prop where
  self : SelfMapped m root
  distinct : frames.Nodup
  nonnull : ∀ frame ∈ frames, frame ≠ 0
  bound : ∀ frame ∈ frames, frame.toNat < 2 ^ 19
  notRoot : ∀ frame ∈ frames, root ≠ frame
  notPointer : ∀ frame ∈ frames, pageRadix.descend m root [i] ≠ some frame

section Ready

variable {m next : Memory} {root table : BitVec 40} {i j : BitVec 9} {frames : List (BitVec 40)} {words : Nat}
  {isUser : Bool} {rest : List (BitVec 64)} (ready : Ready m root i frames) (small : words ≤ 512)

include ready

theorem Ready.avoids {frame : BitVec 40} (member : frame ∈ frames) (j : BitVec 9) : Avoids m root [j] frame :=
  Avoids.nil.concat fun same => ready.notRoot frame member (Option.some.inj same)

include small

theorem Ready.keeps_self
    (executed : ensureTable takeFrame setEntry m (frames.map frameAddress) (slot table j) words isUser =
      some (next, rest)) :
    SelfMapped next root := by
  have walk : pageRadix.descend m root [510] = some root := by rw [ready.self.descend, Radix.descend_nil]
  have kept := ensureTable_keeps executed small walk fun frame member => ready.avoids member 510
  rw [Radix.descend_cons] at kept
  change (decode (next (slot root 510))).bind _ = _ at kept
  rw [Option.bind_eq_some_iff] at kept
  obtain ⟨found, leads, last⟩ := kept
  cases last
  exact leads

theorem Ready.pml4
    (executed : ensureTable takeFrame setEntry m (frames.map frameAddress) (slot root i) words isUser =
      some (next, rest)) :
    ∃ others, rest = others.map frameAddress ∧ Ready next root i others := by
  have self := ready.keeps_self small executed
  have reached : pageRadix.descend next root [i] = some (frameOf (next (slot root i))) :=
    ensureTable_reaches executed small (by rfl) fun _ _ => Avoids.nil
  rcases ensureTable_cases executed with ⟨_, rfl, rfl⟩ | ⟨frame, others, _, rfl, rfl, rfl⟩
  · exact ⟨frames, rfl, ready⟩
  · refine ⟨others, rfl, self, (List.nodup_cons.mp ready.distinct).2, ?_, ?_, ?_, ?_⟩
    · exact fun other member => ready.nonnull other (List.mem_cons_of_mem _ member)
    · exact fun other member => ready.bound other (List.mem_cons_of_mem _ member)
    · exact fun other member => ready.notRoot other (List.mem_cons_of_mem _ member)
    · intro other member same
      rw [reached, Function.update_self] at same
      have frameBound := ready.bound frame (by simp)
      have otherBound := ready.bound other (List.mem_cons_of_mem _ member)
      have low := frameOf_setEntry_low (memsetZero m (frameAddress frame) words (slot root i))
        (show frame.toNat < 2 ^ 32 by omega) isUser
      rw [Option.some.inj same, Nat.mod_eq_of_lt (by omega)] at low
      cases BitVec.eq_of_toNat_eq low
      exact (List.nodup_cons.mp ready.distinct).1 member

theorem Ready.below {pointer : BitVec 40} (found : pageRadix.descend m root [i] = some pointer)
    (executed : ensureTable takeFrame setEntry m (frames.map frameAddress) (slot table j) words isUser =
      some (next, rest)) :
    ∃ others, rest = others.map frameAddress ∧ Ready next root i others ∧
      pageRadix.descend next root [i] = some pointer := by
  have self := ready.keeps_self small executed
  have kept := ensureTable_keeps executed small found fun frame member => ready.avoids member i
  have subset : ∃ others : List (BitVec 40), rest = others.map frameAddress ∧ others.Sublist frames := by
    rcases ensureTable_cases executed with ⟨_, _, rfl⟩ | ⟨frame, others, _, rfl, rfl, _⟩
    · exact ⟨frames, rfl, List.Sublist.refl _⟩
    · exact ⟨others, rfl, List.sublist_cons_self _ _⟩
  obtain ⟨others, rfl, sub⟩ := subset
  refine ⟨others, rfl, ⟨self, ready.distinct.sublist sub, ?_, ?_, ?_, ?_⟩, kept⟩
  · exact fun frame member => ready.nonnull frame (sub.subset member)
  · exact fun frame member => ready.bound frame (sub.subset member)
  · exact fun frame member => ready.notRoot frame (sub.subset member)
  · intro frame member
    rw [kept, ← found]
    exact ready.notPointer frame (sub.subset member)

/-- A table of the upper levels is seen in the window once the walk has gone through the root often enough. -/
theorem Ready.ensureTable_window {b c d : BitVec 9} {n : Nat} {path : List (BitVec 9)}
    (through : [510, b, c, d] = List.replicate n 510 ++ path) (reached : pageRadix.descend m root path = some table)
    (avoids : ∀ frame ∈ frames, Avoids m root path frame) :
    ensureTableRecurse takePage setEntryRecurse (frameAddress root) m (frames.map frameAddress) (window b c d j)
      words isUser = ensureTable takeFrame setEntry m (frames.map frameAddress) (slot table j) words isUser := by
  apply ensureTableRecurse_eq _ small ready.nonnull ready.bound
  · intro frame member
    rw [through]
    exact (avoids frame member).replicate ready.self (ready.notRoot frame member) n
  · rw [through, ready.self.descend_replicate, reached]

end Ready

/-- Where the walk at the addresses of the tables completes, `vmmgr_map_page_after_paging` writes the
    same entry, after the same tables have been created. -/
theorem afterPaging_of_walk {m next : Memory} {root : BitVec 40} {virt page : BitVec 64} {frames : List (BitVec 40)}
    {rest : List (BitVec 64)} {isUser : Bool} (ready : Ready m root (pml4Index virt) frames)
    (executed : ensurePageEntry takeFrame (frameAddress root) m (frames.map frameAddress) virt isUser =
      some (page, next, rest)) (phys : BitVec 64) :
    vmmgrMapPageAfterPaging takePage (frameAddress root) m (frames.map frameAddress) phys virt isUser =
      some (Function.update next page (setEntry (next page) phys isUser), rest) := by
  simp only [ensurePageEntry, Option.bind_eq_bind, Option.bind_eq_some_iff, Prod.exists] at executed
  obtain ⟨e, lookup, m₁, rest₁, pml4, pdpe, lookup₁, m₂, rest₂, pointer, pde, lookup₂, m₃, rest₃, directory, last,
    lookup₃, done⟩ := executed
  obtain ⟨rfl, rfl, rfl⟩ : last = page ∧ m₃ = next ∧ rest₃ = rest := by simpa using done
  have entry := lookupEntry_address lookup
  have entry₁ := lookupEntry_address lookup₁
  have entry₂ := lookupEntry_address lookup₂
  have entry₃ := lookupEntry_address lookup₃
  rw [(slot_offset root virt).1] at entry
  rw [pagePhysicalAddress_eq, (slot_offset _ virt).2.1] at entry₁
  rw [pagePhysicalAddress_eq, (slot_offset _ virt).2.2.1] at entry₂
  rw [pagePhysicalAddress_eq, (slot_offset _ virt).2.2.2] at entry₃
  subst entry entry₁ entry₂ entry₃
  obtain ⟨frames₁, rfl, ready₁⟩ := ready.pml4 (by decide) pml4
  have reached₁ : pageRadix.descend m₁ root [pml4Index virt] = _ :=
    ensureTable_reaches pml4 (by decide) (by rfl) fun _ _ => Avoids.nil
  obtain ⟨frames₂, rfl, ready₂, kept₂⟩ := ready₁.below (by decide) reached₁ pointer
  have reached₂ : pageRadix.descend m₂ root [pml4Index virt, pointerIndex virt] = _ :=
    ensureTable_reaches pointer (by decide) reached₁ fun frame member => ready₁.avoids member _
  have avoids₂ (frame : BitVec 40) (member : frame ∈ frames₂) :
      Avoids m₂ root [pml4Index virt, pointerIndex virt] frame :=
    (ready₂.avoids member (pml4Index virt)).concat (ready₂.notPointer frame member)
  obtain ⟨frames₃, rfl, ready₃, kept₃⟩ := ready₂.below (by decide) kept₂ directory
  have reached₃ : pageRadix.descend m₃ root (pagePath virt) = _ :=
    ensureTable_reaches directory (by decide) reached₂ avoids₂
  have first : ensureTableRecurse takePage setEntryRecurse (frameAddress root) m (frames.map frameAddress)
      (getPml4eOffsetRecurse virt) tableWords isUser = some (m₁, frames₁.map frameAddress) := by
    rw [getPml4eOffsetRecurse_eq, ready.ensureTable_window (by decide) (n := 4) rfl (by rfl), pml4]
    exact fun _ _ => Avoids.nil
  have second : ensureTableRecurse takePage setEntryRecurse (frameAddress root) m₁ (frames₁.map frameAddress)
      (getPdpeOffsetRecurse virt) tableWords isUser = some (m₂, frames₂.map frameAddress) := by
    rw [getPdpeOffsetRecurse_eq, ready₁.ensureTable_window (by decide) (n := 3) rfl reached₁, pointer]
    exact fun frame member => ready₁.avoids member _
  have third : ensureTableRecurse takePage setEntryRecurse (frameAddress root) m₂ (frames₂.map frameAddress)
      (getPdeOffsetRecurse virt) pointerWords isUser = some (m₃, frames₃.map frameAddress) := by
    rw [getPdeOffsetRecurse_eq, ready₂.ensureTable_window (by decide) (n := 2) rfl reached₂ avoids₂, directory]
  have leaf : pageRadix.descend m₃ root (510 :: pagePath virt) = _ := (ready₃.self.descend _).trans reached₃
  have stored := setPhysVirtRecurse_eq leaf phys isUser
  rw [vmmgrMapPageAfterPaging]
  generalize ensureTableRecurse takePage setEntryRecurse (frameAddress root) = ensure at first second third ⊢
  generalize setPhysVirtRecurse = store at stored ⊢
  rw [first, Option.bind_eq_bind, Option.bind_some]
  simp only [second, third, stored, Option.bind_some, Option.bind_eq_bind]
  rfl

/-- Distinct frames of the linear map, which ends at 2 GiB, that hold no table of the walk of a page. -/
structure FreshOnWalk (m : Memory) (root : BitVec 40) (virt : BitVec 64) (frames : List (BitVec 40)) : Prop where
  distinct : frames.Nodup
  nonnull : ∀ frame ∈ frames, frame ≠ 0
  bound : ∀ frame ∈ frames, frame.toNat < 2 ^ 19
  unused : ∀ frame ∈ frames, ∀ path, path <+: pagePath virt → pageRadix.descend m root path ≠ some frame

theorem FreshOnWalk.ready {m : Memory} {root : BitVec 40} {virt : BitVec 64} {frames : List (BitVec 40)}
    (fresh : FreshOnWalk m root virt frames) (self : SelfMapped m root) : Ready m root (pml4Index virt) frames where
  self := self
  distinct := fresh.distinct
  nonnull := fresh.nonnull
  bound := fresh.bound
  notRoot frame member same := fresh.unused frame member [] List.nil_prefix (congrArg some same)
  notPointer frame member := fresh.unused frame member [pml4Index virt] ⟨_, rfl⟩

theorem FreshFrames.onWalk {m : Memory} {root : BitVec 40} {virt : BitVec 64} {frames : List (BitVec 40)}
    (fresh : FreshFrames m root frames) (outside : pml4Index virt ≠ 510)
    (bound : ∀ frame ∈ frames, frame.toNat < 2 ^ 19) : FreshOnWalk m root virt frames where
  distinct := fresh.distinct
  nonnull := fresh.nonnull
  bound := bound
  unused frame member path inside := fresh.unused frame member path ((pagePath_valid outside).shorter inside)

/-- The mapping through the recursive slot leaves the memory that the mapping at the addresses of the
    tables leaves, and takes the same frames. -/
theorem mapping_paths_agree (m : Memory) (root : BitVec 40) (phys virt : BitVec 64) (frames : List (BitVec 40))
    (self : SelfMapped m root) (fresh : FreshOnWalk m root virt frames) (next : Memory) (rest : List (BitVec 64))
    (executed : vmmgrMapPage takeFrame (frameAddress root) m (frames.map frameAddress) phys virt =
      some (next, rest)) :
    vmmgrMapPageAfterPaging takePage (frameAddress root) m (frames.map frameAddress) phys virt false =
      some (next, rest) := by
  have walked := executed
  simp only [vmmgrMapPage, Option.bind_eq_bind, Option.bind_eq_some_iff, Prod.exists] at walked
  obtain ⟨page, before, left, walked, _⟩ := walked
  rw [afterPaging_of_walk (fresh.ready self) walked phys, ← vmmgrMapPage_eq walked phys, executed]

theorem emptyTables_self {root : BitVec 40} (bound : root.toNat < 2 ^ 32) : SelfMapped (emptyTables root) root := by
  have clear : HighClear 0 := rfl
  rw [SelfMapped, emptyTables, Function.update_self, decode, if_neg (setEntry_present _ _ _),
    frameOf_setEntry clear bound]

theorem first_page_paths_agree :
    ∃ next rest,
      vmmgrMapPage takeFrame 0x1000 (emptyTables 1) [0x2000, 0x3000, 0x4000] 0x5000 0 = some (next, rest) ∧
      vmmgrMapPageAfterPaging takePage 0x1000 (emptyTables 1) [0x2000, 0x3000, 0x4000] 0x5000 0 false =
        some (next, rest) := by
  have fresh : FreshFrames (emptyTables 1) 1 [2, 3, 4] := emptyTables_fresh (by decide) (by simp) (by simp)
  have known : pageRadix.descend (emptyTables 1) 1 ((pagePath 0).take 0) ≠ none := Option.some_ne_none 1
  obtain ⟨mapped, _, rest, table, walked, _⟩ :=
    ensurePageEntry_spec false (emptyTables_tables (by decide)) fresh (takeFrame_yields _) known (by decide) (by decide)
      (emptyTables_walkClear (show pml4Index 0 ≠ 510 by decide))
  refine ⟨_, _, vmmgrMapPage_eq walked 0x5000, ?_⟩
  exact mapping_paths_agree (emptyTables 1) 1 0x5000 0 [2, 3, 4] (emptyTables_self (by decide))
    (fresh.onWalk (by decide) (by simp)) _ _ (vmmgrMapPage_eq walked 0x5000)

theorem descend_nextTable {m : Memory} {root table : BitVec 40} {path : List (BitVec 9)} {i : BitVec 9}
    {address : BitVec 64} (reached : pageRadix.descend m root path = some table)
    (present : nextTable (m (slot table i)) = some address) :
    ∃ next, address = frameAddress next ∧ pageRadix.descend m root (path ++ [i]) = some next := by
  rw [nextTable_eq, Option.map_eq_some_iff] at present
  obtain ⟨next, found, equal⟩ := present
  refine ⟨next, equal.symm, ?_⟩
  rw [Radix.descend_concat, reached, Option.bind_some]
  exact found

/-- The entries on the walk to `virt` are at the addresses of the window. -/
theorem window_names_entries (m : Memory) (root : BitVec 40) (self : SelfMapped m root) (virt : BitVec 64) :
    translate m (frameAddress root) (getPml4eOffsetRecurse virt) =
      some (frameAddress root + 8 * pagePml4Offset virt) ∧
    ∀ pdpe, nextTable (m (frameAddress root + 8 * pagePml4Offset virt)) = some pdpe →
      translate m (frameAddress root) (getPdpeOffsetRecurse virt) = some (pdpe + 8 * pagePointerOffset virt) ∧
      ∀ pde, nextTable (m (pdpe + 8 * pagePointerOffset virt)) = some pde →
        translate m (frameAddress root) (getPdeOffsetRecurse virt) = some (pde + 8 * pageDirectoryOffset virt) ∧
        ∀ pte, nextTable (m (pde + 8 * pageDirectoryOffset virt)) = some pte →
          translate m (frameAddress root) (getPteRecurse virt) = some (pte + 8 * pageTableOffset virt) := by
  rw [(slot_offset root virt).1]
  have top : pageRadix.descend m root [] = some root := rfl
  refine ⟨?_, ?_⟩
  · rw [getPml4eOffsetRecurse_eq, translate_window]
    change (pageRadix.descend m root (List.replicate 4 510 ++ [])).map _ = _
    rw [self.descend_replicate, top]
    rfl
  intro pdpe present
  obtain ⟨pointer, rfl, first⟩ := descend_nextTable top present
  rw [(slot_offset pointer virt).2.1]
  refine ⟨?_, ?_⟩
  · rw [getPdpeOffsetRecurse_eq, translate_window]
    change (pageRadix.descend m root (List.replicate 3 510 ++ [pml4Index virt])).map _ = _
    rw [self.descend_replicate]
    exact congrArg (Option.map _) first
  intro pde present
  obtain ⟨directory, rfl, second⟩ := descend_nextTable first present
  rw [(slot_offset directory virt).2.2.1]
  refine ⟨?_, ?_⟩
  · rw [getPdeOffsetRecurse_eq, translate_window]
    change (pageRadix.descend m root (List.replicate 2 510 ++ [pml4Index virt, pointerIndex virt])).map _ = _
    rw [self.descend_replicate]
    exact congrArg (Option.map _) second
  intro pte present
  obtain ⟨table, rfl, third⟩ := descend_nextTable second present
  rw [(slot_offset table virt).2.2.2, getPteRecurse_eq, translate_window, self.descend]
  exact congrArg (Option.map _) third

theorem window_names_itself : SelfMapped (emptyTables 1) 1 ∧
    translate (emptyTables 1) 0x1000 (getPteRecurse recursiveEntry) = some (0x1000 + 8 * 510) := by
  have self : SelfMapped (emptyTables 1) 1 := emptyTables_self (by decide)
  have present : nextTable (emptyTables 1 (slot 1 510)) = some 0x1000 := by
    rw [nextTable_eq, self]
    rfl
  obtain ⟨_, pointer⟩ := window_names_entries (emptyTables 1) 1 self recursiveEntry
  obtain ⟨_, directory⟩ := pointer 0x1000 present
  obtain ⟨_, table⟩ := directory 0x1000 present
  exact ⟨self, table 0x1000 present⟩

end Sbunix.Paging
