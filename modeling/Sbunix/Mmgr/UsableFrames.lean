import Sbunix.Mmgr.Usable

namespace Sbunix.Mmgr

def allocBlocks (s : State) : Nat → Option (List (BitVec 64) × State)
  | 0 => some ([], s)
  | calls + 1 => do
    let (address, s) ← mmgrAllocBlock s
    let (addresses, s) ← allocBlocks s calls
    return (address :: addresses, s)

/-- The frames that `memset` marks. It fills `usable / 64` bytes with `0x0F`, not so many words
    with ones; frame 31 of a word is marked through the upper half of the word. -/
def Filled (bytes frame : Nat) : Prop :=
  if frame % 64 = 31 then 8 * (frame / 64) + 4 < bytes
  else frame % 8 < 4 ∧ 8 * (frame / 64) + frame % 64 / 8 < bytes

instance (bytes frame : Nat) : Decidable (Filled bytes frame) :=
  inferInstanceAs (Decidable (if frame % 64 = 31 then _ else _))

/-- Every frame within reach of the search that lies outside usable memory has been filled by
    `memset`, and its alias, which would clear the same bit, is not usable either. -/
def HolesFilled (smap : List SmapEntry) : Prop :=
  ∀ frame, 1024 ≤ frame → frame < 64 * (usableBlocks smap / 64) → frame % 64 < 32 →
    ¬ UsableFrame smap frame →
      Filled (usableBlocks smap / 64) frame ∧ ¬ UsableFrame smap (frame + 32)

theorem candidate_iff_raised {s : State} {frame : Nat} :
    Candidate s frame ↔ frame % 64 < 32 ∧ frame / 64 < (s.maxBlocks / 64).toNat ∧
      ∃ h : frame / 64 < 1200, ∀ bit, bit < 64 → Reaches frame ⟨frame / 64, h⟩ bit →
        ¬ Raised s ⟨frame / 64, h⟩ bit := by
  refine and_congr Iff.rfl (and_congr Iff.rfl (exists_congr fun h => ?_))
  constructor
  · rintro zero bit small ⟨_, reached⟩ raised
    have value := congrArg (fun word => word.getLsbD bit) zero
    simp only [BitVec.getLsbD_and, getLsbD_blockMask _ _ small, reached, decide_true, Bool.and_true,
      BitVec.ofNat_eq_ofNat, BitVec.getLsbD_zero] at value
    rw [Raised, value] at raised
    cases raised
  · intro clear
    apply BitVec.eq_of_getLsbD_eq
    intro bit small
    simp only [BitVec.getLsbD_and, getLsbD_blockMask _ _ small, BitVec.ofNat_eq_ofNat,
      BitVec.getLsbD_zero]
    by_cases reached : bit = frame % 32 ∨ frame % 32 = 31 ∧ 31 ≤ bit
    · have lowered := clear bit small ⟨rfl, reached⟩
      simp only [Raised, Bool.not_eq_true] at lowered
      simp [lowered]
    · simp [reached]

theorem usableFrame_iff {smap : List SmapEntry} (valid : ValidMap smap) {frame : Nat} :
    UsableFrame smap frame ↔ ∃ entry ∈ usableEntries smap, entry.Contains frame := by
  simp only [UsableFrame, SmapEntry.Contains, mem_usableEntries, and_assoc]
  refine exists_congr fun entry => and_congr_right fun member => and_congr_right fun _ => ?_
  have aligned := valid.aligned entry member
  omega

/-- The part of the word that a low-half frame occupies is raised by the fill iff it is `Filled`. -/
theorem filled_iff {bytes frame : Nat} (low : frame % 64 < 32) (h : frame / 64 < 1200) :
    Filled bytes frame ↔ ∃ bit, bit < 64 ∧ Reaches frame ⟨frame / 64, h⟩ bit ∧
      8 * (frame / 64) + bit / 8 < bytes ∧ bit % 8 < 4 := by
  simp only [Filled, Reaches, true_and]
  split
  · rename_i last
    constructor
    · intro inside
      exact ⟨32, by omega, by omega, by omega, by omega⟩
    · rintro ⟨bit, small, reached, inside, lower⟩
      omega
  · rename_i notLast
    constructor
    · rintro ⟨lower, inside⟩
      exact ⟨frame % 32, by omega, by omega, by omega, by omega⟩
    · rintro ⟨bit, small, reached, inside, lower⟩
      have same : bit = frame % 64 := by omega
      omega

/-- A block whose mask meets that of a low-half frame is the frame itself or its alias. -/
theorem reaches_common {frame block bit : Nat} {index : Fin 1200} (low : frame % 64 < 32)
    (mine : Reaches frame index bit) (other : Reaches block index bit) :
    block = frame ∨ block = frame + 32 := by
  obtain ⟨word, reached⟩ := mine
  obtain ⟨otherWord, otherReached⟩ := other
  omega

theorem reaches_alias {frame block bit : Nat} {index : Fin 1200} (low : frame % 64 < 32)
    (same : block = frame ∨ block = frame + 32) (mine : Reaches frame index bit) :
    Reaches block index bit := by
  obtain ⟨word, reached⟩ := mine
  refine ⟨by omega, ?_⟩
  omega

theorem Initialised.candidate_iff {smap : List SmapEntry} {s : State} (valid : ValidMap smap)
    (initialised : Initialised smap s) (frame : Nat) :
    Candidate s frame ↔ 1024 ≤ frame ∧ frame < 64 * (usableBlocks smap / 64) ∧ frame % 64 < 32 ∧
      (Filled (usableBlocks smap / 64) frame → UsableFrame smap frame ∨ UsableFrame smap (frame + 32)) := by
  have total := usableBlocks_le valid
  have words : (s.maxBlocks / 64).toNat = usableBlocks smap / 64 := by
    rw [initialised.maxBlocks, BitVec.toNat_udiv, BitVec.toNat_ofNat]
    change usableBlocks smap % 2 ^ 64 / 64 = _
    omega
  rw [candidate_iff_raised, words]
  constructor
  · rintro ⟨low, inside, h, clear⟩
    have above : 1024 ≤ frame := by
      by_contra below
      apply clear (frame % 32) (by omega) ⟨rfl, Or.inl rfl⟩
      rw [initialised.raised _ _ (by omega)]
      exact Or.inr ⟨frame, by omega, rfl, Or.inl rfl⟩
    refine ⟨above, by omega, low, ?_⟩
    intro filled
    obtain ⟨bit, small, reached, byte, lower⟩ := (filled_iff low h).mp filled
    have cleared := clear bit small reached
    rw [initialised.raised _ _ small] at cleared
    by_contra unusable
    apply cleared
    refine Or.inl ⟨⟨byte, lower⟩, ?_⟩
    intro entry member block contains other
    apply unusable
    rcases reaches_common low reached other with rfl | rfl
    · exact Or.inl ((usableFrame_iff valid).mpr ⟨entry, member, contains⟩)
    · exact Or.inr ((usableFrame_iff valid).mpr ⟨entry, member, contains⟩)
  · rintro ⟨above, inside, low, usable⟩
    have h : frame / 64 < 1200 := by omega
    refine ⟨low, by omega, h, ?_⟩
    intro bit small reached raised
    rw [initialised.raised _ _ small] at raised
    rcases raised with ⟨⟨byte, lower⟩, kept⟩ | ⟨block, below, other⟩
    · have filled := (filled_iff low h).mpr ⟨bit, small, reached, byte, lower⟩
      rcases usable filled with here | aliased
      · obtain ⟨entry, member, contains⟩ := (usableFrame_iff valid).mp here
        exact kept entry member frame contains reached
      · obtain ⟨entry, member, contains⟩ := (usableFrame_iff valid).mp aliased
        exact kept entry member _ contains (reaches_alias low (Or.inr rfl) reached)
    · rcases reaches_common low reached other with rfl | rfl
      · omega
      · omega

theorem allocBlocks_candidates {s final : State} {calls : Nat} {addresses : List (BitVec 64)}
    (executed : allocBlocks s calls = some (addresses, final)) :
    ∀ address ∈ addresses, address ≠ 0 → ∃ block, Candidate s block ∧ address = blockAddress block := by
  induction calls generalizing s addresses with
  | zero =>
    cases executed
    simp
  | succ calls ih =>
    simp only [allocBlocks, Option.bind_eq_bind, Option.bind_eq_some_iff] at executed
    obtain ⟨⟨first, next⟩, taking, ⟨rest, last⟩, resting, result⟩ := executed
    cases result
    intro address member nonzero
    rcases allocBlock_cases taking with ⟨zero, same, _⟩ | ⟨block, h, candidate, _, _, taken, rfl⟩
    · subst zero same
      rcases List.mem_cons.mp member with rfl | member
      · exact absurd rfl nonzero
      · exact ih resting address member nonzero
    · rcases List.mem_cons.mp member with rfl | member
      · exact ⟨block, candidate, taken⟩
      · obtain ⟨other, later, equal⟩ := ih resting address member nonzero
        exact ⟨other, ((candidate_taken h candidate.1 other).mp later).1, equal⟩

/-- After `calls` allocations the counter is that far above the reserved blocks, and every
    remaining candidate has at least `calls` low-half blocks before it. -/
structure Paced (total calls : Nat) (s : State) : Prop where
  maxBlocks : s.maxBlocks = BitVec.ofNat 64 total
  usedBlocks : s.usedBlocks = BitVec.ofNat 64 (1024 + calls)
  rank : ∀ block, Candidate s block → 1024 ≤ block ∧ 512 + calls ≤ 32 * (block / 64) + block % 64

theorem Paced.usable {total calls : Nat} {s : State} (paced : Paced total calls s) (bound : total ≤ 76800)
    {block : Nat} (candidate : Candidate s block) : getTotalUsableBlocks s ≠ 0 := by
  have rank := paced.rank block candidate
  obtain ⟨low, inside, _⟩ := candidate
  rw [paced.maxBlocks, BitVec.toNat_udiv, BitVec.toNat_ofNat] at inside
  change block / 64 < total % 2 ^ 64 / 64 at inside
  intro zero
  have value := congrArg BitVec.toNat zero
  rw [getTotalUsableBlocks, getTotalBlocks, getUsedBlocks, paced.maxBlocks, paced.usedBlocks,
    BitVec.toNat_sub, BitVec.toNat_ofNat, BitVec.toNat_ofNat] at value
  change (2 ^ 64 - (1024 + calls) % 2 ^ 64 + total % 2 ^ 64) % 2 ^ 64 = 0 at value
  omega

theorem Paced.fits {total calls : Nat} {s : State} (paced : Paced total calls s) (bound : total ≤ 76800) :
    (s.maxBlocks / 64).toNat ≤ 1200 := by
  rw [paced.maxBlocks, BitVec.toNat_udiv, BitVec.toNat_ofNat]
  change total % 2 ^ 64 / 64 ≤ 1200
  omega

theorem Paced.taken {total calls block : Nat} {s : State} (paced : Paced total calls s)
    (candidate : Candidate s block) (least : ∀ other, other < block → ¬ Candidate s other)
    (h : block / 64 < 1200) : Paced total (calls + 1) (taken s block h) := by
  refine ⟨paced.maxBlocks, ?_, ?_⟩
  · change s.usedBlocks + 1 = _
    rw [paced.usedBlocks]
    bv_omega
  · intro other later
    obtain ⟨earlier, different⟩ := (candidate_taken h candidate.1 other).mp later
    have order : ¬ other < block := fun below => least other below earlier
    have rank := paced.rank block candidate
    have low := earlier.1
    have lower := candidate.1
    omega

/-- The search reaches every candidate: each call takes a smaller one or the candidate itself. -/
theorem Paced.eventually {total : Nat} (bound : total ≤ 76800) {block distance calls : Nat} {s : State}
    (paced : Paced total calls s) (candidate : Candidate s block)
    (close : 32 * (block / 64) + block % 64 < 512 + calls + distance) :
    ∃ more addresses final, allocBlocks s more = some (addresses, final) ∧
      blockAddress block ∈ addresses := by
  induction distance generalizing calls s with
  | zero =>
    have rank := paced.rank block candidate
    omega
  | succ distance ih =>
    obtain ⟨address, next, allocated⟩ := allocBlock_total (paced.fits bound)
    rcases allocBlock_cases allocated with ⟨_, _, refused⟩ | ⟨first, h, lowest, least, _, equal, result⟩
    · rcases refused with empty | none
      · exact absurd empty (paced.usable bound candidate)
      · exact absurd candidate (none block)
    · subst equal result
      by_cases same : block = first
      · subst same
        exact ⟨1, [blockAddress block], Mmgr.taken s block h, by simp [allocBlocks, allocated], by simp⟩
      · obtain ⟨more, addresses, final, executed, member⟩ := ih (paced.taken lowest least h)
          ((candidate_taken h lowest.1 block).mpr ⟨candidate, same⟩) (by omega)
        exact ⟨more + 1, blockAddress first :: addresses, final,
          by simp [allocBlocks, allocated, executed], List.mem_cons_of_mem _ member⟩

theorem Initialised.paced {smap : List SmapEntry} {s : State} (valid : ValidMap smap)
    (initialised : Initialised smap s) : Paced (usableBlocks smap) 0 s := by
  refine ⟨initialised.maxBlocks, initialised.usedBlocks, ?_⟩
  intro block candidate
  have above := ((initialised.candidate_iff valid block).mp candidate).1
  omega

theorem blockAddress_frame {block : Nat} (bound : block < 76800) :
    (blockAddress block).toNat / 4096 = block := by
  rw [blockAddress_toNat bound]
  omega

/-- The candidates left by `mm_phy_init` are usable exactly when the holes of the map are filled. -/
theorem candidates_usable_iff {smap : List SmapEntry} {s : State} (valid : ValidMap smap)
    (initialised : Initialised smap s) :
    (∀ block, Candidate s block → UsableFrame smap block) ↔ HolesFilled smap := by
  constructor
  · intro usable frame above inside low unusable
    have refused : ¬ Candidate s frame := fun candidate => unusable (usable frame candidate)
    rw [initialised.candidate_iff valid] at refused
    by_contra unfilled
    apply refused
    refine ⟨above, inside, low, fun filled => Or.inr ?_⟩
    by_contra unusableAlias
    exact unfilled ⟨filled, unusableAlias⟩
  · intro holes block candidate
    obtain ⟨above, inside, low, cleared⟩ := (initialised.candidate_iff valid block).mp candidate
    by_contra unusable
    obtain ⟨filled, unusableAlias⟩ := holes block above inside low unusable
    rcases cleared filled with here | aliased
    · exact unusable here
    · exact unusableAlias aliased

theorem Initialised.handed_usable_iff {smap : List SmapEntry} {s : State} (valid : ValidMap smap)
    (initialised : Initialised smap s) :
    (∀ calls addresses final, allocBlocks s calls = some (addresses, final) →
      ∀ address ∈ addresses, address ≠ 0 → UsableFrame smap (address.toNat / 4096)) ↔
    HolesFilled smap := by
  rw [← candidates_usable_iff valid initialised]
  constructor
  · intro handed block candidate
    obtain ⟨calls, addresses, final, allocated, member⟩ :=
      (initialised.paced valid).eventually (usableBlocks_le valid) candidate
        (show _ < 512 + 0 + (32 * (block / 64) + block % 64) by omega)
    have bound := candidate.bound
    have above := ((initialised.candidate_iff valid block).mp candidate).1
    have nonzero : blockAddress block ≠ 0 := by
      intro zero
      have frame := blockAddress_frame bound
      rw [zero] at frame
      change 0 / 4096 = block at frame
      omega
    have usable := handed calls addresses final allocated _ member nonzero
    rwa [blockAddress_frame bound] at usable
  · intro usable calls addresses final allocated address member nonzero
    obtain ⟨block, candidate, rfl⟩ := allocBlocks_candidates allocated address member nonzero
    rw [blockAddress_frame candidate.bound]
    exact usable block candidate

/-- After `mm_phy_init` only usable memory is handed out iff the holes of the map are filled. -/
theorem allocated_usable_iff_holes_filled (smap : List SmapEntry) (valid : ValidMap smap) :
    ∃ s, mmPhyInit bootState smap = some s ∧
      ((∀ calls addresses final, allocBlocks s calls = some (addresses, final) →
        ∀ address ∈ addresses, address ≠ 0 → UsableFrame smap (address.toNat / 4096)) ↔
      HolesFilled smap) := by
  obtain ⟨s, executed, initialised⟩ := mmPhyInit_valid valid
  exact ⟨s, executed, initialised.handed_usable_iff valid⟩

def solidMap : List SmapEntry := [⟨0, 0x1000000, mmPhyUsable⟩]

theorem solidMap_valid : ValidMap solidMap := by
  constructor <;> simp [solidMap, mmPhyUsable]

theorem solid_map_usable :
    ∃ s, mmPhyInit bootState solidMap = some s ∧
      ∀ calls addresses final, allocBlocks s calls = some (addresses, final) →
        ∀ address ∈ addresses, address ≠ 0 → UsableFrame solidMap (address.toNat / 4096) := by
  obtain ⟨s, executed, iff⟩ := allocated_usable_iff_holes_filled solidMap solidMap_valid
  refine ⟨s, executed, iff.mpr ?_⟩
  intro frame above inside low unusable
  have total : usableBlocks solidMap = 4096 := by decide
  rw [total] at inside
  refine absurd ⟨_, List.mem_singleton.mpr rfl, rfl, ?_, ?_⟩ unusable
  · exact Nat.zero_le _
  · change 4096 * frame + 4096 ≤ 0 + 0x1000000
    omega

def holedMap : List SmapEntry :=
  [⟨0, 0x400000, mmPhyUsable⟩, ⟨0x400000, 0x400000, 2⟩, ⟨0x800000, 0x800000, mmPhyUsable⟩]

theorem holedMap_valid : ValidMap holedMap := by
  constructor <;> simp [holedMap, mmPhyUsable]

/-- The first block handed out on the map with the hole is the first of the hole. -/
theorem holed_map_hands_out_hole :
    ValidMap holedMap ∧ ∃ s next, mmPhyInit bootState holedMap = some s ∧
      mmgrAllocBlock s = some (0x400000, next) ∧ ¬ UsableFrame holedMap (0x400000 / 4096) := by
  refine ⟨holedMap_valid, ?_⟩
  obtain ⟨s, executed, initialised⟩ := mmPhyInit_valid holedMap_valid
  have total : usableBlocks holedMap = 3072 := by decide
  have candidate : Candidate s 1024 := by
    rw [initialised.candidate_iff holedMap_valid, total]
    refine ⟨by decide, by decide, by decide, fun filled => ?_⟩
    exact absurd filled (by decide)
  have paced := initialised.paced holedMap_valid
  obtain ⟨address, next, allocated⟩ := allocBlock_total (paced.fits (by rw [total]; decide))
  refine ⟨s, next, executed, ?_, by decide⟩
  rcases allocBlock_cases allocated with ⟨_, _, refused⟩ | ⟨first, h, lowest, least, _, equal, _⟩
  · rcases refused with empty | none
    · exact absurd empty (paced.usable (by rw [total]; decide) candidate)
    · exact absurd candidate (none 1024)
  · have above := (paced.rank first lowest).1
    have same : first = 1024 := by
      by_contra different
      exact least 1024 (by omega) candidate
    subst same
    rw [allocated, equal]
    rfl

end Sbunix.Mmgr
