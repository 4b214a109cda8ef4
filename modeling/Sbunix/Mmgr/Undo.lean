import Sbunix.Mmgr.Exclusive

namespace Sbunix.Mmgr

open Library

/-- The masks are sign-extended, so that no operation tells the bits from 31 on apart. -/
def Uniform (s : State) : Prop :=
  ∀ index bit, 31 ≤ bit → bit < 64 → (s.memoryMap index).getLsbD bit = (s.memoryMap index).getLsbD 31

theorem getLsbD_signExtend_high (word : BitVec 32) {bit : Nat} (high : 31 ≤ bit) (bound : bit < 64) :
    (word.signExtend 64).getLsbD bit = word.getLsbD 31 := by
  rw [BitVec.getLsbD_signExtend, decide_eq_true bound, Bool.true_and]
  by_cases last : bit = 31
  · rw [last, if_pos (by decide)]
  · rw [if_neg (by omega), BitVec.msb_eq_getLsbD_last]

section Uniform

variable {s next : State} (uniform : Uniform s)

include uniform

theorem Uniform.storeWord {index : Fin 1200} {word : BitVec 64}
    (high : ∀ bit, 31 ≤ bit → bit < 64 → word.getLsbD bit = word.getLsbD 31) : Uniform (s.storeWord index word) := by
  intro other
  simp only [State.storeWord]
  split
  · exact high
  · exact uniform other

theorem Uniform.set {bit : Int} (executed : mmgrSetBlock s bit = some next) : Uniform next := by
  simp only [mmgrSetBlock, Option.bind_eq_bind, Option.bind_eq_some_iff] at executed
  obtain ⟨index, _, stored⟩ := executed
  cases stored
  apply uniform.storeWord
  intro position high bound
  rw [BitVec.getLsbD_or, BitVec.getLsbD_or, uniform index position high bound, getLsbD_signExtend_high _ high bound,
    getLsbD_signExtend_high _ (Nat.le_refl 31) (by decide)]

theorem Uniform.unset {bit : Int} (executed : mmgrUnsetBlock s bit = some next) : Uniform next := by
  simp only [mmgrUnsetBlock, Option.bind_eq_bind, Option.bind_eq_some_iff] at executed
  obtain ⟨index, _, stored⟩ := executed
  cases stored
  apply uniform.storeWord
  intro position high bound
  rw [BitVec.getLsbD_and, BitVec.getLsbD_and, uniform index position high bound, getLsbD_signExtend_high _ high bound,
    getLsbD_signExtend_high _ (Nat.le_refl 31) (by decide)]

theorem Uniform.setAll {pageFrame : BitVec 64} {remaining i : Nat}
    (executed : setBlocks s pageFrame remaining i = some next) : Uniform next := by
  induction remaining generalizing s i with
  | zero =>
    cases executed
    exact uniform
  | succ remaining ih =>
    simp only [setBlocks, Option.bind_eq_bind, Option.bind_eq_some_iff] at executed
    obtain ⟨middle, set, rest⟩ := executed
    exact ih (uniform.set set) rest

theorem Uniform.unsetAll {pageFrame : Int} {remaining i : Nat}
    (executed : unsetBlocks s pageFrame remaining i = some next) : Uniform next := by
  induction remaining generalizing s i with
  | zero =>
    cases executed
    exact uniform
  | succ remaining ih =>
    simp only [unsetBlocks, Option.bind_eq_bind, Option.bind_eq_some_iff] at executed
    obtain ⟨middle, unset, rest⟩ := executed
    exact ih (uniform.unset unset) rest

theorem Uniform.allocBlock {p : BitVec 64} (executed : mmgrAllocBlock s = some (p, next)) : Uniform next := by
  rcases allocBlock_cases executed with ⟨_, rfl, _⟩ | ⟨block, h, _, _, _, _, rfl⟩
  · exact uniform
  · have set : mmgrSetBlock s block = some _ := setBlock_eq.mpr ⟨h, rfl⟩
    have marked := uniform.set set
    exact marked

theorem Uniform.allocSizeBlocks {size : BitVec 32} {p : BitVec 64}
    (executed : mmgrAllocSizeBlocks s size = some (p, next)) : Uniform next := by
  rcases allocSizeBlocks_cases executed with ⟨_, rfl⟩ | ⟨start, marked, _, set, _, rfl⟩
  · exact uniform
  · have kept := uniform.setAll set
    exact kept

theorem Uniform.freeBlock {p : BitVec 64} (executed : mmgrFreeBlock s p = some next) : Uniform next := by
  unfold mmgrFreeBlock at executed
  split at executed
  · cases executed
    exact uniform
  · simp only [Option.bind_eq_bind, Option.bind_eq_some_iff] at executed
    obtain ⟨cleared, unset, executed⟩ := executed
    cases executed
    have kept := uniform.unset unset
    exact kept

theorem Uniform.freeSizeBlocks {p : BitVec 64} {size : BitVec 32}
    (executed : mmgrFreeSizeBlocks s p size = some next) : Uniform next := by
  unfold mmgrFreeSizeBlocks at executed
  split at executed
  · cases executed
    exact uniform
  · simp only [Option.bind_eq_bind, Option.bind_eq_some_iff] at executed
    obtain ⟨cleared, unset, executed⟩ := executed
    cases executed
    have kept := uniform.unsetAll unset
    exact kept

end Uniform

theorem step_preserves_uniform (session : Session) (call : Call) (next : Session) (uniform : Uniform session.manager)
    (stepped : step session call = some next) : Uniform next.manager := by
  rcases step_cases stepped with ⟨result, executed, rfl⟩ | ⟨size, result, executed, rfl⟩ |
    ⟨p, manager, _, executed, rfl⟩ | ⟨p, size, manager, _, executed, rfl⟩
  · exact uniform.allocBlock executed
  · exact uniform.allocSizeBlocks executed
  · exact uniform.freeBlock executed
  · exact uniform.freeSizeBlocks executed

theorem uniform_of_zero {s : State} (zero : ∀ index, s.memoryMap index = 0) : Uniform s := by
  intro index bit _ _
  rw [zero index, BitVec.ofNat_eq_ofNat, BitVec.getLsbD_zero, BitVec.getLsbD_zero]

/-- Where the bit of a block is clear, all the bits of its mask are. -/
theorem Uniform.mask_clear {s : State} (uniform : Uniform s) {block : Nat} (h : block / 64 < 1200)
    (free : busy s block = false) : s.memoryMap ⟨block / 64, h⟩ &&& blockMask block = 0 := by
  rw [busy_of_word s h rfl] at free
  apply BitVec.eq_of_getLsbD_eq
  intro bit bound
  rw [BitVec.getLsbD_and, getLsbD_blockMask _ _ bound, BitVec.ofNat_eq_ofNat, BitVec.getLsbD_zero]
  by_cases own : bit = block % 32
  · rw [own, free, Bool.false_and]
  · by_cases high : block % 32 = 31 ∧ 31 ≤ bit
    · rw [uniform _ bit high.2 bound, ← high.1, free, Bool.false_and]
    · have outside : ¬ (bit = block % 32 ∨ block % 32 = 31 ∧ 31 ≤ bit) := by
        rintro (same | above)
        · exact own same
        · exact high above
      rw [decide_eq_false outside, Bool.and_false]

theorem setBlocks_counters {s next : State} {pageFrame : BitVec 64} {remaining i : Nat}
    (executed : setBlocks s pageFrame remaining i = some next) :
    next.usedBlocks = s.usedBlocks ∧ next.maxBlocks = s.maxBlocks := by
  induction remaining generalizing s i with
  | zero =>
    cases executed
    exact ⟨rfl, rfl⟩
  | succ remaining ih =>
    simp only [setBlocks, mmgrSetBlock, Option.bind_eq_bind, Option.bind_eq_some_iff] at executed
    obtain ⟨middle, ⟨index, _, stored⟩, rest⟩ := executed
    have counters := ih rest
    cases stored
    exact counters

theorem Uniform.not_covers {s : State} (uniform : Uniform s) {block : Nat} {index : Fin 1200} {bit : Nat}
    (free : busy s block = false) (set : (s.memoryMap index).getLsbD bit = true) : ¬ Covers block index bit := by
  rintro ⟨here, masked⟩
  have h : block / 64 < 1200 := here ▸ index.isLt
  obtain rfl : index = ⟨block / 64, h⟩ := Fin.ext here.symm
  have clear := congrArg (fun word => word.getLsbD bit) (uniform.mask_clear h free)
  simp only [BitVec.getLsbD_and, set, masked, BitVec.ofNat_eq_ofNat, BitVec.getLsbD_zero] at clear
  cases clear

/-- A free range that has been marked is cleared to the words it had before. -/
theorem Uniform.unset_set {s marked : State} (uniform : Uniform s) {start size : Nat} (free : FreeRange s size start)
    (set : setBlocks s (BitVec.ofNat 64 start) size 0 = some marked) (count : BitVec 64) :
    ∃ cleared, unsetBlocks { marked with usedBlocks := count } start size 0 = some cleared ∧
      cleared = { s with usedBlocks := count } := by
  have bound := free.bound
  obtain ⟨cleared, unset, used, total⟩ :=
    unsetBlocks_total { marked with usedBlocks := count } (show start + 0 + size ≤ 76800 by omega)
  refine ⟨cleared, unset, ?_⟩
  have words : cleared.memoryMap = s.memoryMap := by
    funext index
    apply BitVec.eq_of_getLsbD_eq
    intro bit _
    rw [Bool.eq_iff_iff, bit_unsetBlocks unset, bit_setBlocks (by omega) set]
    constructor
    · rintro ⟨old | ⟨c, lower, upper, covered⟩, none⟩
      · exact old
      · exact absurd covered (none c lower upper)
    · intro old
      exact ⟨Or.inl old, fun c _ upper => uniform.not_covers (free.2 c (by omega)).2 old⟩
  have max := total.trans (setBlocks_counters set).2
  cases cleared
  cases words
  cases used
  cases max
  rfl

theorem block_of_address {block : Nat} (bound : block < 76800) : toInt32 (blockAddress block / blockSize) = block := by
  have divided : blockAddress block / blockSize = BitVec.ofNat 64 block := by
    apply BitVec.eq_of_toNat_eq
    rw [BitVec.toNat_udiv, blockAddress_toNat bound, BitVec.toNat_ofNat]
    change block * 4096 / 4096 = block % 2 ^ 64
    omega
  rw [divided, toInt32_ofNat bound]

theorem Uniform.free_allocBlock {s next : State} (uniform : Uniform s) {p : BitVec 64}
    (executed : mmgrAllocBlock s = some (p, next)) (nonnull : p ≠ 0) : mmgrFreeBlock next p = some s := by
  rcases allocBlock_cases executed with ⟨zero, _⟩ | ⟨block, h, candidate, _, _, rfl, rfl⟩
  · exact absurd zero nonnull
  · have free : FreeRange s 1 block := by
      refine ⟨by decide, ?_⟩
      intro c upper
      obtain rfl : c = 0 := by omega
      exact ⟨h, candidate.not_busy⟩
    have set : setBlocks s (BitVec.ofNat 64 block) 1 0 =
        some (s.storeWord ⟨block / 64, h⟩ (s.memoryMap ⟨block / 64, h⟩ ||| blockMask block)) := by
      rw [setBlocks, ← BitVec.ofNat_add, Nat.add_zero, toInt32_ofNat candidate.bound, setBlock_eq.mpr ⟨h, rfl⟩]
      rfl
    obtain ⟨cleared, unset, restored⟩ := uniform.unset_set free set (s.usedBlocks + 1)
    simp only [unsetBlocks, Int.natCast_zero, Int.add_zero, Option.bind_eq_bind, Option.bind_fun_some] at unset
    rw [mmgrFreeBlock, if_neg nonnull, block_of_address candidate.bound, taken, unset, restored]
    simp only [Option.bind_eq_bind, Option.bind_some, BitVec.add_sub_cancel]

theorem Uniform.free_allocSizeBlocks {s next : State} (uniform : Uniform s) {size : BitVec 32} {p : BitVec 64}
    (executed : mmgrAllocSizeBlocks s size = some (p, next)) (nonnull : p ≠ 0) :
    mmgrFreeSizeBlocks next p size = some s := by
  rcases allocSizeBlocks_cases executed with ⟨zero, _⟩ | ⟨start, marked, free, set, rfl, rfl⟩
  · exact absurd zero nonnull
  · have bound := free.bound
    have positive := free.1
    obtain ⟨cleared, unset, restored⟩ := uniform.unset_set free set (marked.usedBlocks + size.signExtend 64)
    rw [mmgrFreeSizeBlocks, if_neg nonnull, block_of_address (by omega), size_toInt (by omega), unset, restored]
    simp only [Option.bind_eq_bind, Option.bind_some, BitVec.add_sub_cancel, (setBlocks_counters set).1]

/-- In every state that the manager reaches from an empty bitmap, freeing what has just been allocated gives
    back that state. -/
theorem free_undoes_alloc (manager : State) (zero : ∀ index, manager.memoryMap index = 0) (calls : List Call)
    (session : Session) (executed : run step ⟨manager, []⟩ calls = some session) :
    (∀ p next, mmgrAllocBlock session.manager = some (p, next) → p ≠ 0 →
      mmgrFreeBlock next p = some session.manager) ∧
    ∀ n p next, mmgrAllocSizeBlocks session.manager n = some (p, next) → p ≠ 0 →
      mmgrFreeSizeBlocks next p n = some session.manager := by
  have uniform : Uniform session.manager :=
    run_preserves (fun session => Uniform session.manager) step_preserves_uniform (uniform_of_zero zero) executed
  exact ⟨fun p next allocated nonnull => uniform.free_allocBlock allocated nonnull,
    fun n p next allocated nonnull => uniform.free_allocSizeBlocks allocated nonnull⟩

theorem free_undoes_forty_blocks : ∃ session p next,
    run step ⟨⟨fun _ => 0, 0, 128⟩, []⟩ [.allocBlock] = some session ∧
    mmgrAllocSizeBlocks session.manager 40 = some (p, next) ∧ p ≠ 0 ∧
    mmgrFreeSizeBlocks next p 40 = some session.manager := by
  have start : (run step ⟨⟨fun _ => 0, 0, 128⟩, []⟩ [.allocBlock]).isSome := by decide +kernel
  obtain ⟨session, executed⟩ := Option.isSome_iff_exists.mp start
  have taken : ((run step ⟨⟨fun _ => 0, 0, 128⟩, []⟩ [.allocBlock]).bind
      fun session => (mmgrAllocSizeBlocks session.manager 40).map Prod.fst) = some 0x21000 := by decide +kernel
  rw [executed, Option.bind_some] at taken
  obtain ⟨⟨p, next⟩, allocated, address⟩ := Option.map_eq_some_iff.mp taken
  have nonnull : p ≠ 0 := by
    rw [show p = 0x21000 from address]
    decide
  exact ⟨session, p, next, executed, allocated, nonnull,
    (free_undoes_alloc _ (fun _ => rfl) _ session executed).2 40 p next allocated nonnull⟩

end Sbunix.Mmgr
