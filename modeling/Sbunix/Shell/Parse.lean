import Sbunix.Library.Bytes

namespace Sbunix.Shell

open Library

abbrev Memory := Nat → BitVec 8

/-- The pointers of `argv` are offsets in the array that `parseline` has on its stack. -/
structure CmdlineTokens where
  argc : Nat
  argv : Nat → Nat

def maxArgs : Nat := 10

def delims : List (BitVec 8) := [32, 9, 13, 10]

/-- Strings are given by their characters before the terminator. What is found is the rest of the string. -/
def strchr : List (BitVec 8) → BitVec 8 → Option (List (BitVec 8))
  | [], c => if c = 0 then some [] else none
  | d :: s, c => if d = c then some (d :: s) else strchr s c

def strcpsn : List (BitVec 8) → List (BitVec 8) → Nat
  | [], _ => 0
  | c :: s1, s2 => if (strchr s2 c).isSome then 0 else strcpsn s1 s2 + 1

/-- `tok->argv[tok->argc++] = buf`, which has no result past the end of `argv`. -/
def CmdlineTokens.push (tok : CmdlineTokens) (buf : Nat) : Option CmdlineTokens :=
  if tok.argc < maxArgs then some ⟨tok.argc + 1, Function.update tok.argv tok.argc buf⟩ else none

def parseFrom (array : Memory) (endbuf : Nat) (tok : CmdlineTokens) (buf : Nat) : Option CmdlineTokens :=
  if buf < endbuf then do
    let rest ← cString array buf
    let tok ← tok.push buf
    parseFrom array endbuf tok (buf + 1 + strcpsn rest delims)
  else some tok
termination_by endbuf - buf

structure Parsed where
  result : BitVec 32
  tok : CmdlineTokens
  array : Memory
  message : Option String

/-- The array holds what was on the stack. The command line is missing where it is `NULL`. -/
def parseline (array : Memory) (cmdline : Option Memory) (tok : CmdlineTokens) : Option Parsed :=
  match cmdline with
  | none => some ⟨-1, tok, array, some "Error: command line is NULL\n"⟩
  | some cmdline => do
    let array := blit array 0 cmdline 100
    let line ← cString array 0
    let tok ← parseFrom array line.length ⟨0, tok.argv⟩ 0
    return ⟨0, tok, array, none⟩

def IsDelim (c : BitVec 8) : Prop := c = 32 ∨ c = 9 ∨ c = 13 ∨ c = 10

instance : DecidablePred IsDelim := fun c => inferInstanceAs (Decidable (c = 32 ∨ c = 9 ∨ c = 13 ∨ c = 10))

def words (line : List (BitVec 8)) : List (List (BitVec 8)) :=
  (line.splitOnP fun c => decide (IsDelim c)).filter (· ≠ [])

def suffixes : List (BitVec 8) → List (List (BitVec 8))
  | [] => []
  | c :: line => (c :: line) :: suffixes ((c :: line).drop (strcpsn (c :: line) delims + 1))
termination_by line => line.length

theorem strchr_delims {c : BitVec 8} (nonzero : c ≠ 0) : (strchr delims c).isSome ↔ IsDelim c := by
  have found : ∀ {s : List (BitVec 8)}, (strchr s c).isSome ↔ c ∈ s := by
    intro s
    induction s with
    | nil => exact iff_of_false (by rw [strchr, if_neg nonzero]; decide) List.not_mem_nil
    | cons d s ih =>
      rw [strchr, List.mem_cons]
      split
      case isTrue same => simp [same]
      case isFalse other => simp [ih, Ne.symm other]
  rw [found]
  simp [delims, IsDelim]

theorem strcpsn_plain {line : List (BitVec 8)} (plain : ∀ c ∈ line, c ≠ 0 ∧ ¬IsDelim c) :
    strcpsn line delims = line.length := by
  induction line with
  | nil => rfl
  | cons c line ih =>
    obtain ⟨nonzero, other⟩ := plain c List.mem_cons_self
    rw [strcpsn, if_neg (mt (strchr_delims nonzero).mp other),
      ih fun c member => plain c (List.mem_cons_of_mem _ member), List.length_cons]

section Loop

variable {array : Memory}

theorem cString_drop {start : Nat} {line : List (BitVec 8)} (read : cString array start = some line) {k : Nat}
    (inside : k ≤ line.length) : cString array (start + k) = some (line.drop k) := by
  induction k with
  | zero => exact read
  | succ k ih =>
    have here := ih (by omega)
    rw [List.drop_eq_getElem_cons (show k < line.length by omega)] at here
    exact (cString_cons here).2.2

structure Stored (array : Memory) (tok next : CmdlineTokens) (strings : List (List (BitVec 8))) : Prop where
  argc : next.argc = tok.argc + strings.length
  argv : ∀ i, i < strings.length → cString array (next.argv (tok.argc + i)) = strings[i]?
  kept : ∀ i, i < tok.argc → next.argv i = tok.argv i

theorem Stored.nil (tok : CmdlineTokens) : Stored array tok tok [] :=
  ⟨rfl, fun i bound => absurd bound (Nat.not_lt_zero i), fun _ _ => rfl⟩

theorem Stored.cons {tok next : CmdlineTokens} {buf : Nat} {line : List (BitVec 8)} {strings : List (List (BitVec 8))}
    (read : cString array buf = some line)
    (rest : Stored array ⟨tok.argc + 1, Function.update tok.argv tok.argc buf⟩ next strings) :
    Stored array tok next (line :: strings) where
  argc := by
    rw [rest.argc, List.length_cons]
    dsimp only
    omega
  argv := by
    intro i bound
    cases i with
    | zero =>
      have first : next.argv tok.argc = buf :=
        (rest.kept tok.argc (Nat.lt_succ_self _)).trans (Function.update_self _ _ _)
      rw [Nat.add_zero, first]
      exact read
    | succ i =>
      have later := rest.argv i (Nat.lt_of_succ_lt_succ bound)
      rwa [Nat.add_assoc, Nat.add_comm 1] at later
  kept := by
    intro i bound
    rw [rest.kept i (Nat.lt_succ_of_lt bound)]
    exact Function.update_of_ne (Nat.ne_of_lt bound) _ _

theorem parseFrom_done {endbuf buf : Nat} (done : endbuf ≤ buf) (tok : CmdlineTokens) :
    parseFrom array endbuf tok buf = some tok := by
  rw [parseFrom, if_neg (by omega)]

theorem strcpsn_le (line : List (BitVec 8)) : strcpsn line delims ≤ line.length := by
  induction line with
  | nil => exact Nat.le_refl 0
  | cons c line ih =>
    rw [strcpsn, List.length_cons]
    split
    · omega
    · omega

/-- The loop stores the place behind every delimiter, and stops where `argv` is full. -/
theorem parseFrom_suffixes {line : List (BitVec 8)} {buf endbuf : Nat} (read : cString array buf = some line)
    (ends : endbuf = buf + line.length) (tok : CmdlineTokens) :
    (tok.argc + (suffixes line).length ≤ max maxArgs tok.argc ∧
      ∃ next, parseFrom array endbuf tok buf = some next ∧ Stored array tok next (suffixes line)) ∨
    (max maxArgs tok.argc < tok.argc + (suffixes line).length ∧ parseFrom array endbuf tok buf = none) := by
  induction line using suffixes.induct generalizing buf tok with
  | case1 =>
    rw [suffixes]
    exact Or.inl ⟨Nat.le_max_right _ _, tok, parseFrom_done (Nat.le_of_eq ends) tok, Stored.nil tok⟩
  | case2 c line ih =>
    have span := strcpsn_le (c :: line)
    have inside : buf < endbuf := by
      rw [ends, List.length_cons]
      omega
    rw [suffixes, parseFrom, if_pos inside, read, List.length_cons]
    simp only [Option.bind_eq_bind, Option.bind_some, CmdlineTokens.push]
    by_cases room : tok.argc < maxArgs
    · rw [if_pos room, Option.bind_some]
      by_cases more : strcpsn (c :: line) delims < (c :: line).length
      · have next := cString_drop read more
        rw [show buf + 1 + strcpsn (c :: line) delims = buf + (strcpsn (c :: line) delims + 1) by omega]
        have later := ih next (by rw [ends, List.length_drop]; omega)
          ⟨tok.argc + 1, Function.update tok.argv tok.argc buf⟩
        rcases later with ⟨few, next, stored, rest⟩ | ⟨many, full⟩
        · dsimp only at few
          exact Or.inl ⟨by omega, next, stored, rest.cons read⟩
        · dsimp only at many
          exact Or.inr ⟨by omega, full⟩
      · rw [List.drop_eq_nil_of_le (by omega), suffixes]
        exact Or.inl ⟨by rw [List.length_nil]; omega, _, parseFrom_done (by omega) _, (Stored.nil _).cons read⟩
    · rw [if_neg room]
      exact Or.inr ⟨by omega, rfl⟩

end Loop

def Names (parsed : Parsed) (strings : List (List (BitVec 8))) : Prop :=
  parsed.tok.argc = strings.length ∧
    ∀ i, i < parsed.tok.argc → cString parsed.array (parsed.tok.argv i) = strings[i]?

theorem Names.unique {parsed : Parsed} {left right : List (List (BitVec 8))} (first : Names parsed left)
    (second : Names parsed right) : left = right := by
  apply List.ext_getElem?
  intro i
  by_cases bound : i < parsed.tok.argc
  · rw [← first.2 i bound, second.2 i bound]
  · rw [List.getElem?_eq_none (by have := first.1; omega), List.getElem?_eq_none (by have := second.1; omega)]

section Words

variable {line : List (BitVec 8)}

theorem plain_of_mem_splitOnP {p : BitVec 8 → Bool} {word : List (BitVec 8)} (member : word ∈ line.splitOnP p) :
    ∀ c ∈ word, p c = false := by
  induction line generalizing word with
  | nil =>
    rw [List.splitOnP_nil, List.mem_singleton] at member
    rw [member]
    exact List.forall_mem_nil _
  | cons d line ih =>
    rw [List.splitOnP_cons_eq_if_modifyHead] at member
    split at member
    · rcases List.mem_cons.mp member with rfl | later
      · exact List.forall_mem_nil _
      · exact ih later
    · rename_i other
      cases pieces : line.splitOnP p with
      | nil =>
        rw [pieces] at member
        cases member
      | cons first rest =>
        rw [pieces] at member ih
        rcases List.mem_cons.mp member with rfl | later
        · exact List.forall_mem_cons.mpr ⟨Bool.eq_false_iff.mpr other, ih List.mem_cons_self⟩
        · exact ih (List.mem_cons_of_mem _ later)

theorem plain_of_mem_words {word : List (BitVec 8)} (member : word ∈ words line) : ∀ c ∈ word, ¬IsDelim c := by
  intro c inside
  have other := plain_of_mem_splitOnP (List.mem_filter.mp member).1 c inside
  exact of_decide_eq_false other

theorem words_plain (plain : ∀ c ∈ line, ¬IsDelim c) (nonempty : line ≠ []) : words line = [line] := by
  rw [words, List.splitOnP_eq_singleton fun c member => decide_eq_false (plain c member)]
  exact List.filter_cons_of_pos (decide_eq_true nonempty)

theorem suffixes_plain (plain : ∀ c ∈ line, c ≠ 0 ∧ ¬IsDelim c) (nonempty : line ≠ []) : suffixes line = [line] := by
  cases line with
  | nil => exact absurd rfl nonempty
  | cons c line => rw [suffixes, strcpsn_plain plain, List.drop_eq_nil_of_le (Nat.le_succ _), suffixes]

/-- The first pointer leads to the whole line, which is a word only where it has no delimiter. -/
theorem suffixes_eq_words_iff (nonzero : ∀ c ∈ line, c ≠ 0) :
    suffixes line = words line ↔ ∀ c ∈ line, ¬IsDelim c := by
  cases line with
  | nil =>
    rw [suffixes]
    exact iff_of_true rfl (List.forall_mem_nil _)
  | cons c line =>
    constructor
    · intro same
      have first : c :: line ∈ words (c :: line) := by
        rw [← same, suffixes]
        exact List.mem_cons_self
      exact plain_of_mem_words first
    · intro plain
      rw [words_plain plain (List.cons_ne_nil _ _)]
      exact suffixes_plain (fun c member => ⟨nonzero c member, plain c member⟩) (List.cons_ne_nil _ _)

end Words

theorem parseline_names (array : Memory) {cmdline : Memory} {line : List (BitVec 8)} (tok : CmdlineTokens)
    (read : cString cmdline 0 = some line) (short : line.length ≤ 99) :
    ((suffixes line).length ≤ maxArgs ∧
      ∃ parsed, parseline array (some cmdline) tok = some parsed ∧ Names parsed (suffixes line)) ∨
    (maxArgs < (suffixes line).length ∧ parseline array (some cmdline) tok = none) := by
  obtain ⟨placed, nonzero, ended⟩ := cString_spec read
  have copied : cString (blit array 0 cmdline 100) 0 = some line := by
    apply cString_eq _ nonzero
    · rw [blit_inside (by omega) (by omega)]
      exact ended
    · intro k inside
      rw [blit_inside (by omega) (by omega)]
      exact placed k inside
  simp only [parseline, copied, Option.bind_eq_bind, Option.bind_some]
  rcases parseFrom_suffixes copied (Nat.zero_add _).symm ⟨0, tok.argv⟩ with ⟨few, next, stored, names⟩ | ⟨many, full⟩
  · rw [stored]
    have count : next.argc = (suffixes line).length := names.argc.trans (Nat.zero_add _)
    refine Or.inl ⟨by simpa using few, _, rfl, count, ?_⟩
    intro i bound
    have string := names.argv i (count ▸ bound)
    rwa [Nat.zero_add] at string
  · rw [full]
    exact Or.inr ⟨by simpa using many, rfl⟩

/-- `parseline` finds the words of a line exactly where the line has no delimiter at all. -/
theorem parseline_splits_iff (array cmdline : Memory) (tok : CmdlineTokens) (line : List (BitVec 8))
    (read : cString cmdline 0 = some line) (short : line.length ≤ 99) (few : (words line).length ≤ 10) :
    (∃ parsed, parseline array (some cmdline) tok = some parsed ∧ Names parsed (words line)) ↔
      ∀ c ∈ line, ¬IsDelim c := by
  rw [← suffixes_eq_words_iff (cString_spec read).2.1]
  rcases parseline_names array tok read short with ⟨_, parsed, returned, names⟩ | ⟨many, full⟩
  · constructor
    · rintro ⟨other, same, named⟩
      cases returned.symm.trans same
      exact names.unique named
    · intro same
      exact ⟨parsed, returned, same ▸ names⟩
  · constructor
    · rintro ⟨other, same, named⟩
      cases full.symm.trans same
    · intro same
      exact absurd few (by rw [← same]; exact Nat.not_le_of_lt many)

def typed (line : List (BitVec 8)) : Memory := fun i => line.getD i 0

theorem parseline_ls : ∃ parsed, parseline (fun _ => 0) (some (typed [108, 115])) ⟨0, fun _ => 0⟩ = some parsed ∧
    Names parsed [[108, 115]] := by
  have read : cString (typed [108, 115]) 0 = some [108, 115] := by
    apply cString_eq
    · intro k inside
      rw [Nat.zero_add]
      rfl
    · decide
    · rfl
  exact (parseline_splits_iff _ _ _ _ read (by decide) (by decide)).mpr (by decide)

/-- `cd home` has two words, but the first pointer leads to the whole line. -/
theorem parseline_cd_home :
    (∃ parsed, parseline (fun _ => 0) (some (typed [99, 100, 32, 104, 111, 109, 101])) ⟨0, fun _ => 0⟩ = some parsed ∧
      Names parsed [[99, 100, 32, 104, 111, 109, 101], [104, 111, 109, 101]]) ∧
    words [99, 100, 32, 104, 111, 109, 101] = [[99, 100], [104, 111, 109, 101]] := by
  have read : cString (typed [99, 100, 32, 104, 111, 109, 101]) 0 = some [99, 100, 32, 104, 111, 109, 101] := by
    apply cString_eq
    · intro k inside
      rw [Nat.zero_add]
      rfl
    · decide
    · rfl
  have strings : suffixes [99, 100, 32, 104, 111, 109, 101] =
      [[99, 100, 32, 104, 111, 109, 101], [104, 111, 109, 101]] := by
    simp [suffixes, strcpsn, strchr, delims]
  refine ⟨?_, by decide⟩
  rcases parseline_names (fun _ => 0) ⟨0, fun _ => 0⟩ read (by decide) with ⟨_, found⟩ | ⟨many, _⟩
  · rwa [strings] at found
  · rw [strings] at many
    exact absurd many (by decide)

end Sbunix.Shell
