import Sbunix.Library.Bytes
import Sbunix.Library.Run
import Mathlib.Data.List.GetD
import Mathlib.Data.List.Induction
import Mathlib.Logic.Function.Basic

namespace Sbunix.Terminal

open Library

abbrev Buffer := Nat → BitVec 8

structure State where
  reading : Bool
  readingFinished : Bool
  /-- The array of 1024 characters, and the memory behind it. -/
  iobuff : Buffer
  /-- The index that `io_buff` points to. The pointer is null at first. -/
  ioBuff : Option Nat
  firstChar : Bool

def boot (behind : Buffer) : State where
  reading := false
  readingFinished := true
  iobuff := blit behind 0 (fun _ => 0) 1024
  ioBuff := none
  firstChar := false

def put (s : State) (c : BitVec 8) : Option State :=
  match s.ioBuff with
  | none => none
  | some i =>
    if i < 1024 then some { s with iobuff := Function.update s.iobuff i c, ioBuff := some (i + 1) } else none

def writeIoBuff (s : State) (c : BitVec 8) : Option State := do
  let s ←
    if c = 10 ∨ c = 13 then
      if s.firstChar then (put s c).map fun s => { s with reading := false } else some s
    else put s c
  return { s with firstChar := true }

def keyPress (s : State) (c : BitVec 8) : Option State :=
  if s.reading then writeIoBuff s c else some s

def strlen (bytes : Buffer) : Option Nat := (cString bytes 0).map List.length

structure Reply where
  state : State
  buf : Buffer
  /-- Missing where the buffer of the caller does not end. -/
  result : Option Int

/-- `doread` of `STDIN`. Interrupts are on, so some characters may arrive `early`, before `io_buff` is set, and
    the others in the loop, which must be left. -/
def doread (s : State) (buf : Buffer) (early late : List (BitVec 8)) : Option Reply :=
  if s.reading || !s.readingFinished then some ⟨s, buf, some (-1)⟩
  else do
    let s ← run keyPress { s with reading := true, readingFinished := false } early
    let s ← run keyPress { s with ioBuff := some 0 } late
    if s.reading then none
    else do
      let length ← strlen s.iobuff
      let buf := blit buf 0 s.iobuff length
      return ⟨{ s with reading := false, readingFinished := true }, buf, (strlen buf).map Int.ofNat⟩

/-- A line as the keyboard delivers it, without the carriage return. -/
structure Line (line : List (BitVec 8)) : Prop where
  nonempty : line ≠ []
  short : line.length < 1000
  plain : ∀ c ∈ line, c ≠ 0 ∧ c ≠ 10 ∧ c ≠ 13

/-- The line that arrives during a call, and how many of its characters arrive before `io_buff` is set. -/
structure Call where
  line : List (BitVec 8)
  early : Nat

def Call.keys (call : Call) : List (BitVec 8) := call.line ++ [13]

/-- Each call copies its own line to the buffer of the caller, and returns its length if the buffer was
    zero. -/
def Delivered : State → List Call → Prop
  | _, [] => True
  | s, call :: calls => ∀ buf : Buffer, ∃ reply,
    doread s buf (call.keys.take call.early) (call.keys.drop call.early) = some reply ∧
      reply.buf = blit buf 0 (fun k => call.keys.getD k 0) call.keys.length ∧
      ((∀ k, k < 1024 → buf k = 0) → reply.result = some (call.line.length + 1 : Int)) ∧
      Delivered reply.state calls

theorem Line.keys_ne_zero {line : List (BitVec 8)} (valid : Line line) : ∀ c ∈ line ++ [13], c ≠ 0 := by
  intro c member
  rcases List.mem_append.mp member with inside | last
  · exact (valid.plain c inside).1
  · rw [List.mem_singleton.mp last]
    decide

section Keys

variable {s : State} {i : Nat} (reading : s.reading = true) (pointer : s.ioBuff = some i)

include reading pointer

theorem keyPress_plain {c : BitVec 8} (plain : c ≠ 10 ∧ c ≠ 13) :
    keyPress s c = if i < 1024 then
      some { s with iobuff := Function.update s.iobuff i c, ioBuff := some (i + 1), firstChar := true } else none := by
  have ordinary : ¬ (c = 10 ∨ c = 13) := fun either => either.elim plain.1 plain.2
  rw [keyPress, if_pos reading, writeIoBuff, if_neg ordinary, put, pointer]
  by_cases inside : i < 1024
  · simp only [if_pos inside, Option.bind_eq_bind, Option.bind_some, Option.pure_def]
  · simp only [if_neg inside, Option.bind_eq_bind, Option.bind_none]

theorem keyPress_return (started : s.firstChar = true) :
    keyPress s 13 = if i < 1024 then
      some { s with reading := false, iobuff := Function.update s.iobuff i 13, ioBuff := some (i + 1) } else none := by
  rw [keyPress, if_pos reading, writeIoBuff, if_pos (by decide), if_pos started, put, pointer]
  by_cases inside : i < 1024
  · simp only [if_pos inside, Option.bind_eq_bind, Option.bind_some, Option.pure_def, Option.map_some, started]
  · simp only [if_neg inside, Option.bind_eq_bind, Option.bind_none, Option.map_none]

end Keys

def State.typed (s : State) (i : Nat) (text : List (BitVec 8)) : State :=
  { s with iobuff := blit s.iobuff i (fun k => text.getD k 0) text.length,
           ioBuff := some (i + text.length), firstChar := s.firstChar || !text.isEmpty }

theorem typed_nil {s : State} {i : Nat} (pointer : s.ioBuff = some i) : s.typed i [] = s := by
  have unchanged : blit s.iobuff i (fun k => ([] : List (BitVec 8)).getD k 0) 0 = s.iobuff :=
    blit_eq_self.mpr fun k bound => absurd bound (Nat.not_lt_zero k)
  cases s
  cases pointer
  simp only [State.typed, List.length_nil, unchanged, List.isEmpty_nil, Bool.not_true, Bool.or_false, Nat.add_zero]

theorem blit_concat (bytes : Buffer) (i : Nat) (text : List (BitVec 8)) (c : BitVec 8) :
    Function.update (blit bytes i (fun k => text.getD k 0) text.length) (i + text.length) c =
      blit bytes i (fun k => (text ++ [c]).getD k 0) (text.length + 1) := by
  funext k
  by_cases outside : k < i ∨ i + (text.length + 1) ≤ k
  · rw [Function.update_of_ne (by omega), blit_outside (by omega), blit_outside outside]
  · have inside : i ≤ k ∧ k < i + (text.length + 1) := by omega
    have stored : blit bytes i (fun k => (text ++ [c]).getD k 0) (text.length + 1) k =
        (text ++ [c]).getD (k - i) 0 := blit_inside inside.1 inside.2
    rw [stored]
    by_cases last : k = i + text.length
    · subst last
      rw [Function.update_self, Nat.add_sub_cancel_left]
      simp
    · rw [Function.update_of_ne last, blit_inside inside.1 (by omega), List.getD_append _ _ _ _ (by omega)]

theorem typed_concat (s : State) (i : Nat) (text : List (BitVec 8)) (c : BitVec 8) :
    s.typed i (text ++ [c]) =
      { s.typed i text with iobuff := Function.update (s.typed i text).iobuff (i + text.length) c,
                            ioBuff := some (i + text.length + 1), firstChar := true } := by
  simp only [State.typed, blit_concat, List.length_append, List.length_singleton]
  simp [Nat.add_assoc]

theorem run_concat {s : State} {text : List (BitVec 8)} {c : BitVec 8} :
    run keyPress s (text ++ [c]) = (run keyPress s text).bind fun s => keyPress s c := by
  simp only [run, List.foldlM_append, List.foldlM_cons, List.foldlM_nil, Option.bind_eq_bind]
  cases text.foldlM keyPress s with
  | none => rfl
  | some next =>
    change (keyPress next c).bind pure = keyPress next c
    cases keyPress next c <;> rfl

/-- Characters other than the ends of lines are stored one behind the other, as long as there is room. -/
theorem run_plain {s : State} {i : Nat} {text : List (BitVec 8)} (reading : s.reading = true)
    (pointer : s.ioBuff = some i) (small : i ≤ 1024) (plain : ∀ c ∈ text, c ≠ 10 ∧ c ≠ 13) :
    run keyPress s text = if i + text.length ≤ 1024 then some (s.typed i text) else none := by
  induction text using List.reverseRecOn with
  | nil => rw [List.length_nil, Nat.add_zero, if_pos small, typed_nil pointer, run_nil]
  | append_singleton text c ih =>
    have earlier := ih fun other member => plain other (List.mem_append_left _ member)
    have last := plain c (List.mem_append_right _ List.mem_cons_self)
    rw [run_concat, earlier, List.length_append, List.length_singleton]
    by_cases room : i + text.length ≤ 1024
    · rw [if_pos room, Option.bind_some, keyPress_plain (s := s.typed i text) reading rfl last, typed_concat]
      by_cases more : i + text.length < 1024
      · rw [if_pos more, if_pos (by omega)]
      · rw [if_neg more, if_neg (by omega)]
    · rw [if_neg room, if_neg (by omega)]
      rfl

theorem run_line {s : State} {i : Nat} {text : List (BitVec 8)} (reading : s.reading = true)
    (pointer : s.ioBuff = some i) (small : i ≤ 1024) (plain : ∀ c ∈ text, c ≠ 10 ∧ c ≠ 13)
    (started : s.firstChar = true ∨ text ≠ []) :
    run keyPress s (text ++ [13]) = if i + (text ++ [13]).length ≤ 1024 then
      some { s.typed i (text ++ [13]) with reading := false } else none := by
  have first : (s.typed i text).firstChar = true := by
    change (s.firstChar || !text.isEmpty) = true
    rcases started with known | nonempty
    · rw [known, Bool.true_or]
    · simp [nonempty]
  rw [run_concat, run_plain reading pointer small plain, List.length_append, List.length_singleton]
  by_cases room : i + text.length ≤ 1024
  · rw [if_pos room, Option.bind_some, keyPress_return (s := s.typed i text) reading rfl first, typed_concat]
    by_cases more : i + text.length < 1024
    · rw [if_pos more, if_pos (by omega)]
      simp only [first]
    · rw [if_neg more, if_neg (by omega)]
  · rw [if_neg room, if_neg (by omega)]
    rfl

/-- A character that arrives before the first call has set the pointer is stored through a null pointer. -/
theorem run_null {s : State} {c : BitVec 8} {text : List (BitVec 8)} (reading : s.reading = true)
    (pointer : s.ioBuff = none) (plain : c ≠ 10 ∧ c ≠ 13) : run keyPress s (c :: text) = none := by
  have ordinary : ¬ (c = 10 ∨ c = 13) := fun either => either.elim plain.1 plain.2
  have stuck : keyPress s c = none := by
    rw [keyPress, if_pos reading, writeIoBuff, if_neg ordinary, put, pointer]
    rfl
  rw [run, List.foldlM_cons, stuck]
  rfl

structure Ready (s : State) (text : List (BitVec 8)) : Prop where
  reading : s.reading = false
  finished : s.readingFinished = true
  holds : ∀ k, k < 1024 → s.iobuff k = text.getD k 0
  nonzero : ∀ c ∈ text, c ≠ 0
  short : text.length ≤ 1000
  null : text = [] → s.ioBuff = none
  pointer : text ≠ [] → s.ioBuff = some text.length
  started : text ≠ [] → s.firstChar = true

theorem boot_ready (behind : Buffer) : Ready (boot behind) [] where
  reading := rfl
  finished := rfl
  holds := by
    intro k bound
    change blit behind 0 (fun _ => 0) 1024 k = 0
    rw [blit_zero bound]
  nonzero := fun _ member => absurd member List.not_mem_nil
  short := Nat.zero_le _
  null := fun _ => rfl
  pointer := fun nonempty => absurd rfl nonempty
  started := fun nonempty => absurd rfl nonempty

section Contents

variable {bytes : Buffer} {text : List (BitVec 8)} (holds : ∀ k, k < 1024 → bytes k = text.getD k 0)
  (more : List (BitVec 8))

include holds

theorem holds_append : ∀ k, k < 1024 →
    blit bytes text.length (fun k => more.getD k 0) more.length k = (text ++ more).getD k 0 := by
  intro k bound
  by_cases before : k < text.length
  · rw [blit_outside (Or.inl before), holds k bound, List.getD_append _ _ _ _ before]
  · rw [List.getD_append_right _ _ _ _ (by omega)]
    by_cases inside : k < text.length + more.length
    · exact blit_inside (by omega) inside
    · rw [blit_outside (by omega), holds k bound, List.getD_eq_default _ _ (by omega),
        List.getD_eq_default _ _ (by omega)]

theorem holds_overwrite : ∀ k, k < 1024 →
    blit bytes 0 (fun k => more.getD k 0) more.length k = (more ++ text.drop more.length).getD k 0 := by
  intro k bound
  by_cases inside : k < more.length
  · rw [List.getD_append _ _ _ _ inside]
    exact blit_zero inside
  · rw [blit_outside (by omega), holds k bound, List.getD_append_right _ _ _ _ (by omega)]
    simp only [List.getD_eq_getElem?_getD, List.getElem?_drop]
    rw [Nat.add_sub_cancel' (by omega)]

end Contents

def remains (text early late : List (BitVec 8)) : List (BitVec 8) := late ++ (text ++ early).drop late.length

structure Finished (s : State) (text early late : List (BitVec 8)) : Prop where
  reading : s.reading = false
  holds : ∀ k, k < 1024 → s.iobuff k = (remains text early late).getD k 0
  pointer : s.ioBuff = some late.length
  started : s.firstChar = true

def fetch (s : State) (early late : List (BitVec 8)) : Option State := do
  let s ← run keyPress { s with reading := true, readingFinished := false } early
  run keyPress { s with ioBuff := some 0 } late

section Calls

variable {s : State} {text line early late : List (BitVec 8)} (ready : Ready s text) (valid : Line line)
  (split : early ++ late = line ++ [13])

include ready in
theorem doread_eq (buf : Buffer) :
    doread s buf early late = (fetch s early late).bind fun next =>
      if next.reading then none else (strlen next.iobuff).map fun length =>
        ⟨{ next with reading := false, readingFinished := true }, blit buf 0 next.iobuff length,
          (strlen (blit buf 0 next.iobuff length)).map Int.ofNat⟩ := by
  rw [doread, ready.reading, ready.finished, if_neg (by decide), fetch]
  simp only [Option.bind_eq_bind, Option.bind_assoc, Option.pure_def]
  congr 1
  funext middle
  congr 1
  funext next
  split
  · rfl
  · cases strlen next.iobuff <;> rfl

include valid split in
theorem early_cases : (late = [] ∧ early = line ++ [13]) ∨
    ∃ rest, late = rest ++ [13] ∧ line = early ++ rest ∧ ∀ c ∈ early, c ≠ 10 ∧ c ≠ 13 := by
  rcases List.eq_nil_or_concat late with none | ⟨rest, c, whole⟩
  · left
    rw [none, List.append_nil] at split
    exact ⟨none, split⟩
  · right
    rw [List.concat_eq_append] at whole
    rw [whole, ← List.append_assoc] at split
    obtain ⟨equal, last⟩ := List.append_inj' split rfl
    cases last
    refine ⟨rest, whole, equal.symm, ?_⟩
    intro other member
    exact (valid.plain other (equal ▸ List.mem_append_left _ member)).2

include ready in
/-- Characters that come early are stored behind the text of the last call. -/
theorem run_early (room : text.length + early.length ≤ 1024) (pointed : text = [] → early = [])
    (plain : ∀ c ∈ early, c ≠ 10 ∧ c ≠ 13) :
    ∃ middle, run keyPress { s with reading := true, readingFinished := false } early = some middle ∧
      middle.reading = true ∧ (∀ k, k < 1024 → middle.iobuff k = (text ++ early).getD k 0) ∧
      (early ≠ [] → middle.firstChar = true) := by
  have short := ready.short
  by_cases none : early = []
  · subst none
    refine ⟨_, run_nil _, rfl, ?_, fun nonempty => absurd rfl nonempty⟩
    rw [List.append_nil]
    exact ready.holds
  · have nonempty : text ≠ [] := fun empty => none (pointed empty)
    have typed := run_plain (s := { s with reading := true, readingFinished := false }) rfl
      (ready.pointer nonempty) (by omega) plain
    rw [if_pos room] at typed
    refine ⟨_, typed, rfl, holds_append ready.holds early, ?_⟩
    intro _
    change (s.firstChar || _) = true
    rw [ready.started nonempty, Bool.true_or]

include ready valid split

theorem fetch_some (room : text.length + early.length ≤ 1024) (pointed : text = [] → early = []) :
    ∃ next, fetch s early late = some next ∧ Finished next text early late := by
  have short := ready.short
  rcases early_cases valid split with ⟨rfl, rfl⟩ | ⟨rest, rfl, whole, plain⟩
  · -- The stale pointer stands behind the text of the last call.
    have nonempty : text ≠ [] := fun empty => absurd (pointed empty) (by simp)
    have typed := run_line (s := { s with reading := true, readingFinished := false }) rfl (ready.pointer nonempty)
      (by omega) (fun c member => (valid.plain c member).2) (Or.inl (ready.started nonempty))
    rw [if_pos room] at typed
    refine ⟨{ State.typed { s with readingFinished := false } text.length (line ++ [13]) with
      reading := false, ioBuff := some 0 }, ?_, ?_⟩
    · rw [fetch, typed]
      rfl
    · refine ⟨rfl, ?_, rfl, ?_⟩
      · exact holds_append ready.holds (line ++ [13])
      · change (s.firstChar || _) = true
        rw [ready.started nonempty, Bool.true_or]
  · obtain ⟨middle, first, reading, holds, started⟩ := run_early ready room pointed plain
    have later : middle.firstChar = true ∨ rest ≠ [] := by
      by_cases none : rest = []
      · left
        apply started
        intro empty
        rw [none, empty] at whole
        exact valid.nonempty whole
      · exact Or.inr none
    have length : (rest ++ [13]).length ≤ 1024 := by
      have total := congrArg List.length whole
      have bound := valid.short
      rw [List.length_append] at total ⊢
      rw [List.length_singleton]
      omega
    have typed := run_line (s := { middle with ioBuff := some 0 }) reading rfl (Nat.zero_le _)
      (fun c member => (valid.plain c (whole ▸ List.mem_append_right _ member)).2) later
    rw [if_pos (by omega)] at typed
    refine ⟨{ State.typed { middle with ioBuff := some 0 } 0 (rest ++ [13]) with reading := false }, ?_, ?_⟩
    · rw [fetch, first]
      exact typed
    · refine ⟨rfl, ?_, ?_, ?_⟩
      · exact holds_overwrite holds (rest ++ [13])
      · change some (0 + _) = _
        rw [Nat.zero_add]
      · change (middle.firstChar || !(rest ++ [13]).isEmpty) = true
        simp

theorem fetch_none (stuck : ¬ (text.length + early.length ≤ 1024 ∧ (text = [] → early = []))) :
    fetch s early late = none := by
  have short := ready.short
  by_cases empty : text = []
  · have some : early ≠ [] := by
      intro none
      apply stuck
      rw [empty, none]
      exact ⟨by decide, fun _ => rfl⟩
    obtain ⟨c, rest, form⟩ := List.exists_cons_of_ne_nil some
    obtain ⟨first, others, shape⟩ := List.exists_cons_of_ne_nil valid.nonempty
    have head : c = first := by
      rw [form, shape] at split
      exact (List.cons.inj split).1
    have plain := (valid.plain first (shape ▸ List.mem_cons_self)).2
    rw [fetch, form, run_null (s := { s with reading := true, readingFinished := false }) rfl (ready.null empty)
      (head ▸ plain)]
    rfl
  · have full : ¬ text.length + early.length ≤ 1024 := fun room => stuck ⟨room, fun none => absurd none empty⟩
    rcases early_cases valid split with ⟨rfl, rfl⟩ | ⟨rest, rfl, whole, plain⟩
    · have typed := run_line (s := { s with reading := true, readingFinished := false }) rfl (ready.pointer empty)
        (by omega) (fun c member => (valid.plain c member).2) (Or.inl (ready.started empty))
      rw [fetch, typed, if_neg full]
      rfl
    · have typed := run_plain (s := { s with reading := true, readingFinished := false }) rfl
        (ready.pointer empty) (by omega) plain
      rw [fetch, typed, if_neg full]
      rfl

end Calls

theorem copied_string {bytes : Buffer} {text : List (BitVec 8)}
    (placed : ∀ k, k < text.length → bytes k = text.getD k 0) (nonzero : ∀ c ∈ text, c ≠ 0) {buf : Buffer}
    (ended : buf text.length = 0) : cString (blit buf 0 bytes text.length) 0 = some text := by
  apply cString_eq _ nonzero
  · rw [Nat.zero_add, blit_outside (by omega), ended]
  · intro k bound
    rw [Nat.zero_add, blit_zero bound, placed k bound]

theorem remains_nonzero {text early late : List (BitVec 8)} (first : ∀ c ∈ text, c ≠ 0)
    (second : ∀ c ∈ early ++ late, c ≠ 0) : ∀ c ∈ remains text early late, c ≠ 0 := by
  intro c member
  rcases List.mem_append.mp member with inside | inside
  · exact second c (List.mem_append_right _ inside)
  · rcases List.mem_append.mp (List.mem_of_mem_drop inside) with old | new
    · exact first c old
    · exact second c (List.mem_append_left _ new)

/-- The right line is left in the buffer where no character came early and the last line was not longer. -/
theorem remains_eq_iff {text line early late : List (BitVec 8)} (valid : Line line)
    (split : early ++ late = line ++ [13]) (pointed : text = [] → early = []) :
    remains text early late = line ++ [13] ↔ early = [] ∧ text.length ≤ line.length + 1 := by
  constructor
  · intro same
    have none : early = [] := by
      by_contra some
      rcases early_cases valid split with ⟨rfl, whole⟩ | ⟨rest, rfl, whole, _⟩
      · have longer := congrArg List.length same
        rw [remains, List.nil_append, List.length_nil, List.drop_zero, List.length_append, whole] at longer
        have empty : text = [] := List.eq_nil_of_length_eq_zero (by omega)
        exact some (pointed empty)
      · -- The carriage return stands before the end of the line.
        have position : rest.length < line.length := by
          rw [whole, List.length_append]
          have positive := List.length_pos_iff.mpr some
          omega
        have here := congrArg (fun contents => contents.getD rest.length 0) same
        simp only [remains] at here
        rw [List.append_assoc, List.getD_append_right _ _ _ _ (Nat.le_refl _), Nat.sub_self,
          List.getD_append _ _ _ _ position, List.getD_eq_getElem _ _ position] at here
        exact (valid.plain _ (List.getElem_mem position)).2.2 here.symm
    subst none
    rw [List.nil_append] at split
    refine ⟨rfl, ?_⟩
    rw [remains, List.append_nil, split] at same
    have rest := List.append_right_eq_self.mp same
    rw [List.drop_eq_nil_iff, List.length_append] at rest
    exact rest
  · intro both
    obtain ⟨rfl, short⟩ := both
    rw [List.nil_append] at split
    rw [remains, List.append_nil, split, List.drop_eq_nil_of_le, List.append_nil]
    rw [List.length_append]
    exact short

theorem eq_of_getD {left right : List (BitVec 8)} (leftNonzero : ∀ c ∈ left, c ≠ 0)
    (rightNonzero : ∀ c ∈ right, c ≠ 0) (same : ∀ k, k ≤ right.length → left.getD k 0 = right.getD k 0) :
    left = right := by
  induction right generalizing left with
  | nil =>
    cases left with
    | nil => rfl
    | cons c left => exact absurd (same 0 (Nat.le_refl _)) (leftNonzero c List.mem_cons_self)
  | cons d right ih =>
    cases left with
    | nil => exact absurd (same 0 (Nat.zero_le _)).symm (rightNonzero d List.mem_cons_self)
    | cons c left =>
      have head : c = d := same 0 (Nat.zero_le _)
      have tail := ih (fun other member => leftNonzero other (List.mem_cons_of_mem _ member))
        (fun other member => rightNonzero other (List.mem_cons_of_mem _ member))
        (fun k bound => same (k + 1) (Nat.succ_le_succ bound))
      rw [head, tail]

theorem Call.keys_length (call : Call) : call.keys.length = call.line.length + 1 := List.length_append

theorem Finished.ready {next : State} {text : List (BitVec 8)} {call : Call} (valid : Line call.line)
    (finished : Finished next text [] call.keys) (contents : remains text [] call.keys = call.keys) :
    Ready { next with reading := false, readingFinished := true } call.keys where
  reading := rfl
  finished := rfl
  holds := by
    intro k inside
    have here := finished.holds k inside
    rw [contents] at here
    exact here
  nonzero := valid.keys_ne_zero
  short := by
    rw [call.keys_length]
    exact valid.short
  null := fun empty => absurd empty (by simp [Call.keys])
  pointer := fun _ => finished.pointer
  started := fun _ => finished.started

section Sessions

variable {s : State} {text : List (BitVec 8)} {call : Call} {calls : List Call} (ready : Ready s text)
  (valid : Line call.line)

include ready valid

theorem delivered_call (punctual : call.early = 0) (long : text.length ≤ call.line.length + 1)
    (later : ∀ next, Ready next call.keys → Delivered next calls) : Delivered s (call :: calls) := by
  have length := call.keys_length
  have bound := valid.short
  have room := ready.short
  have nonzero : ∀ c ∈ call.keys, c ≠ 0 := valid.keys_ne_zero
  obtain ⟨next, fetched, finished⟩ := fetch_some ready valid (List.nil_append call.keys)
    (show text.length + 0 ≤ 1024 by omega) (fun _ => rfl)
  have contents := (remains_eq_iff valid (List.nil_append call.keys) (fun _ => rfl)).mpr ⟨rfl, long⟩
  have prepared := finished.ready valid contents
  have placed : ∀ k, k < 1024 → next.iobuff k = call.keys.getD k 0 := prepared.holds
  have string : cString next.iobuff 0 = some call.keys := by
    apply cString_eq _ nonzero
    · rw [Nat.zero_add, placed _ (by omega), List.getD_eq_default _ _ (Nat.le_refl _)]
    · intro k inside
      rw [Nat.zero_add, placed k (by omega)]
  intro buf
  have copied : blit buf 0 next.iobuff call.keys.length =
      blit buf 0 (fun k => call.keys.getD k 0) call.keys.length := by
    funext k
    unfold blit
    split
    · exact placed _ (by omega)
    · rfl
  rw [punctual, List.take_zero, List.drop_zero, doread_eq ready, fetched, Option.bind_some, finished.reading,
    if_neg (by decide), strlen, string]
  refine ⟨_, rfl, copied, ?_, later _ prepared⟩
  intro zero
  have result := copied_string (fun k inside => placed k (by omega)) nonzero (zero _ (by omega))
  change ((cString (blit buf 0 next.iobuff call.keys.length) 0).map List.length).map Int.ofNat = _
  rw [result]
  change some (Int.ofNat call.keys.length) = _
  rw [length]
  rfl

theorem call_delivered (delivered : Delivered s (call :: calls)) :
    call.early = 0 ∧ text.length ≤ call.line.length + 1 ∧ ∃ next, Ready next call.keys ∧ Delivered next calls := by
  have split := List.take_append_drop call.early call.keys
  have nonzero : ∀ c ∈ call.keys, c ≠ 0 := valid.keys_ne_zero
  have length := call.keys_length
  have bound := valid.short
  obtain ⟨reply, returned, copied, _, rest⟩ := delivered fun _ => 0
  rw [doread_eq ready] at returned
  have possible : text.length + (call.keys.take call.early).length ≤ 1024 ∧
      (text = [] → call.keys.take call.early = []) := by
    by_contra stuck
    rw [fetch_none ready valid split stuck] at returned
    cases returned
  obtain ⟨next, fetched, finished⟩ := fetch_some ready valid split possible.1 possible.2
  rw [fetched, Option.bind_some, finished.reading, if_neg (by decide), strlen] at returned
  obtain ⟨_, measured, equal⟩ := Option.map_eq_some_iff.mp returned
  obtain ⟨string, read, rfl⟩ := Option.map_eq_some_iff.mp measured
  obtain ⟨placed, stringNonzero, ended⟩ := cString_spec read
  simp only [Nat.zero_add] at placed ended
  subst equal
  change blit (fun _ => 0) 0 next.iobuff string.length = _ at copied
  have whole : string = call.keys := by
    have left : cString (blit (fun _ => 0) 0 next.iobuff string.length) 0 = some string :=
      copied_string placed stringNonzero rfl
    have right : cString (blit (fun _ => 0) 0 (fun k => call.keys.getD k 0) call.keys.length) 0 = some call.keys :=
      copied_string (fun _ _ => rfl) nonzero rfl
    rw [copied, right] at left
    exact (Option.some.inj left).symm
  subst whole
  have contents : remains text (call.keys.take call.early) (call.keys.drop call.early) = call.keys := by
    apply eq_of_getD _ nonzero
    · intro k inside
      rw [← finished.holds k (by omega)]
      by_cases last : k = call.keys.length
      · rw [last, ended, List.getD_eq_default _ _ (Nat.le_refl _)]
      · exact placed k (by omega)
    · apply remains_nonzero ready.nonzero
      rw [split]
      exact nonzero
  obtain ⟨none, long⟩ := (remains_eq_iff valid split possible.2).mp contents
  have punctual : call.early = 0 := by
    rcases List.take_eq_nil_iff.mp none with zero | empty
    · exact zero
    · exact absurd empty (by simp [Call.keys])
  rw [punctual, List.take_zero, List.drop_zero] at finished contents
  exact ⟨punctual, long, _, finished.ready valid contents, rest⟩

end Sessions

theorem delivered_ready {s : State} {text : List (BitVec 8)} {calls : List Call} (ready : Ready s text)
    (valid : ∀ call ∈ calls, Line call.line) :
    Delivered s calls ↔ (∀ call ∈ calls, call.early = 0 ∧ text.length ≤ call.line.length + 1) ∧
      calls.Pairwise fun earlier later => earlier.line.length ≤ later.line.length := by
  induction calls generalizing s text with
  | nil => exact iff_of_true trivial ⟨fun _ member => absurd member List.not_mem_nil, List.Pairwise.nil⟩
  | cons call calls ih =>
    have head := valid call List.mem_cons_self
    have tail : ∀ other ∈ calls, Line other.line := fun other member => valid other (List.mem_cons_of_mem _ member)
    rw [List.pairwise_cons]
    constructor
    · intro delivered
      obtain ⟨punctual, long, next, prepared, rest⟩ := call_delivered ready head delivered
      obtain ⟨others, sorted⟩ := (ih prepared tail).mp rest
      rw [call.keys_length] at others
      refine ⟨?_, ?_, sorted⟩
      · intro other member
        rcases List.mem_cons.mp member with rfl | later
        · exact ⟨punctual, long⟩
        · have bound := (others other later).2
          exact ⟨(others other later).1, by omega⟩
      · intro other later
        have bound := (others other later).2
        omega
    · intro condition
      obtain ⟨punctual, longer, sorted⟩ := condition
      apply delivered_call ready head (punctual call List.mem_cons_self).1 (punctual call List.mem_cons_self).2
      intro next prepared
      apply (ih prepared tail).mpr
      refine ⟨?_, sorted⟩
      intro other member
      have bound := longer other member
      rw [call.keys_length]
      exact ⟨(punctual other (List.mem_cons_of_mem _ member)).1, by omega⟩

/-- Every line is delivered exactly where no character comes early and no line is shorter than an earlier
    one. -/
theorem lines_delivered_iff (behind : Buffer) (calls : List Call) (valid : ∀ call ∈ calls, Line call.line) :
    Delivered (boot behind) calls ↔ (∀ call ∈ calls, call.early = 0) ∧
      calls.Pairwise fun earlier later => earlier.line.length ≤ later.line.length := by
  rw [delivered_ready (boot_ready behind) valid]
  constructor
  · intro both
    exact ⟨fun call member => (both.1 call member).1, both.2⟩
  · intro both
    exact ⟨fun call member => ⟨both.1 call member, Nat.zero_le _⟩, both.2⟩

theorem growing_lines_delivered : Delivered (boot fun _ => 0) [⟨[97], 0⟩, ⟨[98, 99], 0⟩] := by
  apply (lines_delivered_iff (fun _ => 0) [⟨[97], 0⟩, ⟨[98, 99], 0⟩] _).mpr
  · exact ⟨by simp, by simp⟩
  · intro call member
    rcases List.mem_cons.mp member with rfl | member
    · exact ⟨by decide, by decide, by decide⟩
    · cases List.mem_singleton.mp member
      exact ⟨by decide, by decide, by decide⟩

/-- After a line of two characters, one of a single character is read with an extra carriage return. -/
theorem shorter_line_garbled : ¬ ∀ (behind : Buffer) (lines : List (List (BitVec 8))), (∀ line ∈ lines, Line line) →
    Delivered (boot behind) (lines.map fun line => ⟨line, 0⟩) := by
  intro every
  have first : Line [97, 98] := ⟨by decide, by decide, by decide⟩
  have second : Line [99] := ⟨by decide, by decide, by decide⟩
  have delivered := every (fun _ => 0) [[97, 98], [99]] (by
    intro line member
    rcases List.mem_cons.mp member with rfl | member
    · exact first
    · cases List.mem_singleton.mp member
      exact second)
  obtain ⟨_, _, next, ready, rest⟩ := call_delivered (boot_ready fun _ => 0) first delivered
  obtain ⟨_, long, _⟩ := call_delivered ready second rest
  revert long
  decide

end Sbunix.Terminal
