import Sbunix.Terminal.Read
import Sbunix.Terminal.Screen
import Mathlib.Data.List.Infix

namespace Sbunix.Terminal

open Library

abbrev KeyCode := BitVec 32

def keyCapslock : KeyCode := 0x4001
def keyLshift : KeyCode := 0x4002
def keyLctrl : KeyCode := 0x4003
def keyLalt : KeyCode := 0x4004
def keyRshift : KeyCode := 0x4006
def keyRctrl : KeyCode := 0x4007
def keyRalt : KeyCode := 0x4008

def scanTable : List KeyCode :=
  [0x4012, 0x1001, 49, 50, 51, 52, 53, 54, 55, 56, 57, 48, 45, 61, 8, 0x4000,
   113, 119, 101, 114, 116, 121, 117, 105, 111, 112, 91, 93, 13, 0x4003, 97, 115,
   100, 102, 103, 104, 106, 107, 108, 59, 39, 96, 0x4002, 92, 122, 120, 99, 118,
   98, 110, 109, 44, 46, 47, 0x4006, 42, 0x4008, 32, 0x4001, 0x1201, 0x1202, 0x1203, 0x1204, 0x1205,
   0x1206, 0x1207, 0x1208, 0x1209, 0x120a, 0x300f, 0x4010, 0x400c, 56, 0x400e, 50, 51, 48, 46, 0x4012, 0x4012,
   0x4012, 0x120b, 0x120b]

/-- A code past the end of the array reads what lies behind it. -/
def scanCode (behind : Nat → KeyCode) (scancode : BitVec 8) : KeyCode :=
  scanTable[scancode.toNat]?.getD (behind scancode.toNat)

structure Keyboard where
  shift : Bool
  ctrl : Bool
  caps : Bool
  alt : Bool
deriving DecidableEq

def Keyboard.boot : Keyboard := ⟨false, false, false, false⟩

def shiftedDigits : List (BitVec 8 × BitVec 8) :=
  [(48, 41), (49, 33), (50, 64), (51, 35), (52, 36), (53, 37), (54, 94), (55, 38), (56, 42), (57, 40)]

/-- The other keys. The plus sign becomes an equals sign. -/
def shiftedSigns : List (BitVec 8 × BitVec 8) :=
  [(44, 60), (46, 62), (47, 63), (59, 58), (39, 34), (91, 123), (93, 125), (45, 95), (43, 61), (92, 124), (96, 126)]

def keycodeToAscii (k : Keyboard) (code : BitVec 8) : BitVec 8 :=
  if k.shift || k.caps then
    if 97 ≤ code ∧ code ≤ 122 then code - 32
    else if 48 ≤ code ∧ code ≤ 57 then (shiftedDigits.lookup code).getD code
    else (shiftedSigns.lookup code).getD code
  else code

def Keyboard.release (k : Keyboard) (key : KeyCode) : Keyboard :=
  if key = keyLctrl ∨ key = keyRctrl then { k with ctrl := false }
  else if key = keyLshift ∨ key = keyRshift then { k with shift := false }
  else if key = keyLalt ∨ key = keyRalt then { k with alt := false }
  else k

def Keyboard.press (k : Keyboard) (key : KeyCode) : Keyboard × Option (BitVec 8) :=
  if key = keyLctrl ∨ key = keyRctrl then ({ k with ctrl := true }, none)
  else if key = keyLshift ∨ key = keyRshift then ({ k with shift := true }, none)
  else if key = keyLalt ∨ key = keyRalt then ({ k with alt := true }, none)
  else if key = keyCapslock then ({ k with caps := !k.caps }, none)
  else (k, some (keycodeToAscii k (key.setWidth 8)))

def Keyboard.receive (behind : Nat → KeyCode) (k : Keyboard) (scancode : BitVec 8) : Keyboard × Option (BitVec 8) :=
  if scancode = 0xE0 ∨ scancode = 0xE1 then (k, none)
  else if scancode &&& 0x80 ≠ 0 then (k.release (scanCode behind (scancode - 0x80)), none)
  else k.press (scanCode behind scancode)

structure Tty where
  keyboard : Keyboard
  console : Console
  state : State

/-- The code is read only if the controller has one. A character is shown, and delivered to a call that is reading. -/
def keyboardHandler (behind : Nat → KeyCode) (t : Tty) (status scancode : BitVec 8) : Option Tty :=
  if status &&& 1 ≠ 0 then
    match t.keyboard.receive behind scancode with
    | (keyboard, none) => some { t with keyboard }
    | (keyboard, some c) => do
      let console ← writeChar t.console 0x1F c
      let state ← keyPress t.state c
      return ⟨keyboard, console, state⟩
  else some t

section Codes

variable (behind : Nat → KeyCode)

def Keyboard.after (k : Keyboard) (codes : List (BitVec 8)) : Keyboard :=
  codes.foldl (fun k code => (k.receive behind code).1) k

def Keyboard.types (k : Keyboard) : List (BitVec 8) → List (BitVec 8)
  | [] => []
  | code :: codes => (k.receive behind code).2.toList ++ (k.receive behind code).1.types codes

end Codes

/-- A key is held if its last code was its make code. -/
def held (key : BitVec 8) (codes : List (BitVec 8)) : Bool :=
  codes.foldl (fun down code => if code = key then true else if code = key + 0x80 then false else down) false

def shiftHeld (codes : List (BitVec 8)) : Bool := held 0x2A codes || held 0x36 codes

def capsOn (codes : List (BitVec 8)) : Bool := codes.count 0x3A % 2 = 1

def Listed (code : BitVec 8) : Prop := code = 0xE0 ∨ code = 0xE1 ∨ code.toNat % 128 < 83

instance : DecidablePred Listed := fun code =>
  inferInstanceAs (Decidable (code = 0xE0 ∨ code = 0xE1 ∨ code.toNat % 128 < 83))

def IsLetter (code : BitVec 8) : Prop :=
  (0x10 ≤ code ∧ code ≤ 0x19) ∨ (0x1E ≤ code ∧ code ≤ 0x26) ∨ (0x2C ≤ code ∧ code ≤ 0x32)

instance : DecidablePred IsLetter := fun code =>
  inferInstanceAs (Decidable ((0x10 ≤ code ∧ code ≤ 0x19) ∨ (0x1E ≤ code ∧ code ≤ 0x26) ∨ (0x2C ≤ code ∧ code ≤ 0x32)))

section Receive

variable {behind : Nat → KeyCode} {k : Keyboard} {code : BitVec 8}

theorem scanCode_listed (inside : code.toNat < 83) : scanCode behind code = scanTable.getD code.toNat 0 := by
  rw [scanCode, List.getD_eq_getElem?_getD, List.getElem?_eq_getElem (show code.toNat < scanTable.length from inside)]
  rfl

theorem scanTable_shift : ∀ i, i < 83 →
    (scanTable.getD i 0 = keyLshift ∨ scanTable.getD i 0 = keyRshift ↔ i = 0x2A ∨ i = 0x36) := by
  decide

theorem scanTable_capslock : ∀ i, i < 83 → (scanTable.getD i 0 = keyCapslock ↔ i = 0x3A) := by
  decide

theorem release_shift (k : Keyboard) (key : KeyCode) :
    (k.release key).shift = if key = keyLshift ∨ key = keyRshift then false else k.shift := by
  rw [Keyboard.release]
  split
  case isTrue ctrl => rcases ctrl with rfl | rfl <;> rfl
  case isFalse =>
    split
    · rfl
    · split <;> rfl

theorem release_caps (k : Keyboard) (key : KeyCode) : (k.release key).caps = k.caps := by
  rw [Keyboard.release]
  split
  · rfl
  · split
    · rfl
    · split <;> rfl

theorem press_shift (k : Keyboard) (key : KeyCode) :
    (k.press key).1.shift = if key = keyLshift ∨ key = keyRshift then true else k.shift := by
  rw [Keyboard.press]
  split
  case isTrue ctrl => rcases ctrl with rfl | rfl <;> rfl
  case isFalse =>
    split
    · rfl
    · split
      · rfl
      · split <;> rfl

theorem press_caps (k : Keyboard) (key : KeyCode) :
    (k.press key).1.caps = if key = keyCapslock then !k.caps else k.caps := by
  rw [Keyboard.press]
  split
  case isTrue ctrl => rcases ctrl with rfl | rfl <;> rfl
  case isFalse =>
    split
    case isTrue shift => rcases shift with rfl | rfl <;> rfl
    case isFalse =>
      split
      case isTrue alt => rcases alt with rfl | rfl <;> rfl
      case isFalse => split <;> rfl

theorem break_code : ∀ code : BitVec 8, code &&& 0x80 ≠ 0 →
    (code - 0x80).toNat = code.toNat % 128 ∧ code.toNat = code.toNat % 128 + 128 := by
  decide

theorem make_code : ∀ code : BitVec 8, ¬code &&& 0x80 ≠ 0 → code.toNat = code.toNat % 128 := by
  decide

/-- A code is passed over, or it is the break or the make code of a key of the array. -/
theorem receive_cases (behind : Nat → KeyCode) (k : Keyboard) (listed : Listed code) :
    ((code = 0xE0 ∨ code = 0xE1) ∧ k.receive behind code = (k, none)) ∨
    (∃ i, i < 83 ∧ code.toNat = i + 128 ∧ k.receive behind code = (k.release (scanTable.getD i 0), none)) ∨
    (code.toNat < 83 ∧ k.receive behind code = k.press (scanTable.getD code.toNat 0)) := by
  rw [Keyboard.receive]
  split
  case isTrue passed => exact Or.inl ⟨passed, rfl⟩
  case isFalse other =>
    have inside : code.toNat % 128 < 83 := by
      rcases listed with first | second | inside
      · exact absurd (Or.inl first) other
      · exact absurd (Or.inr second) other
      · exact inside
    split
    case isTrue set =>
      obtain ⟨key, value⟩ := break_code code set
      rw [scanCode_listed (key ▸ inside), key]
      exact Or.inr (Or.inl ⟨_, inside, value, rfl⟩)
    case isFalse clear =>
      have small : code.toNat < 83 := make_code code clear ▸ inside
      rw [scanCode_listed small]
      exact Or.inr (Or.inr ⟨small, rfl⟩)

theorem receive_shift (listed : Listed code) :
    (k.receive behind code).1.shift =
      if code = 0x2A ∨ code = 0x36 then true else if code = 0xAA ∨ code = 0xB6 then false else k.shift := by
  simp only [← BitVec.toNat_inj]
  rcases receive_cases behind k listed with ⟨rfl | rfl, passed⟩ | ⟨i, inside, value, released⟩ | ⟨inside, pressed⟩
  · rw [passed]
    rfl
  · rw [passed]
    rfl
  · have broken : i = 0x2A ∨ i = 0x36 ↔ i + 128 = (0xAA : BitVec 8).toNat ∨ i + 128 = (0xB6 : BitVec 8).toNat := by
      change _ ↔ i + 128 = 170 ∨ i + 128 = 182
      omega
    have other : ¬(i + 128 = (0x2A : BitVec 8).toNat ∨ i + 128 = (0x36 : BitVec 8).toNat) := by
      change ¬(i + 128 = 42 ∨ i + 128 = 54)
      omega
    rw [released, release_shift, if_congr (scanTable_shift i inside) rfl rfl, value, if_neg other,
      if_congr broken rfl rfl]
  · have other : ¬(code.toNat = (0xAA : BitVec 8).toNat ∨ code.toNat = (0xB6 : BitVec 8).toNat) := by
      change ¬(code.toNat = 170 ∨ code.toNat = 182)
      omega
    rw [pressed, press_shift, if_congr (scanTable_shift _ inside) rfl rfl, if_neg other]
    rfl

theorem receive_caps (listed : Listed code) :
    (k.receive behind code).1.caps = if code = 0x3A then !k.caps else k.caps := by
  simp only [← BitVec.toNat_inj]
  rcases receive_cases behind k listed with ⟨rfl | rfl, passed⟩ | ⟨i, inside, value, released⟩ | ⟨inside, pressed⟩
  · rw [passed]
    rfl
  · rw [passed]
    rfl
  · have other : ¬code.toNat = (0x3A : BitVec 8).toNat := by
      change ¬code.toNat = 58
      omega
    rw [released, release_caps, if_neg other]
  · rw [pressed, press_caps, if_congr (scanTable_capslock _ inside) rfl rfl]
    rfl

def letter (code : BitVec 8) : BitVec 8 := (scanTable.getD code.toNat 0).setWidth 8

theorem IsLetter.facts : ∀ code, IsLetter code →
    code.toNat < 83 ∧ (scanTable.getD code.toNat 0).toNat < 256 ∧ 97 ≤ letter code ∧ letter code ≤ 122 := by
  decide

theorem press_character {key : KeyCode} (small : key.toNat < 256) :
    k.press key = (k, some (keycodeToAscii k (key.setWidth 8))) := by
  have other : ∀ modifier : KeyCode, 256 ≤ modifier.toNat → key ≠ modifier := by
    rintro modifier large rfl
    omega
  rw [Keyboard.press, if_neg (not_or.mpr ⟨other _ (by decide), other _ (by decide)⟩),
    if_neg (not_or.mpr ⟨other _ (by decide), other _ (by decide)⟩),
    if_neg (not_or.mpr ⟨other _ (by decide), other _ (by decide)⟩), if_neg (other _ (by decide))]

theorem receive_letter (isLetter : IsLetter code) :
    (k.receive behind code).2 = some (if k.shift || k.caps then letter code - 32 else letter code) := by
  obtain ⟨inside, small, low, high⟩ := isLetter.facts
  have listed : Listed code := Or.inr (Or.inr (by omega))
  rcases receive_cases behind k listed with ⟨passed, _⟩ | ⟨i, _, value, _⟩ | ⟨_, pressed⟩
  · rcases passed with rfl | rfl
    · exact absurd inside (by decide)
    · exact absurd inside (by decide)
  · omega
  · rw [pressed, press_character small, ← letter, keycodeToAscii, if_congr Iff.rfl (if_pos ⟨low, high⟩) rfl]

end Receive

theorem held_concat (key : BitVec 8) (codes : List (BitVec 8)) (code : BitVec 8) :
    held key (codes ++ [code]) = if code = key then true else if code = key + 0x80 then false else held key codes := by
  rw [held, List.foldl_append]
  rfl

theorem shiftHeld_concat (codes : List (BitVec 8)) (code : BitVec 8) :
    shiftHeld (codes ++ [code]) =
      if code = 0x2A ∨ code = 0x36 then true
      else if code = 0xAA then held 0x36 codes else if code = 0xB6 then held 0x2A codes else shiftHeld codes := by
  rw [shiftHeld, held_concat, held_concat]
  by_cases left : code = 0x2A
  · rw [if_pos left, if_pos (Or.inl left), Bool.true_or]
  by_cases right : code = 0x36
  · rw [if_pos right, if_pos (Or.inr right), Bool.or_true]
  rw [if_neg left, if_neg right, if_neg (not_or.mpr ⟨left, right⟩)]
  change ((if code = 0xAA then false else held 0x2A codes) || if code = 0xB6 then false else held 0x36 codes) = _
  by_cases first : code = 0xAA
  · rw [if_pos first, if_pos first, if_neg (by rw [first]; decide), Bool.false_or]
  by_cases second : code = 0xB6
  · rw [if_neg first, if_pos second, if_neg first, if_pos second, Bool.or_false]
  rw [if_neg first, if_neg second, if_neg first, if_neg second]
  rfl

theorem capsOn_concat (codes : List (BitVec 8)) (code : BitVec 8) :
    capsOn (codes ++ [code]) = if code = 0x3A then !capsOn codes else capsOn codes := by
  rw [capsOn, capsOn, List.count_append]
  split
  case isTrue same =>
    rw [same, List.count_singleton_self, ← decide_not, decide_eq_decide]
    omega
  case isFalse other => rw [List.count_singleton, if_neg (by simpa using other), Nat.add_zero]

/-- A run of the handler keeps the modifiers of the codes, and a call that is reading gets the characters they type. -/
theorem keyboardHandler_run {behind : Nat → KeyCode} {status : BitVec 8} (full : status &&& 1 ≠ 0)
    {codes : List (BitVec 8)} {t final : Tty}
    (executed : run (fun t code => keyboardHandler behind t status code) t codes = some final) :
    final.keyboard = t.keyboard.after behind codes ∧
      run keyPress t.state (t.keyboard.types behind codes) = some final.state := by
  induction codes generalizing t with
  | nil =>
    cases executed
    exact ⟨rfl, rfl⟩
  | cons code codes ih =>
    obtain ⟨next, handled, rest⟩ := run_cons.mp executed
    obtain ⟨keyboard, state⟩ := ih rest
    rw [keyboardHandler, if_pos full] at handled
    rw [Keyboard.after, List.foldl_cons, Keyboard.types]
    split at handled
    case h_1 after received =>
      cases handled
      rw [received]
      exact ⟨keyboard, state⟩
    case h_2 after c received =>
      simp only [Option.bind_eq_bind, Option.bind_eq_some_iff, Option.pure_def, Option.some.injEq] at handled
      obtain ⟨console, shown, delivered, pressed, rfl⟩ := handled
      rw [received]
      exact ⟨keyboard, run_cons.mpr ⟨delivered, pressed, state⟩⟩

section Follow

variable (behind : Nat → KeyCode) (codes : List (BitVec 8))

def ShiftFollows : Prop :=
  ∀ before, before <+: codes → (Keyboard.boot.after behind before).shift = shiftHeld before

/-- A letter is upper case exactly if a shift key is held or the number of CAPSLOCK makes is odd. -/
def LettersFollow : Prop :=
  ∀ before code, before ++ [code] <+: codes → IsLetter code →
    ((Keyboard.boot.after behind before).receive behind code).2 =
      some (if shiftHeld before || capsOn before then letter code - 32 else letter code)

/-- No shift key is released while the other one is held. -/
def ReleasedAlone : Prop :=
  ∀ before, (before ++ [0xAA] <+: codes → held 0x36 before = false) ∧
    (before ++ [0xB6] <+: codes → held 0x2A before = false)

variable {behind codes}

theorem after_concat (k : Keyboard) (before : List (BitVec 8)) (code : BitVec 8) :
    k.after behind (before ++ [code]) = ((k.after behind before).receive behind code).1 := by
  rw [Keyboard.after, List.foldl_append]
  rfl

theorem after_caps (listed : ∀ code ∈ codes, Listed code) : (Keyboard.boot.after behind codes).caps = capsOn codes := by
  induction codes using List.reverseRecOn with
  | nil => rfl
  | append_singleton before code ih =>
    rw [List.forall_mem_append] at listed
    rw [after_concat, receive_caps (listed.2 code List.mem_cons_self), capsOn_concat, ih listed.1]

theorem ReleasedAlone.follows (alone : ReleasedAlone codes) (listed : ∀ code ∈ codes, Listed code) :
    ShiftFollows behind codes := by
  intro before
  induction before using List.reverseRecOn with
  | nil => exact fun _ => rfl
  | append_singleton before code ih =>
    intro inside
    have earlier := ih ((List.prefix_append before [code]).trans inside)
    have here : Listed code := listed code (inside.subset (List.mem_append_right _ List.mem_cons_self))
    rw [after_concat, receive_shift here, earlier, shiftHeld_concat]
    split
    case isTrue => rfl
    case isFalse =>
      split
      case isTrue broken =>
        rcases broken with rfl | rfl
        · rw [if_pos rfl, (alone before).1 inside]
        · rw [if_neg (by decide), if_pos rfl, (alone before).2 inside]
      case isFalse other =>
        rw [if_neg (not_or.mp other).1, if_neg (not_or.mp other).2]

/-- After a break code `_shift` is `FALSE`, so the other key must not be held. -/
theorem ShiftFollows.alone (follows : ShiftFollows behind codes) (listed : ∀ code ∈ codes, Listed code) :
    ReleasedAlone codes := by
  have released : ∀ before code, code = 0xAA ∨ code = 0xB6 → before ++ [code] <+: codes →
      shiftHeld (before ++ [code]) = false := by
    intro before code broken inside
    have here : Listed code := listed code (inside.subset (List.mem_append_right _ List.mem_cons_self))
    rw [← follows _ inside, after_concat, receive_shift here]
    rcases broken with rfl | rfl
    · rfl
    · rfl
  intro before
  constructor
  · intro inside
    have free := released before 0xAA (Or.inl rfl) inside
    rwa [shiftHeld_concat, if_neg (by decide), if_pos rfl] at free
  · intro inside
    have free := released before 0xB6 (Or.inr rfl) inside
    rwa [shiftHeld_concat, if_neg (by decide), if_neg (by decide), if_pos rfl] at free

theorem ShiftFollows.letters (follows : ShiftFollows behind codes) (listed : ∀ code ∈ codes, Listed code) :
    LettersFollow behind codes := by
  intro before code inside isLetter
  have earlier : before <+: codes := (List.prefix_append before [code]).trans inside
  rw [receive_letter isLetter, follows before earlier,
    after_caps fun code member => listed code (earlier.subset member)]

/-- `_shift` and the letters follow the keys that are held exactly where no shift key is released under the other. A
    run of the handler keeps these modifiers, and a call that is reading gets these letters. -/
theorem modifiers_follow_iff (behind : Nat → KeyCode) (codes : List (BitVec 8))
    (listed : ∀ code ∈ codes, Listed code) :
    (ShiftFollows behind codes ∧ LettersFollow behind codes ↔ ReleasedAlone codes) ∧
      ∀ (status : BitVec 8) (t final : Tty), status &&& 1 ≠ 0 → t.keyboard = .boot →
        run (fun t code => keyboardHandler behind t status code) t codes = some final →
        final.keyboard = Keyboard.boot.after behind codes ∧
          run keyPress t.state (Keyboard.boot.types behind codes) = some final.state := by
  refine ⟨⟨?_, ?_⟩, ?_⟩
  · rintro ⟨follows, -⟩
    exact follows.alone listed
  · intro alone
    have follows : ShiftFollows behind codes := alone.follows listed
    exact ⟨follows, follows.letters listed⟩
  · intro status t final full initial executed
    rw [← initial]
    exact keyboardHandler_run full executed

def idleTty : Tty := ⟨.boot, ⟨fun _ => 0, 0, []⟩, boot fun _ => 0⟩

theorem modifiers_follow_capital :
    ShiftFollows (fun _ => 0) [0x2A, 0x1E, 0x9E, 0xAA] ∧ LettersFollow (fun _ => 0) [0x2A, 0x1E, 0x9E, 0xAA] ∧
      ∃ final, run (fun t code => keyboardHandler (fun _ => 0) t 1 code) idleTty [0x2A, 0x1E, 0x9E, 0xAA] =
        some final ∧ final.keyboard = .boot := by
  obtain ⟨exactly, handled⟩ := modifiers_follow_iff (fun _ => 0) [0x2A, 0x1E, 0x9E, 0xAA] (by decide)
  have single : ∀ before ∈ [0x2A, 0x1E, 0x9E, 0xAA].inits,
      held 0x36 before = false ∧ before ++ [0xB6] ∉ [0x2A, 0x1E, 0x9E, 0xAA].inits := by
    decide
  have alone : ReleasedAlone [0x2A, 0x1E, 0x9E, 0xAA] := by
    refine fun before => ⟨fun inside => ?_, fun inside => ?_⟩
    · exact (single before (List.mem_inits _ _ |>.mpr ((List.prefix_append _ _).trans inside))).1
    · have earlier := single before (List.mem_inits _ _ |>.mpr ((List.prefix_append _ _).trans inside))
      exact absurd (List.mem_inits _ _ |>.mpr inside) earlier.2
  obtain ⟨shift, letters⟩ := exactly.mpr alone
  refine ⟨shift, letters, _, rfl, ?_⟩
  exact (handled 1 idleTty _ (by decide) rfl rfl).1

/-- Both shift keys are pressed and the right one is released: `_shift` is `FALSE` and an `a` stays lower case, though
the left one is held. -/
theorem shift_released_under_other :
    shiftHeld [0x2A, 0x36, 0xB6] = true ∧ (Keyboard.boot.after (fun _ => 0) [0x2A, 0x36, 0xB6]).shift = false ∧
      ((Keyboard.boot.after (fun _ => 0) [0x2A, 0x36, 0xB6]).receive (fun _ => 0) 0x1E).2 = some 97 := by
  decide

end Follow

end Sbunix.Terminal
