import Mathlib.Logic.Function.Basic

namespace Library

abbrev Spaces (Process Address Word : Type) := Process → Address → Option Word

namespace Spaces

variable {Process Address Word : Type} [DecidableEq Process] [DecidableEq Address]

inductive Op (Process Address Word : Type) where
  | copy (parent child : Process)
  | store (process : Process) (address : Address) (value : Word)

def perform (spaces : Spaces Process Address Word) : Op Process Address Word → Spaces Process Address Word
  | .copy parent child => Function.update spaces child (spaces parent)
  | .store process address value =>
    Function.update spaces process (Function.update (spaces process) address (some value))

variable (spaces : Spaces Process Address Word)

theorem perform_store (process other : Process) (address word : Address) (value : Word) :
    spaces.perform (.store process address value) other word =
      if other = process ∧ word = address then some value else spaces other word := by
  by_cases own : other = process
  · subst own
    by_cases here : word = address
    · subst here
      simp [perform]
    · simp [perform, here]
  · simp [perform, own]

end Spaces

end Library
