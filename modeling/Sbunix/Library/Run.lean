import Mathlib.Data.List.Basic

namespace Library

variable {State Event : Type}

def run (step : State → Event → Option State) (start : State) (events : List Event) : Option State :=
  events.foldlM step start

/-- Every event of the run is performed in a state that admits it. -/
def Admitted (step : State → Event → Option State) (admits : State → Event → Prop) :
    State → List Event → Prop
  | _, [] => True
  | state, event :: events =>
    admits state event ∧ ∀ next, step state event = some next → Admitted step admits next events

/-- Every state that the run passes through is safe. -/
def Throughout (step : State → Event → Option State) (Safe : State → Prop) (start : State)
    (events : List Event) : Prop :=
  ∀ before, before <+: events → ∀ state, run step start before = some state → Safe state

variable {step : State → Event → Option State} {admits : State → Event → Prop}

@[simp] theorem run_nil (start : State) : run step start [] = some start := rfl

theorem run_cons {start final : State} {event : Event} {events : List Event} :
    run step start (event :: events) = some final ↔
      ∃ next, step start event = some next ∧ run step next events = some final := by
  simp [run, List.foldlM_cons, Option.bind_eq_some_iff]

theorem run_append {start final : State} {first second : List Event} :
    run step start (first ++ second) = some final ↔
      ∃ middle, run step start first = some middle ∧ run step middle second = some final := by
  simp [run, List.foldlM_append, Option.bind_eq_some_iff]

theorem admitted_of_forall {events : List Event} (always : ∀ event ∈ events, ∀ state, admits state event)
    (start : State) : Admitted step admits start events := by
  induction events generalizing start with
  | nil => trivial
  | cons event events ih =>
    refine ⟨always event List.mem_cons_self start, ?_⟩
    intro next _
    exact ih (fun other member => always other (List.mem_cons_of_mem _ member)) next

theorem run_preserves_admitted (Invariant : State → Prop)
    (preserved : ∀ state event next, Invariant state → admits state event →
      step state event = some next → Invariant next)
    {start final : State} {events : List Event} (initial : Invariant start)
    (admitted : Admitted step admits start events) (executed : run step start events = some final) :
    Invariant final := by
  induction events generalizing start with
  | nil =>
    cases executed
    exact initial
  | cons event events ih =>
    obtain ⟨next, stepped, rest⟩ := run_cons.mp executed
    exact ih (preserved _ _ _ initial admitted.1 stepped) (admitted.2 _ stepped) rest

theorem run_preserves (Invariant : State → Prop)
    (preserved : ∀ state event next, Invariant state → step state event = some next → Invariant next)
    {start final : State} {events : List Event} (initial : Invariant start)
    (executed : run step start events = some final) : Invariant final := by
  have admitted : Admitted step (fun _ _ => True) start events := admitted_of_forall (fun _ _ _ => trivial) start
  exact run_preserves_admitted Invariant (fun state event next holds _ => preserved state event next holds) initial
    admitted executed

theorem throughout_of_admitted (Invariant : State → Prop)
    (preserved : ∀ state event next, Invariant state → admits state event →
      step state event = some next → Invariant next)
    {start : State} {events : List Event} (initial : Invariant start)
    (admitted : Admitted step admits start events) : Throughout step Invariant start events := by
  intro before isPrefix state executed
  induction events generalizing start before with
  | nil =>
    cases List.prefix_nil.mp isPrefix
    cases executed
    exact initial
  | cons event events ih =>
    cases before with
    | nil =>
      cases executed
      exact initial
    | cons first before =>
      obtain ⟨rfl, shorter⟩ := List.cons_prefix_cons.mp isPrefix
      obtain ⟨next, stepped, rest⟩ := run_cons.mp executed
      exact ih (preserved _ _ _ initial admitted.1 stepped) (admitted.2 _ stepped) before shorter rest

theorem throughout_nil {Safe : State → Prop} {start : State} : Throughout step Safe start [] ↔ Safe start := by
  constructor
  · intro safe
    exact safe [] (List.prefix_refl []) start rfl
  · intro safe before isPrefix state executed
    cases List.prefix_nil.mp isPrefix
    cases executed
    exact safe

theorem throughout_cons {Safe : State → Prop} {start next : State} {event : Event} {events : List Event}
    (stepped : step start event = some next) :
    Throughout step Safe start (event :: events) ↔ Safe start ∧ Throughout step Safe next events := by
  constructor
  · intro safe
    refine ⟨safe [] (List.nil_prefix) start rfl, ?_⟩
    intro before isPrefix state executed
    exact safe (event :: before) (List.cons_prefix_cons.mpr ⟨rfl, isPrefix⟩) state
      (run_cons.mpr ⟨next, stepped, executed⟩)
  · intro safe before isPrefix state executed
    cases before with
    | nil =>
      cases executed
      exact safe.1
    | cons first before =>
      obtain ⟨rfl, shorter⟩ := List.cons_prefix_cons.mp isPrefix
      obtain ⟨middle, same, executed⟩ := run_cons.mp executed
      cases stepped.symm.trans same
      exact safe.2 before shorter state executed

theorem run_preserves_throughout (Invariant : State → Prop) {Safe : State → Prop} {start final : State}
    {events : List Event}
    (preserved : ∀ event ∈ events, ∀ state next, Invariant state → Safe state → Safe next →
      admits state event → step state event = some next → Invariant next)
    (initial : Invariant start) (safe : Throughout step Safe start events)
    (admitted : Admitted step admits start events) (executed : run step start events = some final) :
    Invariant final := by
  induction events generalizing start with
  | nil =>
    cases executed
    exact initial
  | cons event events ih =>
    obtain ⟨next, stepped, rest⟩ := run_cons.mp executed
    obtain ⟨safeStart, safeRest⟩ := (throughout_cons stepped).mp safe
    have safeNext : Safe next := safeRest [] List.nil_prefix next rfl
    exact ih (fun other member => preserved other (List.mem_cons_of_mem _ member))
      (preserved event List.mem_cons_self start next initial safeStart safeNext admitted.1 stepped) safeRest
      (admitted.2 next stepped) rest

theorem throughout_append {Safe : State → Prop} {start middle : State} {first second : List Event}
    (executed : run step start first = some middle) (safe : Throughout step Safe start (first ++ second)) :
    Throughout step Safe start first ∧ Throughout step Safe middle second := by
  constructor
  · intro before isPrefix
    exact safe before (isPrefix.trans (List.prefix_append first second))
  · intro before isPrefix state reached
    exact safe (first ++ before) ((List.prefix_append_right_inj first).mpr isPrefix) state
      (run_append.mpr ⟨middle, executed, reached⟩)

theorem admitted_append {start middle : State} {first second : List Event}
    (executed : run step start first = some middle) (admitted : Admitted step admits start (first ++ second)) :
    Admitted step admits start first ∧ Admitted step admits middle second := by
  induction first generalizing start with
  | nil =>
    cases executed
    exact ⟨trivial, admitted⟩
  | cons event first ih =>
    obtain ⟨next, stepped, rest⟩ := run_cons.mp executed
    obtain ⟨front, back⟩ := ih rest (admitted.2 next stepped)
    refine ⟨⟨admitted.1, ?_⟩, back⟩
    intro other same
    cases stepped.symm.trans same
    exact front

/-- When exactly the admitted steps keep the invariant, the runs of admitted steps are the safe ones. -/
theorem throughout_iff_admitted (Invariant Safe : State → Prop)
    (preserved : ∀ state event next, Invariant state → admits state event →
      step state event = some next → Invariant next)
    (safe : ∀ state, Invariant state → Safe state)
    (broken : ∀ state event next, Invariant state → ¬ admits state event →
      step state event = some next → ¬ Safe next)
    {start final : State} {events : List Event} (initial : Invariant start)
    (executed : run step start events = some final) :
    Throughout step Safe start events ↔ Admitted step admits start events := by
  induction events generalizing start with
  | nil => exact iff_of_true (throughout_nil.mpr (safe start initial)) trivial
  | cons event events ih =>
    obtain ⟨next, stepped, rest⟩ := run_cons.mp executed
    rw [throughout_cons stepped]
    by_cases admitted : admits start event
    · have kept := preserved start event next initial admitted stepped
      rw [ih kept rest]
      constructor
      · intro both
        refine ⟨admitted, ?_⟩
        intro other same
        cases stepped.symm.trans same
        exact both.2
      · intro both
        exact ⟨safe start initial, both.2 next stepped⟩
    · refine iff_of_false ?_ fun both => admitted both.1
      intro both
      exact broken start event next initial admitted stepped (both.2 [] List.nil_prefix next rfl)

/-- When every admitted step can be performed and is matched by an abstract one, every admitted run can be performed,
    and the abstract run ends in a related state. -/
theorem run_refines {Abstract : Type} (Related : State → Abstract → Prop) (apply : Abstract → Event → Abstract)
    (matched : ∀ state abstract event, Related state abstract → admits state event →
      ∃ next, step state event = some next ∧ Related next (apply abstract event))
    {start : State} {abstract : Abstract} {events : List Event} (related : Related start abstract)
    (admitted : Admitted step admits start events) :
    ∃ final, run step start events = some final ∧ Related final (events.foldl apply abstract) := by
  induction events generalizing start abstract with
  | nil => exact ⟨start, rfl, related⟩
  | cons event events ih =>
    obtain ⟨next, stepped, later⟩ := matched start abstract event related admitted.1
    obtain ⟨final, executed, final_related⟩ := ih later (admitted.2 next stepped)
    exact ⟨final, run_cons.mpr ⟨next, stepped, executed⟩, final_related⟩

end Library
