import Mathlib.Logic.Relation

/-!
# Runs of a system with labelled steps

A system is a function that takes a state and an action to the next state, or to
none where the action is not enabled. Here are the rules by which a fact about
one step becomes a fact about every run: an invariant, an invariant of the runs
whose steps are all allowed, what a forbidden step leaves behind, and a forward
simulation.
-/

namespace Blueman.Execution

set_option autoImplicit false

universe u v w x

variable {State : Type u} {Action : Type v} (step : State → Action → Option State)

def exec : State → List Action → Option State
  | state, [] => some state
  | state, action :: rest => (step state action).bind fun next => exec next rest

/-- Every step of the run is allowed where it is taken. -/
def Along (allowed : State → Action → Prop) : State → List Action → Prop
  | _, [] => True
  | state, action :: rest =>
      allowed state action ∧ ∀ next, step state action = some next → Along allowed next rest

def Preserves (invariant : State → Prop) : Prop :=
  ∀ state action next, step state action = some next → invariant state → invariant next

variable {step}

theorem exec_cons {state final : State} {action : Action} {rest : List Action} :
    exec step state (action :: rest) = some final ↔
      ∃ next, step state action = some next ∧ exec step next rest = some final :=
  Option.bind_eq_some_iff

theorem exec_snoc {state middle final : State} {actions : List Action} {action : Action}
    (run : exec step state actions = some middle) (taken : step middle action = some final) :
    exec step state (actions ++ [action]) = some final := by
  induction actions generalizing state with
  | nil =>
      cases run
      exact exec_cons.mpr ⟨final, taken, rfl⟩
  | cons first rest induction =>
      obtain ⟨next, earlier, run⟩ := exec_cons.mp run
      exact exec_cons.mpr ⟨next, earlier, induction run⟩

/-- Whatever is offered to a system that goes on until it has stopped: it takes all of
it, or a front of it and has stopped. -/
theorem exec_until {invariant stopped : State → Prop} (preserved : Preserves step invariant)
    (goesOn : ∀ state action, invariant state → ¬stopped state → (step state action).isSome = true)
    {state : State} (holds : invariant state) (actions : List Action) :
    ∃ front final, front <+: actions ∧ exec step state front = some final ∧
      (front = actions ∨ stopped final) := by
  induction actions generalizing state with
  | nil => exact ⟨[], state, List.prefix_refl [], rfl, .inl rfl⟩
  | cons action rest induction =>
      by_cases halted : stopped state
      · exact ⟨[], state, List.nil_prefix, rfl, .inr halted⟩
      · obtain ⟨next, taken⟩ := Option.isSome_iff_exists.mp (goesOn state action holds halted)
        obtain ⟨front, final, isPrefix, run, ends⟩ :=
          induction (preserved state action next taken holds)
        refine ⟨action :: front, final, List.cons_prefix_cons.mpr ⟨rfl, isPrefix⟩,
          exec_cons.mpr ⟨next, taken, run⟩, ?_⟩
        exact ends.imp_left (congrArg (action :: ·))

theorem exec_preserves_along {allowed : State → Action → Prop} {invariant : State → Prop}
    (preserved : ∀ state action next, allowed state action → step state action = some next →
      invariant state → invariant next)
    {state final : State} {actions : List Action} (run : exec step state actions = some final)
    (along : Along step allowed state actions) (holds : invariant state) : invariant final := by
  induction actions generalizing state with
  | nil =>
      cases run
      exact holds
  | cons action rest induction =>
      obtain ⟨next, taken, run⟩ := exec_cons.mp run
      apply induction run
      · exact along.2 next taken
      · exact preserved state action next along.1 taken holds

instance decidableAlong {allowed : State → Action → Prop}
    [∀ state action, Decidable (allowed state action)] :
    (state : State) → (actions : List Action) → Decidable (Along step allowed state actions)
  | _, [] => .isTrue trivial
  | state, action :: rest =>
      match taken : step state action with
      | none => decidable_of_iff (allowed state action) (by simp [Along, taken])
      | some next =>
          have : Decidable (Along step allowed next rest) := decidableAlong next rest
          decidable_of_iff (allowed state action ∧ Along step allowed next rest)
            (by simp [Along, taken])

theorem along_true (state : State) (actions : List Action) :
    Along step (fun _ _ => True) state actions := by
  induction actions generalizing state with
  | nil => exact trivial
  | cons action rest induction => exact ⟨trivial, fun next _ => induction next⟩

theorem along_all_iff {allowed : Action → Prop} {state final : State} {actions : List Action}
    (run : exec step state actions = some final) :
    Along step (fun _ action => allowed action) state actions ↔
      ∀ action ∈ actions, allowed action := by
  induction actions generalizing state with
  | nil => simp [Along]
  | cons action rest induction =>
      obtain ⟨next, taken, run⟩ := exec_cons.mp run
      simp only [Along, taken, Option.some.injEq, forall_eq', induction run, List.forall_mem_cons]

theorem exec_preserves {invariant : State → Prop} (preserved : Preserves step invariant)
    {state final : State} {actions : List Action} (run : exec step state actions = some final)
    (holds : invariant state) : invariant final := by
  apply exec_preserves_along _ run (along_true state actions) holds
  intro state action next _ taken before
  exact preserved state action next taken before

/-- A run with a step that is not allowed ends in what its first one leads to, as
long as every later step preserves that. -/
theorem exec_not_along {allowed : State → Action → Prop} {invariant spoiled : State → Prop}
    (preserved : ∀ state action next, allowed state action → step state action = some next →
      invariant state → invariant next)
    (spoils : ∀ state action next, ¬allowed state action → step state action = some next →
      invariant state → spoiled next)
    (stays : Preserves step spoiled) {state final : State} {actions : List Action}
    (run : exec step state actions = some final) (holds : invariant state)
    (forbidden : ¬Along step allowed state actions) : spoiled final := by
  induction actions generalizing state with
  | nil => exact absurd trivial forbidden
  | cons action rest induction =>
      obtain ⟨next, taken, run⟩ := exec_cons.mp run
      by_cases first : allowed state action
      · apply induction run (preserved state action next first taken holds)
        intro later
        apply forbidden
        refine ⟨first, fun other again => ?_⟩
        rw [taken] at again
        cases again
        exact later
      · exact exec_preserves stays run (spoils state action next first taken holds)

variable (step) in
/-- Some run of allowed steps leads to such a state. -/
def CanReach (allowed : State → Action → Prop) (goal : State → Prop) (state : State) : Prop :=
  ∃ actions final, exec step state actions = some final ∧ Along step allowed state actions ∧
    goal final

theorem can_reach_here {allowed : State → Action → Prop} {goal : State → Prop} {state : State}
    (holds : goal state) : CanReach step allowed goal state :=
  ⟨[], state, rfl, trivial, holds⟩

theorem can_reach_step {allowed : State → Action → Prop} {goal : State → Prop}
    {state next : State} (action : Action) (taken : step state action = some next)
    (permitted : allowed state action) (later : CanReach step allowed goal next) :
    CanReach step allowed goal state := by
  obtain ⟨actions, final, run, along, holds⟩ := later
  refine ⟨action :: actions, final, exec_cons.mpr ⟨next, taken, run⟩, ⟨permitted, ?_⟩, holds⟩
  intro other again
  rw [taken] at again
  cases again
  exact along

theorem trap_never_reaches {allowed : State → Action → Prop} {goal trap : State → Prop}
    (kept : ∀ state action next, allowed state action → step state action = some next →
      trap state → trap next)
    (apart : ∀ state, trap state → ¬goal state) {state : State} (trapped : trap state) :
    ¬CanReach step allowed goal state := by
  rintro ⟨actions, final, run, along, holds⟩
  exact apart final (exec_preserves_along kept run along trapped) holds

theorem can_reach_followed {Other : Type w} {Move : Type x} {other : Other → Move → Option Other}
    {allowed : State → Action → Prop} {permitted : Other → Move → Prop} {goal : State → Prop}
    {aim : Other → Prop} {related : State → Other → Prop}
    (follows : ∀ state action next place, allowed state action →
      step state action = some next → related state place →
        ∃ move after, other place move = some after ∧ permitted place move ∧ related next after)
    (arrives : ∀ state place, related state place → goal state → aim place)
    {state : State} {place : Other} (start : related state place)
    (reaches : CanReach step allowed goal state) : CanReach other permitted aim place := by
  obtain ⟨actions, final, run, along, holds⟩ := reaches
  induction actions generalizing state place with
  | nil =>
      cases run
      exact can_reach_here (arrives final place start holds)
  | cons action rest induction =>
      obtain ⟨next, taken, run⟩ := exec_cons.mp run
      obtain ⟨move, after, followed, may, before⟩ :=
        follows state action next place along.1 taken start
      exact can_reach_step move followed may (induction before run (along.2 next taken))

variable (step) in
def changes [DecidableEq State] : State → List Action → Nat
  | _, [] => 0
  | state, action :: rest =>
      match step state action with
      | none => 0
      | some next => (if next = state then 0 else 1) + changes next rest

variable (step) in
def Settled (state : State) : Prop := ∀ action next, step state action = some next → next = state

theorem changes_le [DecidableEq State] {work : State → Nat}
    (lowers : ∀ state action next, step state action = some next → next ≠ state →
      work next < work state)
    {state final : State} {actions : List Action} (run : exec step state actions = some final) :
    changes step state actions + work final ≤ work state := by
  induction actions generalizing state with
  | nil =>
      cases run
      simp [changes]
  | cons action rest induction =>
      obtain ⟨next, taken, run⟩ := exec_cons.mp run
      have later := induction run
      simp only [changes, taken]
      by_cases same : next = state
      · rw [if_pos same]
        rw [same] at later ⊢
        omega
      · have lower := lowers state action next taken same
        rw [if_neg same]
        omega

theorem settles {work : State → Nat}
    (lowers : ∀ state action next, step state action = some next → next ≠ state →
      work next < work state) (state : State) :
    ∃ actions final, exec step state actions = some final ∧ Settled step final := by
  induction measured : work state using Nat.strongRecOn generalizing state with
  | _ height induction =>
      by_cases moves : ∃ action next, step state action = some next ∧ next ≠ state
      · obtain ⟨action, next, taken, other⟩ := moves
        have lower := lowers state action next taken other
        rw [measured] at lower
        obtain ⟨actions, final, run, ends⟩ := induction (work next) lower next rfl
        exact ⟨action :: actions, final, exec_cons.mpr ⟨next, taken, run⟩, ends⟩
      · refine ⟨[], state, rfl, ?_⟩
        intro action next taken
        apply Classical.byContradiction
        exact fun other => moves ⟨action, next, taken, other⟩

theorem exec_simulated {Abstract : Type w} {moves : Abstract → Abstract → Prop}
    {related : State → Abstract → Prop}
    (forward : ∀ state action next abstract, step state action = some next →
      related state abstract →
      ∃ after, Relation.ReflTransGen moves abstract after ∧ related next after)
    {state final : State} {actions : List Action} (run : exec step state actions = some final)
    {abstract : Abstract} (start : related state abstract) :
    ∃ after, Relation.ReflTransGen moves abstract after ∧ related final after := by
  induction actions generalizing state abstract with
  | nil =>
      cases run
      exact ⟨abstract, .refl, start⟩
  | cons action rest induction =>
      obtain ⟨next, taken, run⟩ := exec_cons.mp run
      obtain ⟨middle, first, before⟩ := forward state action next abstract taken start
      obtain ⟨after, later, ends⟩ := induction run before
      exact ⟨after, first.trans later, ends⟩

end Blueman.Execution
