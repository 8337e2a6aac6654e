import Blueman.Library.NearestFloat
import Blueman.MutateStrategy

/-!
# Which packets are offered to the mutator

The packet selection strategies of the field-aware mutator. Every float the
selector handles lies in `[0, 1]` and is a multiple of `2 ^ -31`, so a float is
represented by its exact value in that unit. The only inexact operations are
the conversion of `rand()` to float and the division by `100.0f`; both round to
the nearest 24-bit significand, ties to even.
-/

namespace Blueman.PacketSelection

open ByteMachine MutateStrategy NearestFloat

set_option autoImplicit false

/-- A float in `[0, 1]`, in units of `2 ^ -31`. -/
abbrev UnitFloat := Nat

def one : UnitFloat := 2 ^ 31

/-- The float literal `percent / 100`. -/
def percentFloat (percent : Nat) : UnitFloat := nearest 24 (percent * one) 100

/-- `(float)rand() / RAND_MAX`: the divisor converts to `2 ^ 31`. -/
def randFloat (drawn : Nat) : UnitFloat := nearest 24 drawn 1

inductive PktselMode
  | fixedProb10
  | fixedProb25
  | fixedProb50
  | fixedProb75
  | fixedProb100
  | selective25_75
  | selective75_25
  | randomProb
  | mixedProb
deriving DecidableEq, Repr

structure PktselConfig where
  mode : PktselMode
  fixedProb : UnitFloat
  firstProb : UnitFloat
  secondProb : UnitFloat
  entryIndex : UInt32

/-- The mode named by an enumerator's number, or the one the source falls back to. -/
def PktselMode.ofNumber (number : Nat) : PktselMode :=
  match number with
  | 0 => .fixedProb10
  | 1 => .fixedProb25
  | 2 => .fixedProb50
  | 3 => .fixedProb75
  | 4 => .fixedProb100
  | 5 => .selective25_75
  | 6 => .selective75_25
  | 7 => .randomProb
  | 8 => .mixedProb
  | _ => .fixedProb50

def selectionStrategySetup (config : PktselConfig) (number : Nat) (entryIndex : UInt64) :
    PktselConfig :=
  let mode := PktselMode.ofNumber number
  let chosen := { config with mode := mode, entryIndex := entryIndex.toUInt32 }
  match mode with
  | .fixedProb10 => { chosen with fixedProb := percentFloat 10 }
  | .fixedProb25 => { chosen with fixedProb := percentFloat 25 }
  | .fixedProb50 => { chosen with fixedProb := percentFloat 50 }
  | .fixedProb75 => { chosen with fixedProb := percentFloat 75 }
  | .fixedProb100 => { chosen with fixedProb := percentFloat 100 }
  | .selective25_75 =>
      { chosen with firstProb := percentFloat 25, secondProb := percentFloat 75 }
  | .selective75_25 =>
      { chosen with firstProb := percentFloat 75, secondProb := percentFloat 25 }
  | .randomProb | .mixedProb => chosen

/-- The probability with which a packet at `idx` is selected; `RANDOM_PROB`
draws it anew for every packet. -/
def selectionProb (config : PktselConfig) (idx : Nat) : Program Rand UnitFloat :=
  match config.mode with
  | .fixedProb10 | .fixedProb25 | .fixedProb50 | .fixedProb75 | .fixedProb100 =>
      pure config.fixedProb
  | .randomProb => do
      let r := (← rand) % 91
      return percentFloat (r + 10)
  | .selective25_75 | .selective75_25 =>
      pure (if idx ≥ config.entryIndex.toNat then config.firstProb else config.secondProb)
  | .mixedProb => pure (percentFloat 50)

def shouldMutatePacket (config : PktselConfig) (idx : Nat) : Program Rand Bool := do
  let prob ← selectionProb config idx
  let r := randFloat (← rand)
  return decide (r < prob)

/-- Some draw selects a packet at `idx`: its probability is not zero. -/
def Selectable (config : PktselConfig) (idx : Nat) : Prop :=
  match config.mode with
  | .fixedProb10 | .fixedProb25 | .fixedProb50 | .fixedProb75 | .fixedProb100 =>
      0 < config.fixedProb
  | .selective25_75 | .selective75_25 =>
      0 < if idx ≥ config.entryIndex.toNat then config.firstProb else config.secondProb
  | .randomProb | .mixedProb => True

example : percentFloat 10 = 214748368 := by decide
example : randFloat (2 ^ 31 - 65) = 2 ^ 31 - 128 := by decide

theorem should_mutate_store (config : PktselConfig) (idx : Nat) (store : Store) :
    Ensures (shouldMutatePacket config idx) store (fun _ after => after = store)
      fun _ _ => False := by
  apply ensures_bind
  have drawn : Ensures (selectionProb config idx) store (fun _ after => after = store)
      fun _ _ => False := by
    unfold selectionProb
    split
    all_goals first | exact ensures_pure rfl | exact ensures_bind (ensures_rand fun _ _ => ensures_pure rfl)
  refine drawn.mono (fun prob middle same => ?_) fun _ _ absurd => absurd
  subst same
  exact ensures_bind (ensures_rand fun _ _ => ensures_pure rfl)

/-- What the selector returns for given draws; it reads no memory. -/
def selects (config : PktselConfig) (idx : Nat) (draws : Stream' Rand) : Bool :=
  match shouldMutatePacket config idx ⟨⟨fun _ => 0, []⟩, draws⟩ with
  | .ok chosen _ => chosen
  | .error _ _ => false

/-- How many results of `rand()` the selector uses up. -/
def selectorDraws (config : PktselConfig) : Nat :=
  match config.mode with
  | .randomProb => 2
  | _ => 1

theorem should_mutate_run (config : PktselConfig) (idx : Nat) (store : Store)
    (draws : Stream' Rand) :
    shouldMutatePacket config idx ⟨store, draws⟩ =
      .ok (selects config idx draws) ⟨store, draws.drop (selectorDraws config)⟩ := by
  unfold selects shouldMutatePacket selectionProb selectorDraws
  cases config.mode <;> rfl

theorem should_mutate_returns {config : PktselConfig} {idx : Nat} {store : Store}
    {draws : Stream' Rand} {post : Bool → Store → Stream' Rand → Prop}
    (holds : post (selects config idx draws) store (draws.drop (selectorDraws config))) :
    Returns (shouldMutatePacket config idx) store draws post :=
  ⟨_, _, _, should_mutate_run config idx store draws, holds⟩

theorem selectable_possibly (config : PktselConfig) (idx : Nat) (store : Store)
    (selectable : Selectable config idx) :
    Possibly (shouldMutatePacket config idx) store fun chosen after =>
      chosen = true ∧ after = store := by
  have drawZero (prob : UnitFloat) (positive : 0 < prob) :
      Possibly (do let r := randFloat (← rand); return decide (r < prob)) store
        fun chosen after => chosen = true ∧ after = store :=
    possibly_bind (possibly_rand 0 (by decide)
      (possibly_pure ⟨decide_eq_true positive, rfl⟩))
  unfold Selectable at selectable
  unfold shouldMutatePacket selectionProb
  apply possibly_bind
  cases mode : config.mode with
  | randomProb =>
      refine possibly_bind (possibly_rand 0 (by decide) ?_)
      exact possibly_pure (drawZero (percentFloat 10) (by decide))
  | mixedProb => exact possibly_pure (drawZero (percentFloat 50) (by decide))
  | _ =>
      rw [mode] at selectable
      exact possibly_pure (drawZero _ selectable)

theorem not_selectable_never (config : PktselConfig) (idx : Nat) (store : Store)
    (never : ¬Selectable config idx) :
    Ensures (shouldMutatePacket config idx) store (fun chosen _ => chosen = false)
      fun _ _ => False := by
  have drawAny (prob : UnitFloat) (zero : ¬0 < prob) :
      Ensures (do let r := randFloat (← rand); return decide (r < prob)) store
        (fun chosen _ => chosen = false) fun _ _ => False :=
    ensures_bind (ensures_rand fun drawn _ =>
      ensures_pure (decide_eq_false fun below => zero (Nat.zero_lt_of_lt below)))
  unfold Selectable at never
  unfold shouldMutatePacket selectionProb
  apply ensures_bind
  cases mode : config.mode with
  | randomProb | mixedProb =>
      rw [mode] at never
      exact absurd trivial never
  | _ =>
      rw [mode] at never
      exact ensures_pure (drawAny _ never)

end Blueman.PacketSelection
