import Blueman.Library.LittleEndian
import Mathlib.Data.Stream.Init
import Mathlib.Order.Interval.Set.Basic
import Mathlib.Logic.Function.Basic

/-!
# Byte programs over a random source

A program reads and writes a byte memory, draws from an infinite source of
random results, and may stop on a fault. Every address it reads or writes is
recorded, so that a statement about the accesses of a run is a statement about
its final store.

`Ensures` speaks about every stream of draws, `Possibly` about some finite
choice of them, `Returns` and `Stops` about a given one. Each has one rule for each way of
building a program, and a proof about a program follows its text rule by rule. `Within` is the frame
relation between the stores before and after a run.
-/

namespace ByteMachine

open LittleEndian

set_option autoImplicit false

/-- What stops a run: a remainder with divisor zero, or an index outside a
constant table. -/
inductive Fault
  | divideByZero
  | tableOverrun
deriving DecidableEq, Repr

structure Store where
  memory : Memory
  touched : List Nat

def Store.touch (store : Store) (addresses : List Nat) : Store :=
  { store with touched := addresses ++ store.touched }

structure Machine (Draw : Type) where
  store : Store
  draws : Stream' Draw

/-- A run ends with a value or a fault, and with a machine in either case. -/
abbrev Program (Draw Value : Type) := EStateM Fault (Machine Draw) Value

section Operations

variable {Draw Value : Type}

def draw : Program Draw Draw := fun machine =>
  .ok machine.draws.head { machine with draws := machine.draws.tail }

def stop (fault : Fault) : Program Draw Value := fun machine => .error fault machine

def load (address : Nat) : Program Draw UInt8 := fun machine =>
  .ok (machine.store.memory address) { machine with store := machine.store.touch [address] }

def Store.put (store : Store) (address : Nat) (byte : UInt8) : Store where
  memory := Function.update store.memory address byte
  touched := address :: store.touched

def save (address : Nat) (byte : UInt8) : Program Draw Unit := fun machine =>
  .ok () { machine with store := machine.store.put address byte }

def loadWord (width address : Nat) : Program Draw (BitVec (8 * width)) := fun machine =>
  .ok (readWord width machine.store.memory address)
    { machine with store := machine.store.touch (List.range' address width) }

def Store.putWord (store : Store) (width address : Nat) (word : BitVec (8 * width)) : Store where
  memory := writeWord width store.memory address word
  touched := List.range' address width ++ store.touched

def saveWord (width address : Nat) (word : BitVec (8 * width)) : Program Draw Unit :=
  fun machine => .ok () { machine with store := machine.store.putWord width address word }

def remainder (dividend divisor : Nat) : Program Draw Nat :=
  if divisor = 0 then stop .divideByZero else pure (dividend % divisor)

def lookup (table : List Value) (index : Nat) : Program Draw Value :=
  match table[index]? with
  | some entry => pure entry
  | none => stop .tableOverrun

def whenever (condition : Prop) [Decidable condition] (program : Program Draw Unit) :
    Program Draw Unit :=
  if condition then program else pure ()

/-- Runs the body for the indices `start`, `start + 1`, … `count` times. -/
def forRange (body : Nat → Program Draw Unit) : Nat → Nat → Program Draw Unit
  | _, 0 => pure ()
  | start, count + 1 => do
      body start
      forRange body (start + 1) count

end Operations

theorem run_bind_ok {Draw Value Other : Type} {program : Program Draw Value}
    {next : Value → Program Draw Other} {machine middle : Machine Draw} {value : Value}
    (run : program machine = .ok value middle) : (program >>= next) machine = next value middle := by
  change EStateM.bind program next machine = _
  rw [EStateM.bind, run]

theorem lookup_eq {Draw Value : Type} {table : List Value} {index : Nat} {entry : Value}
    (found : table[index]? = some entry) :
    (lookup table index : Program Draw Value) = pure entry := by
  unfold lookup
  rw [found]

section Ensures

variable {Draw Value Other : Type}

/-- Whatever is drawn, a run from `store` ends in `post` if it returns and in
`crash` if it faults. -/
def Ensures (program : Program Draw Value) (store : Store) (post : Value → Store → Prop)
    (crash : Fault → Store → Prop) : Prop :=
  ∀ draws, match program ⟨store, draws⟩ with
    | .ok value after => post value after.store
    | .error fault after => crash fault after.store

variable {store : Store} {post : Value → Store → Prop} {crash : Fault → Store → Prop}

theorem Ensures.returned {program : Program Draw Value} (holds : Ensures program store post crash)
    {draws : Stream' Draw} {value : Value} {after : Machine Draw}
    (run : program ⟨store, draws⟩ = .ok value after) : post value after.store := by
  have ended := holds draws
  rwa [run] at ended

theorem Ensures.faulted {program : Program Draw Value} (holds : Ensures program store post crash)
    {draws : Stream' Draw} {fault : Fault} {after : Machine Draw}
    (run : program ⟨store, draws⟩ = .error fault after) : crash fault after.store := by
  have ended := holds draws
  rwa [run] at ended

theorem Ensures.mono {program : Program Draw Value} {goal : Value → Store → Prop}
    {failure : Fault → Store → Prop} (holds : Ensures program store post crash)
    (weaker : ∀ value after, post value after → goal value after)
    (milder : ∀ fault after, crash fault after → failure fault after) :
    Ensures program store goal failure := by
  intro draws
  have ended := holds draws
  cases run : program ⟨store, draws⟩ with
  | ok value after =>
      rw [run] at ended
      exact weaker value after.store ended
  | error fault after =>
      rw [run] at ended
      exact milder fault after.store ended

theorem Ensures.both {program : Program Draw Value} {other : Value → Store → Prop}
    {failure : Fault → Store → Prop} (first : Ensures program store post crash)
    (second : Ensures program store other failure) :
    Ensures program store (fun value after => post value after ∧ other value after)
      fun fault after => crash fault after ∧ failure fault after := by
  intro draws
  have left := first draws
  have right := second draws
  cases run : program ⟨store, draws⟩ with
  | ok value after =>
      rw [run] at left right
      exact ⟨left, right⟩
  | error fault after =>
      rw [run] at left right
      exact ⟨left, right⟩

theorem ensures_pure {value : Value} (holds : post value store) :
    Ensures (pure value : Program Draw Value) store post crash :=
  fun _ => holds

theorem ensures_bind {program : Program Draw Value} {next : Value → Program Draw Other}
    {goal : Other → Store → Prop}
    (holds : Ensures program store (fun value middle => Ensures (next value) middle goal crash)
      crash) : Ensures (program >>= next) store goal crash := by
  intro draws
  have ended := holds draws
  change match EStateM.bind program next ⟨store, draws⟩ with
    | .ok value after => goal value after.store
    | .error fault after => crash fault after.store
  unfold EStateM.bind
  cases run : program ⟨store, draws⟩ with
  | ok value middle =>
      rw [run] at ended
      exact ended middle.draws
  | error fault middle =>
      rw [run] at ended
      exact ended

theorem ensures_bind_any {program : Program Draw Value} {next : Value → Program Draw Other}
    {goal : Other → Store → Prop}
    (holds : ∀ value middle, Ensures (next value) middle goal fun _ _ => True) :
    Ensures (program >>= next) store goal fun _ _ => True := by
  apply ensures_bind
  intro draws
  cases program ⟨store, draws⟩ with
  | ok value middle => exact holds value middle.store
  | error fault middle => trivial

theorem ensures_draw {goal : Draw → Store → Prop} (holds : ∀ value, goal value store) :
    Ensures draw store goal crash :=
  fun _ => holds _

theorem ensures_stop {fault : Fault} (fails : crash fault store) :
    Ensures (stop fault : Program Draw Value) store post crash :=
  fun _ => fails

theorem ensures_load {address : Nat} {goal : UInt8 → Store → Prop}
    (holds : goal (store.memory address) (store.touch [address])) :
    Ensures (load address : Program Draw UInt8) store goal crash :=
  fun _ => holds

theorem ensures_save {address : Nat} {byte : UInt8} {goal : Unit → Store → Prop}
    (holds : goal () (store.put address byte)) :
    Ensures (save address byte : Program Draw Unit) store goal crash :=
  fun _ => holds

theorem ensures_load_word {width address : Nat} {goal : BitVec (8 * width) → Store → Prop}
    (holds : goal (readWord width store.memory address)
      (store.touch (List.range' address width))) :
    Ensures (loadWord width address : Program Draw _) store goal crash :=
  fun _ => holds

theorem ensures_save_word {width address : Nat} {word : BitVec (8 * width)}
    {goal : Unit → Store → Prop} (holds : goal () (store.putWord width address word)) :
    Ensures (saveWord width address word : Program Draw Unit) store goal crash :=
  fun _ => holds

theorem ensures_remainder {dividend divisor : Nat} {goal : Nat → Store → Prop}
    (fails : divisor = 0 → crash .divideByZero store)
    (holds : 0 < divisor → goal (dividend % divisor) store) :
    Ensures (remainder dividend divisor : Program Draw Nat) store goal crash := by
  unfold remainder
  split_ifs with zero
  · exact ensures_stop (fails zero)
  · exact ensures_pure (holds (Nat.pos_of_ne_zero zero))

theorem ensures_lookup {table : List Value} {index : Nat}
    (fails : table.length ≤ index → crash .tableOverrun store)
    (holds : ∀ entry ∈ table, post entry store) :
    Ensures (lookup table index : Program Draw Value) store post crash := by
  unfold lookup
  cases found : table[index]? with
  | none => exact ensures_stop (fails (List.getElem?_eq_none_iff.mp found))
  | some entry => exact ensures_pure (holds entry (List.mem_of_getElem? found))

theorem ensures_if {condition : Prop} [Decidable condition] {left right : Program Draw Value}
    (yes : condition → Ensures left store post crash)
    (no : ¬condition → Ensures right store post crash) :
    Ensures (if condition then left else right) store post crash := by
  split_ifs with holds
  · exact yes holds
  · exact no holds

theorem ensures_whenever {condition : Prop} [Decidable condition] {program : Program Draw Unit}
    {goal : Unit → Store → Prop} (yes : condition → Ensures program store goal crash)
    (no : ¬condition → goal () store) : Ensures (whenever condition program) store goal crash :=
  ensures_if yes fun absent => ensures_pure (no absent)

theorem ensures_for_range {body : Nat → Program Draw Unit} {start count : Nat}
    (invariant : Nat → Store → Prop)
    (step : ∀ index before, start ≤ index → index < start + count → invariant index before →
      Ensures (body index) before (fun _ after => invariant (index + 1) after) crash)
    (begun : invariant start store) :
    Ensures (forRange body start count) store
      (fun _ after => invariant (start + count) after) crash := by
  induction count generalizing start store with
  | zero => exact ensures_pure begun
  | succ count induction =>
      apply ensures_bind
      apply (step start store (Nat.le_refl _) (by omega) begun).mono
      · intro _ middle holds
        rw [Nat.add_comm count 1, ← Nat.add_assoc]
        exact induction (fun index before lower upper => step index before (by omega) (by omega))
          holds
      · intro _ _ crashed
        exact crashed

end Ensures

/-- Nothing outside `changed` has a new value, and every newly recorded access
lies in `reach`. -/
structure Within (reach changed : Set Nat) (before after : Store) : Prop where
  unchanged : ∀ position, position ∉ changed → after.memory position = before.memory position
  reached : ∀ position ∈ after.touched, position ∈ before.touched ∨ position ∈ reach

theorem Within.refl (reach changed : Set Nat) (store : Store) :
    Within reach changed store store :=
  ⟨fun _ _ => rfl, fun _ member => .inl member⟩

theorem Within.trans {reach changed : Set Nat} {first second third : Store}
    (left : Within reach changed first second) (right : Within reach changed second third) :
    Within reach changed first third where
  unchanged position outside :=
    (right.unchanged position outside).trans (left.unchanged position outside)
  reached position member :=
    (right.reached position member).elim (left.reached position) .inr

theorem Within.mono {reach changed wider larger : Set Nat} {before after : Store}
    (frame : Within reach changed before after)
    (reaches : reach ⊆ wider) (changes : changed ⊆ larger) : Within wider larger before after where
  unchanged position outside := frame.unchanged position fun member => outside (changes member)
  reached position member :=
    (frame.reached position member).imp_right fun inside => reaches inside

theorem within_touch {reach changed : Set Nat} (store : Store) (addresses : List Nat)
    (inside : ∀ position ∈ addresses, position ∈ reach) :
    Within reach changed store (store.touch addresses) where
  unchanged _ _ := rfl
  reached position member :=
    (List.mem_append.mp member).symm.imp_right (inside position)

theorem within_put {reach changed : Set Nat} (store : Store) (address : Nat) (byte : UInt8)
    (inside : address ∈ reach) (allowed : address ∈ changed) :
    Within reach changed store (store.put address byte) where
  unchanged position outside := by
    have different : position ≠ address := fun same => outside (by rwa [same])
    exact Function.update_of_ne different byte store.memory
  reached position member := by
    rcases List.mem_cons.mp member with same | earlier
    · exact .inr (by rwa [same])
    · exact .inl earlier

theorem within_put_word {reach changed : Set Nat} (store : Store) (width address : Nat)
    (word : BitVec (8 * width)) (inside : ∀ index, index < width → address + index ∈ reach)
    (allowed : ∀ index, index < width → address + index ∈ changed) :
    Within reach changed store (store.putWord width address word) where
  unchanged position outside := by
    apply write_word_outside width store.memory address word position
    by_contra overlap
    push Not at overlap
    have member := allowed (position - address) (by omega)
    rw [Nat.add_sub_cancel' overlap.1] at member
    exact outside member
  reached position member := by
    rcases List.mem_append.mp member with written | earlier
    · obtain ⟨lower, upper⟩ := List.mem_range'_1.mp written
      have reachable := inside (position - address) (by omega)
      rw [Nat.add_sub_cancel' lower] at reachable
      exact .inr reachable
    · exact .inl earlier

section Confined

variable {Draw Value Other : Type} {reach changed : Set Nat}

/-- The run from `store` reads and writes only inside `reach` and changes only
bytes inside `changed`, whatever is drawn and also when it faults. -/
def ConfinedFrom (store : Store) (reach changed : Set Nat) (program : Program Draw Value) : Prop :=
  Ensures program store (fun _ after => Within reach changed store after)
    fun _ after => Within reach changed store after

def Confined (reach changed : Set Nat) (program : Program Draw Value) : Prop :=
  ∀ store, ConfinedFrom store reach changed program

theorem ConfinedFrom.mono {store : Store} {wider larger : Set Nat} {program : Program Draw Value}
    (confined : ConfinedFrom store reach changed program)
    (reaches : reach ⊆ wider) (changes : changed ⊆ larger) :
    ConfinedFrom store wider larger program :=
  Ensures.mono confined (fun _ _ frame => frame.mono reaches changes)
    fun _ _ frame => frame.mono reaches changes

theorem Confined.mono {wider larger : Set Nat} {program : Program Draw Value}
    (confined : Confined reach changed program)
    (reaches : reach ⊆ wider) (changes : changed ⊆ larger) : Confined wider larger program :=
  fun store => (confined store).mono reaches changes

/-- The sequence rule: what follows is confined from every store the first
program can leave. -/
theorem confined_from_bind {store : Store} {program : Program Draw Value}
    {next : Value → Program Draw Other} {known : Value → Store → Prop}
    {failure : Fault → Store → Prop} (first : ConfinedFrom store reach changed program)
    (facts : Ensures program store known failure)
    (second : ∀ value middle, known value middle →
      ConfinedFrom middle reach changed (next value)) :
    ConfinedFrom store reach changed (program >>= next) := by
  refine ensures_bind ((Ensures.both first facts).mono ?_ fun _ _ crashed => crashed.1)
  rintro value middle ⟨before, fact⟩
  exact Ensures.mono (second value middle fact) (fun _ _ after => before.trans after)
    fun _ _ after => before.trans after

theorem Within.memory_eq {before after : Store} (frame : Within reach ∅ before after) :
    after.memory = before.memory :=
  funext fun position => frame.unchanged position (Set.notMem_empty position)

theorem confined_from_read_bind {store : Store} {program : Program Draw Value}
    {next : Value → Program Draw Other} (first : ConfinedFrom store reach ∅ program)
    (second : ∀ value middle, middle.memory = store.memory →
      ConfinedFrom middle reach changed (next value)) :
    ConfinedFrom store reach changed (program >>= next) :=
  confined_from_bind (first.mono (Set.Subset.refl _) (Set.empty_subset _)) first
    fun value middle frame => second value middle frame.memory_eq

theorem confined_from_if {store : Store} {condition : Prop} [Decidable condition]
    {left right : Program Draw Value} (yes : condition → ConfinedFrom store reach changed left)
    (no : ¬condition → ConfinedFrom store reach changed right) :
    ConfinedFrom store reach changed (if condition then left else right) :=
  ensures_if yes no

theorem confined_bind {program : Program Draw Value} {next : Value → Program Draw Other}
    (first : Confined reach changed program)
    (second : ∀ value, Confined reach changed (next value)) :
    Confined reach changed (program >>= next) :=
  fun store => confined_from_bind (first store) (first store)
    fun value middle _ => second value middle

theorem confined_pure (value : Value) :
    Confined reach changed (pure value : Program Draw Value) :=
  fun store => ensures_pure (Within.refl reach changed store)

theorem confined_draw : Confined reach changed (draw : Program Draw Draw) :=
  fun store => ensures_draw fun _ => Within.refl reach changed store

theorem confined_load {address : Nat} (inside : address ∈ reach) :
    Confined reach changed (load address : Program Draw UInt8) := by
  intro store
  refine ensures_load (within_touch store [address] ?_)
  intro position member
  rwa [List.mem_singleton.mp member]

theorem confined_save {address : Nat} (byte : UInt8)
    (inside : address ∈ reach) (allowed : address ∈ changed) :
    Confined reach changed (save address byte : Program Draw Unit) :=
  fun store => ensures_save (within_put store address byte inside allowed)

theorem confined_load_word {width address : Nat}
    (inside : ∀ index, index < width → address + index ∈ reach) :
    Confined reach changed (loadWord width address : Program Draw _) := by
  intro store
  refine ensures_load_word (within_touch store _ ?_)
  intro position member
  obtain ⟨lower, upper⟩ := List.mem_range'_1.mp member
  have reachable := inside (position - address) (by omega)
  rwa [Nat.add_sub_cancel' lower] at reachable

theorem confined_save_word {width address : Nat} (word : BitVec (8 * width))
    (inside : ∀ index, index < width → address + index ∈ reach)
    (allowed : ∀ index, index < width → address + index ∈ changed) :
    Confined reach changed (saveWord width address word : Program Draw Unit) :=
  fun store => ensures_save_word (within_put_word store width address word inside allowed)

theorem confined_remainder_bind {dividend divisor : Nat} {next : Nat → Program Draw Other}
    (second : ∀ value, value < divisor → Confined reach changed (next value)) :
    Confined reach changed (remainder dividend divisor >>= next) := by
  intro store
  refine ensures_bind (ensures_remainder (fun _ => Within.refl reach changed store) ?_)
  intro positive
  exact second _ (Nat.mod_lt _ positive) store

theorem confined_remainder (dividend divisor : Nat) :
    Confined reach changed (remainder dividend divisor : Program Draw Nat) :=
  fun store => ensures_remainder (fun _ => Within.refl reach changed store)
    fun _ => Within.refl reach changed store

theorem confined_lookup (table : List Value) (index : Nat) :
    Confined reach changed (lookup table index : Program Draw Value) :=
  fun store => ensures_lookup (fun _ => Within.refl reach changed store)
    fun _ _ => Within.refl reach changed store

theorem confined_if {condition : Prop} [Decidable condition] {left right : Program Draw Value}
    (yes : condition → Confined reach changed left)
    (no : ¬condition → Confined reach changed right) :
    Confined reach changed (if condition then left else right) :=
  fun store => ensures_if (fun holds => yes holds store) fun absent => no absent store

theorem confined_whenever {condition : Prop} [Decidable condition]
    {program : Program Draw Unit} (yes : condition → Confined reach changed program) :
    Confined reach changed (whenever condition program) :=
  confined_if yes fun _ => confined_pure ()

theorem confined_for_range {body : Nat → Program Draw Unit} {start count : Nat}
    (step : ∀ index, start ≤ index → index < start + count →
      Confined reach changed (body index)) :
    Confined reach changed (forRange body start count) := by
  induction count generalizing start with
  | zero => exact confined_pure ()
  | succ count induction =>
      apply confined_bind (step start (Nat.le_refl _) (by omega))
      intro _
      exact induction fun index lower upper => step index (by omega) (by omega)

end Confined

section Faultless

variable {Draw Value Other : Type}

/-- No run of the program faults, from any store and for any stream of draws. -/
def Faultless (program : Program Draw Value) : Prop :=
  ∀ store, Ensures program store (fun _ _ => True) fun _ _ => False

theorem Faultless.ensures {program : Program Draw Value} (faultless : Faultless program)
    {store : Store} {post : Value → Store → Prop} {crash : Fault → Store → Prop}
    (holds : Ensures program store post crash) :
    Ensures program store post fun _ _ => False :=
  (Ensures.both holds (faultless store)).mono (fun _ _ both => both.1) fun _ _ both => both.2

theorem faultless_pure (value : Value) : Faultless (pure value : Program Draw Value) :=
  fun _ => ensures_pure trivial

theorem faultless_bind {program : Program Draw Value} {next : Value → Program Draw Other}
    (first : Faultless program) (second : ∀ value, Faultless (next value)) :
    Faultless (program >>= next) :=
  fun store => ensures_bind ((first store).mono (fun value middle _ => second value middle)
    fun _ _ absurd => absurd)

theorem faultless_draw : Faultless (draw : Program Draw Draw) :=
  fun _ => ensures_draw fun _ => trivial

theorem faultless_load (address : Nat) : Faultless (load address : Program Draw UInt8) :=
  fun _ => ensures_load trivial

theorem faultless_save (address : Nat) (byte : UInt8) :
    Faultless (save address byte : Program Draw Unit) :=
  fun _ => ensures_save trivial

theorem faultless_load_word (width address : Nat) :
    Faultless (loadWord width address : Program Draw _) :=
  fun _ => ensures_load_word trivial

theorem faultless_save_word (width address : Nat) (word : BitVec (8 * width)) :
    Faultless (saveWord width address word : Program Draw Unit) :=
  fun _ => ensures_save_word trivial

theorem faultless_remainder_bind {dividend divisor : Nat} {next : Nat → Program Draw Other}
    (positive : 0 < divisor) (second : ∀ value, value < divisor → Faultless (next value)) :
    Faultless (remainder dividend divisor >>= next) := by
  intro store
  refine ensures_bind (ensures_remainder (fun zero => absurd zero (Nat.ne_of_gt positive)) ?_)
  intro _
  exact second _ (Nat.mod_lt _ positive) store

theorem faultless_remainder {dividend divisor : Nat} (positive : 0 < divisor) :
    Faultless (remainder dividend divisor : Program Draw Nat) :=
  fun _ => ensures_remainder (fun zero => absurd zero (Nat.ne_of_gt positive)) fun _ => trivial

theorem faultless_lookup {table : List Value} {index : Nat} (inside : index < table.length) :
    Faultless (lookup table index : Program Draw Value) :=
  fun _ => ensures_lookup (fun outside => absurd inside (Nat.not_lt.mpr outside))
    fun _ _ => trivial

theorem faultless_if {condition : Prop} [Decidable condition] {left right : Program Draw Value}
    (yes : condition → Faultless left) (no : ¬condition → Faultless right) :
    Faultless (if condition then left else right) :=
  fun store => ensures_if (fun holds => yes holds store) fun absent => no absent store

theorem faultless_whenever {condition : Prop} [Decidable condition]
    {program : Program Draw Unit} (yes : condition → Faultless program) :
    Faultless (whenever condition program) :=
  faultless_if yes fun _ => faultless_pure ()

theorem faultless_for_range {body : Nat → Program Draw Unit} {count : Nat} (start : Nat)
    (step : 0 < count → ∀ index, Faultless (body index)) :
    Faultless (forRange body start count) := by
  induction count generalizing start with
  | zero => exact faultless_pure ()
  | succ count induction =>
      apply faultless_bind (step (Nat.succ_pos count) start)
      intro _
      exact induction (start + 1) fun _ => step (Nat.succ_pos count)

end Faultless

section Possibly

variable {Draw Value Other : Type}

/-- Some finite choice of draws takes `store` to a result in `post`, whatever
the source yields afterwards. -/
def Possibly (program : Program Draw Value) (store : Store)
    (post : Value → Store → Prop) : Prop :=
  ∃ (chosen : List Draw) (value : Value) (after : Store),
    (∀ rest, program ⟨store, chosen ++ₛ rest⟩ = .ok value ⟨after, rest⟩) ∧ post value after

variable {store : Store} {post : Value → Store → Prop}

theorem possibly_pure {value : Value} (holds : post value store) :
    Possibly (pure value : Program Draw Value) store post :=
  ⟨[], value, store, fun _ => rfl, holds⟩

theorem possibly_bind {program : Program Draw Value} {next : Value → Program Draw Other}
    {goal : Other → Store → Prop}
    (holds : Possibly program store fun value middle => Possibly (next value) middle goal) :
    Possibly (program >>= next) store goal := by
  obtain ⟨firstDraws, value, middle, first, laterDraws, result, after, second, reached⟩ := holds
  refine ⟨firstDraws ++ laterDraws, result, after, ?_, reached⟩
  intro rest
  rw [Stream'.append_append_stream]
  change EStateM.bind program next _ = _
  rw [EStateM.bind, first]
  exact second rest

theorem Possibly.mono {program : Program Draw Value} {goal : Value → Store → Prop}
    (holds : Possibly program store post)
    (weaker : ∀ value after, post value after → goal value after) :
    Possibly program store goal := by
  obtain ⟨chosen, value, after, run, reached⟩ := holds
  exact ⟨chosen, value, after, run, weaker value after reached⟩

theorem possibly_draw (value : Draw) {goal : Draw → Store → Prop} (holds : goal value store) :
    Possibly draw store goal :=
  ⟨[value], value, store, fun _ => rfl, holds⟩

theorem possibly_load {address : Nat} {goal : UInt8 → Store → Prop}
    (holds : goal (store.memory address) (store.touch [address])) :
    Possibly (load address : Program Draw UInt8) store goal :=
  ⟨[], _, _, fun _ => rfl, holds⟩

theorem possibly_save {address : Nat} {byte : UInt8} {goal : Unit → Store → Prop}
    (holds : goal () (store.put address byte)) :
    Possibly (save address byte : Program Draw Unit) store goal :=
  ⟨[], _, _, fun _ => rfl, holds⟩

theorem possibly_load_word {width address : Nat} {goal : BitVec (8 * width) → Store → Prop}
    (holds : goal (readWord width store.memory address)
      (store.touch (List.range' address width))) :
    Possibly (loadWord width address : Program Draw _) store goal :=
  ⟨[], _, _, fun _ => rfl, holds⟩

theorem possibly_save_word {width address : Nat} {word : BitVec (8 * width)}
    {goal : Unit → Store → Prop} (holds : goal () (store.putWord width address word)) :
    Possibly (saveWord width address word : Program Draw Unit) store goal :=
  ⟨[], _, _, fun _ => rfl, holds⟩

theorem possibly_remainder {dividend divisor : Nat} {goal : Nat → Store → Prop}
    (positive : 0 < divisor) (holds : goal (dividend % divisor) store) :
    Possibly (remainder dividend divisor : Program Draw Nat) store goal := by
  rw [remainder, if_neg (Nat.pos_iff_ne_zero.mp positive)]
  exact possibly_pure holds

theorem possibly_lookup {table : List Value} {index : Nat} {entry : Value}
    (found : table[index]? = some entry) (holds : post entry store) :
    Possibly (lookup table index : Program Draw Value) store post := by
  rw [lookup_eq found]
  exact possibly_pure holds

theorem possibly_if {condition : Prop} [Decidable condition] {left right : Program Draw Value}
    (yes : condition → Possibly left store post) (no : ¬condition → Possibly right store post) :
    Possibly (if condition then left else right) store post := by
  split_ifs with holds
  · exact yes holds
  · exact no holds

theorem possibly_whenever {condition : Prop} [Decidable condition] {program : Program Draw Unit}
    {goal : Unit → Store → Prop} (yes : condition → Possibly program store goal)
    (no : ¬condition → goal () store) : Possibly (whenever condition program) store goal :=
  possibly_if yes fun absent => possibly_pure (no absent)

theorem possibly_for_range {body : Nat → Program Draw Unit} {start count : Nat}
    (invariant : Nat → Store → Prop)
    (step : ∀ index before, start ≤ index → index < start + count → invariant index before →
      Possibly (body index) before fun _ after => invariant (index + 1) after)
    (begun : invariant start store) :
    Possibly (forRange body start count) store
      fun _ after => invariant (start + count) after := by
  induction count generalizing start store with
  | zero => exact possibly_pure begun
  | succ count induction =>
      apply possibly_bind
      apply (step start store (Nat.le_refl _) (by omega) begun).mono
      intro _ middle holds
      rw [Nat.add_comm count 1, ← Nat.add_assoc]
      exact induction (fun index before lower upper => step index before (by omega) (by omega)) holds

theorem Possibly.ensured [Inhabited Draw] {program : Program Draw Value}
    {known : Value → Store → Prop} {crash : Fault → Store → Prop}
    (holds : Possibly program store post) (facts : Ensures program store known crash) :
    Possibly program store fun value after => post value after ∧ known value after := by
  obtain ⟨chosen, value, after, run, reached⟩ := holds
  exact ⟨chosen, value, after, run, reached, facts.returned (run (Stream'.const default))⟩

theorem Possibly.run [Inhabited Draw] {program : Program Draw Value}
    (holds : Possibly program store post) :
    ∃ draws value after, program ⟨store, draws⟩ = .ok value after ∧ post value after.store := by
  obtain ⟨chosen, value, after, run, reached⟩ := holds
  exact ⟨_, value, _, run (Stream'.const default), reached⟩

/-- For some stream of draws the program returns and leaves the memory. -/
def Yields (program : Program Draw Value) (store : Store) (memory : Memory) : Prop :=
  ∃ draws value after, program ⟨store, draws⟩ = .ok value after ∧ after.store.memory = memory

def Repeated (turn : Memory → Memory → Prop) : Nat → Memory → Memory → Prop
  | 0, before, after => after = before
  | count + 1, before, after => ∃ middle, turn before middle ∧ Repeated turn count middle after

theorem repeated_ensures {body : Program Draw Unit} {turn : Memory → Memory → Prop}
    {crash : Fault → Store → Prop} (start count : Nat)
    (each : ∀ store, Ensures body store (fun _ after => turn store.memory after.memory) crash)
    (store : Store) : Ensures (forRange (fun _ => body) start count) store
      (fun _ after => Repeated turn count store.memory after.memory) crash := by
  induction count generalizing start store with
  | zero => exact ensures_pure rfl
  | succ count induction =>
      apply ensures_bind
      apply (each store).mono
      · intro _ middle turned
        apply (induction (start + 1) middle).mono
        · exact fun _ after more => ⟨middle.memory, turned, more⟩
        · exact fun _ _ crashed => crashed
      · exact fun _ _ crashed => crashed

theorem repeated_possibly {body : Program Draw Unit} {turn : Memory → Memory → Prop}
    (start : Nat) {count : Nat}
    (each : ∀ store memory, turn store.memory memory →
      Possibly body store fun _ after => after.memory = memory)
    {memory : Memory} (repeated : Repeated turn count store.memory memory) :
    Possibly (forRange (fun _ => body) start count) store
      fun _ after => after.memory = memory := by
  induction count generalizing start store with
  | zero => exact possibly_pure repeated.symm
  | succ count induction =>
      obtain ⟨middle, turned, more⟩ := repeated
      apply possibly_bind
      apply (each store middle turned).mono
      intro _ between same
      rw [← same] at more
      exact induction (start + 1) more

/-- A program yields exactly the memories of a property that every run ensures and
that some choice of draws reaches. -/
theorem yields_iff [Inhabited Draw] {program : Program Draw Value} {reached : Memory → Prop}
    {crash : Fault → Store → Prop}
    (ensured : Ensures program store (fun _ after => reached after.memory) crash)
    (possible : ∀ memory, reached memory →
      Possibly program store fun _ after => after.memory = memory) (memory : Memory) :
    Yields program store memory ↔ reached memory := by
  constructor
  · rintro ⟨draws, value, after, run, rfl⟩
    exact ensured.returned run
  · intro holds
    exact (possible memory holds).run

end Possibly

def patched (first count : Nat) (fresh old : Memory) : Memory := fun position =>
  if first ≤ position ∧ position < first + count then fresh position else old position

theorem patched_inside {first count position : Nat} (fresh old : Memory)
    (inside : first ≤ position ∧ position < first + count) :
    patched first count fresh old position = fresh position := if_pos inside

theorem patched_outside {first count position : Nat} (fresh old : Memory)
    (outside : ¬(first ≤ position ∧ position < first + count)) :
    patched first count fresh old position = old position := if_neg outside

theorem patched_none (first : Nat) (fresh old : Memory) : patched first 0 fresh old = old := by
  funext position
  exact patched_outside fresh old (by omega)

theorem patched_append (first count more : Nat) (fresh old : Memory) :
    patched (first + count) more fresh (patched first count fresh old) =
      patched first (count + more) fresh old := by
  funext position
  unfold patched
  split_ifs <;> first | rfl | omega

theorem patched_put (first count : Nat) (fresh old : Memory) :
    Function.update (patched first count fresh old) (first + count) (fresh (first + count)) =
      patched first (count + 1) fresh old := by
  rw [← patched_append first count 1]
  funext position
  by_cases here : position = first + count
  · subst here
    rw [Function.update_self, patched_inside _ _ (by omega)]
  · rw [Function.update_of_ne here, @patched_outside (first + count) 1 position _ _ (by omega)]

theorem patched_eq {first count : Nat} {fresh old : Memory}
    (same : ∀ position, position ∉ Set.Ico first (first + count) → fresh position = old position) :
    patched first count fresh old = fresh := by
  funext position
  by_cases inside : first ≤ position ∧ position < first + count
  · exact patched_inside fresh old inside
  · exact (patched_outside fresh old inside).trans (same position inside).symm

section Returns

variable {Draw Value Other : Type}

/-- From `store` and with these draws the program returns, and leaves `post` of
its value, its store and the draws it has not used. -/
def Returns (program : Program Draw Value) (store : Store) (draws : Stream' Draw)
    (post : Value → Store → Stream' Draw → Prop) : Prop :=
  ∃ value after rest, program ⟨store, draws⟩ = .ok value ⟨after, rest⟩ ∧ post value after rest

variable {store : Store} {draws : Stream' Draw} {post : Value → Store → Stream' Draw → Prop}

theorem Returns.returned {program : Program Draw Value} (holds : Returns program store draws post)
    {value : Value} {after : Machine Draw} (run : program ⟨store, draws⟩ = .ok value after) :
    post value after.store after.draws := by
  obtain ⟨other, final, rest, same, reached⟩ := holds
  rw [same] at run
  cases run
  exact reached

theorem Returns.mono {program : Program Draw Value} {goal : Value → Store → Stream' Draw → Prop}
    (holds : Returns program store draws post)
    (weaker : ∀ value after rest, post value after rest → goal value after rest) :
    Returns program store draws goal := by
  obtain ⟨value, after, rest, run, reached⟩ := holds
  exact ⟨value, after, rest, run, weaker value after rest reached⟩

theorem Returns.ensured {program : Program Draw Value} {known : Value → Store → Prop}
    {crash : Fault → Store → Prop} (holds : Returns program store draws post)
    (facts : Ensures program store known crash) :
    Returns program store draws fun value after rest => post value after rest ∧ known value after := by
  obtain ⟨value, after, rest, run, reached⟩ := holds
  exact ⟨value, after, rest, run, reached, facts.returned run⟩

theorem Faultless.returns {program : Program Draw Value} (faultless : Faultless program)
    {known : Value → Store → Prop} {crash : Fault → Store → Prop}
    (facts : Ensures program store known crash) :
    Returns program store draws fun value after _ => known value after := by
  have ended := (faultless.ensures facts) draws
  cases run : program ⟨store, draws⟩ with
  | ok value after =>
      rw [run] at ended
      exact ⟨value, after.store, after.draws, run, ended⟩
  | error fault after =>
      rw [run] at ended
      exact ended.elim

theorem returns_pure {value : Value} (holds : post value store draws) :
    Returns (pure value : Program Draw Value) store draws post :=
  ⟨value, store, draws, rfl, holds⟩

theorem returns_bind {program : Program Draw Value} {next : Value → Program Draw Other}
    {goal : Other → Store → Stream' Draw → Prop}
    (holds : Returns program store draws fun value middle rest =>
      Returns (next value) middle rest goal) :
    Returns (program >>= next) store draws goal := by
  obtain ⟨value, middle, rest, first, result, after, left, second, reached⟩ := holds
  exact ⟨result, after, left, (run_bind_ok first).trans second, reached⟩

theorem returns_draw {goal : Draw → Store → Stream' Draw → Prop}
    (holds : goal draws.head store draws.tail) : Returns draw store draws goal :=
  ⟨_, _, _, rfl, holds⟩

theorem returns_load {address : Nat} {goal : UInt8 → Store → Stream' Draw → Prop}
    (holds : goal (store.memory address) (store.touch [address]) draws) :
    Returns (load address) store draws goal :=
  ⟨_, _, _, rfl, holds⟩

theorem returns_save {address : Nat} {byte : UInt8} {goal : Unit → Store → Stream' Draw → Prop}
    (holds : goal () (store.put address byte) draws) :
    Returns (save address byte) store draws goal :=
  ⟨_, _, _, rfl, holds⟩

theorem returns_load_word {width address : Nat}
    {goal : BitVec (8 * width) → Store → Stream' Draw → Prop}
    (holds : goal (readWord width store.memory address)
      (store.touch (List.range' address width)) draws) :
    Returns (loadWord width address) store draws goal :=
  ⟨_, _, _, rfl, holds⟩

theorem returns_save_word {width address : Nat} {word : BitVec (8 * width)}
    {goal : Unit → Store → Stream' Draw → Prop}
    (holds : goal () (store.putWord width address word) draws) :
    Returns (saveWord width address word) store draws goal :=
  ⟨_, _, _, rfl, holds⟩

theorem returns_remainder {dividend divisor : Nat} {goal : Nat → Store → Stream' Draw → Prop}
    (positive : 0 < divisor) (holds : goal (dividend % divisor) store draws) :
    Returns (remainder dividend divisor) store draws goal := by
  rw [remainder, if_neg (Nat.pos_iff_ne_zero.mp positive)]
  exact returns_pure holds

theorem returns_if {condition : Prop} [Decidable condition] {left right : Program Draw Value}
    (yes : condition → Returns left store draws post)
    (no : ¬condition → Returns right store draws post) :
    Returns (if condition then left else right) store draws post := by
  split_ifs with holds
  · exact yes holds
  · exact no holds

theorem returns_whenever {condition : Prop} [Decidable condition] {program : Program Draw Unit}
    {goal : Unit → Store → Stream' Draw → Prop}
    (yes : condition → Returns program store draws goal) (no : ¬condition → goal () store draws) :
    Returns (whenever condition program) store draws goal :=
  returns_if yes fun absent => returns_pure (no absent)

end Returns

section Stops

variable {Draw Value Other : Type}

/-- From `store` and with these draws the program ends in the fault. -/
def Stops (program : Program Draw Value) (store : Store) (draws : Stream' Draw) (fault : Fault) :
    Prop :=
  ∃ after, program ⟨store, draws⟩ = .error fault after

variable {store : Store} {draws : Stream' Draw} {fault : Fault}

theorem Returns.not_stops {program : Program Draw Value}
    {post : Value → Store → Stream' Draw → Prop} (returns : Returns program store draws post) :
    ¬Stops program store draws fault := by
  rintro ⟨_, stopped⟩
  obtain ⟨_, _, _, run, _⟩ := returns
  rw [run] at stopped
  cases stopped

theorem Faultless.returns_some {program : Program Draw Value} (faultless : Faultless program) :
    Returns program store draws fun _ _ _ => True :=
  faultless.returns (faultless store)

theorem stops_first {program : Program Draw Value} {next : Value → Program Draw Other}
    (stops : Stops program store draws fault) : Stops (program >>= next) store draws fault := by
  obtain ⟨after, stopped⟩ := stops
  refine ⟨after, ?_⟩
  change EStateM.bind program next _ = _
  rw [EStateM.bind, stopped]

theorem stops_bind {program : Program Draw Value} {next : Value → Program Draw Other}
    (holds : Returns program store draws fun value middle rest =>
      Stops (next value) middle rest fault) : Stops (program >>= next) store draws fault := by
  obtain ⟨value, middle, rest, first, after, stopped⟩ := holds
  exact ⟨after, (run_bind_ok first).trans stopped⟩

theorem stops_remainder {dividend : Nat} :
    Stops (remainder dividend 0 : Program Draw Nat) store draws .divideByZero := ⟨_, rfl⟩

theorem stops_if {condition : Prop} [Decidable condition] {left right : Program Draw Value}
    (yes : condition → Stops left store draws fault)
    (no : ¬condition → Stops right store draws fault) :
    Stops (if condition then left else right) store draws fault := by
  split_ifs with holds
  · exact yes holds
  · exact no holds

end Stops

-- the rules above are the interface: no later proof runs a program to look through it
attribute [irreducible] Ensures

end ByteMachine
