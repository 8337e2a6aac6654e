import Mathlib.Data.List.Basic
import Mathlib.Logic.Function.Basic
import Mathlib.Data.Nat.Count
import Mathlib.Tactic.SplitIfs

/-!
# Step functions from samples

A sparse table holds values at some times. Its step function has at every time
the value held last. A list of samples in order of time gives the same function
by its last sample so far.
-/

namespace Blueman.StepFunction

set_option autoImplicit false

universe u v

variable {Value : Type u}

/-- The value the table has at the last time up to this one, if it has any. -/
def held (initial : Value) (table : Nat → Option Value) : Nat → Value
  | 0 => (table 0).getD initial
  | time + 1 => (table (time + 1)).getD (held initial table time)

theorem held_update {initial : Value} {table : Nat → Option Value} {time : Nat} (value : Value)
    (latest : ∀ later, time < later → table later = none) (now : Nat) :
    held initial (Function.update table time (some value)) now =
      if time ≤ now then value else held initial table now := by
  induction now with
  | zero =>
      by_cases start : time = 0
      · subst start
        rw [held, Function.update_self, if_pos (Nat.le_refl 0)]
        rfl
      · rw [held, Function.update_of_ne (Ne.symm start), if_neg (by omega)]
        rfl
  | succ now induction =>
      rw [held, induction]
      by_cases reached : time = now + 1
      · subst reached
        rw [Function.update_self, if_pos (Nat.le_refl _)]
        rfl
      · rw [Function.update_of_ne (Ne.symm reached)]
        by_cases earlier : time ≤ now
        · rw [if_pos earlier, if_pos (by omega), latest (now + 1) (by omega)]
          rfl
        · rw [if_neg earlier, if_neg (by omega)]
          rfl

theorem held_fill (initial : Value) (table : Nat → Option Value) (time now : Nat) :
    held initial (Function.update table time (some (held initial table time))) now =
      held initial table now := by
  induction now with
  | zero =>
      by_cases start : time = 0
      · subst start
        rw [held, Function.update_self]
        rfl
      · rw [held, Function.update_of_ne (Ne.symm start)]
        rfl
  | succ now induction =>
      rw [held, induction]
      by_cases reached : time = now + 1
      · subst reached
        rw [Function.update_self]
        rfl
      · rw [Function.update_of_ne (Ne.symm reached)]
        rfl

section

variable {Sample : Type v} (time : Sample → Nat)

def sampledAt (samples : List Sample) (now : Nat) : Option Sample :=
  (samples.filter fun sample => time sample ≤ now).getLast?

theorem sampled_at_cons (sample : Sample) (rest : List Sample) (now : Nat) :
    sampledAt time (sample :: rest) now =
      if time sample ≤ now then some ((sampledAt time rest now).getD sample)
      else sampledAt time rest now := by
  unfold sampledAt
  rw [List.filter_cons]
  by_cases early : time sample ≤ now
  · rw [if_pos early, if_pos (decide_eq_true early), List.getLast?_cons]
  · rw [if_neg early, if_neg (mt of_decide_eq_true early)]

theorem sampled_at_snoc (samples : List Sample) (sample : Sample) (now : Nat) :
    sampledAt time (samples ++ [sample]) now =
      if time sample ≤ now then some sample else sampledAt time samples now := by
  unfold sampledAt
  rw [List.filter_append, List.filter_singleton]
  by_cases early : time sample ≤ now
  · rw [if_pos early, decide_eq_true early, cond_true, List.getLast?_concat]
  · rw [if_neg early, decide_eq_false early, cond_false, List.append_nil]

theorem sampled_at_none {samples : List Sample} {now : Nat}
    (later : ∀ sample ∈ samples, now < time sample) : sampledAt time samples now = none := by
  rw [sampledAt, List.getLast?_eq_none_iff, List.filter_eq_nil_iff]
  intro sample member
  simpa using later sample member

/-- Samples numbered in order of time, each with a total so far: at every time the
total is that of as many samples as are not later. -/
theorem sampled_at_range {Total : Type u} {value : Sample → Total} {total : Nat → Total}
    {sample : Nat → Sample} {count : Nat} (now : Nat)
    (totals : ∀ index, index < count → value (sample index) = total (index + 1))
    (ordered : ∀ left right, left < right → right < count →
      time (sample left) ≤ time (sample right)) :
    ((sampledAt time ((List.range count).map sample) now).map value).getD (total 0) =
      total (Nat.count (fun index => time (sample index) ≤ now) count) := by
  induction count with
  | zero => rfl
  | succ count induction =>
      have before := induction (fun index inside => totals index (Nat.lt_succ_of_lt inside))
        (fun left right less inside => ordered left right less (Nat.lt_succ_of_lt inside))
      rw [List.range_succ, List.map_append, List.map_singleton, sampled_at_snoc, Nat.count_succ]
      by_cases early : time (sample count) ≤ now
      · have all : Nat.count (fun index => time (sample index) ≤ now) count = count := by
          rw [Nat.count_iff_forall]
          intro index inside
          exact Nat.le_trans (ordered index count inside (Nat.lt_succ_self count)) early
        rw [if_pos early, if_pos early, all]
        exact totals count (Nat.lt_succ_self count)
      · rw [if_neg early, if_neg early, before, Nat.add_zero]

theorem sampled_at_mono {value : Sample → Nat} {samples : List Sample}
    (grows : samples.Pairwise fun left right => value left ≤ value right) {now later : Nat}
    (order : now ≤ later) :
    ((sampledAt time samples now).map value).getD 0 ≤
      ((sampledAt time samples later).map value).getD 0 := by
  cases first : sampledAt time samples now with
  | none => exact Nat.zero_le _
  | some sample =>
      have early := List.mem_of_getLast? first
      rw [List.mem_filter, decide_eq_true_eq] at early
      have member : sample ∈ samples.filter fun sample => time sample ≤ later :=
        List.mem_filter.mpr ⟨early.1, decide_eq_true (Nat.le_trans early.2 order)⟩
      have ordered := grows.filter fun sample => decide (time sample ≤ later)
      cases last : sampledAt time samples later with
      | none =>
          rw [sampledAt, List.getLast?_eq_none_iff] at last
          rw [last] at member
          cases member
      | some final =>
          obtain ⟨front, split⟩ := List.getLast?_eq_some_iff.mp last
          rw [split] at member ordered
          rcases List.mem_append.mp member with before | same
          · exact (List.pairwise_append.mp ordered).2.2 sample before final (List.mem_singleton_self _)
          · cases List.mem_singleton.mp same
            exact Nat.le_refl _

end

end Blueman.StepFunction
