import Blueman.Library.StepFunction
import Mathlib.Data.List.Range

/-!
# The coverage over time

`gen_csv.py` puts the entries of a coverage log into a table of seconds: a later
entry of a second replaces an earlier one, entries past the end are left out, and
seconds without an entry keep the value before. Times and coverages are what the
logger writes, unsigned; a key that an entry lacks counts as 0.
-/

namespace Blueman.CoverageTable

open StepFunction

set_option autoImplicit false

structure LogEntry where
  time : Option Nat
  coverage : Option Nat

/-- `entry.get('time', 0)`, in microseconds. -/
def LogEntry.timeUs (entry : LogEntry) : Nat := entry.time.getD 0

def LogEntry.timeSec (entry : LogEntry) : Nat := entry.timeUs / 1000000

/-- `entry.get('coverage', 0)` -/
def LogEntry.covered (entry : LogEntry) : Nat := entry.coverage.getD 0

abbrev Trace := Nat → Option Nat

/-- The loop over the entries, which ends with the first one past the end. -/
def traceEntries (maxTime : Nat) : List LogEntry → Trace → Trace
  | [], trace => trace
  | entry :: rest, trace =>
      if entry.timeSec > maxTime then trace
      else traceEntries maxTime rest (Function.update trace entry.timeSec (some entry.covered))

/-- So many turns of the loop of `rebuild` from second `t` on. -/
def rebuildFrom : Nat → Nat → Nat → Trace → Trace
  | 0, _, _, trace => trace
  | count + 1, t, latest, trace =>
      match trace t with
      | some value => rebuildFrom count (t + 1) value trace
      | none => rebuildFrom count (t + 1) latest (Function.update trace t (some latest))

def rebuild (trace : Trace) (maxTime : Nat) : Trace := rebuildFrom (maxTime + 1) 0 0 trace

structure Table where
  header : String × String
  rows : List (Nat × Nat)

/-- The table, unless a key is missing from the dictionary. -/
def jsonToCsv (data : List LogEntry) (maxTime : Nat) : Option Table :=
  let trace := rebuild (traceEntries maxTime data (Function.update (fun _ => none) 0 (some 0))) maxTime
  ((List.range (maxTime + 1)).mapM fun t => (trace t).map fun covered => (t, covered)).map
    fun rows => ⟨("time_sec", "coverage"), rows⟩

/-- The coverage of the last entry of the seconds up to `t`, or 0. -/
def coverageAt (data : List LogEntry) (t : Nat) : Nat :=
  ((sampledAt LogEntry.timeSec data t).map LogEntry.covered).getD 0

theorem rebuild_from_below (count t latest : Nat) (trace : Trace) {second : Nat}
    (below : second < t) : rebuildFrom count t latest trace second = trace second := by
  induction count generalizing t latest trace with
  | zero => rfl
  | succ count induction =>
      have next : second < t + 1 := Nat.lt_succ_of_lt below
      cases here : trace t with
      | some value =>
          rw [rebuildFrom, here]
          exact induction (t + 1) value trace next
      | none =>
          rw [rebuildFrom, here]
          apply (induction (t + 1) latest _ next).trans
          exact Function.update_of_ne (Nat.ne_of_lt below) _ _

/-- The turns give every second what the table holds there, if `latest` is what it
holds before them. -/
theorem rebuild_from_held (count t latest : Nat) (trace : Trace)
    (before : held 0 trace t = (trace t).getD latest) {second : Nat} (lower : t ≤ second)
    (upper : second < t + count) :
    rebuildFrom count t latest trace second = some (held 0 trace second) := by
  induction count generalizing t latest trace with
  | zero => omega
  | succ count induction =>
      cases here : trace t with
      | some value =>
          rw [here, Option.getD_some] at before
          rw [rebuildFrom, here]
          by_cases now : second = t
          · subst now
            apply (rebuild_from_below _ _ _ _ (Nat.lt_succ_self second)).trans
            rw [here, before]
          · apply induction (t + 1) value trace _ (by omega) (by omega)
            rw [held, before]
      | none =>
          rw [here, Option.getD_none] at before
          have filled := held_fill 0 trace t
          rw [before] at filled
          rw [rebuildFrom, here, ← filled second]
          by_cases now : second = t
          · subst now
            rw [filled, before]
            apply (rebuild_from_below _ _ _ _ (Nat.lt_succ_self second)).trans
            exact Function.update_self _ _ _
          · apply induction (t + 1) latest _ _ (by omega) (by omega)
            rw [held, filled, before]

/-- After the entries the table holds at every second up to the end the coverage of
the last of them, or what it has held before. -/
theorem trace_entries_held (maxTime : Nat) (data : List LogEntry) (trace : Trace) (last : Nat)
    (ordered : data.Pairwise fun left right => left.timeSec ≤ right.timeSec)
    (later : ∀ entry ∈ data, last ≤ entry.timeSec) (empty : ∀ t, last < t → trace t = none)
    {t : Nat} (inside : t ≤ maxTime) :
    held 0 (traceEntries maxTime data trace) t =
      ((sampledAt LogEntry.timeSec data t).map LogEntry.covered).getD (held 0 trace t) := by
  induction data generalizing trace last with
  | nil => rfl
  | cons entry rest induction =>
      obtain ⟨behind, ordered⟩ := List.pairwise_cons.mp ordered
      have first := later entry List.mem_cons_self
      unfold traceEntries
      by_cases past : entry.timeSec > maxTime
      · rw [if_pos past, sampled_at_none]
        · rfl
        · intro other member
          rcases List.mem_cons.mp member with rfl | inRest
          · omega
          · have order := behind other inRest
            omega
      · rw [if_neg past, induction _ entry.timeSec ordered behind, held_update _, sampled_at_cons]
        · by_cases reached : entry.timeSec ≤ t
          · rw [if_pos reached, if_pos reached]
            cases sampledAt LogEntry.timeSec rest t <;> rfl
          · rw [if_neg reached, if_neg reached]
        · intro later after
          exact empty later (by omega)
        · intro t after
          rw [Function.update_of_ne (by omega)]
          exact empty t (by omega)

theorem map_rows (trace : Trace) (value : Nat → Nat) (seconds : List Nat)
    (filled : ∀ t ∈ seconds, trace t = some (value t)) :
    (seconds.mapM fun t => (trace t).map fun covered => (t, covered)) =
      some (seconds.map fun t => (t, value t)) := by
  induction seconds with
  | nil => rfl
  | cons t rest induction =>
      have later := induction fun other member => filled other (List.mem_cons_of_mem t member)
      rw [List.mapM_cons, filled t List.mem_cons_self, later]
      rfl

theorem table_rows (maxTime : Nat) {data : List LogEntry}
    (ordered : data.Pairwise fun left right => left.timeUs ≤ right.timeUs) :
    jsonToCsv data maxTime = some ⟨("time_sec", "coverage"),
      (List.range (maxTime + 1)).map fun t => (t, coverageAt data t)⟩ := by
  have seconds : data.Pairwise fun left right => left.timeSec ≤ right.timeSec :=
    ordered.imp fun order => Nat.div_le_div_right order
  have start (t : Nat) : held 0 (Function.update (fun _ => none) 0 (some 0) : Trace) t = 0 := by
    rw [held_update 0 fun _ _ => rfl, if_pos (Nat.zero_le t)]
  have filled (t : Nat) (inside : t < maxTime + 1) :
      rebuild (traceEntries maxTime data (Function.update (fun _ => none) 0 (some 0))) maxTime t =
        some (coverageAt data t) := by
    unfold rebuild
    rw [rebuild_from_held _ _ _ _ rfl (Nat.zero_le t) (by omega),
      trace_entries_held maxTime data _ 0 seconds (fun _ _ => Nat.zero_le _) _
        (Nat.le_of_lt_succ inside), start]
    · rfl
    · intro later after
      exact Function.update_of_ne (Nat.ne_of_gt after) _ _
  have rows := map_rows _ (coverageAt data) (List.range (maxTime + 1)) fun t member =>
    filled t (List.mem_range.mp member)
  exact congrArg (Option.map fun rows => (⟨("time_sec", "coverage"), rows⟩ : Table)) rows

/-- The table has a row for every second up to the end, with the coverage of the
last entry so far, and a coverage that never decreases in the log never decreases
in the table. -/
theorem coverage_resampled (maxTime : Nat) (data : List LogEntry)
    (ordered : data.Pairwise fun left right => left.timeUs ≤ right.timeUs) :
    ∃ table, jsonToCsv data maxTime = some table ∧ table.rows.length = maxTime + 1 ∧
      (∀ t, t ≤ maxTime → table.rows[t]? = some (t, coverageAt data t)) ∧
      (data.Pairwise (fun left right => left.covered ≤ right.covered) →
        (table.rows.map Prod.snd).Pairwise (· ≤ ·)) := by
  refine ⟨_, table_rows maxTime ordered, ?_, ?_, ?_⟩
  · rw [List.length_map, List.length_range]
  · intro t inside
    rw [List.getElem?_map, List.getElem?_range (Nat.lt_succ_of_le inside)]
    rfl
  · intro grows
    rw [List.map_map, List.pairwise_map]
    apply List.pairwise_lt_range.imp
    intro now later order
    exact sampled_at_mono _ grows (Nat.le_of_lt order)

def loggedEntries : List LogEntry :=
  [⟨some 100, some 4⟩, ⟨some 900000, some 5⟩, ⟨some 2100000, some 9⟩, ⟨some 5000000, some 11⟩]

theorem logged_entries_resampled :
    ∃ table, jsonToCsv loggedEntries 3 = some table ∧ table.rows.length = 4 ∧
      table.rows[1]? = some (1, 5) ∧ table.rows[3]? = some (3, 9) := by
  obtain ⟨table, converted, count, rows, -⟩ := coverage_resampled 3 loggedEntries (by decide)
  exact ⟨table, converted, count, rows 1 (by decide), rows 3 (by decide)⟩

end Blueman.CoverageTable
