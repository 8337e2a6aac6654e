import Blueman.RunLogs

/-!
# The loop that copies a log

`my_copy_file_range` maps the log and writes it to the copy. A `write` may take a
part only; the next one is of what is left, but starts at the beginning of the
mapping again. The length that is left is also the one that is unmapped.
-/

namespace Blueman.CopyLoop

open RunLogs RewoundFile

set_option autoImplicit false

/-- What the calls of `write` return for so many bytes that are left. A call that
does not fail takes at least one of them; with nothing to write there is no call. -/
inductive WriteResults : Nat → Type
  | unused : WriteResults 0
  | fails {len : Nat} (left : 0 < len) : WriteResults len
  | takes {len : Nat} (n : Nat) (some : 0 < n) (inside : n ≤ len)
      (rest : WriteResults (len - n)) : WriteResults len

/-- The bytes that are written, and the `len` at `end`. -/
def copyLoop (inMem : List UInt8) : {len : Nat} → WriteResults len → List UInt8 × Nat
  | _, .unused => ([], 0)
  | len, .fails _ => ([], len)
  | len, .takes n _ _ rest =>
      if n < len then
        let (written, left) := copyLoop inMem rest
        (inMem.take n ++ written, left)
      else (inMem.take n, len)

/-- The pages in which so many bytes from the start of a page lie. -/
def pages (pageSize len : Nat) : Nat := (len + pageSize - 1) / pageSize

structure CopyOutcome where
  written : List UInt8
  result : Int
  mapped : Nat
  unmapped : Nat

/-- Neither `mmap` nor `munmap` takes a length of 0. -/
def myCopyFileRange (pageSize : Nat) (source : List UInt8)
    (results : WriteResults source.length) : CopyOutcome :=
  if source.length = 0 then ⟨[], -1, 0, 0⟩
  else
    let (written, len) := copyLoop source results
    ⟨written, if len = 0 then -1 else 0, pages pageSize source.length, pages pageSize len⟩

def WriteResults.counts : {len : Nat} → WriteResults len → List Nat
  | _, .unused => []
  | _, .fails _ => []
  | _, .takes n _ _ rest => n :: rest.counts

def WriteResults.Fails : {len : Nat} → WriteResults len → Prop
  | _, .unused => False
  | _, .fails _ => True
  | _, .takes _ _ _ rest => rest.Fails

/-- The source is copied as it is, or the failure is reported. -/
structure CopiesFaithfully (pageSize : Nat) (source : List UInt8)
    (results : WriteResults source.length) : Prop where
  content : (myCopyFileRange pageSize source results).result = 0 →
    (myCopyFileRange pageSize source results).written = source
  failure : results.Fails → (myCopyFileRange pageSize source results).result = -1
  empty : source = [] → (myCopyFileRange pageSize source results).result = 0
  unmapped : (myCopyFileRange pageSize source results).unmapped =
    (myCopyFileRange pageSize source results).mapped

/-- Each write finds at the start of the source what is at its own place. -/
def Repeats (source : List UInt8) (counts : List Nat) : Prop :=
  ∀ (front : List Nat) (n : Nat) (back : List Nat), counts = front ++ n :: back →
    (source.drop front.sum).take n = source.take n

theorem counts_nil {len : Nat} (results : WriteResults len) (none : len = 0) :
    results.counts = [] := by
  cases results with
  | unused => rfl
  | fails left => omega
  | takes n some inside rest => omega

theorem copy_loop_written (inMem : List UInt8) {len : Nat} (results : WriteResults len) :
    (copyLoop inMem results).1 = results.counts.flatMap inMem.take := by
  induction results with
  | unused => rfl
  | fails left => rfl
  | @takes len n some inside rest induction =>
      rw [copyLoop, WriteResults.counts, List.flatMap_cons]
      by_cases short : n < len
      · rw [if_pos short, ← induction]
      · rw [if_neg short, counts_nil rest (Nat.sub_eq_zero_of_le (Nat.le_of_not_lt short)),
          List.flatMap_nil, List.append_nil]

theorem counts_sum {len : Nat} (results : WriteResults len) (succeeds : ¬results.Fails) :
    results.counts.sum = len := by
  induction results with
  | unused => rfl
  | fails left => exact absurd trivial succeeds
  | takes n some inside rest induction =>
      rw [WriteResults.counts, List.sum_cons, induction succeeds]
      exact Nat.add_sub_of_le inside

theorem copy_loop_left (inMem : List UInt8) {len : Nat} (results : WriteResults len)
    (positive : 0 < len) : 0 < (copyLoop inMem results).2 := by
  induction results with
  | unused => exact positive
  | fails left => exact left
  | @takes len n some inside rest induction =>
      rw [copyLoop]
      by_cases short : n < len
      · rw [if_pos short]
        exact induction (Nat.sub_pos_of_lt short)
      · rw [if_neg short]
        exact positive

theorem copy_loop_last (inMem : List UInt8) {len : Nat} (results : WriteResults len)
    (succeeds : ¬results.Fails) :
    (copyLoop inMem results).2 = results.counts.getLastD 0 := by
  induction results with
  | unused => rfl
  | fails left => exact absurd trivial succeeds
  | @takes len n some inside rest induction =>
      rw [copyLoop, WriteResults.counts]
      by_cases short : n < len
      · have others : rest.counts ≠ [] := by
          intro none
          have total := counts_sum rest succeeds
          rw [none, List.sum_nil] at total
          omega
        rw [if_pos short, List.getLastD_eq_getLast?, List.getLast?_cons_of_ne_nil others,
          ← List.getLastD_eq_getLast?]
        exact induction succeeds
      · rw [if_neg short, counts_nil rest (Nat.sub_eq_zero_of_le (Nat.le_of_not_lt short))]
        exact Nat.le_antisymm (Nat.le_of_not_lt short) inside

/-- Pieces from the start of the source make up its rest exactly if each is found
there in its turn. -/
theorem pieces_eq_iff {source : List UInt8} {position : Nat} (counts : List Nat)
    (total : position + counts.sum = source.length) :
    counts.flatMap source.take = source.drop position ↔
      ∀ (front : List Nat) (n : Nat) (back : List Nat), counts = front ++ n :: back →
        (source.drop (position + front.sum)).take n = source.take n := by
  induction counts generalizing position with
  | nil =>
      have ends : source.drop position = [] := List.drop_eq_nil_of_le (Nat.le_of_eq total.symm)
      rw [ends]
      exact ⟨fun _ front n back split => by simp at split, fun _ => rfl⟩
  | cons n rest induction =>
      rw [List.sum_cons, ← Nat.add_assoc] at total
      have split : source.drop position =
          (source.drop position).take n ++ source.drop (position + n) := by
        rw [← List.drop_drop, List.take_append_drop]
      have sizes : (source.take n).length = ((source.drop position).take n).length := by
        rw [List.length_take, List.length_take, List.length_drop]
        omega
      rw [List.flatMap_cons, split]
      constructor
      · intro same front count back place
        obtain ⟨first, others⟩ := List.append_inj same sizes
        cases front with
        | nil =>
            cases place
            exact first.symm
        | cons head front =>
            obtain ⟨rfl, behind⟩ := List.cons.inj place
            have later := (induction total).mp others front count back behind
            rwa [Nat.add_assoc] at later
      · intro found
        have first := found [] n rest rfl
        have others := (induction total).mpr fun front count back place => by
          have later := found (n :: front) count back (congrArg (n :: ·) place)
          rwa [List.sum_cons, ← Nat.add_assoc] at later
        rw [others]
        exact congrArg (· ++ source.drop (position + n)) first.symm

section

variable {pageSize : Nat} {source : List UInt8} {results : WriteResults source.length}

theorem copy_mapped (some : source ≠ []) :
    myCopyFileRange pageSize source results =
      ⟨results.counts.flatMap source.take, 0, pages pageSize source.length,
        pages pageSize (copyLoop source results).2⟩ := by
  have positive : 0 < source.length := List.length_pos_iff.mpr some
  have left := copy_loop_left source results positive
  rw [myCopyFileRange, if_neg positive.ne', ← copy_loop_written]
  simp only [if_neg left.ne']

theorem written_source_iff (succeeds : ¬results.Fails) :
    results.counts.flatMap source.take = source ↔ Repeats source results.counts := by
  have total := counts_sum results succeeds
  rw [← Nat.zero_add results.counts.sum] at total
  have same := pieces_eq_iff results.counts total
  simpa only [Repeats, List.drop_zero, Nat.zero_add] using same

/-- The copy is faithful exactly if there is something to copy, no write fails,
those after the first one repeat it where the source does, and the last one spans
as many pages as the source. -/
theorem copies_faithfully_iff (pageSize : Nat) (source : List UInt8)
    (results : WriteResults source.length) :
    CopiesFaithfully pageSize source results ↔
      source ≠ [] ∧ ¬results.Fails ∧ Repeats source results.counts ∧
        pages pageSize (results.counts.getLastD 0) = pages pageSize source.length := by
  by_cases empty : source = []
  · constructor
    · intro faithful
      have returned := faithful.empty empty
      have refused : source.length = 0 := List.length_eq_zero_iff.mpr empty
      rw [myCopyFileRange, if_pos refused] at returned
      cases returned
    · exact fun condition => absurd empty condition.1
  have mapped := @copy_mapped pageSize source results empty
  constructor
  · intro faithful
    have succeeds : ¬results.Fails := by
      intro fails
      have returned := faithful.failure fails
      rw [mapped] at returned
      cases returned
    have content := faithful.content
    have unmapped := faithful.unmapped
    rw [mapped] at content unmapped
    rw [← copy_loop_last source results succeeds]
    exact ⟨empty, succeeds, (written_source_iff succeeds).mp (content rfl), unmapped⟩
  · rintro ⟨-, succeeds, repeats, spans⟩
    rw [← copy_loop_last source results succeeds] at spans
    constructor
    · intro returned
      rw [mapped]
      exact (written_source_iff succeeds).mpr repeats
    · exact fun fails => absurd fails succeeds
    · exact fun none => absurd none empty
    · rw [mapped]
      exact spans

/-- A log of two bytes, of which the first write takes one: the second writes the
same byte again. -/
theorem second_write_repeats :
    ¬CopiesFaithfully 4096 [1, 2]
      (.takes 1 Nat.one_pos (Nat.le_succ 1) (.takes 1 Nat.one_pos (Nat.le_refl 1) .unused)) := by
  intro faithful
  exact absurd (faithful.content rfl) (by decide)

theorem copy_of_one_write (destination : List UInt8) (succeeds : ¬results.Fails)
    (once : results.counts.length ≤ 1) :
    RunLogs.myCopyFileRange source destination =
      if (myCopyFileRange pageSize source results).result = 0 then
        some (overlay (myCopyFileRange pageSize source results).written destination)
      else none := by
  by_cases empty : source = []
  · subst empty
    rfl
  have whole : results.counts.flatMap source.take = source := by
    apply (written_source_iff succeeds).mpr
    intro front n back split
    rw [split, List.length_append, List.length_cons] at once
    have first : front = [] := List.eq_nil_of_length_eq_zero (by omega)
    rw [first, List.sum_nil, List.drop_zero]
  rw [RunLogs.myCopyFileRange, if_neg empty, copy_mapped empty, if_pos rfl, whole]

end

end Blueman.CopyLoop
