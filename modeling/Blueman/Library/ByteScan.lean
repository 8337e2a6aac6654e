import Blueman.Library.LittleEndian
import Mathlib.Data.Nat.Count

/-!
# Scanning a byte map word by word

Loops over a map of bytes that load a whole word at a time. `scanWords` counts
bytes this way, skipping words that cannot contain one; it agrees with the count
byte by byte. `fold_range_invariant` is the rule for the loops themselves.
-/

namespace ByteScan

open LittleEndian

set_option autoImplicit false

/-- An invariant of every step of a loop over `0, 1, …` holds after the loop. -/
theorem fold_range_invariant {State : Type} (step : State → Nat → State)
    (invariant : Nat → State → Prop) (start : State) (count : Nat) (base : invariant 0 start)
    (preserved : ∀ index, index < count → ∀ state, invariant index state →
      invariant (index + 1) (step state index)) :
    invariant count ((List.range count).foldl step start) := by
  induction count with
  | zero => exact base
  | succ count induction =>
      rw [List.range_succ, List.foldl_append]
      exact preserved count (Nat.lt_succ_self count) _
        (induction fun index below => preserved index (Nat.lt_succ_of_lt below))

theorem fold_count (hit : Nat → Bool) (total count : Nat) :
    (List.range count).foldl (fun total index => if hit index then total + 1 else total) total =
      total + Nat.count (fun index => hit index = true) count := by
  refine fold_range_invariant _ (fun done sum =>
    sum = total + Nat.count (fun index => hit index = true) done) total count rfl ?_
  rintro index - sum rfl
  rw [Nat.count_succ]
  split_ifs <;> omega

theorem count_congr {left right : Nat → Prop} [DecidablePred left] [DecidablePred right]
    {length : Nat} (same : ∀ position, position < length → (left position ↔ right position)) :
    Nat.count left length = Nat.count right length := by
  rw [Nat.count_eq_card_filter_range, Nat.count_eq_card_filter_range]
  refine congrArg Finset.card (Finset.filter_congr fun position member => ?_)
  exact same position (Finset.mem_range.mp member)

/-- Counts bytes word by word, where `idle` words are passed over. -/
def scanWords (width : Nat) (idle : BitVec (8 * width) → Bool)
    (hit : BitVec (8 * width) → Nat → Bool) (map : Memory) (words : Nat) : Nat :=
  (List.range words).foldl (fun total word =>
    let value := readWord width map (width * word)
    if idle value then total
    else (List.range width).foldl
      (fun total index => if hit value index then total + 1 else total) total) 0

/-- If the test of a byte in a word looks at that byte alone and no idle word
contains a hit, the scan counts the bytes of the map. -/
theorem scan_words_count {width : Nat} {idle : BitVec (8 * width) → Bool}
    {hit : BitVec (8 * width) → Nat → Bool} (holds : UInt8 → Prop) [DecidablePred holds]
    (hits : ∀ value index, index < width → (hit value index = true ↔ holds (byteOf value index)))
    (idles : ∀ value, idle value = true → ∀ index, index < width → ¬holds (byteOf value index))
    (map : Memory) (words : Nat) :
    scanWords width idle hit map words =
      Nat.count (fun position => holds (map position)) (width * words) := by
  refine fold_range_invariant _ (fun done total =>
    total = Nat.count (fun position => holds (map position)) (width * done)) 0 words rfl ?_
  rintro word - total rfl
  have inWord (index : Nat) (inside : index < width) :
      byteOf (readWord width map (width * word)) index = map (width * word + index) :=
    byte_of_read_word width map _ index inside
  rw [Nat.mul_succ, Nat.count_add]
  dsimp only
  split_ifs with skipped
  · have none : Nat.count (fun index => holds (map (width * word + index))) width = 0 := by
      rw [Nat.count_iff_forall_not]
      intro index inside found
      exact idles _ skipped index inside (by rwa [inWord index inside])
    rw [none, Nat.add_zero]
  · rw [fold_count]
    congr 1
    apply count_congr
    intro index inside
    rw [hits _ index inside, inWord index inside]

theorem count_or_disjoint (left right : Nat → Prop) [DecidablePred left] [DecidablePred right]
    (apart : ∀ position, left position → ¬right position) (length : Nat) :
    Nat.count (fun position => left position ∨ right position) length =
      Nat.count left length + Nat.count right length := by
  induction length with
  | zero => rfl
  | succ length induction =>
      rw [Nat.count_succ, Nat.count_succ, Nat.count_succ, induction]
      have exclusive := apart length
      split_ifs <;> first | omega | tauto

theorem count_pos_iff (holds : Nat → Prop) [DecidablePred holds] (length : Nat) :
    0 < Nat.count holds length ↔ ∃ position, position < length ∧ holds position := by
  rw [Nat.count_eq_card_filter_range, Finset.card_pos]
  simp only [Finset.Nonempty, Finset.mem_filter, Finset.mem_range]

theorem count_lt_of_lost {left right : Nat → Prop} [DecidablePred left] [DecidablePred right]
    {size : Nat} (implies : ∀ position, left position → right position)
    (lost : ∃ position, position < size ∧ right position ∧ ¬left position) :
    Nat.count left size < Nat.count right size := by
  obtain ⟨position, inside, was, gone⟩ := lost
  rw [Nat.count_eq_card_filter_range, Nat.count_eq_card_filter_range]
  apply Finset.card_lt_card
  apply Finset.ssubset_iff_subset_ne.mpr
  constructor
  · intro other member
    rw [Finset.mem_filter] at member ⊢
    exact ⟨member.1, implies other member.2⟩
  · intro same
    have member : position ∈ (Finset.range size).filter right :=
      Finset.mem_filter.mpr ⟨Finset.mem_range.mpr inside, was⟩
    rw [← same] at member
    exact gone (Finset.mem_filter.mp member).2

theorem exists_lt_word_iff (width words : Nat) (holds : Nat → Prop) :
    (∃ position, position < width * (words + 1) ∧ holds position) ↔
      (∃ position, position < width * words ∧ holds position) ∨
        ∃ index, index < width ∧ holds (width * words + index) := by
  rw [Nat.mul_succ]
  constructor
  · rintro ⟨position, below, found⟩
    rcases Nat.lt_or_ge position (width * words) with earlier | later
    · exact .inl ⟨position, earlier, found⟩
    · refine .inr ⟨position - width * words, by omega, ?_⟩
      rwa [Nat.add_sub_cancel' later]
  · rintro (⟨position, earlier, found⟩ | ⟨index, inside, found⟩)
    · exact ⟨position, by omega, found⟩
    · exact ⟨width * words + index, by omega, found⟩

end ByteScan
