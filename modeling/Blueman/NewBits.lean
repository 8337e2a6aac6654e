import Blueman.Coverage

/-!
# `has_new_bits` on the two maps in memory

The loop as the source writes it, with a pointer into each map and both maps in
one memory. It refines the loop on maps of their own, and what that computes is
said here byte by byte, for a call and for the call after it.
-/

namespace Blueman.NewBits

open LittleEndian Coverage

set_option autoImplicit false

structure Scan where
  memory : Memory
  current : Nat
  virgin : Nat
  ret : Nat

def Scan.turn (scan : Scan) : Scan :=
  let cur : BitVec 64 := readWord 8 scan.memory scan.current
  let vir : BitVec 64 := readWord 8 scan.memory scan.virgin
  let updated :=
    if cur ≠ 0 ∧ cur &&& vir ≠ 0 then
      { scan with
        memory := writeWord 8 scan.memory scan.virgin (vir &&& ~~~cur)
        ret := if scan.ret < 2 then if hasFreshByte cur vir then 2 else 1 else scan.ret }
    else scan
  { updated with current := scan.current + 8, virgin := scan.virgin + 8 }

def scanWords (memory : Memory) (traceBits virginMap words : Nat) : Memory × Nat :=
  let scan := Scan.turn^[words] ⟨memory, traceBits, virginMap, 0⟩
  (scan.memory, scan.ret)

/-- The maps are given by the addresses of their first bytes. -/
def hasNewBitsIn (memory : Memory) (traceBits virginMap : Nat) : Memory × Nat :=
  scanWords memory traceBits virginMap (mapSize / 8)

def mapAt (memory : Memory) (base : Nat) : Memory := fun position => memory (base + position)

/-- What the memory shows of the state of the other loop after `done` words. -/
structure Shows (memory : Memory) (traceBits virginMap : Nat) (scan : Scan)
    (state : Memory × Nat) (done : Nat) : Prop where
  current : scan.current = traceBits + 8 * done
  virgin : scan.virgin = virginMap + 8 * done
  ret : scan.ret = state.2
  inside : ∀ position, position < mapSize → scan.memory (virginMap + position) = state.1 position
  outside : ∀ position, position < virginMap ∨ virginMap + mapSize ≤ position →
    scan.memory position = memory position

section

variable {memory : Memory} {traceBits virginMap : Nat}

theorem turn_shows {scan : Scan} {state : Memory × Nat} {done : Nat}
    (apart : traceBits + mapSize ≤ virginMap ∨ virginMap + mapSize ≤ traceBits)
    (below : done < mapSize / 8) (holds : Shows memory traceBits virginMap scan state done) :
    Shows memory traceBits virginMap scan.turn
      (hasNewBitsWord (mapAt memory traceBits) state done) (done + 1) := by
  have words := map_words.1
  have cur : readWord 8 scan.memory scan.current =
      readWord 8 (mapAt memory traceBits) (8 * done) := by
    rw [holds.current]
    apply read_word_congr
    intro index inWord
    rw [Nat.add_assoc]
    exact holds.outside _ (by omega)
  have vir : readWord 8 scan.memory scan.virgin = readWord 8 state.1 (8 * done) := by
    rw [holds.virgin]
    apply read_word_congr
    intro index inWord
    rw [Nat.add_assoc]
    exact holds.inside _ (by omega)
  have currentNext : scan.current + 8 = traceBits + 8 * (done + 1) := by
    rw [holds.current]
    omega
  have virginNext : scan.virgin + 8 = virginMap + 8 * (done + 1) := by
    rw [holds.virgin]
    omega
  by_cases hit : readWord 8 (mapAt memory traceBits) (8 * done) ≠ 0 ∧
      readWord 8 (mapAt memory traceBits) (8 * done) &&& readWord 8 state.1 (8 * done) ≠ 0
  · simp only [Scan.turn, hasNewBitsWord, cur, vir, if_pos hit, holds.ret]
    refine ⟨currentNext, virginNext, rfl, ?_, ?_⟩
    · intro position inMap
      simp only [writeWord, holds.virgin, holds.inside position inMap]
      by_cases inWord : 8 * done ≤ position ∧ position < 8 * done + 8
      · have same : virginMap + position - (virginMap + 8 * done) = position - 8 * done := by omega
        rw [if_pos (by omega), if_pos inWord, same]
      · rw [if_neg (by omega), if_neg inWord]
    · intro position out
      apply (write_word_outside _ _ _ _ _ _).trans (holds.outside position out)
      rw [holds.virgin]
      omega
  · simp only [Scan.turn, hasNewBitsWord, cur, vir, if_neg hit]
    exact ⟨currentNext, virginNext, holds.ret, holds.inside, holds.outside⟩

theorem turns_show (apart : traceBits + mapSize ≤ virginMap ∨ virginMap + mapSize ≤ traceBits)
    (done : Nat) (within : done ≤ mapSize / 8) :
    Shows memory traceBits virginMap (Scan.turn^[done] ⟨memory, traceBits, virginMap, 0⟩)
      ((List.range done).foldl (hasNewBitsWord (mapAt memory traceBits))
        (mapAt memory virginMap, 0)) done := by
  induction done with
  | zero => exact ⟨rfl, rfl, rfl, fun _ _ => rfl, fun _ _ => rfl⟩
  | succ done induction =>
      rw [Function.iterate_succ_apply', List.range_succ, List.foldl_append, List.foldl_cons,
        List.foldl_nil]
      exact turn_shows apart (Nat.lt_of_succ_le within) (induction (Nat.le_of_succ_le within))

/-- The call and the loop on maps return the same and leave the same virgin map,
and the call changes nothing else. -/
structure Refines (memory : Memory) (virginMap : Nat) (call loop : Memory × Nat) : Prop where
  ret : call.2 = loop.2
  inside : ∀ position, position < mapSize → call.1 (virginMap + position) = loop.1 position
  outside : ∀ position, position < virginMap ∨ virginMap + mapSize ≤ position →
    call.1 position = memory position

theorem scan_words_refines
    (apart : traceBits + mapSize ≤ virginMap ∨ virginMap + mapSize ≤ traceBits) (words : Nat)
    (within : words ≤ mapSize / 8) :
    Refines memory virginMap (scanWords memory traceBits virginMap words)
      ((List.range words).foldl (hasNewBitsWord (mapAt memory traceBits))
        (mapAt memory virginMap, 0)) := by
  have final := @turns_show memory traceBits virginMap apart words within
  exact ⟨final.ret, final.inside, final.outside⟩

theorem has_new_bits_refines
    (apart : traceBits + mapSize ≤ virginMap ∨ virginMap + mapSize ≤ traceBits) :
    Refines memory virginMap (hasNewBitsIn memory traceBits virginMap)
      (hasNewBits (mapAt memory traceBits) (mapAt memory virginMap)) :=
  scan_words_refines apart (mapSize / 8) (Nat.le_refl _)

end

/-- What the return value means. -/
def newBitsMeaning (trace virgin : Memory) : Nat :=
  if ∃ position, position < mapSize ∧ trace position ≠ 0 ∧ virgin position = 0xff then 2
  else if ∃ position, position < mapSize ∧ trace position &&& virgin position ≠ 0 then 1
  else 0

theorem has_new_bits_meaning (trace virgin : Memory) :
    (hasNewBits trace virgin).2 = newBitsMeaning trace virgin := by
  have scanned := has_new_bits_scanned trace virgin
  have bounded := scanned.bounded
  have newBits := scanned.newBits
  have newBytes := scanned.newBytes
  rw [map_words.1] at newBits newBytes
  unfold newBitsMeaning
  split_ifs with fresh overlap
  · exact newBytes.mpr fresh
  · have nonzero := newBits.mpr overlap
    have notTwo := mt newBytes.mp fresh
    omega
  · by_contra nonzero
    exact overlap (newBits.mp nonzero)

theorem cleared_disjoint (trace virgin : UInt8) : trace &&& (virgin &&& ~~~trace) = 0 := by
  rw [UInt8.and_comm virgin, ← UInt8.and_assoc, UInt8.and_not_self, UInt8.zero_and]

theorem meaning_of_cleared {trace virgin : Memory}
    (disjoint : ∀ position, position < mapSize → trace position &&& virgin position = 0) :
    newBitsMeaning trace virgin = 0 := by
  unfold newBitsMeaning
  split_ifs with fresh overlap
  · obtain ⟨position, inside, hit, untouched⟩ := fresh
    have clear := disjoint position inside
    rw [untouched, and_ones] at clear
    exact absurd clear hit
  · obtain ⟨position, inside, both⟩ := overlap
    exact absurd (disjoint position inside) both
  · rfl

section

variable {memory : Memory} {traceBits virginMap : Nat}

theorem has_new_bits_in_meaning
    (apart : traceBits + mapSize ≤ virginMap ∨ virginMap + mapSize ≤ traceBits) :
    (hasNewBitsIn memory traceBits virginMap).2 =
      newBitsMeaning (mapAt memory traceBits) (mapAt memory virginMap) :=
  (has_new_bits_refines apart).ret.trans (has_new_bits_meaning _ _)

theorem has_new_bits_in_virgin
    (apart : traceBits + mapSize ≤ virginMap ∨ virginMap + mapSize ≤ traceBits) (position : Nat)
    (inside : position < mapSize) :
    (hasNewBitsIn memory traceBits virginMap).1 (virginMap + position) =
      memory (virginMap + position) &&& ~~~memory (traceBits + position) :=
  ((has_new_bits_refines apart).inside position inside).trans
    (has_new_bits_virgin _ _ position inside)

theorem has_new_bits_idle
    (apart : traceBits + mapSize ≤ virginMap ∨ virginMap + mapSize ≤ traceBits)
    (disjoint : ∀ position, position < mapSize →
      memory (traceBits + position) &&& memory (virginMap + position) = 0) :
    hasNewBitsIn memory traceBits virginMap = (memory, 0) := by
  have zero : (hasNewBitsIn memory traceBits virginMap).2 = 0 :=
    (has_new_bits_in_meaning apart).trans (meaning_of_cleared disjoint)
  have same : (hasNewBitsIn memory traceBits virginMap).1 = memory := by
    funext position
    by_cases inMap : virginMap ≤ position ∧ position < virginMap + mapSize
    · obtain ⟨offset, rfl⟩ := Nat.exists_eq_add_of_le inMap.1
      have below : offset < mapSize := by omega
      rw [has_new_bits_in_virgin apart offset below]
      exact and_not_of_disjoint (disjoint offset below)
    · exact (has_new_bits_refines apart).outside position (by omega)
  generalize hasNewBitsIn memory traceBits virginMap = result at zero same
  obtain ⟨after, ret⟩ := result
  cases zero
  cases same
  rfl

end

/-- For all maps: the call returns 2, 1 or 0 by its meaning, clears the bits of the
trace in every byte of the virgin map, and leaves everything else, the trace map
with it; a second call returns 0 and leaves everything. -/
theorem has_new_bits_bytewise (memory : Memory) (traceBits virginMap : Nat)
    (apart : traceBits + mapSize ≤ virginMap ∨ virginMap + mapSize ≤ traceBits) :
    (hasNewBitsIn memory traceBits virginMap).2 =
        newBitsMeaning (mapAt memory traceBits) (mapAt memory virginMap) ∧
      (∀ position, position < mapSize →
        (hasNewBitsIn memory traceBits virginMap).1 (virginMap + position) =
          memory (virginMap + position) &&& ~~~memory (traceBits + position)) ∧
      (∀ position, position < virginMap ∨ virginMap + mapSize ≤ position →
        (hasNewBitsIn memory traceBits virginMap).1 position = memory position) ∧
      hasNewBitsIn (hasNewBitsIn memory traceBits virginMap).1 traceBits virginMap =
        ((hasNewBitsIn memory traceBits virginMap).1, 0) := by
  have cleared := @has_new_bits_in_virgin memory traceBits virginMap apart
  have outside := (@has_new_bits_refines memory traceBits virginMap apart).outside
  refine ⟨has_new_bits_in_meaning apart, cleared, outside, ?_⟩
  apply has_new_bits_idle apart
  intro position inside
  rw [cleared position inside, outside (traceBits + position) (by omega)]
  exact cleared_disjoint _ _

def freshTrace (position : Nat) : UInt8 :=
  if position < mapSize then if position = 3 then 5 else 0 else 0xff

/-- The byte is reported as fresh, its bits are cleared, and it is not reported again. -/
theorem fresh_byte_reported : (hasNewBitsIn freshTrace 0 mapSize).2 = 2 ∧
    (hasNewBitsIn freshTrace 0 mapSize).1 (mapSize + 3) = 0xfa ∧
    (hasNewBitsIn (hasNewBitsIn freshTrace 0 mapSize).1 0 mapSize).2 = 0 := by
  have bytewise := has_new_bits_bytewise freshTrace 0 mapSize
    (.inl (Nat.le_of_eq (Nat.zero_add mapSize)))
  refine ⟨?_, ?_, congrArg Prod.snd bytewise.2.2.2⟩
  · rw [bytewise.1]
    exact if_pos ⟨3, by decide, by decide, by decide⟩
  · rw [bytewise.2.1 3 (by decide)]
    decide

end Blueman.NewBits
