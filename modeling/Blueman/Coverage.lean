import Blueman.Library.ByteScan
import Blueman.PacketRecord
import Blueman.RunOutcome

/-!
# Accumulated coverage

`coverage.c`, and the part of `fuzz_one` that decides whether a run counts. The
virgin map keeps a set bit for everything no counted run has hit. Its loops scan
131072 bytes in words of 64 or 32 bits; what they compute is said byte by byte.
-/

namespace Blueman.Coverage

open LittleEndian ByteScan PacketRecord RunOutcome

set_option autoImplicit false

def mapSize : Nat := 2 * 2 ^ 16

/-- The mask `FF(_b)`, which is 64 bits wide wherever it is used. -/
def ff (b : Nat) : BitVec 64 := 0xff <<< (8 * b)

/-- The test for a byte hit for the first time, written out for eight bytes in
the source. -/
def hasFreshByte (cur vir : BitVec 64) : Bool :=
  (List.range 8).any fun b => byteOf cur b != 0 && byteOf vir b == 0xff

/-- One turn of the loop of `has_new_bits`: the virgin map and the result so far. -/
def hasNewBitsWord (current : Memory) (state : Memory × Nat) (word : Nat) : Memory × Nat :=
  let cur : BitVec 64 := readWord 8 current (8 * word)
  let vir : BitVec 64 := readWord 8 state.1 (8 * word)
  if cur ≠ 0 ∧ cur &&& vir ≠ 0 then
    (writeWord 8 state.1 (8 * word) (vir &&& ~~~cur),
      if state.2 < 2 then if hasFreshByte cur vir then 2 else 1 else state.2)
  else state

/-- The result is the updated virgin map and the return value. -/
def hasNewBits (traceBits virginMap : Memory) : Memory × Nat :=
  (List.range (mapSize / 8)).foldl (hasNewBitsWord traceBits) (virginMap, 0)

def countNon255Bytes (mem : Memory) : Nat :=
  scanWords 4 (fun v => v == 0xffffffff) (fun v b => v.setWidth 64 &&& ff b != ff b) mem
    (mapSize / 4)

def getTotalCoverage (virginBits : Memory) : Nat := countNon255Bytes virginBits

def countBytes (mem : Memory) : Nat :=
  scanWords 8 (fun v => v == 0) (fun v b => v &&& ff b != 0) mem (mapSize / 8)

def corpusGetCoverage (traceBits : Memory) : Nat := countBytes traceBits

/-- The fields of `queue_entry` that are ever set. Nothing but a run that hits a new
position sets `has_new_cov`; before that it holds what `malloc` has left (none). -/
structure QueueEntry where
  fname : String
  count : Nat
  len : UInt32
  hasNewCov : Option UInt8

def padded (width number : Nat) : String :=
  String.ofList (List.replicate (width - (toString number).length) '0') ++ toString number

/-- The name of a saved run, cut to the 299 characters its buffer holds. -/
def seedName (outDir : String) (covCount : Nat) (round queuedPaths : UInt32) : String :=
  String.ofList ((outDir ++ "/id_" ++ padded 8 covCount ++ "_" ++ padded 16 round.toNat ++ "_" ++
    padded 6 queuedPaths.toNat).toList.take 299)

structure CoverageState where
  virginBits : Memory
  queue : List QueueEntry
  queuedPaths : UInt32

def setupShm : CoverageState := ⟨fun _ => 0xff, [], 0⟩

def addToQueue (state : CoverageState) (fname : String) (pktRec : PktRecord) : CoverageState where
  virginBits := state.virginBits
  queue := ⟨fname, pktRec.count, getPktSeqTotalLen pktRec, none⟩ :: state.queue
  queuedPaths := state.queuedPaths + 1

def markNewCov : List QueueEntry → List QueueEntry
  | [] => []
  | top :: rest => { top with hasNewCov := some 1 } :: rest

/-- The result is the new state and, when the run is kept, the name of the file
its packets are saved in. -/
def saveIfInteresting (outDir : String) (pktRec : PktRecord) (round : UInt32)
    (traceBits : Memory) (state : CoverageState) : CoverageState × Option String :=
  let scanned := hasNewBits traceBits state.virginBits
  let cleared := { state with virginBits := scanned.1 }
  let hnb := scanned.2
  if hnb = 0 then (cleared, none)
  else
    let covCount := corpusGetCoverage traceBits
    let path := seedName outDir covCount round state.queuedPaths
    let queued := addToQueue cleared path pktRec
    (if hnb = 2 then { queued with queue := markNewCov queued.queue } else queued, some path)

/-- What `fuzz_one` knows of a run when it decides about its coverage. -/
structure FinishedRun where
  createInitCorpus : Bool
  fault : RunFault
  pktRec : PktRecord
  totalExecTimes : UInt64
  traceBits : Memory

def FinishedRun.counted (run : FinishedRun) : Bool :=
  run.fault != .crash && !run.createInitCorpus

def keepRun (outDir : String) (state : CoverageState) (run : FinishedRun) :
    CoverageState × Option String :=
  if run.counted then
    saveIfInteresting outDir run.pktRec run.totalExecTimes.toUInt32 run.traceBits state
  else (state, none)

def coverageAfter (outDir : String) (runs : List FinishedRun) : CoverageState :=
  runs.foldl (fun state run => (keepRun outDir state run).1) setupShm

theorem byte_of_ff (b index : Nat) (mask : b < 8) (inWord : index < 8) :
    byteOf (ff b) index = if index = b then 0xff else 0 := by
  have all : ∀ b < 8, ∀ index < 8, byteOf (ff b) index = if index = b then 0xff else 0 := by
    decide
  exact all b mask index inWord

theorem and_ones (byte : UInt8) : byte &&& 0xff = byte := UInt8.and_neg_one

theorem and_ff_eq_zero_iff (value : BitVec 64) (b : Nat) (mask : b < 8) :
    value &&& ff b = 0 ↔ byteOf value b = 0 := by
  constructor
  · intro zero
    have byte := congrArg (byteOf · b) zero
    rwa [byte_of_and, byte_of_ff b b mask mask, if_pos rfl, and_ones, byte_of_zero] at byte
  · intro byte
    apply (@word_eq_zero_iff 8 _).mpr
    intro index inWord
    rw [byte_of_and, byte_of_ff b index mask inWord]
    split_ifs with same
    · rw [same, byte, and_ones]
    · exact UInt8.and_zero

theorem byte_of_set_width (value : BitVec 32) (index : Nat) (inWord : index < 4) :
    byteOf (value.setWidth 64) index = byteOf value index := by
  apply byte_ext
  intro bit inByte
  have inside : 8 * index + bit < 64 := by omega
  rw [byte_of_get_bit _ _ _ inByte, byte_of_get_bit _ _ _ inByte, BitVec.getLsbD_setWidth]
  simp only [inside, decide_true, Bool.true_and]

theorem and_ff_eq_ff_iff (value : BitVec 32) (b : Nat) (mask : b < 4) :
    value.setWidth 64 &&& ff b = ff b ↔ byteOf value b = 0xff := by
  have mask64 : b < 8 := Nat.lt_trans mask (by decide)
  constructor
  · intro full
    have byte := congrArg (byteOf · b) full
    rwa [byte_of_and, byte_of_ff b b mask64 mask64, if_pos rfl, and_ones,
      byte_of_set_width value b mask] at byte
  · intro byte
    apply @word_ext 8 _ _
    intro index inWord
    rw [byte_of_and, byte_of_ff b index mask64 inWord]
    split_ifs with same
    · rw [same, byte_of_set_width value b mask, byte, and_ones]
    · exact UInt8.and_zero

theorem map_words : 8 * (mapSize / 8) = mapSize ∧ 4 * (mapSize / 4) = mapSize := by decide

theorem count_bytes_eq (mem : Memory) :
    countBytes mem = Nat.count (fun position => mem position ≠ 0) mapSize := by
  rw [countBytes, scan_words_count (fun byte => byte ≠ 0), map_words.1]
  · intro value index inWord
    rw [bne_iff_ne]
    exact not_congr (and_ff_eq_zero_iff value index inWord)
  · intro value idle index inWord hit
    rw [beq_iff_eq] at idle
    rw [idle] at hit
    exact hit (byte_of_zero index)

theorem total_coverage_eq (virginBits : Memory) :
    getTotalCoverage virginBits =
      Nat.count (fun position => virginBits position ≠ 0xff) mapSize := by
  rw [getTotalCoverage, countNon255Bytes, scan_words_count (fun byte => byte ≠ 0xff), map_words.2]
  · intro value index inWord
    rw [bne_iff_ne]
    exact not_congr (and_ff_eq_ff_iff value index inWord)
  · intro value idle index inWord hit
    rw [beq_iff_eq] at idle
    rw [idle] at hit
    have ones : ∀ index < 4, byteOf (0xffffffff : BitVec 32) index = 0xff := by decide
    exact hit (ones index inWord)

theorem and_not_of_disjoint {left right : UInt8} (disjoint : left &&& right = 0) :
    right &&& ~~~left = right := by
  apply byte_ext
  intro bit inByte
  have bits := congrArg (fun byte : UInt8 => byte.toBitVec.getLsbD bit) disjoint
  simp only [UInt8.toBitVec_and, UInt8.toBitVec_not, BitVec.getLsbD_and, BitVec.getLsbD_not] at bits ⊢
  cases hit : left.toBitVec.getLsbD bit with
  | false => simp [inByte]
  | true =>
      rw [hit, Bool.true_and] at bits
      rw [bits]
      simp

/-- What the loop of `has_new_bits` has done after `done` words. -/
structure Scanned (traceBits virginMap : Memory) (state : Memory × Nat) (done : Nat) : Prop where
  cleared : ∀ position, state.1 position =
    if position < 8 * done then virginMap position &&& ~~~traceBits position
    else virginMap position
  bounded : state.2 ≤ 2
  newBits : state.2 ≠ 0 ↔
    ∃ position, position < 8 * done ∧ traceBits position &&& virginMap position ≠ 0
  newBytes : state.2 = 2 ↔
    ∃ position, position < 8 * done ∧ traceBits position ≠ 0 ∧ virginMap position = 0xff

theorem word_overlap_iff (traceBits virginMap : Memory) (base : Nat) :
    readWord 8 traceBits base ≠ 0 ∧ readWord 8 traceBits base &&& readWord 8 virginMap base ≠ 0 ↔
      ∃ b, b < 8 ∧ traceBits (base + b) &&& virginMap (base + b) ≠ 0 := by
  have bytes (b : Nat) (inWord : b < 8) :
      byteOf (readWord 8 traceBits base &&& readWord 8 virginMap base) b =
        traceBits (base + b) &&& virginMap (base + b) := by
    rw [byte_of_and, byte_of_read_word _ _ _ _ inWord, byte_of_read_word _ _ _ _ inWord]
  constructor
  · rintro ⟨-, overlap⟩
    by_contra none
    push Not at none
    refine overlap ((@word_eq_zero_iff 8 _).mpr fun b inWord => ?_)
    rw [bytes b inWord, none b inWord]
  · rintro ⟨b, inWord, overlap⟩
    rw [← bytes b inWord] at overlap
    refine ⟨fun zero => overlap ?_, fun zero => overlap ?_⟩
    · rw [byte_of_and, zero, byte_of_zero, UInt8.zero_and]
    · rw [zero, byte_of_zero]

theorem has_fresh_byte_iff (traceBits virginMap : Memory) (base : Nat) :
    hasFreshByte (readWord 8 traceBits base) (readWord 8 virginMap base) = true ↔
      ∃ b, b < 8 ∧ traceBits (base + b) ≠ 0 ∧ virginMap (base + b) = 0xff := by
  simp only [hasFreshByte, List.any_eq_true, List.mem_range, Bool.and_eq_true, bne_iff_ne,
    beq_iff_eq]
  refine exists_congr fun b => and_congr_right fun inWord => ?_
  rw [byte_of_read_word _ _ _ _ inWord, byte_of_read_word _ _ _ _ inWord]

theorem overlap_of_fresh {traceBits virginMap : Memory} {base : Nat}
    (fresh : ∃ b, b < 8 ∧ traceBits (base + b) ≠ 0 ∧ virginMap (base + b) = 0xff) :
    ∃ b, b < 8 ∧ traceBits (base + b) &&& virginMap (base + b) ≠ 0 := by
  obtain ⟨b, inWord, nonzero, untouched⟩ := fresh
  refine ⟨b, inWord, ?_⟩
  rwa [untouched, and_ones]

theorem scanned_hit {traceBits virginMap : Memory} {state : Memory × Nat} {done : Nat}
    (scanned : Scanned traceBits virginMap state done)
    (overlap : ∃ b, b < 8 ∧
      traceBits (8 * done + b) &&& virginMap (8 * done + b) ≠ 0) (ret : Nat)
    (result : ret = if state.2 < 2 then
      if hasFreshByte (readWord 8 traceBits (8 * done)) (readWord 8 virginMap (8 * done)) then 2
      else 1 else state.2) :
    Scanned traceBits virginMap (writeWord 8 state.1 (8 * done)
      (readWord 8 virginMap (8 * done) &&& ~~~readWord 8 traceBits (8 * done)), ret)
      (done + 1) := by
  have bound := scanned.bounded
  have fresh := has_fresh_byte_iff traceBits virginMap (8 * done)
  refine ⟨fun position => ?_, ?_, ?_, ?_⟩
  all_goals dsimp only
  · rcases Nat.lt_or_ge position (8 * done) with earlier | later
    · rw [write_word_outside _ _ _ _ _ (.inl earlier), scanned.cleared, if_pos earlier,
        if_pos (by omega)]
    rcases Nat.lt_or_ge position (8 * done + 8) with inside | beyond
    · obtain ⟨b, rfl⟩ := Nat.exists_eq_add_of_le later
      have inWord : b < 8 := by omega
      rw [write_word_inside _ _ _ _ b inWord, if_pos (by omega), byte_of_and,
        @byte_of_not 8 _ b inWord, byte_of_read_word _ _ _ _ inWord,
        byte_of_read_word _ _ _ _ inWord]
    · rw [write_word_outside _ _ _ _ _ (.inr beyond), scanned.cleared, if_neg (by omega),
        if_neg (by omega)]
  · rw [result]
    split_ifs <;> omega
  · rw [exists_lt_word_iff, result]
    refine ⟨fun _ => .inr overlap, fun _ => ?_⟩
    split_ifs <;> omega
  · rw [exists_lt_word_iff, ← scanned.newBytes, ← fresh, result]
    split_ifs with below isFresh
    · exact ⟨fun _ => .inr isFresh, fun _ => rfl⟩
    · refine ⟨fun two => absurd two (by decide), ?_⟩
      rintro (two | isNew)
      · omega
      · exact absurd isNew isFresh
    · exact ⟨fun two => .inl two, fun _ => by omega⟩

theorem scanned_miss {traceBits virginMap : Memory} {state : Memory × Nat} {done : Nat}
    (scanned : Scanned traceBits virginMap state done)
    (misses : ¬∃ b, b < 8 ∧
      traceBits (8 * done + b) &&& virginMap (8 * done + b) ≠ 0) :
    Scanned traceBits virginMap state (done + 1) := by
  refine ⟨fun position => ?_, scanned.bounded, ?_, ?_⟩
  · rw [scanned.cleared]
    rcases Nat.lt_or_ge position (8 * done) with earlier | later
    · rw [if_pos earlier, if_pos (by omega)]
    rw [if_neg (by omega)]
    split_ifs with inside
    · obtain ⟨b, rfl⟩ := Nat.exists_eq_add_of_le later
      push Not at misses
      rw [and_not_of_disjoint (misses b (by omega))]
    · rfl
  · rw [exists_lt_word_iff, ← scanned.newBits]
    exact (or_iff_left misses).symm
  · rw [exists_lt_word_iff, ← scanned.newBytes]
    exact (or_iff_left fun fresh => misses (overlap_of_fresh fresh)).symm

theorem has_new_bits_word_scanned {traceBits virginMap : Memory} {state : Memory × Nat}
    {done : Nat} (scanned : Scanned traceBits virginMap state done) :
    Scanned traceBits virginMap (hasNewBitsWord traceBits state done) (done + 1) := by
  have virgin : readWord 8 state.1 (8 * done) = readWord 8 virginMap (8 * done) := by
    apply read_word_congr 8 _ _ _ _
    intro b inWord
    rw [scanned.cleared, if_neg (by omega)]
  have overlap := word_overlap_iff traceBits virginMap (8 * done)
  rw [hasNewBitsWord, virgin]
  by_cases hit : readWord 8 traceBits (8 * done) ≠ 0 ∧
      readWord 8 traceBits (8 * done) &&& readWord 8 virginMap (8 * done) ≠ 0
  · exact (if_pos hit).symm ▸ scanned_hit scanned (overlap.mp hit) _ rfl
  · exact (if_neg hit).symm ▸ scanned_miss scanned fun found => hit (overlap.mpr found)

theorem has_new_bits_scanned (traceBits virginMap : Memory) :
    Scanned traceBits virginMap (hasNewBits traceBits virginMap) (mapSize / 8) := by
  refine fold_range_invariant _ (fun done state => Scanned traceBits virginMap state done) _ _ ?_
    fun word _ state scanned => has_new_bits_word_scanned scanned
  exact ⟨fun _ => rfl, Nat.zero_le 2, by simp, by simp⟩

theorem has_new_bits_virgin (traceBits virginMap : Memory) (position : Nat)
    (inside : position < mapSize) :
    (hasNewBits traceBits virginMap).1 position =
      virginMap position &&& ~~~traceBits position := by
  rw [(has_new_bits_scanned traceBits virginMap).cleared, map_words.1, if_pos inside]

def countedTraces (runs : List FinishedRun) : List Memory :=
  (runs.filter FinishedRun.counted).map FinishedRun.traceBits

def orOf (traces : List Memory) : Memory :=
  fun position => traces.foldl (fun hit trace => hit ||| trace position) 0

theorem or_of_append (traces : List Memory) (trace : Memory) (position : Nat) :
    orOf (traces ++ [trace]) position = orOf traces position ||| trace position :=
  List.foldl_append

theorem or_of_bit (traces : List Memory) (position bit : Nat) :
    (orOf traces position).toBitVec.getLsbD bit = true ↔
      ∃ trace ∈ traces, (trace position).toBitVec.getLsbD bit = true := by
  induction traces using List.reverseRecOn with
  | nil => simp [orOf]
  | append_singleton traces trace induction =>
      rw [or_of_append, UInt8.toBitVec_or, BitVec.getLsbD_or, Bool.or_eq_true, induction]
      simp [or_and_right, exists_or]

theorem byte_eq_zero_iff (byte : UInt8) :
    byte = 0 ↔ ∀ bit, bit < 8 → byte.toBitVec.getLsbD bit = false := by
  constructor
  · rintro rfl bit _
    exact BitVec.getLsbD_zero
  · intro clear
    refine byte_ext fun bit inByte => (clear bit inByte).trans BitVec.getLsbD_zero.symm

theorem or_of_eq_zero_iff (traces : List Memory) (position : Nat) :
    orOf traces position = 0 ↔ ∀ trace ∈ traces, trace position = 0 := by
  induction traces using List.reverseRecOn with
  | nil => simp [orOf]
  | append_singleton traces trace induction =>
      rw [or_of_append, UInt8.or_eq_zero_iff, induction]
      simp [or_imp, forall_and]

theorem save_if_interesting_virgin (outDir : String) (pktRec : PktRecord) (round : UInt32)
    (traceBits : Memory) (state : CoverageState) :
    (saveIfInteresting outDir pktRec round traceBits state).1.virginBits =
      (hasNewBits traceBits state.virginBits).1 := by
  unfold saveIfInteresting addToQueue
  generalize hasNewBits traceBits state.virginBits = scanned
  dsimp only
  split_ifs <;> rfl

theorem not_or_eq (left right : UInt8) : ~~~(left ||| right) = ~~~left &&& ~~~right := by
  apply byte_ext
  intro bit inByte
  simp [inByte]

theorem keep_run_virgin (outDir : String) (state : CoverageState) (run : FinishedRun) :
    (keepRun outDir state run).1.virginBits =
      if run.counted then (hasNewBits run.traceBits state.virginBits).1 else state.virginBits := by
  unfold keepRun
  split_ifs with counted
  · exact save_if_interesting_virgin ..
  · rfl

theorem counted_traces_append (runs : List FinishedRun) (run : FinishedRun) :
    countedTraces (runs ++ [run]) =
      if run.counted then countedTraces runs ++ [run.traceBits] else countedTraces runs := by
  unfold countedTraces
  rw [List.filter_append, List.map_append]
  split_ifs with counted <;> simp [counted]

theorem coverage_after_append (outDir : String) (runs : List FinishedRun) (run : FinishedRun) :
    coverageAfter outDir (runs ++ [run]) = (keepRun outDir (coverageAfter outDir runs) run).1 :=
  List.foldl_append

theorem virgin_eq_not_or (outDir : String) (runs : List FinishedRun) (position : Nat)
    (inside : position < mapSize) :
    (coverageAfter outDir runs).virginBits position =
      ~~~orOf (countedTraces runs) position := by
  induction runs using List.reverseRecOn with
  | nil =>
      have untouched : (coverageAfter outDir []).virginBits position = 0xff := rfl
      have nothing : orOf (countedTraces []) position = 0 := rfl
      rw [untouched, nothing]
      rfl
  | append_singleton runs run induction =>
      rw [coverage_after_append, keep_run_virgin, counted_traces_append]
      split_ifs
      · rw [has_new_bits_virgin _ _ _ inside, induction, or_of_append, not_or_eq]
      · exact induction

theorem virgin_untouched_iff (outDir : String) (runs : List FinishedRun) (position : Nat)
    (inside : position < mapSize) :
    (coverageAfter outDir runs).virginBits position = 0xff ↔
      ∀ trace ∈ countedTraces runs, trace position = 0 := by
  rw [virgin_eq_not_or outDir runs position inside, ← or_of_eq_zero_iff]
  exact ⟨fun ones => UInt8.not_inj.mp ones, fun zero => by rw [zero]; rfl⟩

def positionsHit (runs : List FinishedRun) : Nat :=
  Nat.count (fun position => ∃ trace ∈ countedTraces runs, trace position ≠ 0) mapSize

def firstHits (runs : List FinishedRun) (run : FinishedRun) : Nat :=
  Nat.count (fun position => run.traceBits position ≠ 0 ∧
    ∀ trace ∈ countedTraces runs, trace position = 0) mapSize

theorem total_coverage_history (outDir : String) (runs : List FinishedRun) :
    getTotalCoverage (coverageAfter outDir runs).virginBits = positionsHit runs := by
  rw [total_coverage_eq]
  apply count_congr
  intro position inside
  rw [Ne, virgin_untouched_iff outDir runs position inside]
  push Not
  rfl

theorem positions_hit_append (runs : List FinishedRun) (run : FinishedRun)
    (counted : run.counted = true) :
    positionsHit (runs ++ [run]) = positionsHit runs + firstHits runs run := by
  unfold positionsHit firstHits
  rw [counted_traces_append, if_pos counted, ← count_or_disjoint]
  · apply count_congr
    intro position _
    simp only [List.mem_append, List.mem_singleton, or_and_right, exists_or, exists_eq_left]
    by_cases earlier : ∃ trace ∈ countedTraces runs, trace position ≠ 0
    · exact iff_of_true (.inl earlier) (.inl earlier)
    · push Not at earlier
      tauto
  · rintro position ⟨trace, member, nonzero⟩ ⟨-, untouched⟩
    exact nonzero (untouched trace member)

theorem save_if_interesting_keeps (outDir : String) (pktRec : PktRecord) (round : UInt32)
    (traceBits : Memory) (state : CoverageState) :
    (saveIfInteresting outDir pktRec round traceBits state).2.isSome = true ↔
      (hasNewBits traceBits state.virginBits).2 ≠ 0 := by
  unfold saveIfInteresting
  generalize hasNewBits traceBits state.virginBits = scanned
  dsimp only
  split_ifs with nothing
  all_goals simp [nothing]

def NewBit (runs : List FinishedRun) (run : FinishedRun) : Prop :=
  ∃ position bit, position < mapSize ∧ bit < 8 ∧
    (run.traceBits position).toBitVec.getLsbD bit = true ∧
    ∀ trace ∈ countedTraces runs, (trace position).toBitVec.getLsbD bit = false

theorem new_bits_iff (outDir : String) (runs : List FinishedRun) (run : FinishedRun) :
    (hasNewBits run.traceBits (coverageAfter outDir runs).virginBits).2 ≠ 0 ↔ NewBit runs run := by
  rw [(has_new_bits_scanned _ _).newBits, map_words.1]
  unfold NewBit
  apply exists_congr
  intro position
  rw [exists_and_left]
  apply and_congr_right
  intro inside
  rw [virgin_eq_not_or outDir runs position inside, Ne, byte_eq_zero_iff]
  push Not
  refine exists_congr fun bit => and_congr_right fun inByte => ?_
  rw [UInt8.toBitVec_and, UInt8.toBitVec_not, BitVec.getLsbD_and, BitVec.getLsbD_not]
  have hit := or_of_bit (countedTraces runs) position bit
  cases seen : (orOf (countedTraces runs) position).toBitVec.getLsbD bit with
  | true =>
      obtain ⟨trace, member, set⟩ := hit.mp seen
      simp only [Bool.not_true, Bool.and_false]
      apply iff_of_false (by simp)
      rintro ⟨-, clear⟩
      rw [clear trace member] at set
      cases set
  | false =>
      have clear : ∀ trace ∈ countedTraces runs, (trace position).toBitVec.getLsbD bit = false := by
        intro trace member
        by_contra set
        rw [hit.mpr ⟨trace, member, by simpa using set⟩] at seen
        cases seen
      simp [inByte]
      exact fun _ => clear

theorem new_bytes_iff (outDir : String) (runs : List FinishedRun) (run : FinishedRun) :
    (hasNewBits run.traceBits (coverageAfter outDir runs).virginBits).2 = 2 ↔
      0 < firstHits runs run := by
  rw [(has_new_bits_scanned _ _).newBytes, map_words.1, firstHits, count_pos_iff]
  refine exists_congr fun position => and_congr_right fun inside => ?_
  rw [virgin_untouched_iff outDir runs position inside]

/-- After any sequence of runs: the virgin map is the complement of the union of
the counted traces, the total coverage counts the positions in that union, and
one more run is kept, and reported as new coverage, according to what it adds. -/
theorem accumulated_coverage (outDir : String) (runs : List FinishedRun) (run : FinishedRun) :
    (∀ position, position < mapSize → (coverageAfter outDir runs).virginBits position =
      ~~~orOf (countedTraces runs) position) ∧
    getTotalCoverage (coverageAfter outDir runs).virginBits = positionsHit runs ∧
    getTotalCoverage (coverageAfter outDir runs).virginBits ≤
      getTotalCoverage (coverageAfter outDir (runs ++ [run])).virginBits ∧
    ((keepRun outDir (coverageAfter outDir runs) run).2.isSome = true ↔
      run.counted = true ∧ NewBit runs run) ∧
    (run.counted = true →
      ((hasNewBits run.traceBits (coverageAfter outDir runs).virginBits).2 = 2 ↔
        getTotalCoverage (coverageAfter outDir runs).virginBits <
          getTotalCoverage (coverageAfter outDir (runs ++ [run])).virginBits) ∧
      getTotalCoverage (coverageAfter outDir (runs ++ [run])).virginBits =
        getTotalCoverage (coverageAfter outDir runs).virginBits + firstHits runs run) := by
  refine ⟨virgin_eq_not_or outDir runs, total_coverage_history outDir runs, ?_, ?_, ?_⟩
  · rw [total_coverage_history, total_coverage_history]
    cases counted : run.counted with
    | true =>
        rw [positions_hit_append runs run counted]
        exact Nat.le_add_right _ _
    | false =>
        unfold positionsHit
        rw [counted_traces_append, counted]
        exact Nat.le_refl _
  · unfold keepRun
    split_ifs with counted
    · rw [save_if_interesting_keeps, new_bits_iff]
      simp [counted]
    · simp [counted]
  · intro counted
    rw [total_coverage_history, total_coverage_history, positions_hit_append runs run counted,
      new_bytes_iff]
    exact ⟨by omega, rfl⟩

def oneEdge : FinishedRun where
  createInitCorpus := false
  fault := .none
  pktRec := createPktSeqBuf 200
  totalExecTimes := 1
  traceBits position := if position = 7 then 1 else 0

theorem one_edge_kept : (keepRun "seeds" (coverageAfter "seeds" []) oneEdge).2.isSome = true :=
  (accumulated_coverage "seeds" [] oneEdge).2.2.2.1.mpr
    ⟨rfl, 7, 0, by decide, by decide, by decide, fun _ member => by cases member⟩

end Blueman.Coverage
