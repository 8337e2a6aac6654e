import Blueman.Coverage
import Blueman.Interceptor
import Blueman.Library.Execution
import Blueman.Library.RunningMaximum
import Mathlib.Order.Nat

/-!
# The packet with the largest coverage rise

While it collects a seed the interceptor takes the difference of each reading of
the coverage to the one before and keeps the index of the largest. The difference
is unsigned, and the guard in front of it only asks whether it is zero. After a
reading that falls it is a number that no rise reaches, so the index is right
exactly if no reading falls.
-/

namespace Blueman.DeltaPoint

open BlePacket MutateStrategy PacketRecord Coverage Interceptor Execution RunningMaximum

set_option autoImplicit false

/-- What `corpus_get_coverage` has returned for the packets of device 1. -/
def readings (history : List Served) : List UInt32 :=
  (recorded history).map fun served => served.input.coverage

def differences {Value : Type} [Sub Value] : Value → List Value → List Value
  | _, [] => []
  | before, value :: rest => (value - before) :: differences value rest

/-- The first position of the largest rise, where a fall is none: the differences
are those of natural numbers. -/
def IsDeltaPoint (readings : List UInt32) (index : Nat) : Prop :=
  ∃ top, FirstLargest (differences 0 (readings.map UInt32.toNat)) top index

def NeverFalls (readings : List UInt32) : Prop := readings.IsChain (· ≤ ·)

theorem differences_length {Value : Type} [Sub Value] (before : Value) (values : List Value) :
    (differences before values).length = values.length := by
  induction values generalizing before with
  | nil => rfl
  | cons value rest induction => simp [differences, induction]

theorem differences_append {Value : Type} [Sub Value] (before value : Value)
    (values : List Value) :
    differences before (values ++ [value]) =
      differences before values ++ [value - values.getLastD before] := by
  induction values generalizing before with
  | nil => rfl
  | cons first rest induction =>
      simp only [differences, List.cons_append, induction, List.getLastD_cons]

theorem readings_append (history : List Served) (served : Served) :
    readings (history ++ [served]) = if served.request.deviceId = 1
      then readings history ++ [served.input.coverage] else readings history := by
  unfold readings
  rw [recorded_append]
  split_ifs
  · rw [List.map_append]
    rfl
  · rfl

/-- The largest of the unsigned differences so far, and where it came up. -/
structure Measured (history : List Served) (vars : InitVars) : Prop where
  last : vars.coverageCount = (readings history).getLastD 0
  largest : FirstLargest ((differences 0 (readings history)).map UInt32.toNat)
    vars.maxDelta.toNat vars.maxDeltaIndex.toNat

def Left (history : List Served) (maxDeltaIndex : UInt32) : Prop :=
  ∃ top, FirstLargest ((differences 0 (readings history)).map UInt32.toNat) top
    maxDeltaIndex.toNat

theorem update_delta_largest {history : List Served} {vars : InitVars}
    (measured : Measured history vars) {served : Served} (device : served.request.deviceId = 1)
    (few : (readings history).length < maxPacketCountPerIter) :
    FirstLargest ((differences 0 (readings (history ++ [served]))).map UInt32.toNat)
      (updateDelta vars served.input.coverage ((readings history).length + 1)).maxDelta.toNat
      (updateDelta vars served.input.coverage
        ((readings history).length + 1)).maxDeltaIndex.toNat := by
  have grown := measured.largest.append (served.input.coverage - vars.coverageCount).toNat
  have position : (UInt32.ofNat ((readings history).length + 1) - 1).toNat =
      (readings history).length := by
    have limit : maxPacketCountPerIter = 100 := rfl
    have one : (1 : UInt32).toNat = 1 := rfl
    rw [UInt32.toNat_sub, UInt32.toNat_ofNat']
    omega
  have values : (differences 0 (readings (history ++ [served]))).map UInt32.toNat =
      (differences 0 (readings history)).map UInt32.toNat ++
        [(served.input.coverage - vars.coverageCount).toNat] := by
    rw [readings_append, if_pos device, differences_append, List.map_append, measured.last]
    rfl
  rw [values]
  rw [List.length_map, differences_length] at grown
  unfold updateDelta
  by_cases greater : served.input.coverage - vars.coverageCount > vars.maxDelta
  · have less := UInt32.lt_iff_toNat_lt.mp greater
    simp only [greater, if_true, position]
    simpa only [less, if_true] using grown
  · have notLess : ¬vars.maxDelta.toNat < (served.input.coverage - vars.coverageCount).toNat :=
      fun less => greater (UInt32.lt_iff_toNat_lt.mpr less)
    simp only [greater, if_false]
    simpa only [notLess, if_false] using grown

theorem init_loop_vars {vars : InitVars} {pktRec added : PktRecord} {request ack : BlePkt}
    {input : Input} {next : Option InitPlace}
    (turn : initReact (.loop vars) pktRec request input = .answers ack added next) :
    (request.deviceId = 1 ∧
      (next = some (.terminating (updateDelta vars input.coverage added.count).maxDeltaIndex) ∨
        ∃ cnt, next = some (.loop { updateDelta vars input.coverage added.count with
          cnt := cnt, coverageCount := input.coverage }))) ∨
    request.deviceId ≠ 1 ∧
      (next = some (.terminating vars.maxDeltaIndex) ∨ next = some (.loop vars)) := by
  simp only [initReact] at turn
  split_ifs at turn with device full stale gone full
  all_goals cases turn
  · exact .inl ⟨device, .inl rfl⟩
  · exact .inl ⟨device, .inl rfl⟩
  · exact .inl ⟨device, .inr ⟨_, rfl⟩⟩
  · exact .inl ⟨device, .inr ⟨_, rfl⟩⟩
  · exact .inr ⟨device, .inl rfl⟩
  · exact .inr ⟨device, .inr rfl⟩

def MeasuredAt (history : List Served) : Option InitPlace → Prop
  | some (.loop vars) => Measured history vars
  | some (.terminating maxDeltaIndex) => Left history maxDeltaIndex
  | none => True

theorem measured_start : Measured [] ⟨0, 0, 0, 0⟩ := ⟨rfl, first_largest_nil⟩

theorem Measured.skip {history : List Served} {vars : InitVars} (measured : Measured history vars)
    {served : Served} (device : served.request.deviceId ≠ 1) :
    Measured (history ++ [served]) vars := by
  have same : readings (history ++ [served]) = readings history := by
    rw [readings_append, if_neg device]
  refine ⟨?_, ?_⟩
  · rw [same]
    exact measured.last
  · rw [same]
    exact measured.largest

theorem Measured.add {history : List Served} {vars : InitVars} (measured : Measured history vars)
    {served : Served} (device : served.request.deviceId = 1)
    (few : (readings history).length < maxPacketCountPerIter) (cnt : Nat) :
    Measured (history ++ [served])
      { updateDelta vars served.input.coverage ((readings history).length + 1) with
        cnt := cnt, coverageCount := served.input.coverage } := by
  refine ⟨?_, update_delta_largest measured device few⟩
  rw [readings_append, if_pos device, List.getLastD_concat]

theorem init_serves_measured {history : List Served} {place : Option InitPlace}
    {pktRec : PktRecord} (serves : Serves initServer history place pktRec) :
    MeasuredAt history place := by
  induction serves with
  | start => exact measured_start
  | @answer history place pktRec request input ack added next earlier turn induction =>
      have shape := init_serves_shape earlier
      cases place with
      | loop vars =>
          obtain ⟨-, holds, few⟩ := shape
          have length : (readings history).length = (recorded history).length := List.length_map _
          rcases init_loop_vars turn with ⟨device, exits⟩ | ⟨device, stays⟩
          · have count : added.count = (readings history).length + 1 := by
              obtain ⟨rfl, record, -⟩ := init_loop_turn turn
              have room : pktRec.count = (recorded history).length := by
                rw [holds.count, Nat.min_eq_right (Nat.le_of_lt few)]
              have space : pktRec.count + 1 < pktRec.maxCount := by
                have capacity : maxPacketCountPerIter = 100 := rfl
                rw [holds.maxCount]
                omega
              rw [record, if_pos device, PktRecord.count, (add_pkt_packets pktRec ack space).2,
                List.length_append, ← PktRecord.count, room, length]
              rfl
            rw [count] at exits
            rw [← length] at few
            rcases exits with rfl | ⟨cnt, rfl⟩
            · exact ⟨_, @update_delta_largest _ _ induction ⟨request, input, ack⟩ device few⟩
            · exact @Measured.add _ _ induction ⟨request, input, ack⟩ device few cnt
          · have kept : Measured (history ++ [⟨request, input, ack⟩]) vars := induction.skip device
            rcases stays with rfl | rfl
            · exact ⟨_, kept.largest⟩
            · exact kept
      | terminating maxDeltaIndex =>
          cases turn
          trivial

/-- Coverage readings are counts of bytes of the map. -/
def Counts (readings : List UInt32) : Prop := ∀ reading ∈ readings, reading.toNat ≤ mapSize

/-- So are those that `corpus_get_coverage` returns. -/
theorem coverage_counts {readings : List UInt32}
    (counted : ∀ reading ∈ readings, ∃ traceBits, reading.toNat = corpusGetCoverage traceBits) :
    Counts readings := by
  intro reading member
  obtain ⟨traceBits, same⟩ := counted reading member
  rw [same, corpusGetCoverage, count_bytes_eq]
  exact Nat.count_le _

theorem difference_cases {before reading : UInt32} (earlier : before.toNat ≤ mapSize)
    (later : reading.toNat ≤ mapSize) :
    before ≤ reading ∧ (reading - before).toNat = reading.toNat - before.toNat ∨
      ¬before ≤ reading ∧ reading.toNat - before.toNat = 0 ∧ mapSize < (reading - before).toNat := by
  have size : mapSize = 131072 := rfl
  have bound := before.toNat_lt
  by_cases rises : before ≤ reading
  · exact .inl ⟨rises, UInt32.toNat_sub_of_le _ _ rises⟩
  · have falls := UInt32.lt_iff_toNat_lt.mp (UInt32.not_le.mp rises)
    refine .inr ⟨rises, by omega, ?_⟩
    rw [UInt32.toNat_sub]
    omega

theorem differences_get {before : UInt32} {readings : List UInt32} {index : Nat}
    {difference : UInt32} (earlier : before.toNat ≤ mapSize) (counts : Counts readings)
    (found : (differences before readings)[index]? = some difference) :
    ∃ rise, (differences before.toNat (readings.map UInt32.toNat))[index]? = some rise ∧
      rise ≤ mapSize ∧ (difference.toNat = rise ∨ rise = 0 ∧ mapSize < difference.toNat) := by
  induction readings generalizing before index with
  | nil => cases found
  | cons reading rest induction =>
      obtain ⟨later, others⟩ := List.forall_mem_cons.mp counts
      cases index with
      | zero =>
          cases found
          refine ⟨_, rfl, Nat.le_trans (Nat.sub_le _ _) later, ?_⟩
          rcases difference_cases earlier later with ⟨-, same⟩ | ⟨-, none, large⟩
          · exact .inl same
          · exact .inr ⟨none, large⟩
      | succ index => exact induction later others found

theorem differences_rise {before : UInt32} {readings : List UInt32}
    (rises : (before :: readings).IsChain (· ≤ ·)) :
    (differences before readings).map UInt32.toNat =
      differences before.toNat (readings.map UInt32.toNat) := by
  induction readings generalizing before with
  | nil => rfl
  | cons reading rest induction =>
      obtain ⟨step, later⟩ := List.isChain_cons_cons.mp rises
      simp only [differences, List.map_cons, induction later, UInt32.toNat_sub_of_le _ _ step]

theorem differences_fall {before : UInt32} {readings : List UInt32}
    (earlier : before.toNat ≤ mapSize) (counts : Counts readings)
    (falls : ¬(before :: readings).IsChain (· ≤ ·)) :
    ∃ difference ∈ differences before readings, mapSize < difference.toNat := by
  induction readings generalizing before with
  | nil => exact absurd (List.isChain_singleton before) falls
  | cons reading rest induction =>
      obtain ⟨later, others⟩ := List.forall_mem_cons.mp counts
      rcases difference_cases earlier later with ⟨step, -⟩ | ⟨-, -, large⟩
      · have fallsLater : ¬(reading :: rest).IsChain (· ≤ ·) :=
          fun chain => falls (List.isChain_cons_cons.mpr ⟨step, chain⟩)
        obtain ⟨difference, member, large⟩ := induction later others fallsLater
        exact ⟨difference, List.mem_cons_of_mem _ member, large⟩
      · exact ⟨reading - before, List.mem_cons_self, large⟩

theorem fallen_behind {readings : List UInt32} {index : Nat} {difference : UInt32}
    (counts : Counts readings) (found : (differences 0 readings)[index]? = some difference)
    (large : mapSize < difference.toNat) :
    ∃ first, 0 < index ∧
      (differences (0 : UInt32).toNat (readings.map UInt32.toNat))[0]? = some first := by
  cases readings with
  | nil => cases found
  | cons reading rest =>
      refine ⟨reading.toNat, ?_, rfl⟩
      by_contra start
      have first : index = 0 := Nat.eq_zero_of_not_pos start
      subst first
      cases found
      have bound := counts reading List.mem_cons_self
      rw [UInt32.sub_zero] at large
      exact absurd large (Nat.not_lt.mpr bound)

theorem never_falls_iff {readings : List UInt32} :
    NeverFalls readings ↔ (0 :: readings).IsChain (· ≤ ·) := by
  cases readings with
  | nil => simp [NeverFalls]
  | cons reading rest =>
      have least : (0 : UInt32) ≤ reading := UInt32.zero_le
      simp [NeverFalls, least]

/-- The largest unsigned difference is at the largest rise exactly if no reading
falls. -/
theorem largest_difference_iff {readings : List UInt32} {top index : Nat}
    (counts : Counts readings)
    (largest : FirstLargest ((differences 0 readings).map UInt32.toNat) top index) :
    IsDeltaPoint readings index ↔ NeverFalls readings := by
  have zero : (0 : UInt32).toNat ≤ mapSize := Nat.zero_le _
  rw [never_falls_iff]
  constructor
  · intro deltaPoint
    by_contra falls
    obtain ⟨rise, greatest⟩ := deltaPoint
    obtain ⟨difference, member, large⟩ := differences_fall zero counts falls
    have above : mapSize < top :=
      Nat.lt_of_lt_of_le large (largest.bound _ (List.mem_map_of_mem member))
    have attained := largest.inside (Nat.lt_of_le_of_lt (Nat.zero_le _) above)
    rw [List.getElem?_map] at attained
    obtain ⟨fallen, found, same⟩ := Option.map_eq_some_iff.mp attained
    obtain ⟨none, place, small, cases⟩ := differences_get zero counts found
    -- at the index the reading falls, so that the rise there is zero
    have flat : none = 0 := by
      rcases cases with equal | ⟨flat, -⟩
      · omega
      · exact flat
    have rising : 0 < rise := by
      have behind := fallen_behind counts found (same ▸ above)
      obtain ⟨first, start⟩ := behind
      exact Nat.lt_of_le_of_lt (Nat.zero_le first) (greatest.earlier 0 start.1 first start.2)
    have start : (0 : UInt32).toNat = 0 := rfl
    rw [start, greatest.inside rising, flat] at place
    cases place
    exact absurd rising (Nat.lt_irrefl 0)
  · intro rises
    have same := differences_rise rises
    rw [same] at largest
    exact ⟨top, largest⟩

/-- When the loop has ended the index is the first position of the largest rise
exactly if no reading fell. -/
theorem max_delta_index_iff {history : List Served} {maxDeltaIndex : UInt32}
    {pktRec : PktRecord}
    (serves : Serves initServer history (some (.terminating maxDeltaIndex)) pktRec)
    (counts : Counts (readings history)) :
    IsDeltaPoint (readings history) maxDeltaIndex.toNat ↔ NeverFalls (readings history) := by
  obtain ⟨top, largest⟩ := init_serves_measured serves
  exact largest_difference_iff counts largest

structure Collecting where
  history : List Served
  place : Option InitPlace
  pktRec : PktRecord

def collectStep (state : Collecting) (turn : BlePkt × Input) : Option Collecting :=
  match state.place with
  | none => none
  | some place =>
      match initReact place state.pktRec turn.1 turn.2 with
      | .answers ack added next => some ⟨state.history ++ [⟨turn.1, turn.2, ack⟩], next, added⟩
      | _ => none

theorem collect_step_serves : Preserves collectStep fun state =>
    Serves initServer state.history state.place state.pktRec := by
  intro state turn next taken serves
  unfold collectStep at taken
  split at taken
  · cases taken
  · rename_i place here
    rw [here] at serves
    split at taken
    · rename_i turned
      cases taken
      exact .answer turn.1 turn.2 serves turned
    · cases taken

def turnOf (coverage : UInt32) : BlePkt × Input :=
  (⟨0, 1, 0, 0, 0, 0, Vector.replicate blePktMaxLen 0⟩, ⟨fun _ => drawnOf 0, fun _ => 0, coverage⟩)

def collect (coverages : List UInt32) : Option Collecting :=
  exec collectStep ⟨[], some initServer.start, emptyRecord⟩ (coverages.map turnOf)

def endsWith (coverages : List UInt32) (index : UInt32) (state : Collecting) : Bool :=
  readings state.history == coverages &&
    match state.place with
    | some (.terminating maxDeltaIndex) => maxDeltaIndex == index
    | _ => false

theorem collect_serves {coverages : List UInt32} {index : UInt32}
    (ends : (collect coverages).any (endsWith coverages index) = true) :
    ∃ history pktRec, Serves initServer history (some (.terminating index)) pktRec ∧
      readings history = coverages := by
  obtain ⟨state, run, ended⟩ := (Option.any_eq_true _ _).mp ends
  have serves := exec_preserves collect_step_serves run .start
  rw [endsWith, Bool.and_eq_true, beq_iff_eq] at ended
  obtain ⟨read, ended⟩ := ended
  split at ended
  · rename_i maxDeltaIndex here
    rw [beq_iff_eq.mp ended] at here
    rw [here] at serves
    exact ⟨state.history, state.pktRec, serves, read⟩
  · cases ended

theorem two_readings_count {first second : UInt32} {times : Nat} (low : first.toNat ≤ mapSize)
    (lowToo : second.toNat ≤ mapSize) : Counts (first :: List.replicate times second) := by
  intro reading member
  rcases List.mem_cons.mp member with same | later
  · rw [same]
    exact low
  · rw [List.eq_of_mem_replicate later]
    exact lowToo

def risingReadings : List UInt32 := 3 :: List.replicate 82 10

theorem rising_run_index : ∃ history pktRec,
    Serves initServer history (some (.terminating 1)) pktRec ∧
      IsDeltaPoint (readings history) 1 := by
  have ends : (collect risingReadings).any (endsWith risingReadings 1) = true := by
    decide +kernel
  obtain ⟨history, pktRec, serves, read⟩ := collect_serves ends
  refine ⟨history, pktRec, serves, (max_delta_index_iff serves ?_).mpr ?_⟩
  · rw [read]
    exact two_readings_count (by decide) (by decide)
  · rw [read]
    unfold NeverFalls
    decide +kernel

def fallingReadings : List UInt32 := 10 :: List.replicate 81 5

/-- The first packet has the only rise, and the index is that of the second. -/
theorem falling_run_misplaced : ¬∀ (history : List Served) (maxDeltaIndex : UInt32)
    (pktRec : PktRecord), Serves initServer history (some (.terminating maxDeltaIndex)) pktRec →
      Counts (readings history) → IsDeltaPoint (readings history) maxDeltaIndex.toNat := by
  intro always
  have ends : (collect fallingReadings).any (endsWith fallingReadings 1) = true := by
    decide +kernel
  obtain ⟨history, pktRec, serves, read⟩ := collect_serves ends
  have counts : Counts (readings history) := by
    rw [read]
    exact two_readings_count (by decide) (by decide)
  obtain ⟨top, greatest⟩ := always history 1 pktRec serves counts
  rw [read] at greatest
  have above : 10 < top := greatest.earlier 0 (by decide) 10 rfl
  have flat := greatest.inside (Nat.lt_trans (by decide) above)
  cases flat
  exact absurd above (by decide)

end Blueman.DeltaPoint
