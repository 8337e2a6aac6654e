import Blueman.MutatorFullStack2Frame
import Blueman.MutatorRandom
import Blueman.MutatorAfl4

/-!
# Which accesses of the mutators lie in the packet

Every address a mutator touches lies in the record or behind it, and the record
ends where `pkt->pkt` does. A run therefore stays in the packet exactly when no
touched address reaches `blePktSize`. Each mutator stays there for every random
stream up to its own bound on `max_payload_len`, and beyond the bound some
stream takes it past the end.
-/

namespace Blueman.MutatorBounds

open LittleEndian ByteMachine BlePacket MutateStrategy Mutator PacketSelection
open MutatorFullStack2Frame

set_option autoImplicit false

/-- No access past the last byte of `pkt->pkt`, which is the last of the record. -/
def InsidePkt (store : Store) : Prop := ∀ position ∈ store.touched, position < blePktSize

def StaysInside (program : Program Rand Nat) (packet : BlePkt) (beyond : Memory) : Prop :=
  Ensures program (place packet beyond) (fun _ after => InsidePkt after)
    fun _ after => InsidePkt after

abbrev packetReach : Set Nat := Set.Iio blePktSize

theorem stays_inside_of_confined {program : Program Rand Nat} {packet : BlePkt} {beyond : Memory}
    (confined : ConfinedFrom (place packet beyond) packetReach Set.univ program) :
    StaysInside program packet beyond := by
  have inside {after : Store}
      (frame : Within packetReach Set.univ (place packet beyond) after) : InsidePkt after := by
    intro position member
    rcases frame.reached position member with earlier | reached
    · cases earlier
    · exact reached
  exact Ensures.mono confined (fun _ _ frame => inside frame) fun _ _ frame => inside frame

theorem leaves_of_possibly {program : Program Rand Nat} {packet : BlePkt} {beyond : Memory}
    (leaves : Possibly program (place packet beyond) fun _ after =>
      ∃ position ∈ after.touched, blePktSize ≤ position) :
    ¬StaysInside program packet beyond := by
  intro stays
  obtain ⟨draws, value, after, run, position, member, outside⟩ := leaves.run
  have inside : InsidePkt after.store := Ensures.returned stays run
  exact absurd (inside position member) (Nat.not_lt.mpr outside)

theorem field_reach (offset : Nat) (header : offset + 4 ≤ blePktSize) (index : Nat)
    (inWord : index < 4) : offset + index ∈ packetReach := Set.mem_Iio.mpr (by omega)

theorem region_reach {first length : Nat} (fits : first + length ≤ blePktSize) :
    region first length ⊆ packetReach :=
  fun _ member => Set.mem_Iio.mpr (Nat.lt_of_lt_of_le (Set.mem_Ico.mp member).2 fits)

theorem upper_layer_type_reach : Confined packetReach ∅ getUpperLayerTypeForZephyr :=
  upper_layer_type_confined fun index inHeader => Set.mem_Iio.mpr (by
    simp only [pktOffset, blePktSize, blePktMaxLen]
    omega)

theorem is_data_packet_reach : Confined packetReach ∅ isDataPacket :=
  confined_bind (confined_load_field (field_reach addressOffset (by decide)))
    fun _ => confined_pure _

theorem clamp_bound {maxPayloadLen : UInt32} {bound : Nat} (above : bound < maxPayloadLen.toNat)
    (narrow : bound < 255 := by decide) :
    bound < (clamp maxPayloadLen).toNat ∧ (clamp maxPayloadLen).toNat ≤ 255 := by
  refine ⟨?_, (clamp_le maxPayloadLen).1⟩
  unfold clamp
  split_ifs
  · exact narrow
  · exact above

section Random

open MutatorRandom

theorem mutate_payload_reach {header payload newPayloadLen : Nat}
    (headerFits : header + 2 ≤ blePktSize) (payloadFits : payload + newPayloadLen ≤ blePktSize) :
    Confined packetReach Set.univ (mutatePayload header payload newPayloadLen) := by
  apply (mutate_payload_confined header payload newPayloadLen).mono _ (Set.subset_univ _)
  apply Set.union_subset (region_reach payloadFits)
  exact Set.union_subset (region_reach headerFits) (region_reach (by decide))

theorem header_byte_reach {header : Nat} (fits : header + 1 ≤ blePktSize) :
    Confined packetReach Set.univ (mutateRandomByte header 1) :=
  (random_byte_confined header 1).mono (region_reach fits) (Set.subset_univ _)

/-- A length of five ends the mutator, and a limit of 253 keeps what it draws
inside the packet. -/
abbrev Roomy (len maxPayloadLen : UInt32) : Prop := len.toNat ≤ 5 ∨ maxPayloadLen.toNat ≤ 253

theorem ll_data_reach (store : Store) (layer : FuzzLayer)
    (roomy : Roomy (fieldOf store lenOffset) (fieldOf store maxPayloadLenOffset)) :
    ConfinedFrom store packetReach Set.univ (llDataMutator layer) := by
  have layout := pkt_layout
  apply confined_load_field_bind (field_reach lenOffset (by decide))
  intro middle same
  apply confined_from_if (fun _ => confined_pure _ middle)
  intro long
  have limit : (fieldOf store maxPayloadLenOffset).toNat ≤ 253 :=
    roomy.resolve_left fun short => long (UInt32.le_iff_toNat_le.mpr short)
  refine confined_load_field_bind (field_reach maxPayloadLenOffset (by decide))
    fun last _ => ?_
  have sameLimit : fieldOf middle maxPayloadLenOffset = fieldOf store maxPayloadLenOffset :=
    field_of_congr same _
  rw [sameLimit]
  have clamped := (clamp_le (fieldOf store maxPayloadLenOffset)).2
  refine confined_bind confined_rand (fun _ => confined_remainder_bind fun drawn below => ?_) last
  apply confined_bind (header_byte_reach (by decide))
  intro _
  exact mutate_payload_reach (by decide) (by simp only [blePktSize, blePktMaxLen]; omega)

theorem ll_advertising_reach (store : Store)
    (short : (fieldOf store lenOffset).toNat ≤ 255)
    (roomy : Roomy (fieldOf store lenOffset) (fieldOf store maxPayloadLenOffset)) :
    ConfinedFrom store packetReach Set.univ llAdvertisingMutator := by
  have layout := pkt_layout
  apply confined_load_field_bind (field_reach lenOffset (by decide))
  intro middle same
  apply confined_from_if (fun _ => confined_pure _ middle)
  intro long
  have longer : 5 < (fieldOf store lenOffset).toNat := Nat.lt_of_not_le fun fits =>
    long (UInt32.le_iff_toNat_le.mpr fits)
  have limit : (fieldOf store maxPayloadLenOffset).toNat ≤ 253 :=
    roomy.resolve_left (Nat.not_le.mpr longer)
  refine confined_load_field_bind (field_reach maxPayloadLenOffset (by decide))
    fun last _ => ?_
  have sameLimit : fieldOf middle maxPayloadLenOffset = fieldOf store maxPayloadLenOffset :=
    field_of_congr same _
  rw [sameLimit]
  have clamped := (clamp_le (fieldOf store maxPayloadLenOffset)).2
  have payload : (fieldOf store lenOffset - 2 - 3).toNat ≤ 250 := by
    have two : (2 : UInt32).toNat = 2 := rfl
    have three : (3 : UInt32).toNat = 3 := rfl
    rw [UInt32.toNat_sub, UInt32.toNat_sub]
    omega
  refine confined_bind confined_rand (fun choice current => ?_) last
  have drawn : Ensures (if choice % 100 ≥ 50 then do
        return (← remainder (← rand) (clamp (fieldOf store maxPayloadLenOffset)).toNat) + 1
      else pure (fieldOf store lenOffset - 2 - 3).toNat : Program Rand Nat) current
      (fun newPayloadLen after => newPayloadLen ≤ 253 ∧ after = current)
      fun _ after => after = current := by
    refine ensures_if (fun _ => ?_) fun _ => ensures_pure ⟨by omega, rfl⟩
    refine ensures_bind (ensures_rand fun _ _ => ensures_bind ?_)
    refine ensures_remainder (fun _ => rfl) fun positive => ensures_pure ⟨?_, rfl⟩
    exact Nat.le_trans (Nat.succ_le_of_lt (Nat.mod_lt _ positive)) (by omega)
  refine confined_from_bind (drawn.mono ?_ ?_) drawn ?_
  · rintro _ after ⟨-, rfl⟩
    exact Within.refl _ _ _
  · rintro _ after rfl
    exact Within.refl _ _ _
  rintro newPayloadLen after ⟨fits, -⟩
  refine confined_bind (header_byte_reach (by decide)) (fun _ => ?_) after
  exact mutate_payload_reach (by decide) (by simp only [blePktSize, blePktMaxLen]; omega)

theorem random_mutate_pkt_reach (store : Store) (idx : Nat)
    (short : (fieldOf store lenOffset).toNat ≤ 255)
    (roomy : Roomy (fieldOf store lenOffset) (fieldOf store maxPayloadLenOffset)) :
    ConfinedFrom store packetReach Set.univ (mutatePkt idx) := by
  have sameField {middle : Store} (same : middle.memory = store.memory) (offset : Nat) :
      fieldOf middle offset = fieldOf store offset := field_of_congr same _
  apply confined_from_read_bind (confined_rand store)
  intro _ first same
  apply confined_from_if (fun _ => confined_pure _ _)
  intro _
  have body : ConfinedFrom first packetReach Set.univ (do
      if ← isDataPacket then llDataMutator (← getUpperLayerTypeForZephyr)
      else llAdvertisingMutator : Program Rand Nat) := by
    apply confined_from_read_bind (is_data_packet_reach first)
    intro isData second sameSecond
    refine confined_from_if (fun _ => ?_) fun _ => ?_
    · apply confined_from_read_bind (upper_layer_type_reach second)
      intro layer last sameLast
      have unchanged := sameField ((sameLast.trans sameSecond).trans same)
      exact ll_data_reach last layer (by rwa [unchanged, unchanged])
    · have unchanged := sameField (sameSecond.trans same)
      exact ll_advertising_reach second (by rwa [unchanged]) (by rwa [unchanged, unchanged])
  apply confined_from_bind body body
  intro ret after _
  refine confined_bind (confined_whenever fun _ => ?_) (fun _ => confined_pure _) after
  exact confined_save_field _ (field_reach mutatedOffset (by decide)) fun _ _ => Set.mem_univ _

theorem le_of_field_le {len : UInt32} (short : len ≤ 5) : len.toNat ≤ 5 :=
  UInt32.le_iff_toNat_le.mp short

/-- With the greatest length the limit allows, the last payload byte lies 26
bytes and one length behind the start of the record. -/
theorem mutate_payload_leaves (store : Store) (header newPayloadLen : Nat)
    (long : 254 ≤ newPayloadLen) (narrow : newPayloadLen ≤ 255) :
    Possibly (mutatePayload header (getLlDataPayload pktOffset) newPayloadLen) store
      fun ret after => ret ≠ 0 ∧ ∃ position ∈ after.touched, blePktSize ≤ position := by
  have layout := pkt_layout
  refine possibly_bind (possibly_whenever (fun _ => ?_) fun zero => absurd (by omega) zero)
  refine possibly_bind (possibly_rand 0 (Nat.zero_le _) (possibly_bind ?_))
  apply possibly_remainder (by omega)
  rw [Nat.zero_mod]
  refine possibly_bind (random_byte_possibly (newPayloadLen - 1) 0 (by omega) (by omega) ?_)
  refine possibly_pure (possibly_bind (possibly_save (possibly_bind (possibly_save_word ?_))))
  refine possibly_pure ⟨by omega, getLlDataPayload pktOffset + (newPayloadLen - 1), ?_, ?_⟩
  · simp [Store.putWord, Store.put]
  · simp only [blePktSize, blePktMaxLen]
    omega

theorem ll_data_leaves (store : Store) (layer : FuzzLayer)
    (long : 5 < (fieldOf store lenOffset).toNat)
    (tight : 253 < (fieldOf store maxPayloadLenOffset).toNat) :
    Possibly (llDataMutator layer) store
      fun ret after => ret ≠ 0 ∧ ∃ position ∈ after.touched, blePktSize ≤ position := by
  have bound := clamp_bound tight
  refine possibly_bind (possibly_load_field ?_)
  apply possibly_if (fun short => absurd (le_of_field_le short) (Nat.not_le.mpr long))
  intro _
  refine possibly_bind (possibly_load_field ?_)
  rw [field_of_touch]
  generalize (clamp (fieldOf store maxPayloadLenOffset)).toNat = limit at bound ⊢
  refine possibly_bind (possibly_rand (limit - 1) (by simp only [randMax]; omega) ?_)
  refine possibly_bind (possibly_remainder (by omega) ?_)
  rw [Nat.mod_eq_of_lt (by omega), Nat.sub_add_cancel (by omega)]
  refine possibly_bind (random_byte_possibly 0 0 (by decide) (by decide) ?_)
  exact mutate_payload_leaves _ _ limit (by omega) (by omega)

theorem ll_advertising_leaves (store : Store) (long : 5 < (fieldOf store lenOffset).toNat)
    (tight : 253 < (fieldOf store maxPayloadLenOffset).toNat) :
    Possibly llAdvertisingMutator store
      fun ret after => ret ≠ 0 ∧ ∃ position ∈ after.touched, blePktSize ≤ position := by
  have bound := clamp_bound tight
  refine possibly_bind (possibly_load_field ?_)
  apply possibly_if (fun short => absurd (le_of_field_le short) (Nat.not_le.mpr long))
  intro _
  refine possibly_bind (possibly_load_field ?_)
  rw [field_of_touch]
  generalize (clamp (fieldOf store maxPayloadLenOffset)).toNat = limit at bound ⊢
  refine possibly_bind (possibly_rand 50 (by decide) (possibly_bind ?_))
  refine possibly_if (fun _ => ?_) fun absent => absurd (by decide) absent
  refine possibly_bind (possibly_rand (limit - 1) (by simp only [randMax]; omega) ?_)
  refine possibly_bind (possibly_remainder (by omega) (possibly_pure ?_))
  rw [Nat.mod_eq_of_lt (by omega), Nat.sub_add_cancel (by omega)]
  refine possibly_bind (random_byte_possibly 0 0 (by decide) (by decide) ?_)
  exact mutate_payload_leaves _ _ limit (by omega) (by omega)

theorem random_mutate_pkt_leaves (store : Store) (idx : Nat)
    (long : 5 < (fieldOf store lenOffset).toNat)
    (tight : 253 < (fieldOf store maxPayloadLenOffset).toNat) :
    Possibly (mutatePkt idx) store
      fun _ after => ∃ position ∈ after.touched, blePktSize ≤ position := by
  refine possibly_bind (possibly_rand 0 (Nat.zero_le _) ?_)
  refine possibly_if (fun skip => absurd skip (by decide)) fun _ => possibly_bind ?_
  have body : Possibly (do
      if ← isDataPacket then llDataMutator (← getUpperLayerTypeForZephyr)
      else llAdvertisingMutator : Program Rand Nat) store
      fun ret after => ret ≠ 0 ∧ ∃ position ∈ after.touched, blePktSize ≤ position := by
    refine possibly_bind (possibly_bind (possibly_load_field (possibly_pure ?_)))
    refine possibly_if (fun _ => possibly_bind ?_) fun _ => ?_
    · apply (upper_layer_type_possibly _).mono
      intro layer after parsed
      have sameField (offset : Nat) : fieldOf after offset = fieldOf store offset :=
        field_of_congr parsed.2 _
      exact ll_data_leaves after layer (by rwa [sameField]) (by rwa [sameField])
    · exact ll_advertising_leaves _ long tight
  apply body.mono
  rintro ret after ⟨nonzero, position, member, outside⟩
  refine possibly_bind (possibly_whenever (fun _ => possibly_save_word (possibly_pure ?_))
    fun zero => absurd nonzero zero)
  exact ⟨position, List.mem_append_right _ member, outside⟩

end Random

section Afl4

open MutatorAfl4

theorem drawn_len (payloadLen : Nat) (small : payloadLen ≤ 255) :
    (UInt32.ofNat (payloadLen + 2 + 3)).toNat = payloadLen + 5 := by
  rw [UInt32.toNat_ofNat']
  exact Nat.mod_eq_of_lt (by omega)

theorem afl_mutate_strategy_reach (store : Store)
    (roomy : (fieldOf store maxPayloadLenOffset).toNat ≤ 250) :
    ConfinedFrom store packetReach Set.univ mutateStrategy := by
  have layout := pkt_layout
  have lenReach (value : UInt32) : Confined packetReach Set.univ (saveField lenOffset value) :=
    confined_save_field value (field_reach lenOffset (by decide)) fun _ _ => Set.mem_univ _
  have limit := (clamp_le (fieldOf store maxPayloadLenOffset)).2
  apply confined_load_field_bind (field_reach maxPayloadLenOffset (by decide))
  intro middle _
  refine confined_bind confined_rand (fun _ => confined_remainder_bind fun payloadLen below => ?_)
    middle
  intro current
  have stored : Ensures (saveField lenOffset (UInt32.ofNat (payloadLen + 2 + 3))) current
      (fun _ after => after = putField current lenOffset (UInt32.ofNat (payloadLen + 2 + 3)))
      fun _ _ => True := ensures_save_word rfl
  apply confined_from_bind (lenReach _ current) stored
  rintro _ after rfl
  apply confined_load_field_bind (field_reach lenOffset (by decide))
  intro last _
  rw [field_of_put_field]
  have span := drawn_len payloadLen (by omega)
  have inside : region pktOffset (UInt32.ofNat (payloadLen + 2 + 3)).toNat ⊆ packetReach :=
    region_reach (by simp only [blePktSize, blePktMaxLen]; omega)
  refine confined_bind ((afl_mutate_havoc_confined _ _).mono inside (Set.subset_univ _))
    (fun _ => ?_) last
  refine confined_bind (lenReach _) fun _ => confined_bind ?_ fun _ => confined_pure 1
  exact confined_save_field 1 (field_reach mutatedOffset (by decide)) fun _ _ => Set.mem_univ _

theorem afl_mutate_pkt_reach (store : Store) (idx : Nat)
    (roomy : (fieldOf store maxPayloadLenOffset).toNat ≤ 250) :
    ConfinedFrom store packetReach Set.univ (mutatePkt idx) := by
  have field (offset : Nat) (header : offset + 4 ≤ blePktSize) :
      Confined packetReach Set.univ (loadField offset) :=
    confined_load_field (field_reach offset header)
  have body := afl_mutate_strategy_reach store roomy
  apply confined_from_bind body body
  intro result after _
  refine confined_bind (field lenOffset (by decide)) (fun len => ?_) after
  apply confined_bind (field maxPayloadLenOffset (by decide))
  intro maxPayloadLen
  refine confined_bind (confined_whenever fun _ => ?_) fun _ => confined_pure result
  exact confined_save_field _ (field_reach lenOffset (by decide)) fun _ _ => Set.mem_univ _

theorem afl_mutate_pkt_leaves (store : Store) (idx : Nat)
    (tight : 250 < (fieldOf store maxPayloadLenOffset).toNat) :
    Possibly (mutatePkt idx) store
      fun _ after => ∃ position ∈ after.touched, blePktSize ≤ position := by
  have layout := pkt_layout
  have bound := clamp_bound tight
  refine possibly_bind (possibly_bind (possibly_load_field ?_))
  generalize (clamp (fieldOf store maxPayloadLenOffset)).toNat = limit at bound ⊢
  refine possibly_bind (possibly_rand limit (by simp only [randMax]; omega) ?_)
  refine possibly_bind (possibly_remainder (Nat.succ_pos limit) ?_)
  rw [Nat.mod_eq_of_lt (Nat.lt_succ_self limit)]
  have span := drawn_len limit bound.2
  refine possibly_bind (possibly_save_word (possibly_bind (possibly_load_field ?_)))
  have stored (current : Store) :
      fieldOf (current.putWord 4 (packetAddress + lenOffset)
        (UInt32.ofNat (limit + 2 + 3)).toBitVec) lenOffset = UInt32.ofNat (limit + 2 + 3) :=
    field_of_put_field current lenOffset _
  rw [stored, span]
  -- one round, which flips a bit of the last byte
  refine possibly_bind (possibly_bind (possibly_rand 0 (Nat.zero_le _) ?_))
  rw [Nat.zero_mod]
  refine possibly_bind (possibly_bind (possibly_rand 0 (Nat.zero_le _) ?_))
  refine possibly_whenever (fun _ => ?_) fun zero => absurd (by omega) zero
  refine possibly_bind (possibly_rand ((limit + 5) * 8 - 1) (by simp only [randMax]; omega) ?_)
  refine possibly_bind (possibly_remainder (by omega) ?_)
  rw [Nat.mod_eq_of_lt (by omega)]
  refine possibly_bind (possibly_load (possibly_save (possibly_pure ?_)))
  refine possibly_bind (possibly_save_word (possibly_bind (possibly_save_word (possibly_pure ?_))))
  refine possibly_bind (possibly_load_field (possibly_bind (possibly_load_field ?_)))
  have last : ((limit + 5) * 8 - 1) / 8 = limit + 4 := by omega
  rw [last]
  refine possibly_bind (possibly_whenever (fun _ => possibly_save_word (possibly_pure ?_))
    fun _ => possibly_pure ?_)
  all_goals
    refine ⟨pktOffset + (limit + 4), by simp [Store.putWord, Store.put, Store.touch], ?_⟩
    simp only [blePktSize, blePktMaxLen]
    omega

end Afl4

section FullStack2

open MutatorFullStack2

/-- `mutate_pkt` confined to its link layer and L2CAP mutators. -/
def runLowerLayers : Option LayerMutator → Program Rand Nat
  | some .att | some .sm => pure 0
  | chosen => runLayerMutator chosen

/-- The lengths a packet can have when a layer mutator runs. -/
abbrev MutableLen (len : UInt32) : Prop := 5 ≤ len.toNat ∧ len.toNat ≤ 258

theorem len_and_payload_reach {span : Nat} (fits : span ≤ blePktMaxLen) :
    lenField ∪ region pktOffset span ⊆ packetReach :=
  Set.union_subset (region_reach (by decide)) (region_reach (Nat.add_le_add_left fits _))

theorem packet_span_le {len : UInt32} (mutable : MutableLen len) :
    packetSpan len ≤ blePktMaxLen := by
  have small := payload_len_of_small len mutable.1 (by omega)
  unfold packetSpan blePktMaxLen
  omega

theorem record_fields_reach {len : UInt32} (mutable : MutableLen len) :
    lenField ∪ recordFields len ⊆ packetReach := by
  have small := payload_len_of_small len mutable.1 (by omega)
  have start : getAttOpcode packetAddress = 6 := rfl
  apply Set.union_subset (region_reach (by decide)) (region_reach _)
  simp only [blePktSize, blePktMaxLen]
  omega

theorem run_layer_mutator_reach (store : Store) (chosen : Option LayerMutator)
    (mutable : MutableLen (fieldOf store lenOffset)) :
    ConfinedFrom store packetReach Set.univ (runLayerMutator chosen) := by
  have span := packet_span_le mutable
  have record := record_fields_reach mutable
  cases chosen with
  | none => exact confined_pure 0 store
  | some layer =>
      cases layer with
      | llData =>
          exact (ll_data_confined store).mono (len_and_payload_reach span) (Set.subset_univ _)
      | l2cap =>
          exact (l2cap_confined store).mono (len_and_payload_reach (Nat.max_le.mpr
            ⟨by decide, span⟩)) (Set.subset_univ _)
      | att => exact (att_confined store).mono record (Set.subset_univ _)
      | sm => exact (sm_confined store).mono record (Set.subset_univ _)
      | llAdvertising =>
          exact (ll_advertising_confined store).mono (len_and_payload_reach span)
            (Set.subset_univ _)

theorem run_lower_layers_reach (store : Store) (chosen : Option LayerMutator)
    (mutable : MutableLen (fieldOf store lenOffset)) :
    ConfinedFrom store packetReach Set.univ (runLowerLayers chosen) := by
  unfold runLowerLayers
  split
  · exact confined_pure 0 store
  · exact confined_pure 0 store
  · exact run_layer_mutator_reach store chosen mutable

theorem header_and_mark_reach (ret : Nat) (oldPayloadLen : UInt8) :
    Confined packetReach Set.univ
      (do rewriteHeaderLen; markMutated ret oldPayloadLen; return ret) := by
  have field : Confined packetReach Set.univ (loadField lenOffset) :=
    confined_load_field (field_reach lenOffset (by decide))
  refine confined_bind (confined_bind field fun _ => confined_save _ ?_ (Set.mem_univ _))
    fun _ => ?_
  · exact Set.mem_Iio.mpr (by decide)
  refine confined_bind (confined_bind field fun _ => confined_whenever fun _ => ?_)
    fun _ => confined_pure ret
  exact confined_save_field 1 (field_reach mutatedOffset (by decide)) fun _ _ => Set.mem_univ _

variable {run : Option LayerMutator → Program Rand Nat}

theorem mutate_strategy_reach
    (runs : ∀ store chosen, MutableLen (fieldOf store lenOffset) →
      ConfinedFrom store packetReach Set.univ (run chosen))
    (store : Store) (lower : 5 ≤ (fieldOf store lenOffset).toNat)
    (upper : (fieldOf store lenOffset).toNat ≤ 255)
    (limit : (fieldOf store maxPayloadLenOffset).toNat ≤ 253) :
    ConfinedFrom store packetReach Set.univ (mutateStrategyWith run) := by
  have fields : region maxPayloadLenOffset 4 ∪ lenField ⊆ packetReach :=
    Set.union_subset (region_reach (by decide)) (region_reach (by decide))
  have redraw := redraw_len_confined.mono fields (Set.subset_univ _)
  apply confined_from_bind (redraw store) (redraw_len_ensures store)
  rintro _ middle ⟨_, redrawn⟩
  have mutable : MutableLen (fieldOf middle lenOffset) := by
    have clamped := (clamp_le (fieldOf store maxPayloadLenOffset)).2
    rcases redrawn with same | ⟨payloadLen, below, sum⟩
    · rw [same]
      exact ⟨lower, by omega⟩
    · exact ⟨by omega, by omega⟩
  apply confined_load_field_bind (field_reach lenOffset (by decide))
  intro current same
  apply confined_from_read_bind (choose_layer_confined current)
  intro chosen parsed sameParsed
  have sameLen : fieldOf parsed lenOffset = fieldOf middle lenOffset :=
    field_of_congr (sameParsed.trans same) _
  have body := runs parsed chosen (by rwa [sameLen])
  exact confined_from_bind body body fun ret after _ => header_and_mark_reach ret _ after

theorem mutate_pkt_reach
    (runs : ∀ store chosen, MutableLen (fieldOf store lenOffset) →
      ConfinedFrom store packetReach Set.univ (run chosen))
    (store : Store) (config : PktselConfig) (idx : Nat)
    (lower : 5 ≤ (fieldOf store lenOffset).toNat) (upper : (fieldOf store lenOffset).toNat ≤ 255)
    (roomy : (fieldOf store lenOffset).toNat = 5 ∨ ¬Selectable config idx ∨
      (fieldOf store maxPayloadLenOffset).toNat ≤ 253) :
    ConfinedFrom store packetReach Set.univ (mutatePktWith run config idx) := by
  apply confined_load_field_bind (field_reach lenOffset (by decide))
  intro middle same
  have sameField (offset : Nat) : fieldOf middle offset = fieldOf store offset :=
    field_of_congr same _
  apply confined_from_if (fun _ => confined_pure _ middle)
  intro longer
  have long : (fieldOf store lenOffset).toNat ≠ 5 := fun five =>
    longer (UInt32.toNat_inj.mp five)
  have selector := should_mutate_store config idx middle
  by_cases selectable : Selectable config idx
  · have limit : (fieldOf store maxPayloadLenOffset).toNat ≤ 253 :=
      (roomy.resolve_left long).resolve_left fun never => never selectable
    refine confined_from_bind (selector.mono ?_ fun _ _ absurd => absurd.elim) selector ?_
    · rintro _ _ rfl
      exact Within.refl _ _ _
    intro selected after kept
    rw [kept]
    refine confined_from_if (fun _ => ?_) fun _ => confined_pure _ _
    exact mutate_strategy_reach runs middle (by rwa [sameField]) (by rwa [sameField])
      (by rwa [sameField])
  · have never := selector.both (not_selectable_never config idx middle selectable)
    refine confined_from_bind (never.mono ?_ fun _ _ absurd => absurd.1.elim) never ?_
    · rintro _ _ ⟨rfl, -⟩
      exact Within.refl _ _ _
    · rintro _ after ⟨-, rfl⟩
      exact confined_pure 0 after

theorem payload_of_long {len : UInt32} (long : 259 ≤ len.toNat) (narrow : len.toNat ≤ 260) :
    ¬llPayloadLen len ≤ 0 ∧ (llPayloadLen len).toNat ≤ 255 ∧ 254 ≤ (llPayloadLen len).toNat := by
  have small := payload_len_of_small len (by omega) (by omega)
  omega

/-- The end of the link layer mutators: the draw 99 passes over the header, and one
havoc round hits the last byte of the payload. -/
theorem last_byte_leaves {store : Store} {percent payloadLen : Nat} {header : Program Rand Unit}
    (payload : Nat) (start : payload = 26) (rare : percent ≤ 99) (long : 254 ≤ payloadLen)
    (narrow : payloadLen ≤ 255) :
    Possibly (do
        let choice ← rand
        whenever (choice % 100 < percent) header
        mutateHavoc payload payloadLen blePktMaxLen
        return 1) store
      fun _ after => ∃ position ∈ after.touched, blePktSize ≤ position := by
  have layout := pkt_layout
  apply possibly_bind
  apply possibly_rand 99 (by decide)
  apply possibly_bind
  apply possibly_whenever
  · intro chosen
    exact absurd chosen (Nat.not_lt.mpr rare)
  · intro _
    refine possibly_bind (havoc_possibly_replaces payload payloadLen blePktMaxLen (payloadLen - 1) 0
      store narrow (by omega) (by omega) (by omega) (possibly_pure ?_))
    refine ⟨payload + (payloadLen - 1), List.mem_cons_self .., ?_⟩
    simp only [blePktSize, blePktMaxLen]
    omega

theorem ll_data_leaves_fields (store : Store) (long : 259 ≤ (fieldOf store lenOffset).toNat)
    (narrow : (fieldOf store lenOffset).toNat ≤ 260) :
    Possibly llDataMutator store fun _ after =>
      ∃ position ∈ after.touched, blePktSize ≤ position := by
  obtain ⟨positive, upper, lower⟩ := payload_of_long long narrow
  apply possibly_bind
  apply possibly_load_field
  apply possibly_if
  · exact fun empty => absurd empty positive
  · exact fun _ => last_byte_leaves _ rfl (by decide) lower upper

theorem ll_advertising_leaves_fields (store : Store)
    (long : 259 ≤ (fieldOf store lenOffset).toNat)
    (narrow : (fieldOf store lenOffset).toNat ≤ 260) :
    Possibly llAdvertisingMutator store fun _ after =>
      ∃ position ∈ after.touched, blePktSize ≤ position := by
  obtain ⟨positive, upper, lower⟩ := payload_of_long long narrow
  apply possibly_bind
  apply possibly_load_field
  apply possibly_if
  · exact fun empty => absurd empty positive
  · exact fun _ => last_byte_leaves _ rfl (by decide) lower upper

theorem choose_layer_lowest (store : Store) :
    Possibly chooseLayerMutator store fun chosen after =>
      (chosen = some .llData ∨ chosen = some .llAdvertising) ∧ after.memory = store.memory := by
  refine possibly_bind (possibly_bind (possibly_load_field (possibly_pure ?_)))
  refine possibly_if (fun _ => possibly_bind ?_) fun _ => possibly_pure ⟨.inr rfl, rfl⟩
  apply (upper_layer_type_possibly _).mono
  intro layer after parsed
  refine possibly_bind (possibly_rand 0 (Nat.zero_le _) (possibly_pure ⟨.inl ?_, parsed.2⟩))
  cases layer <;> rfl

theorem redraw_len_longest (store : Store)
    (tight : 253 < (fieldOf store maxPayloadLenOffset).toNat) :
    Possibly redrawLen store fun _ after =>
      259 ≤ (fieldOf after lenOffset).toNat ∧ (fieldOf after lenOffset).toNat ≤ 260 := by
  have bound := clamp_bound tight
  refine possibly_bind (possibly_rand 0 (Nat.zero_le _) ?_)
  refine possibly_bind (possibly_load_field ?_)
  generalize (clamp (fieldOf store maxPayloadLenOffset)).toNat = limit at bound ⊢
  refine possibly_bind (possibly_rand limit (by simp only [randMax]; omega) ?_)
  refine possibly_bind (possibly_remainder (Nat.succ_pos limit) ?_)
  rw [Nat.mod_eq_of_lt (Nat.lt_succ_self limit)]
  apply possibly_save_word
  have span := drawn_len limit bound.2
  have stored (current : Store) :
      fieldOf (current.putWord 4 (packetAddress + lenOffset)
        (UInt32.ofNat (limit + 2 + 3)).toBitVec) lenOffset = UInt32.ofNat (limit + 2 + 3) :=
    field_of_put_field current lenOffset _
  rw [stored, span]
  omega

theorem mutate_pkt_leaves (runsData : run (some .llData) = llDataMutator)
    (runsAdvertising : run (some .llAdvertising) = llAdvertisingMutator) (store : Store)
    (config : PktselConfig) (idx : Nat) (long : (fieldOf store lenOffset).toNat ≠ 5)
    (selectable : Selectable config idx)
    (tight : 253 < (fieldOf store maxPayloadLenOffset).toNat) :
    Possibly (mutatePktWith run config idx) store fun _ after =>
      ∃ position ∈ after.touched, blePktSize ≤ position := by
  refine possibly_bind (possibly_load_field ?_)
  apply possibly_if (fun five => absurd (congrArg UInt32.toNat five) long)
  intro _
  refine possibly_bind ((selectable_possibly config idx _ selectable).mono ?_)
  rintro _ _ ⟨rfl, rfl⟩
  refine possibly_bind ((redraw_len_longest _ (by rwa [field_of_touch])).mono ?_)
  rintro _ middle ⟨lower, upper⟩
  refine possibly_bind (possibly_load_field (possibly_bind ?_))
  apply (choose_layer_lowest (middle.touch _)).mono
  rintro chosen parsed ⟨layer, same⟩
  have sameLen : fieldOf parsed lenOffset = fieldOf middle lenOffset :=
    field_of_congr same _
  have body : Possibly (run chosen) parsed fun _ after =>
      ∃ position ∈ after.touched, blePktSize ≤ position := by
    rw [← sameLen] at lower upper
    rcases layer with rfl | rfl
    · rw [runsData]
      exact ll_data_leaves_fields parsed lower upper
    · rw [runsAdvertising]
      exact ll_advertising_leaves_fields parsed lower upper
  refine possibly_bind (body.mono ?_)
  rintro ret after ⟨position, member, outside⟩
  refine possibly_bind (possibly_bind (possibly_load_field (possibly_save ?_)))
  refine possibly_bind (possibly_bind (possibly_load_field ?_))
  refine possibly_whenever (fun _ => possibly_save_word (possibly_pure ?_))
    fun _ => possibly_pure ?_
  all_goals
    refine ⟨position, ?_, outside⟩
    simp [Store.putWord, Store.put, Store.touch, member]

end FullStack2

theorem full_stack_stays_iff {run : Option MutatorFullStack2.LayerMutator → Program Rand Nat}
    (runs : ∀ store chosen, MutableLen (fieldOf store lenOffset) →
      ConfinedFrom store packetReach Set.univ (run chosen))
    (runsData : run (some .llData) = MutatorFullStack2.llDataMutator)
    (runsAdvertising : run (some .llAdvertising) = MutatorFullStack2.llAdvertisingMutator)
    (packet : BlePkt) (beyond : Memory) (config : PktselConfig) (idx : Nat)
    (lower : 5 ≤ packet.len.toNat) (upper : packet.len.toNat ≤ 255) :
    StaysInside (MutatorFullStack2.mutatePktWith run config idx) packet beyond ↔
      packet.len.toNat = 5 ∨ ¬Selectable config idx ∨ packet.maxPayloadLen.toNat ≤ 253 := by
  obtain ⟨placedLen, placedLimit, -⟩ := place_field packet beyond
  rw [← placedLen] at lower upper
  rw [← placedLen, ← placedLimit]
  constructor
  · intro stays
    by_contra leaves
    push Not at leaves
    exact leaves_of_possibly (mutate_pkt_leaves runsData runsAdvertising _ config idx leaves.1
      leaves.2.1 leaves.2.2) stays
  · intro roomy
    exact stays_inside_of_confined (mutate_pkt_reach runs _ config idx lower upper roomy)

theorem random_stays_iff (packet : BlePkt) (beyond : Memory) (idx : Nat)
    (lower : 5 ≤ packet.len.toNat) (upper : packet.len.toNat ≤ 255) :
    StaysInside (MutatorRandom.mutatePkt idx) packet beyond ↔
      packet.len.toNat = 5 ∨ packet.maxPayloadLen.toNat ≤ 253 := by
  obtain ⟨placedLen, placedLimit, -⟩ := place_field packet beyond
  rw [← placedLen] at lower upper
  rw [← placedLen, ← placedLimit]
  constructor
  · intro stays
    by_contra leaves
    push Not at leaves
    exact leaves_of_possibly (random_mutate_pkt_leaves _ idx (by omega) leaves.2) stays
  · intro roomy
    exact stays_inside_of_confined (random_mutate_pkt_reach _ idx upper
      (roomy.imp_left Nat.le_of_eq))

theorem afl_stays_iff (packet : BlePkt) (beyond : Memory) (idx : Nat) :
    StaysInside (MutatorAfl4.mutatePkt idx) packet beyond ↔ packet.maxPayloadLen.toNat ≤ 250 := by
  obtain ⟨-, placedLimit, -⟩ := place_field packet beyond
  rw [← placedLimit]
  constructor
  · intro stays
    by_contra leaves
    exact leaves_of_possibly (afl_mutate_pkt_leaves _ idx (Nat.lt_of_not_le leaves)) stays
  · intro roomy
    exact stays_inside_of_confined (afl_mutate_pkt_reach _ idx roomy)

/-- Under each condition, and under no other, no random stream takes a packet of
length 5 to 255 past the end of `pkt->pkt`. The field-aware mutator is treated
with and without its two upper layers. -/
theorem stays_inside_iff (packet : BlePkt) (beyond : Memory) (config : PktselConfig) (idx : Nat)
    (lower : 5 ≤ packet.len.toNat) (upper : packet.len.toNat ≤ 255) :
    (StaysInside (MutatorFullStack2.mutatePktWith runLowerLayers config idx) packet beyond ↔
        packet.len.toNat = 5 ∨ ¬Selectable config idx ∨ packet.maxPayloadLen.toNat ≤ 253) ∧
      (StaysInside (MutatorFullStack2.mutatePkt config idx) packet beyond ↔
        packet.len.toNat = 5 ∨ ¬Selectable config idx ∨ packet.maxPayloadLen.toNat ≤ 253) ∧
      (StaysInside (MutatorRandom.mutatePkt idx) packet beyond ↔
        packet.len.toNat = 5 ∨ packet.maxPayloadLen.toNat ≤ 253) ∧
      (StaysInside (MutatorAfl4.mutatePkt idx) packet beyond ↔
        packet.maxPayloadLen.toNat ≤ 250) :=
  ⟨full_stack_stays_iff run_lower_layers_reach rfl rfl packet beyond config idx lower upper,
    full_stack_stays_iff run_layer_mutator_reach rfl rfl packet beyond config idx lower upper,
    random_stays_iff packet beyond idx lower upper, afl_stays_iff packet beyond idx⟩

theorem mtu_request_stays_inside :
    StaysInside (MutatorFullStack2.mutatePktWith runLowerLayers mixedConfig 0) mtuRequest zeros ∧
      StaysInside (MutatorRandom.mutatePkt 0) mtuRequest zeros ∧
      StaysInside (MutatorAfl4.mutatePkt 0) mtuRequest zeros :=
  have iffs := stays_inside_iff mtuRequest zeros mixedConfig 0 (by decide) (by decide)
  ⟨iffs.1.mpr (.inr (.inr (by decide))), iffs.2.2.1.mpr (.inr (by decide)),
    iffs.2.2.2.mpr (by decide)⟩

/-- A connection that allows payloads of 255 bytes is enough for all three. -/
theorem long_connection_leaves :
    ¬StaysInside (MutatorFullStack2.mutatePktWith runLowerLayers mixedConfig 0)
        { mtuRequest with maxPayloadLen := 255 } zeros ∧
      ¬StaysInside (MutatorRandom.mutatePkt 0) { mtuRequest with maxPayloadLen := 255 } zeros ∧
      ¬StaysInside (MutatorAfl4.mutatePkt 0) { mtuRequest with maxPayloadLen := 255 } zeros := by
  obtain ⟨placedLen, placedLimit, -⟩ := place_field { mtuRequest with maxPayloadLen := 255 } zeros
  have len : (fieldOf (place { mtuRequest with maxPayloadLen := 255 } zeros) lenOffset).toNat = 12 := by
    rw [placedLen]
    rfl
  have limit : (fieldOf (place { mtuRequest with maxPayloadLen := 255 } zeros)
      maxPayloadLenOffset).toNat = 255 := by
    rw [placedLimit]
    rfl
  refine ⟨leaves_of_possibly ?_, leaves_of_possibly ?_, leaves_of_possibly ?_⟩
  · exact mutate_pkt_leaves rfl rfl _ mixedConfig 0 (by omega) trivial (by omega)
  · exact random_mutate_pkt_leaves _ 0 (by omega) (by omega)
  · exact afl_mutate_pkt_leaves _ 0 (by omega)

end Blueman.MutatorBounds
