import Blueman.MutatorFullStack2

/-!
# What the field-aware mutator leaves alone

Three of the five layer mutators change nothing below `pkt->pkt`. The ATT and
SM mutators write from byte 6 of the record on, that is into `device_id`. The
frame of `mutate_pkt` therefore holds for every random stream exactly when no
stream takes a packet to one of these two with parameters to mutate.
-/

namespace Blueman.MutatorFullStack2Frame

open LittleEndian ByteMachine BlePacket MutateStrategy Mutator PacketSelection MutatorFullStack2

set_option autoImplicit false

abbrev lenField : Set Nat := region lenOffset 4

/-- Link layer header and payload of a packet of length `len`. -/
def packetSpan (len : UInt32) : Nat := 2 + (llPayloadLen len).toNat

theorem field_region (offset : Nat) (index : Nat) (inWord : index < 4) :
    offset + index ∈ region offset 4 := Set.mem_Ico.mpr ⟨by omega, by omega⟩

theorem ll_data_confined (store : Store) :
    ConfinedFrom store (lenField ∪ region pktOffset (packetSpan (fieldOf store lenOffset)))
      (region pktOffset (packetSpan (fieldOf store lenOffset))) llDataMutator := by
  refine confined_load_field_bind (fun index inWord => .inl (field_region _ _ inWord))
    fun middle _ => ?_
  generalize fieldOf store lenOffset = len
  apply confined_from_if (fun _ => confined_pure _ middle)
  intro positive
  have layout := pkt_layout
  have span : packetSpan len = 2 + (llPayloadLen len).toNat := rfl
  have header : region (getLlDataHeader pktOffset) 2 ⊆ region pktOffset (packetSpan len) :=
    region_subset (by omega) (by omega)
  have payload : region (getLlDataPayload pktOffset) (llPayloadLen len).toNat ⊆
      region pktOffset (packetSpan len) := region_subset (by omega) (by omega)
  have bits (S N : Nat) (width : 0 < N) :
      Confined (lenField ∪ region pktOffset (packetSpan len)) (region pktOffset (packetSpan len))
        (mutateRandBits (getLlDataHeader pktOffset) 2 S N) :=
    Confined.mono (rand_bits_confined _ 2 S N width) (header.trans Set.subset_union_right) header
  refine confined_bind confined_rand (fun choice => ?_) middle
  refine confined_bind (confined_whenever fun _ => ?_) fun _ => ?_
  · exact confined_bind (bits 6 2 (by decide)) fun _ => bits 0 4 (by decide)
  · refine confined_bind ?_ fun _ => confined_pure _
    exact Confined.mono (havoc_confined _ _ _) (payload.trans Set.subset_union_right) payload

theorem ll_advertising_confined (store : Store) :
    ConfinedFrom store (lenField ∪ region pktOffset (packetSpan (fieldOf store lenOffset)))
      (region pktOffset (packetSpan (fieldOf store lenOffset))) llAdvertisingMutator := by
  refine confined_load_field_bind (fun index inWord => .inl (field_region _ _ inWord))
    fun middle _ => ?_
  generalize fieldOf store lenOffset = len
  apply confined_from_if (fun _ => confined_pure _ middle)
  intro positive
  have layout := pkt_layout
  have span : packetSpan len = 2 + (llPayloadLen len).toNat := rfl
  have header : region (getLlAdvHeader pktOffset) 2 ⊆ region pktOffset (packetSpan len) :=
    region_subset (by omega) (by omega)
  have payload : region (getLlAdvPayload pktOffset) (llPayloadLen len).toNat ⊆
      region pktOffset (packetSpan len) := region_subset (by omega) (by omega)
  refine confined_bind confined_rand (fun choice => ?_) middle
  refine confined_bind (confined_whenever fun _ => ?_) fun _ => ?_
  · exact Confined.mono (rand_bits_confined _ 2 4 4 (by decide))
      (header.trans Set.subset_union_right) header
  · refine confined_bind ?_ fun _ => confined_pure _
    exact Confined.mono (havoc_confined _ _ _) (payload.trans Set.subset_union_right) payload

theorem shortened_ensures (shorten payloadLen : Nat) (store : Store) :
    Ensures (if shorten % 100 < 20 then do remainder (← rand) (payloadLen + 1)
        else pure payloadLen : Program Rand Nat) store
      (fun drawnLen after => drawnLen ≤ payloadLen ∧ after = store) fun _ after => after = store := by
  refine ensures_if (fun _ => ensures_bind (ensures_rand fun _ _ => ?_))
    fun _ => ensures_pure ⟨Nat.le_refl _, rfl⟩
  exact ensures_remainder (fun _ => rfl)
    fun positive => ⟨Nat.le_of_lt_succ (Nat.mod_lt _ positive), rfl⟩

/-- The channel identifier and the L2CAP payload of a packet of length `len`. -/
abbrev l2capFields (len : UInt32) : Set Nat :=
  region (getL2capHeader pktOffset + 2) ((llPayloadLen len).toNat - 2)

/-- The L2CAP mutator reads the channel identifier before it knows that the
packet is long enough to hold one. -/
theorem l2cap_fields_confined (store : Store) :
    ConfinedFrom store
      (lenField ∪ region pktOffset (max 6 (packetSpan (fieldOf store lenOffset))))
      (l2capFields (fieldOf store lenOffset)) l2capMutator := by
  refine confined_load_field_bind (fun index inWord => .inl (field_region _ _ inWord))
    fun middle _ => ?_
  generalize fieldOf store lenOffset = len
  have layout := pkt_layout
  have span : packetSpan len = 2 + (llPayloadLen len).toNat := rfl
  have wider : l2capFields len ⊆ region pktOffset (max 6 (packetSpan len)) :=
    region_subset (by omega) (by omega)
  refine confined_bind (confined_load_word fun index inWord => ?_) (fun _ => ?_) middle
  · exact .inr (Set.mem_Ico.mpr ⟨by omega, by omega⟩)
  apply confined_if (fun _ => confined_pure _)
  intro positive
  apply confined_bind confined_rand
  intro shorten current
  have drawn := shortened_ensures shorten (llPayloadLen len - l2capHeaderLen).toNat current
  refine confined_from_bind (drawn.mono ?_ ?_) drawn ?_
  · rintro _ after ⟨-, rfl⟩
    exact Within.refl _ _ _
  · rintro _ after rfl
    exact Within.refl _ _ _
  rintro newPayloadLen after ⟨fits, -⟩
  apply confined_from_if (fun _ => confined_pure _ after)
  intro _
  have cid (index : Nat) (inWord : index < 2) :
      getL2capHeader pktOffset + 2 + index ∈ l2capFields len :=
    Set.mem_Ico.mpr ⟨by omega, by omega⟩
  have payload : region (getL2capPayload pktOffset) newPayloadLen ⊆ l2capFields len :=
    region_subset (by omega) (by omega)
  refine confined_bind confined_rand (fun redirect => ?_) after
  refine confined_bind (confined_whenever fun _ => ?_) fun _ => ?_
  · refine confined_bind confined_rand fun _ => confined_bind (confined_lookup _ _) fun _ => ?_
    exact confined_save_word _ (fun index inWord => .inr (wider (cid index inWord))) cid
  · refine confined_bind ?_ fun _ => confined_pure _
    exact Confined.mono (havoc_confined _ _ _)
      ((payload.trans wider).trans Set.subset_union_right) payload

theorem l2cap_confined (store : Store) :
    ConfinedFrom store
      (lenField ∪ region pktOffset (max 6 (packetSpan (fieldOf store lenOffset))))
      (region pktOffset (packetSpan (fieldOf store lenOffset))) l2capMutator := by
  apply (l2cap_fields_confined store).mono (Set.Subset.refl _)
  intro position member
  have layout := pkt_layout
  have span : packetSpan (fieldOf store lenOffset) =
      2 + (llPayloadLen (fieldOf store lenOffset)).toNat := rfl
  obtain ⟨lower, upper⟩ := Set.mem_Ico.mp member
  exact Set.mem_Ico.mpr ⟨by omega, by omega⟩

theorem l2cap_short_confined (store : Store)
    (short : llPayloadLen (fieldOf store lenOffset) ≤ 4) :
    ConfinedFrom store Set.univ ∅ l2capMutator := by
  apply confined_load_field_bind (fun _ _ => Set.mem_univ _)
  intro middle _
  apply confined_bind (confined_load_word fun _ _ => Set.mem_univ _) (fun _ => ?_) middle
  apply confined_if (fun _ => confined_pure _)
  intro positive
  have header : l2capHeaderLen = 4 := rfl
  omega

/-- The bytes of the record that the ATT and the SM mutator take for opcode and
parameters of a packet of length `len`. -/
abbrev recordFields (len : UInt32) : Set Nat :=
  region (getAttOpcode packetAddress) ((llPayloadLen len).toNat - 4)

theorem overwrite_confined {condition : Nat → Prop} [DecidablePred condition]
    {write : Program Rand Unit} {reach changed : Set Nat} (written : Confined reach changed write)
    {payload payloadLen : Nat} (reads : region payload payloadLen ⊆ reach)
    (writes : region payload payloadLen ⊆ changed) :
    Confined reach changed (do
      let choice ← rand
      whenever (condition choice) write
      mutateHavoc payload payloadLen blePktMaxLen
      return 1 : Program Rand Nat) := by
  apply confined_bind confined_rand
  intro _
  apply confined_bind (confined_whenever fun _ => written)
  intro _
  apply confined_bind _ fun _ => confined_pure _
  exact (havoc_confined _ _ _).mono reads writes

theorem att_confined (store : Store) :
    ConfinedFrom store (lenField ∪ recordFields (fieldOf store lenOffset))
      (recordFields (fieldOf store lenOffset)) attMutator := by
  apply confined_load_field_bind fun index inWord => .inl (field_region _ _ inWord)
  intro middle _
  generalize fieldOf store lenOffset = len
  apply confined_from_if (fun _ => confined_pure _ middle)
  intro positive
  have header : l2capHeaderLen = 4 ∧ attOpcodeLen = 1 ∧ getAttOpcode packetAddress = 6 ∧
      getAttParams packetAddress = 7 := ⟨rfl, rfl, rfl, rfl⟩
  have opcode : getAttOpcode packetAddress ∈ recordFields len :=
    Set.mem_Ico.mpr ⟨by omega, by omega⟩
  have params : region (getAttParams packetAddress)
      (llPayloadLen len - l2capHeaderLen - attOpcodeLen).toNat ⊆ recordFields len :=
    region_subset (by omega) (by omega)
  apply overwrite_confined _ (params.trans Set.subset_union_right) params middle
  apply confined_bind confined_rand
  intro _
  apply confined_bind (confined_lookup _ _)
  intro _
  exact confined_save _ (.inr opcode) opcode

theorem sm_confined (store : Store) :
    ConfinedFrom store (lenField ∪ recordFields (fieldOf store lenOffset))
      (recordFields (fieldOf store lenOffset)) smMutator := by
  apply confined_load_field_bind fun index inWord => .inl (field_region _ _ inWord)
  intro middle _
  generalize fieldOf store lenOffset = len
  apply confined_from_if (fun _ => confined_pure _ middle)
  intro positive
  have header : l2capHeaderLen = 4 ∧ smCodeLen = 1 ∧ getAttOpcode packetAddress = 6 ∧
      getSmCode packetAddress = 6 ∧ getSmData packetAddress = 7 := ⟨rfl, rfl, rfl, rfl, rfl⟩
  have code : getSmCode packetAddress ∈ recordFields len := Set.mem_Ico.mpr ⟨by omega, by omega⟩
  have data : region (getSmData packetAddress)
      (llPayloadLen len - l2capHeaderLen - smCodeLen).toNat ⊆ recordFields len :=
    region_subset (by omega) (by omega)
  apply overwrite_confined _ (data.trans Set.subset_union_right) data middle
  apply confined_bind confined_rand
  intro _
  exact confined_save _ (.inr code) code

theorem redraw_len_confined :
    Confined (region maxPayloadLenOffset 4 ∪ lenField) lenField redrawLen := by
  apply confined_bind confined_rand
  intro _
  apply confined_whenever
  intro _
  apply confined_bind (confined_load_field fun index inWord => .inl (field_region _ _ inWord))
  intro _
  apply confined_bind confined_rand
  intro _
  apply confined_bind (confined_remainder _ _)
  intro _
  exact confined_save_field _ (fun index inWord => .inr (field_region _ _ inWord))
    (field_region lenOffset)

theorem choose_layer_confined : Confined (Set.Iio blePktSize) ∅ chooseLayerMutator := by
  have field (index : Nat) (inWord : index < 4) : addressOffset + index ∈ Set.Iio blePktSize :=
    Set.mem_Iio.mpr (Nat.lt_trans (Nat.add_lt_add_left inWord _) (by decide))
  apply confined_bind
  · exact confined_bind (confined_load_field field) fun _ => confined_pure _
  · intro isData
    apply confined_if _ fun _ => confined_pure _
    intro _
    apply confined_bind
    · apply upper_layer_type_confined
      intro index inHeader
      have layout : pktOffset + 6 < blePktSize := by decide
      exact Set.mem_Iio.mpr (by omega)
    · intro _
      exact confined_bind confined_rand fun _ => confined_pure _

theorem payload_region (length : Nat) : region pktOffset length ⊆ Set.Ici pktOffset :=
  fun _ member => (Set.mem_Ico.mp member).1

theorem att_short_confined (store : Store) (short : llPayloadLen (fieldOf store lenOffset) ≤ 5) :
    ConfinedFrom store Set.univ (Set.Ici pktOffset) attMutator := by
  apply confined_load_field_bind (fun _ _ => Set.mem_univ _)
  intro middle _
  refine confined_from_if (fun _ => confined_pure _ middle) fun positive => absurd ?_ positive
  have header : l2capHeaderLen = 4 ∧ attOpcodeLen = 1 := ⟨rfl, rfl⟩
  omega

theorem sm_short_confined (store : Store) (short : llPayloadLen (fieldOf store lenOffset) ≤ 5) :
    ConfinedFrom store Set.univ (Set.Ici pktOffset) smMutator := by
  apply confined_load_field_bind (fun _ _ => Set.mem_univ _)
  intro middle _
  refine confined_from_if (fun _ => confined_pure _ middle) fun positive => absurd ?_ positive
  have header : l2capHeaderLen = 4 ∧ smCodeLen = 1 := ⟨rfl, rfl⟩
  omega

theorem run_layer_mutator_confined (store : Store) (chosen : Option LayerMutator)
    (harmless : chosen = some .att ∨ chosen = some .sm →
      llPayloadLen (fieldOf store lenOffset) ≤ 5) :
    ConfinedFrom store Set.univ (Set.Ici pktOffset) (runLayerMutator chosen) := by
  cases chosen with
  | none => exact confined_pure 0 store
  | some layer =>
      cases layer with
      | llData =>
          exact (ll_data_confined store).mono (Set.subset_univ _) (payload_region _)
      | l2cap => exact (l2cap_confined store).mono (Set.subset_univ _) (payload_region _)
      | att => exact att_short_confined store (harmless (.inl rfl))
      | sm => exact sm_short_confined store (harmless (.inr rfl))
      | llAdvertising =>
          exact (ll_advertising_confined store).mono (Set.subset_univ _) (payload_region _)

theorem run_layer_mutator_faultless (chosen : Option LayerMutator) :
    Faultless (runLayerMutator chosen) := by
  have havoc (bytes bytesLen maxBytesLen : Nat) :
      Faultless (do mutateHavoc bytes bytesLen maxBytesLen; return 1) :=
    faultless_bind (havoc_faultless _ _ _) fun _ => faultless_pure _
  have bits (bytes S N : Nat) (width : N ≤ 8) : Faultless (mutateRandBits bytes 2 S N) :=
    rand_bits_faultless bytes 2 S N width
  cases chosen with
  | none => exact faultless_pure 0
  | some layer =>
      cases layer with
      | llData =>
          refine faultless_bind (load_field_faultless _) fun _ =>
            faultless_if (fun _ => faultless_pure _) fun _ => faultless_bind faultless_rand fun _ => ?_
          refine faultless_bind (faultless_whenever fun _ => ?_) fun _ => havoc _ _ _
          exact faultless_bind (bits _ 6 2 (by decide)) fun _ => bits _ 0 4 (by decide)
      | l2cap =>
          refine faultless_bind (load_field_faultless _) fun _ =>
            faultless_bind (faultless_load_word _ _) fun _ => faultless_if (fun _ => faultless_pure _) fun _ => ?_
          refine faultless_bind faultless_rand fun _ => faultless_bind ?_ fun _ => ?_
          · exact faultless_if (fun _ => faultless_bind faultless_rand fun _ =>
              faultless_remainder (Nat.succ_pos _)) fun _ => faultless_pure _
          refine faultless_if (fun _ => faultless_pure _) fun _ =>
            faultless_bind faultless_rand fun _ => ?_
          refine faultless_bind (faultless_whenever fun _ => ?_) fun _ => havoc _ _ _
          exact faultless_bind faultless_rand fun drawn => faultless_bind
            (faultless_lookup (Nat.mod_lt drawn (by decide))) fun _ => faultless_save_word _ _ _
      | att =>
          refine faultless_bind (load_field_faultless _) fun _ =>
            faultless_if (fun _ => faultless_pure _) fun _ => faultless_bind faultless_rand fun _ => ?_
          refine faultless_bind (faultless_whenever fun _ => ?_) fun _ => havoc _ _ _
          exact faultless_bind faultless_rand fun drawn => faultless_bind
            (faultless_lookup (Nat.mod_lt drawn (by decide))) fun _ => faultless_save _ _
      | sm =>
          refine faultless_bind (load_field_faultless _) fun _ =>
            faultless_if (fun _ => faultless_pure _) fun _ => faultless_bind faultless_rand fun _ => ?_
          refine faultless_bind (faultless_whenever fun _ => ?_) fun _ => havoc _ _ _
          exact faultless_bind faultless_rand fun _ => faultless_save _ _
      | llAdvertising =>
          refine faultless_bind (load_field_faultless _) fun _ =>
            faultless_if (fun _ => faultless_pure _) fun _ => faultless_bind faultless_rand fun _ => ?_
          exact faultless_bind (faultless_whenever fun _ =>
            rand_bits_faultless _ 2 4 4 (by decide)) fun _ => havoc _ _ _

def ParsedAbove (memory : Memory) : Prop :=
  fieldAt memory (packetAddress + addressOffset) ≠ advertisingAddress ∧
    (layerAt memory = .att ∨ layerAt memory = .sm)

theorem choose_layer_ensures (store : Store) :
    Ensures chooseLayerMutator store
      (fun chosen after => after.memory = store.memory ∧
        (chosen = some .att ∨ chosen = some .sm → ParsedAbove store.memory))
      fun _ _ => False := by
  refine ensures_bind (ensures_bind (ensures_load_field (ensures_pure ?_)))
  refine ensures_if (fun data => ?_) fun _ => ensures_pure ⟨rfl, by simp⟩
  refine ensures_bind ((upper_layer_type_ensures _).mono ?_ fun _ _ absurd => absurd)
  rintro layer after ⟨parsed, same⟩
  refine ensures_bind (ensures_rand fun drawn _ => ensures_pure ⟨same, fun above => ?_⟩)
  refine ⟨of_decide_eq_true data, ?_⟩
  have layerOf : layer = layerAt store.memory := parsed
  rw [← layerOf]
  unfold selectLayerMutator at above
  cases layer with
  | att => exact .inl rfl
  | sm => exact .inr rfl
  | ll | l2cap => split_ifs at above <;> simp at above

/-- The bytes below `pkt->pkt` that a mutation may change besides the length. -/
abbrev mutatedField : Set Nat := region mutatedOffset 4

theorem rewrite_header_len_confined :
    Confined Set.univ (Set.Ici pktOffset) rewriteHeaderLen := by
  apply confined_bind (confined_load_field fun _ _ => Set.mem_univ _)
  intro _
  exact confined_save _ (Set.mem_univ _) (Set.mem_Ici.mpr (by decide))

theorem mark_mutated_confined (ret : Nat) (oldPayloadLen : UInt8) :
    Confined Set.univ mutatedField (markMutated ret oldPayloadLen) := by
  apply confined_bind (confined_load_field fun _ _ => Set.mem_univ _)
  intro _
  exact confined_whenever fun _ => confined_save_field 1 (fun _ _ => Set.mem_univ _)
    fun index inWord => field_region mutatedOffset index inWord

theorem header_and_mark_confined (ret : Nat) (oldPayloadLen : UInt8) :
    Confined Set.univ (mutatedField ∪ Set.Ici pktOffset)
      (do rewriteHeaderLen; markMutated ret oldPayloadLen; return ret) :=
  confined_bind (rewrite_header_len_confined.mono (Set.subset_univ _) Set.subset_union_right)
    fun _ => confined_bind ((mark_mutated_confined ret oldPayloadLen).mono (Set.subset_univ _)
      Set.subset_union_left) fun _ => confined_pure ret

theorem header_and_mark_faultless (ret : Nat) (oldPayloadLen : UInt8) :
    Faultless (do rewriteHeaderLen; markMutated ret oldPayloadLen; return ret) := by
  apply faultless_bind (faultless_bind (load_field_faultless _) fun _ => faultless_save _ _)
  intro _
  refine faultless_bind (faultless_bind (load_field_faultless _) fun _ => ?_) fun _ => faultless_pure ret
  exact faultless_whenever fun _ => faultless_save_word _ _ _

/-- The length after the re-draw: as before, or a payload length up to the
limit with two header and three checksum bytes added. -/
def Redrawn (limit before after : UInt32) : Prop :=
  after = before ∨ ∃ payloadLen, payloadLen ≤ (clamp limit).toNat ∧ after.toNat = payloadLen + 5

theorem redraw_len_ensures (store : Store) :
    Ensures redrawLen store
      (fun _ after => Within Set.univ lenField store after ∧
        Redrawn (fieldOf store maxPayloadLenOffset) (fieldOf store lenOffset)
          (fieldOf after lenOffset))
      fun _ _ => False := by
  refine ensures_bind (ensures_rand fun choice _ => ?_)
  refine ensures_whenever (fun _ => ?_) fun _ => ⟨Within.refl _ _ _, .inl rfl⟩
  refine ensures_bind (ensures_load_field ?_)
  refine ensures_bind (ensures_rand fun drawn _ => ensures_bind ?_)
  apply ensures_remainder (fun zero => absurd zero (Nat.succ_ne_zero _))
  intro positive
  refine ensures_save_word ⟨?_, .inr ⟨_, Nat.le_of_lt_succ (Nat.mod_lt drawn positive), ?_⟩⟩
  · refine Within.trans (within_touch store (List.range' (packetAddress + maxPayloadLenOffset) 4)
      fun _ _ => Set.mem_univ _) ?_
    exact within_put_word _ 4 _ _ (fun _ _ => Set.mem_univ _)
      fun index inWord => by simpa [packetAddress] using field_region lenOffset index inWord
  · have bound := (clamp_le (fieldOf store maxPayloadLenOffset)).1
    have below := Nat.mod_lt drawn positive
    apply (congrArg UInt32.toNat (field_of_put_field _ lenOffset _)).trans
    rw [UInt32.toNat_ofNat']
    exact Nat.mod_eq_of_lt (by omega)

/-- What a mutation must keep: every field but `len` and `mutated`, and a length
within the limit of the packet or of its connection. -/
structure FrameKept (before after : BlePkt) : Prop where
  sid : after.sid = before.sid
  deviceId : after.deviceId = before.deviceId
  address : after.address = before.address
  maxPayloadLen : after.maxPayloadLen = before.maxPayloadLen
  lenLower : 5 ≤ after.len.toNat
  lenUpper : after.len.toNat ≤ max before.len.toNat (before.maxPayloadLen.toNat + 5)

/-- The packet is one that some draws hand, with parameters left to mutate, to
the ATT or the SM mutator. -/
structure ReachesRecord (config : PktselConfig) (idx : Nat) (packet : BlePkt) : Prop where
  long : packet.len.toNat ≠ 5
  selectable : Selectable config idx
  data : packet.address ≠ advertisingAddress
  layer : layerAt packet.image = .att ∨ layerAt packet.image = .sm
  room : 10 < packet.len.toNat ∨ 5 < packet.maxPayloadLen.toNat

theorem payload_len_of_small (len : UInt32) (lower : 5 ≤ len.toNat) (upper : len.toNat < 2 ^ 31) :
    llPayloadLen len = (len.toNat : Int) - 5 := by
  have difference : (len - 2 - 3).toNat = len.toNat - 5 := by
    rw [UInt32.toNat_sub, UInt32.toNat_sub]
    have two : (2 : UInt32).toNat = 2 := rfl
    have three : (3 : UInt32).toNat = 3 := rfl
    omega
  have signed : toInt32 (len - 2 - 3) = ((len - 2 - 3).toNat : Int) := by
    unfold toInt32
    rw [BitVec.toInt_eq_toNat_of_lt]
    · rfl
    · rw [UInt32.toNat_toBitVec, difference]
      omega
  rw [llPayloadLen, signed, difference]
  omega

theorem layer_at_congr {left right : Memory}
    (same : ∀ position, pktOffset ≤ position → position < blePktSize →
      left position = right position) : layerAt left = layerAt right := by
  have layout := pkt_layout
  have size : blePktSize = 279 := rfl
  have cid : readWord 2 left (getLlDataPayload pktOffset + 2) =
      readWord 2 right (getLlDataPayload pktOffset + 2) :=
    read_word_congr 2 left right _ _ fun index inWord => same _ (by omega) (by omega)
  unfold layerAt
  rw [same pktOffset (by omega) (by omega), same (pktOffset + 1) (by omega) (by omega), cid]

theorem frame_kept_of_within {before middle after : Store}
    (redraw : Within Set.univ lenField before middle)
    (redrawn : Redrawn (fieldOf before maxPayloadLenOffset) (fieldOf before lenOffset)
      (fieldOf middle lenOffset))
    (rest : Within Set.univ (mutatedField ∪ Set.Ici pktOffset) middle after)
    (lower : 5 ≤ (fieldOf before lenOffset).toNat) :
    FrameKept (recordOf before) (recordOf after) := by
  have outsideRest (offset index : Nat) (below : offset + index < pktOffset)
      (apart : offset + index < mutatedOffset ∨ mutatedOffset + 4 ≤ offset + index) :
      offset + index ∉ mutatedField ∪ Set.Ici pktOffset := by
    rintro (inField | inPacket)
    · have bounds := Set.mem_Ico.mp inField
      omega
    · exact absurd (Set.mem_Ici.mp inPacket) (Nat.not_le.mpr below)
  have kept (offset : Nat) (apart : (offset + 4 ≤ lenOffset ∨ lenOffset + 4 ≤ offset) ∧
      (offset + 4 ≤ mutatedOffset ∨ mutatedOffset + 4 ≤ offset) ∧ offset + 4 ≤ pktOffset) :
      fieldOf after offset = fieldOf before offset := by
    rw [within_field_of rest offset fun index inWord =>
      outsideRest offset index (by omega) (by omega)]
    apply within_field_of redraw offset
    intro index inWord inLen
    have bounds := Set.mem_Ico.mp inLen
    omega
  have lenKept : fieldOf after lenOffset = fieldOf middle lenOffset :=
    within_field_of rest lenOffset fun index inWord => outsideRest lenOffset index
      (by simp only [pktOffset, lenOffset]; omega) (.inr (by simp only [mutatedOffset, lenOffset]; omega))
  have sameLen : (recordOf after).len = fieldOf middle lenOffset := lenKept
  have limit := (clamp_le (fieldOf before maxPayloadLenOffset)).2
  refine ⟨kept 0 (by decide), kept deviceIdOffset (by decide), kept addressOffset (by decide),
    kept maxPayloadLenOffset (by decide), ?_, ?_⟩
  · rw [sameLen]
    rcases redrawn with same | ⟨payloadLen, _, sum⟩
    · rwa [same]
    · omega
  · rw [sameLen]
    change _ ≤ max (fieldOf before lenOffset).toNat ((fieldOf before maxPayloadLenOffset).toNat + 5)
    rcases redrawn with same | ⟨payloadLen, bound, sum⟩
    · rw [same]
      exact Nat.le_max_left _ _
    · omega

theorem parsed_above_of_within {before after : Store}
    (redraw : Within Set.univ lenField before after) :
    ParsedAbove before.memory ↔ ParsedAbove after.memory := by
  have sameAddress : fieldAt after.memory (packetAddress + addressOffset) =
      fieldAt before.memory (packetAddress + addressOffset) :=
    within_field_of redraw addressOffset fun index inWord inLen => by
      have bounds := Set.mem_Ico.mp inLen
      simp only [addressOffset, lenOffset] at bounds
      omega
  have sameLayer : layerAt after.memory = layerAt before.memory := by
    refine layer_at_congr fun position fromPkt _ => redraw.unchanged position fun inLen => ?_
    have bounds := Set.mem_Ico.mp inLen
    simp only [lenOffset, pktOffset] at bounds fromPkt
    omega
  rw [ParsedAbove, ParsedAbove, sameAddress, sameLayer]

theorem mutate_strategy_frame (store : Store) (lower : 5 ≤ (fieldOf store lenOffset).toNat)
    (harmless : ParsedAbove store.memory → (fieldOf store lenOffset).toNat ≤ 10 ∧
      (fieldOf store maxPayloadLenOffset).toNat ≤ 5) :
    Ensures mutateStrategy store (fun _ after => FrameKept (recordOf store) (recordOf after))
      fun _ _ => False := by
  refine ensures_bind ((redraw_len_ensures store).mono ?_ fun _ _ absurd => absurd)
  rintro _ middle ⟨redraw, redrawn⟩
  refine ensures_bind (ensures_load_field (ensures_bind ?_))
  refine (choose_layer_ensures _).mono ?_ fun _ _ absurd => absurd
  rintro chosen parsed ⟨same, above⟩
  have sameMemory : parsed.memory = middle.memory := same
  have sameLen : fieldOf parsed lenOffset = fieldOf middle lenOffset :=
    field_of_congr sameMemory _
  have short : chosen = some .att ∨ chosen = some .sm →
      llPayloadLen (fieldOf parsed lenOffset) ≤ 5 := by
    intro isAbove
    obtain ⟨lenBound, limitBound⟩ :=
      harmless ((parsed_above_of_within redraw).mpr (above isAbove))
    have limit := (clamp_le (fieldOf store maxPayloadLenOffset)).2
    have shortLen : 5 ≤ (fieldOf middle lenOffset).toNat ∧ (fieldOf middle lenOffset).toNat ≤ 10 := by
      rcases redrawn with equal | ⟨payloadLen, bound, sum⟩
      · rw [equal]
        exact ⟨lower, lenBound⟩
      · omega
    rw [sameLen, payload_len_of_small _ shortLen.1 (by omega)]
    omega
  have body := (run_layer_mutator_faultless chosen).ensures
    (run_layer_mutator_confined parsed chosen short)
  refine ensures_bind (body.mono ?_ fun _ _ absurd => absurd)
  intro ret mutated layerFrame
  have tail := header_and_mark_confined ret (fieldOf middle lenOffset).toUInt8 mutated
  refine ((header_and_mark_faultless ret _).ensures tail).mono ?_ fun _ _ absurd => absurd
  intro _ after tailFrame
  have untouched : Within Set.univ (mutatedField ∪ Set.Ici pktOffset) middle parsed :=
    ⟨fun position _ => congrFun sameMemory position, fun _ _ => .inr (Set.mem_univ _)⟩
  exact frame_kept_of_within redraw redrawn ((untouched.trans
    (layerFrame.mono (Set.subset_univ _) Set.subset_union_right)).trans tailFrame) lower

/-- The byte of `device_id` that the two mutators take for the opcode. -/
abbrev deviceByte : Nat := deviceIdOffset + 2

theorem redraw_len_possibly (store : Store)
    (room : 10 < (fieldOf store lenOffset).toNat ∨ 5 < (fieldOf store maxPayloadLenOffset).toNat)
    (lenBound : (fieldOf store lenOffset).toNat ≤ 255)
    (limitBound : (fieldOf store maxPayloadLenOffset).toNat ≤ 250) :
    Possibly redrawLen store fun _ after => Within Set.univ lenField store after ∧
      10 < (fieldOf after lenOffset).toNat ∧ (fieldOf after lenOffset).toNat ≤ 255 := by
  by_cases long : 10 < (fieldOf store lenOffset).toNat
  · refine possibly_bind (possibly_rand 50 (by decide) (possibly_pure ?_))
    exact ⟨Within.refl _ _ _, long, lenBound⟩
  have limit : 5 < (fieldOf store maxPayloadLenOffset).toNat := room.resolve_left long
  have known := redraw_len_ensures store
  have drawn : Possibly redrawLen store fun _ after =>
      fieldOf after lenOffset = UInt32.ofNat ((fieldOf store maxPayloadLenOffset).toNat + 2 + 3) := by
    refine possibly_bind (possibly_rand 0 (by decide) ?_)
    refine possibly_bind (possibly_load_field ?_)
    refine possibly_bind (possibly_rand (fieldOf store maxPayloadLenOffset).toNat ?_ ?_)
    · exact Nat.le_trans limitBound (by decide)
    rw [clamp_of_le (by omega)]
    refine possibly_bind (possibly_remainder (Nat.succ_pos _) ?_)
    rw [Nat.mod_eq_of_lt (Nat.lt_succ_self _)]
    exact possibly_save_word (field_of_put_field _ lenOffset _)
  apply (drawn.ensured known).mono
  rintro _ after ⟨sum, frame, _⟩
  have value : (fieldOf after lenOffset).toNat =
      (fieldOf store maxPayloadLenOffset).toNat + 2 + 3 := by
    rw [sum, UInt32.toNat_ofNat']
    exact Nat.mod_eq_of_lt (by omega)
  exact ⟨frame, by omega, by omega⟩

theorem upper_layer_type_possibly (store : Store) :
    Possibly getUpperLayerTypeForZephyr store
      fun layer after => layer = layerAt store.memory ∧ after.memory = store.memory := by
  have ends : Possibly getUpperLayerTypeForZephyr store fun _ _ => True := by
    refine possibly_bind (possibly_load (possibly_bind (possibly_load ?_)))
    apply possibly_if (fun _ => possibly_pure trivial)
    intro _
    apply possibly_if (fun _ => possibly_pure trivial)
    intro _
    refine possibly_if (fun _ => ?_) fun _ => possibly_pure trivial
    exact possibly_bind (possibly_load_word (possibly_pure trivial))
  have known : Ensures getUpperLayerTypeForZephyr store
      (fun layer after => layer = layerAt store.memory ∧ after.memory = store.memory)
      fun _ _ => True := upper_layer_type_ensures store
  exact (ends.ensured known).mono fun _ _ both => both.2

theorem choose_layer_possibly (store : Store) (above : ParsedAbove store.memory) :
    Possibly chooseLayerMutator store fun chosen after =>
      (chosen = some .att ∨ chosen = some .sm) ∧ after.memory = store.memory := by
  refine possibly_bind (possibly_bind (possibly_load_field (possibly_pure ?_)))
  have isData : fieldOf store addressOffset ≠ advertisingAddress := above.1
  refine possibly_if (fun _ => ?_) fun advertising => absurd (decide_eq_true isData) advertising
  refine possibly_bind ((upper_layer_type_possibly _).mono ?_)
  rintro layer after ⟨parsed, same⟩
  refine possibly_bind (possibly_rand 50 (by decide) (possibly_pure ⟨?_, same⟩))
  have layerOf : layer = layerAt store.memory := parsed
  rcases above.2 with att | sm
  · rw [layerOf, att]
    exact .inl rfl
  · rw [layerOf, sm]
    exact .inr rfl

/-- The common end of the two mutators, when the draws ask for the write and for
no havoc round. -/
theorem overwrite_possibly {store : Store} {applies : Nat → Prop} [DecidablePred applies]
    {write : Program Rand Unit} {old : UInt8} (choice bytes bytesLen : Nat)
    (inRange : choice ≤ randMax) (chosen : applies choice)
    (writes : Possibly write store fun _ after => after.memory deviceByte ≠ old) :
    Possibly (do
        let choice ← rand
        whenever (applies choice) write
        mutateHavoc bytes bytesLen blePktMaxLen
        return 1) store fun _ after => after.memory deviceByte ≠ old := by
  refine possibly_bind (possibly_rand choice inRange (possibly_bind ?_))
  refine possibly_whenever (fun _ => writes.mono ?_) fun absent => absurd chosen absent
  intro _ middle differs
  refine possibly_bind ((havoc_possibly_idle _ _ _ middle).mono ?_)
  rintro _ after rfl
  exact possibly_pure differs

theorem save_device_byte_possibly {store : Store} {byte old : UInt8} (differs : byte ≠ old) :
    Possibly (save deviceByte byte : Program Rand Unit) store fun _ after =>
      after.memory deviceByte ≠ old := by
  apply possibly_save
  change Function.update store.memory deviceByte byte deviceByte ≠ old
  rwa [Function.update_self]

theorem att_possibly (store : Store) (long : 10 < (fieldOf store lenOffset).toNat)
    (bound : (fieldOf store lenOffset).toNat ≤ 255) :
    Possibly attMutator store fun _ after =>
      after.memory deviceByte ≠ store.memory deviceByte := by
  refine possibly_bind (possibly_load_field ?_)
  have span := payload_len_of_small (fieldOf store lenOffset) (by omega) (by omega)
  have header : l2capHeaderLen = 4 ∧ attOpcodeLen = 1 := ⟨rfl, rfl⟩
  apply possibly_if (fun empty => absurd empty (by omega))
  intro _
  apply overwrite_possibly 30 _ _ (by decide) (by decide)
  by_cases one : store.memory deviceByte = 1
  · have entry : attOpMaps[1 % attOpMaps.length]? = some 2 := rfl
    refine possibly_bind (possibly_rand 1 (by decide) (possibly_bind (possibly_lookup entry ?_)))
    apply save_device_byte_possibly
    rw [one]
    decide
  · have entry : attOpMaps[0 % attOpMaps.length]? = some 1 := rfl
    refine possibly_bind (possibly_rand 0 (by decide) (possibly_bind (possibly_lookup entry ?_)))
    exact save_device_byte_possibly fun same => one same.symm

theorem sm_possibly (store : Store) (long : 10 < (fieldOf store lenOffset).toNat)
    (bound : (fieldOf store lenOffset).toNat ≤ 255) :
    Possibly smMutator store fun _ after =>
      after.memory deviceByte ≠ store.memory deviceByte := by
  refine possibly_bind (possibly_load_field ?_)
  have span := payload_len_of_small (fieldOf store lenOffset) (by omega) (by omega)
  have header : l2capHeaderLen = 4 ∧ smCodeLen = 1 := ⟨rfl, rfl⟩
  apply possibly_if (fun empty => absurd empty (by omega))
  intro _
  apply overwrite_possibly 0 _ _ (by decide) (by decide)
  by_cases zero : store.memory deviceByte = 0
  · refine possibly_bind (possibly_rand 1 (by decide) (save_device_byte_possibly ?_))
    rw [zero]
    decide
  · refine possibly_bind (possibly_rand 0 (by decide) (save_device_byte_possibly ?_))
    exact fun same => zero same.symm

theorem header_and_mark_possibly (ret : Nat) (oldPayloadLen : UInt8) (store : Store) :
    Possibly (do rewriteHeaderLen; markMutated ret oldPayloadLen; return ret) store
      fun _ after => after.memory deviceByte = store.memory deviceByte := by
  have ends : Possibly (do rewriteHeaderLen; markMutated ret oldPayloadLen; return ret) store
      fun _ _ => True := by
    refine possibly_bind (possibly_bind (possibly_load_field (possibly_save ?_)))
    refine possibly_bind (possibly_bind (possibly_load_field ?_))
    exact possibly_whenever (fun _ => possibly_save_word (possibly_pure trivial))
      fun _ => possibly_pure trivial
  apply (ends.ensured (header_and_mark_confined ret oldPayloadLen store)).mono
  rintro _ after ⟨_, frame⟩
  apply frame.unchanged deviceByte
  rintro (inField | inPacket)
  · exact absurd (Set.mem_Ico.mp inField).1 (by decide)
  · exact absurd (Set.mem_Ici.mp inPacket) (by decide)

theorem mutate_strategy_possibly (store : Store) (above : ParsedAbove store.memory)
    (room : 10 < (fieldOf store lenOffset).toNat ∨ 5 < (fieldOf store maxPayloadLenOffset).toNat)
    (lenBound : (fieldOf store lenOffset).toNat ≤ 255)
    (limitBound : (fieldOf store maxPayloadLenOffset).toNat ≤ 250) :
    Possibly mutateStrategy store fun _ after =>
      after.memory deviceByte ≠ store.memory deviceByte := by
  refine possibly_bind ((redraw_len_possibly store room lenBound limitBound).mono ?_)
  rintro _ middle ⟨redraw, long, bound⟩
  have parsedMiddle : ParsedAbove middle.memory := (parsed_above_of_within redraw).mp above
  refine possibly_bind (possibly_load_field (possibly_bind ?_))
  apply (choose_layer_possibly (middle.touch _) parsedMiddle).mono
  rintro chosen parsed ⟨isAbove, same⟩
  have sameMemory : parsed.memory = middle.memory := same
  have sameLen : fieldOf parsed lenOffset = fieldOf middle lenOffset :=
    field_of_congr sameMemory _
  have sameByte : parsed.memory deviceByte = store.memory deviceByte := by
    rw [sameMemory]
    exact redraw.unchanged deviceByte fun inLen => absurd (Set.mem_Ico.mp inLen).1 (by decide)
  have writes : Possibly (runLayerMutator chosen) parsed fun _ after =>
      after.memory deviceByte ≠ store.memory deviceByte := by
    rw [← sameByte]
    rw [← sameLen] at long bound
    rcases isAbove with rfl | rfl
    · exact att_possibly parsed long bound
    · exact sm_possibly parsed long bound
  refine possibly_bind (writes.mono ?_)
  intro ret mutated differs
  apply (header_and_mark_possibly ret _ mutated).mono
  intro _ after kept
  rwa [kept]

theorem place_field (packet : BlePkt) (beyond : Memory) :
    fieldOf (place packet beyond) lenOffset = packet.len ∧
      fieldOf (place packet beyond) maxPayloadLenOffset = packet.maxPayloadLen ∧
      fieldOf (place packet beyond) addressOffset = packet.address :=
  have same := record_of_place packet beyond
  ⟨congrArg BlePkt.len same, congrArg BlePkt.maxPayloadLen same, congrArg BlePkt.address same⟩

theorem parsed_above_place (packet : BlePkt) (beyond : Memory) :
    ParsedAbove (place packet beyond).memory ↔ packet.address ≠ advertisingAddress ∧
      (layerAt packet.image = .att ∨ layerAt packet.image = .sm) := by
  have address : fieldAt (place packet beyond).memory (packetAddress + addressOffset) =
      packet.address := (place_field packet beyond).2.2
  have layer : layerAt (place packet beyond).memory = layerAt packet.image :=
    layer_at_congr fun position _ inside => if_pos inside
  rw [ParsedAbove, address, layer]

theorem FrameKept.refl {packet : BlePkt} (lower : 5 ≤ packet.len.toNat) :
    FrameKept packet packet :=
  ⟨rfl, rfl, rfl, rfl, lower, Nat.le_max_left _ _⟩

/-- With a length up to 255 and a limit up to 250 the frame holds for every
random stream exactly when no stream takes the packet into the record. -/
theorem frame_kept_iff (packet : BlePkt) (beyond : Memory) (config : PktselConfig) (idx : Nat)
    (lenLower : 5 ≤ packet.len.toNat) (lenUpper : packet.len.toNat ≤ 255)
    (limit : packet.maxPayloadLen.toNat ≤ 250) :
    Ensures (mutatePkt config idx) (place packet beyond)
        (fun _ after => FrameKept packet (recordOf after)) (fun _ _ => False) ↔
      ¬ReachesRecord config idx packet := by
  obtain ⟨placedLen, placedLimit, -⟩ := place_field packet beyond
  have parsed := parsed_above_place packet beyond
  have placed := record_of_place packet beyond
  constructor
  · -- some choice of draws changes the device id
    intro kept reaches
    have longer : ¬packet.len = 2 + 3 := fun five => reaches.long (congrArg UInt32.toNat five)
    have writes : Possibly (mutatePkt config idx) (place packet beyond) fun _ after =>
        after.memory deviceByte ≠ (place packet beyond).memory deviceByte := by
      refine possibly_bind (possibly_load_field ?_)
      rw [placedLen]
      refine possibly_if (fun five => absurd five longer) fun _ => possibly_bind ?_
      refine (selectable_possibly config idx _ reaches.selectable).mono ?_
      rintro _ _ ⟨rfl, rfl⟩
      refine mutate_strategy_possibly _ (parsed.mpr ⟨reaches.data, reaches.layer⟩) ?_ ?_ ?_
      · rw [field_of_touch, field_of_touch, placedLen, placedLimit]
        exact reaches.room
      · rwa [field_of_touch, placedLen]
      · rwa [field_of_touch, placedLimit]
    obtain ⟨draws, value, after, run, differs⟩ := writes.run
    have sameId : fieldAt after.store.memory (packetAddress + deviceIdOffset) =
        fieldAt (place packet beyond).memory (packetAddress + deviceIdOffset) := by
      have frame : FrameKept packet (recordOf after.store) := kept.returned run
      exact frame.deviceId.trans (congrArg BlePkt.deviceId placed).symm
    apply differs
    have bytes := congrArg (fun field : UInt32 => byteOf field.toBitVec 2) sameId
    simpa only [byte_of_field_at _ _ 2 (by decide), packetAddress, Nat.zero_add] using bytes
  · intro absent
    refine ensures_bind (ensures_load_field ?_)
    rw [placedLen]
    have unchanged : FrameKept packet (recordOf (place packet beyond)) := by
      rw [placed]
      exact .refl lenLower
    refine ensures_if (fun _ => ensures_pure unchanged) fun longer => ensures_bind ?_
    by_cases selectable : Selectable config idx
    · refine (should_mutate_store config idx _).mono ?_ fun _ _ absurd => absurd
      rintro selected _ rfl
      refine ensures_if (fun _ => ?_) fun _ => ensures_pure unchanged
      refine (mutate_strategy_frame _ ?_ ?_).mono (fun _ after frame => ?_)
        fun _ _ absurd => absurd
      · rwa [field_of_touch, placedLen]
      · intro above
        rw [field_of_touch, field_of_touch, placedLen, placedLimit]
        by_contra room
        obtain ⟨data, layer⟩ := parsed.mp above
        refine absent ⟨fun five => longer (UInt32.toNat_inj.mp five), selectable, data, layer, ?_⟩
        omega
      · have before : recordOf ((place packet beyond).touch
            (List.range' (packetAddress + lenOffset) 4)) = packet := placed
        rwa [before] at frame
    · refine ((not_selectable_never config idx _ selectable).both
        (should_mutate_store config idx _)).mono ?_ fun _ _ absurd => absurd.1
      rintro _ _ ⟨rfl, rfl⟩
      exact ensures_pure unchanged

def mtuRequest : BlePkt where
  sid := 0
  deviceId := 1
  mutated := 0
  address := 0x50655D7A
  len := 12
  maxPayloadLen := 27
  pkt := Vector.ofFn fun index =>
    ([0x02, 0x07, 0x03, 0x00, 0x04, 0x00, 0x02, 0x17, 0x00] : List UInt8).getD index.val 0

def mixedConfig : PktselConfig := ⟨.mixedProb, 0, 0, 0, 0⟩

def zeros : Memory := fun _ => 0

def opcodeDraws : Stream' Rand := [0, 50, 50, 30, 0, 0] ++ₛ Stream'.const 0

theorem advertisement_frame_kept :
    Ensures (mutatePkt mixedConfig 0) (place { mtuRequest with address := advertisingAddress } zeros)
      (fun _ after => FrameKept { mtuRequest with address := advertisingAddress } (recordOf after))
      fun _ _ => False :=
  (frame_kept_iff { mtuRequest with address := advertisingAddress } zeros mixedConfig 0 (by decide)
    (by decide) (by decide)).mpr fun reaches => reaches.data rfl

theorem mtu_request_frame_lost :
    5 ≤ mtuRequest.len.toNat ∧ mtuRequest.len.toNat ≤ 255 ∧ mtuRequest.maxPayloadLen.toNat ≤ 250 ∧
      ¬Ensures (mutatePkt mixedConfig 0) (place mtuRequest zeros)
        (fun _ after => FrameKept mtuRequest (recordOf after)) fun _ _ => False := by
  refine ⟨by decide, by decide, by decide, fun kept => ?_⟩
  have changed : (finalRecord (runMutator (mutatePkt mixedConfig 0) zeros mtuRequest
      opcodeDraws)).deviceId = 0x10001 := by decide +kernel
  have frame : FrameKept mtuRequest (finalRecord (runMutator (mutatePkt mixedConfig 0) zeros mtuRequest
      opcodeDraws)) :=
    final_record_ensures (kept.mono (fun _ _ frame => frame) fun _ _ absurd => absurd.elim) _
  have same := frame.deviceId
  rw [changed] at same
  exact absurd same (by decide)

end Blueman.MutatorFullStack2Frame
