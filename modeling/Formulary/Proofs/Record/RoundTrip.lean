import Formulary.Proofs.Record.Fields
import Formulary.Proofs.Record.Making

/-!
# Encoding and decoding undo each other

The fields of a record stand side by side and each of them can be read off again, so decoding a
record gives back the formula it was made of. Conversely the fields that decoding accepts are
those of the formula it gives, so no bit of a record is ignored and no formula has two records.
-/

namespace Formulary.Record

/-- Fields that fit their bits make a number that fits the width. -/
theorem Codec.assemble_lt {layout : Layout} {rank operations shape : ℕ}
    (hrank : rank < capacity layout.rankBits) (hoperations : operations < capacity layout.operationBits)
    (hshape : shape < capacity layout.shapeBits) :
    assemble layout rank operations shape < capacity layout.width := by
  rw [layout.width_eq, Nat.add_assoc]
  exact low_add_high_lt hrank (low_add_high_lt hoperations hshape)

/-- A record of a layout fits a word. -/
theorem Layout.capacity_width_le (layout : Layout) : capacity layout.width ≤ UInt64.size :=
  capacity_le_capacity layout.fits

/-- Every rank of an order of the layout's slots fits the rank field. -/
theorem Layout.factorial_le (layout : Layout) :
    factorial layout.slots ≤ capacity layout.rankBits :=
  le_capacity_bitLength_pred (factorial layout.slots)

/-- A bit read as a truth value and written as a number again is the same bit. -/
theorem map_bit_beq_one {digits : List ℕ} (h : ∀ digit ∈ digits, digit < capacity 1) :
    (digits.map (· == 1)).map bit = digits := by
  rw [List.map_map]
  refine (List.map_congr_left fun digit hdigit => ?_).trans (List.map_id digits)
  have hlt : digit < 2 := h digit hdigit
  obtain rfl | rfl : digit = 0 ∨ digit = 1 := by omega
  · rfl
  · rfl

/-- A truth value written as a bit is read as itself. -/
theorem map_beq_one_bit (stored : List Bool) : (stored.map bit).map (· == 1) = stored := by
  rw [List.map_map]
  refine List.map_id'' (fun push => ?_) _
  cases push with
  | true => rfl
  | false => rfl

/-- A bit fits one bit. -/
theorem lt_of_mem_map_bit (stored : List Bool) : ∀ digit ∈ stored.map bit, digit < capacity 1 := by
  intro digit hdigit
  obtain ⟨push, -, rfl⟩ := List.mem_map.mp hdigit
  cases push with
  | true => decide
  | false => decide

namespace Codec

variable {codec : Codec} {f : Formula} {rank : ℕ}

/-- The codes of a formula that is covered fit their digits. -/
theorem Covers.digits_lt (h : codec.Covers f) :
    ∀ digit ∈ f.codes.map UInt8.toNat, digit < capacity codec.layout.codeBits := by
  intro digit hdigit
  obtain ⟨code, hcode, rfl⟩ := List.mem_map.mp hdigit
  exact Nat.lt_of_lt_of_le (h.codes_lt code hcode) codec.tableSize_le

/-- A formula that is covered has a code for every slot but one. -/
theorem Covers.length_codes (h : codec.Covers f) :
    (f.codes.map UInt8.toNat).length = codec.slots - 1 := by
  rw [List.length_map, h.valid.codes_length, h.size_eq]

/-- A formula that is covered has a rank, and the rank fits its field. -/
theorem Covers.exists_rank (h : codec.Covers f) : ∃ rank, Permutation.rank f.slots = .ok rank := by
  refine Permutation.exists_rank_iff.mpr ⟨?_, ?_⟩
  · exact Nat.le_trans (Nat.le_of_eq h.size_eq) codec.layout.slots_le
  · exact (Permutation.isPermutation_iff_perm (Nat.le_trans h.valid.le Formula.maxSlots_le)).mpr
      h.valid.slots_perm

/-- The rank of a permutation of the codec's slots fits its field. -/
theorem Covers.rank_lt (h : codec.Covers f) (hrank : Permutation.rank f.slots = .ok rank) :
    rank < capacity codec.layout.rankBits := by
  have hlt := Permutation.rank_lt hrank
  rw [show f.slots.length = codec.slots from h.size_eq] at hlt
  exact Nat.lt_of_lt_of_le hlt codec.layout.factorial_le

/-- The codes of a formula that is covered fit their field. -/
theorem Covers.operationField_lt (h : codec.Covers f) :
    operationField codec.layout f < capacity codec.layout.operationBits := by
  have hlt := ofDigits_lt h.digits_lt
  rwa [h.length_codes] at hlt

/-- The stored shape of a formula that is covered fits its field. -/
theorem Covers.shapeField_lt (h : codec.Covers f) :
    shapeField f < capacity codec.layout.shapeBits := by
  have hlt := ofDigits_lt (lt_of_mem_map_bit (storedShape f.shape))
  rwa [List.length_map, length_storedShape (h.size_eq ▸ h.valid.shape_length), Nat.one_mul] at hlt

/-- The record of a formula does not exceed the codec's width. -/
theorem Covers.toNat_record (h : codec.Covers f) (hrank : Permutation.rank f.slots = .ok rank) :
    (UInt64.ofNat (assemble codec.layout rank (operationField codec.layout f) (shapeField f))).toNat =
        assemble codec.layout rank (operationField codec.layout f) (shapeField f) ∧
      assemble codec.layout rank (operationField codec.layout f) (shapeField f) <
        capacity codec.width := by
  have hlt := assemble_lt (h.rank_lt hrank) h.operationField_lt h.shapeField_lt
  exact ⟨UInt64.toNat_ofNat_of_lt' (Nat.lt_of_lt_of_le hlt codec.layout.capacity_width_le), hlt⟩

/-- The number that assembles the fields of a formula is read as that formula. -/
theorem Covers.reads (h : codec.Covers f) (hmany : codec.slots ≠ 1) {record : UInt64}
    (hrank : Permutation.rank f.slots = .ok rank)
    (hrecord : record.toNat =
      assemble codec.layout rank (operationField codec.layout f) (shapeField f)) :
    codec.Reads record f := by
  have hlow := h.rank_lt hrank
  have hrankField : record.toNat % capacity codec.layout.rankBits = rank := by
    rw [hrecord]
    exact low_of_fields hlow
  have hbehind : record.toNat / capacity codec.layout.rankBits =
      operationField codec.layout f + capacity codec.layout.operationBits * shapeField f := by
    rw [hrecord]
    exact high_of_fields hlow
  have hdigits : codec.codeDigits record = f.codes.map UInt8.toNat := by
    have hread := toDigits_ofDigits h.digits_lt (shapeField f)
    rw [h.length_codes] at hread
    unfold codeDigits
    rw [hbehind]
    exact hread
  have hstored : codec.storedBits record = storedShape f.shape := by
    have hread := toDigits_ofDigits (lt_of_mem_map_bit (storedShape f.shape)) 0
    rw [List.length_map, length_storedShape (h.size_eq ▸ h.valid.shape_length), Nat.mul_zero,
      Nat.add_zero] at hread
    unfold storedBits
    rw [hbehind, high_of_fields h.operationField_lt]
    exact (congrArg (List.map (· == 1)) hread).trans (map_beq_one_bit _)
  refine ⟨?_, ?_, ?_, ?_, h.valid⟩
  · rw [hrankField, ← h.size_eq]
    exact Permutation.unrank_rank hrank
  · rw [hdigits]
    intro digit hdigit
    obtain ⟨code, hcode, rfl⟩ := List.mem_map.mp hdigit
    exact h.codes_lt code hcode
  · rw [hdigits, List.map_map]
    exact (List.map_id'' (fun code => UInt8.ofNat_toNat) _).symm
  · have htwo : 2 ≤ codec.slots := by
      have hpos := h.valid.pos
      have hsize := h.size_eq
      omega
    rw [hstored]
    exact expandShape_storedShape h.valid.balanced htwo (h.size_eq ▸ h.valid.shape_length)

/-- Decoding the record of a formula gives that formula. -/
theorem decode_of_encode {record : UInt64} (h : codec.encode f = .ok record) :
    codec.decode record = .ok f := by
  obtain ⟨hcovers, rank, hrank, rfl⟩ := encode_eq_ok_iff.mp h
  obtain ⟨hnumber, hlt⟩ := hcovers.toNat_record hrank
  refine decode_eq_ok_iff.mpr ⟨hnumber.symm ▸ hlt, ?_⟩
  by_cases hone : codec.slots = 1
  · exact Or.inl ⟨hone, hcovers.valid.eq_operand (hcovers.size_eq.trans hone)⟩
  · exact Or.inr ⟨hone, hcovers.reads hone hrank hnumber⟩

/-- The codec's formulas over one slot need no bits. -/
theorem width_of_slots_eq_one (hone : codec.slots = 1) : codec.width = 0 := by
  have hslots : codec.layout.slots = 1 := hone
  unfold width Layout.width totalBits rankBits operationBits shapeBits
  rw [hslots]
  rfl

/-- Numbers that are read as a formula are what the fields of that formula make. -/
theorem Reads.toNat_record {record : UInt64} (h : codec.Reads record f)
    (htable : codec.tableSize ≤ UInt8.size) (hin : record.toNat < capacity codec.width) :
    record.toNat = assemble codec.layout (record.toNat % capacity codec.layout.rankBits)
      (operationField codec.layout f) (shapeField f) := by
  let behind := record.toNat / capacity codec.layout.rankBits
  have hbehind : behind < capacity (codec.layout.operationBits + codec.layout.shapeBits) := by
    refine high_lt ?_
    rwa [← Nat.add_assoc]
  have hoperations : operationField codec.layout f = behind % capacity codec.layout.operationBits := by
    have hdigits : f.codes.map UInt8.toNat = codec.codeDigits record := by
      rw [h.codes_eq, List.map_map]
      refine (List.map_congr_left fun digit hdigit => ?_).trans (List.map_id _)
      exact UInt8.toNat_ofNat_of_lt' (Nat.lt_of_lt_of_le (h.digits_lt digit hdigit) htable)
    unfold operationField
    rw [hdigits]
    exact ofDigits_toDigits _ _ _
  have hshape : shapeField f = behind / capacity codec.layout.operationBits := by
    have hlen : (codec.storedBits record).length = codec.layout.shapeBits := by
      simp [storedBits]
    unfold shapeField
    rw [storedShape_expandShape h.shape_eq hlen]
    unfold storedBits
    rw [map_bit_beq_one fun digit hdigit => lt_of_mem_toDigits hdigit]
    refine ofDigits_toDigits_of_lt ?_
    rw [Nat.one_mul]
    exact high_lt hbehind
  unfold assemble
  rw [hoperations, hshape, Nat.mod_add_div, Nat.mod_add_div]

/-- A formula that is read from a record is one that the codec has records for. -/
theorem Reads.covers {record : UInt64} (h : codec.Reads record f)
    (htable : codec.tableSize ≤ UInt8.size) : codec.Covers f := by
  refine ⟨(Permutation.rank_unrank h.slots_eq).1, h.valid, fun code hcode => ?_⟩
  rw [h.codes_eq] at hcode
  obtain ⟨digit, hdigit, rfl⟩ := List.mem_map.mp hcode
  have hlt := h.digits_lt digit hdigit
  rwa [UInt8.toNat_ofNat_of_lt' (Nat.lt_of_lt_of_le hlt htable)]

/-- The formula that decoding gives is encoded as the record that was decoded. -/
theorem encode_of_decode (htable : codec.tableSize ≤ UInt8.size) {record : UInt64}
    (h : codec.decode record = .ok f) : codec.encode f = .ok record := by
  obtain ⟨hin, ⟨hone, rfl⟩ | ⟨hmany, hreads⟩⟩ := decode_eq_ok_iff.mp h
  · rw [width_of_slots_eq_one hone] at hin
    have hzero : record.toNat = (0 : UInt64).toNat := Nat.lt_one_iff.mp hin
    obtain rfl := UInt64.toNat_inj.mp hzero
    have hcovers : codec.Covers Formula.operand :=
      ⟨hone.symm, Formula.valid_operand, fun _ hcode => nomatch hcode⟩
    refine encode_eq_ok_iff.mpr ⟨hcovers, 0, rfl, ?_⟩
    simp [assemble, operationField, shapeField, ofDigits, Formula.operand, storedShape]
  · have hcovers := hreads.covers htable
    have hrank := (Permutation.rank_unrank hreads.slots_eq).2
    refine encode_eq_ok_iff.mpr ⟨hcovers, _, hrank, ?_⟩
    rw [← hreads.toNat_record htable hin, UInt64.ofNat_toNat]

/-- Decoding and encoding are inverse to each other. -/
theorem decode_eq_ok_iff_encode (htable : codec.tableSize ≤ UInt8.size) {record : UInt64} :
    codec.decode record = .ok f ↔ codec.encode f = .ok record :=
  ⟨encode_of_decode htable, decode_of_encode⟩

/-- The codec of a table has records for the valid formulas over its slots with the table's codes. -/
theorem covers_iff_of_make {table : OperatorTable} {slots : ℕ} (h : make table slots = .ok codec) :
    codec.Covers f ↔ f.Fits table slots := by
  obtain ⟨hslots, hsize⟩ := eq_of_make h
  have hcodes : (∀ code ∈ f.codes, code.toNat < codec.tableSize) ↔ f.UsesCodesOf table := by
    rw [hsize]
    rfl
  constructor
  · intro hcovers
    exact ⟨hcovers.size_eq.trans hslots, hcovers.valid, hcodes.mp hcovers.codes_lt⟩
  · intro hfits
    exact ⟨hfits.size_eq.trans hslots.symm, hfits.valid, hcodes.mpr hfits.codes⟩

/-- A formula has a record exactly when the codec covers it. -/
theorem exists_encode_iff : (∃ record, codec.encode f = .ok record) ↔ codec.Covers f := by
  constructor
  · rintro ⟨record, h⟩
    exact (encode_eq_ok_iff.mp h).1
  · intro hcovers
    obtain ⟨rank, hrank⟩ := hcovers.exists_rank
    exact ⟨_, encode_eq_ok_iff.mpr ⟨hcovers, rank, hrank, rfl⟩⟩

/-- A formula over the codec's slots with its codes that has no record does not pass the check. -/
theorem encode_eq_error {error : RecordError} (hsize : f.size = codec.slots)
    (hcodes : f.Valid → ∀ code ∈ f.codes, code.toNat < codec.tableSize)
    (h : codec.encode f = .error error) :
    ∃ reason, f.validate = .error reason ∧ error = .malformed reason := by
  cases hcheck : f.validate with
  | error reason =>
    rw [encode, if_neg (not_not_intro hsize), hcheck] at h
    cases h
    exact ⟨reason, rfl, rfl⟩
  | ok done =>
    have hvalid := Formula.validate_eq_ok_iff.mp hcheck
    obtain ⟨record, hrecord⟩ := exists_encode_iff.mpr ⟨hsize, hvalid, hcodes hvalid⟩
    rw [h] at hrecord
    cases hrecord

/-- Records do not exceed the width. -/
theorem encode_lt {record : UInt64} (h : codec.encode f = .ok record) :
    record.toNat < capacity codec.width := by
  obtain ⟨hcovers, rank, hrank, rfl⟩ := encode_eq_ok_iff.mp h
  obtain ⟨hnumber, hlt⟩ := hcovers.toNat_record hrank
  exact hnumber.symm ▸ hlt

end Codec

end Formulary.Record
