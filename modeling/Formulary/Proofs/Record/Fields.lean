import Formulary.Proofs.Outcome
import Formulary.Proofs.Formula.Valid
import Formulary.Proofs.Record.Digits
import Formulary.Proofs.Record.StoredShape

/-!
# What encoding and decoding check

A formula has a record if it is valid, has the codec's number of slots and uses codes of the table
only; its record is made of three fields. A number is read as a formula if it does not exceed the
record's width and every field passes its check; any other number is reported as corrupt.
-/

namespace Formulary.Record.Codec

open Outcome

/-- The formulas that a codec has records for. -/
structure Covers (codec : Codec) (f : Formula) : Prop where
  size_eq : f.size = codec.slots
  valid : f.Valid
  codes_lt : ∀ code ∈ f.codes, code.toNat < codec.tableSize

/-- The field that holds the codes of a formula. -/
def operationField (layout : Layout) (f : Formula) : ℕ :=
  ofDigits layout.codeBits (f.codes.map UInt8.toNat)

/-- The field that holds the stored part of the shape of a formula. -/
def shapeField (f : Formula) : ℕ :=
  ofDigits 1 ((storedShape f.shape).map bit)

/-- A formula is encoded exactly when it is covered, and its record holds the three fields. -/
theorem encode_eq_ok_iff {codec : Codec} {f : Formula} {record : UInt64} :
    codec.encode f = .ok record ↔
      codec.Covers f ∧ ∃ rank, Permutation.rank f.slots = .ok rank ∧
        record = UInt64.ofNat
          (assemble codec.layout rank (operationField codec.layout f) (shapeField f)) := by
  unfold encode
  dsimp only
  constructor
  · intro h
    split at h
    · cases h
    · next hsize =>
      obtain ⟨_, hvalid, h⟩ := bind_eq_ok_iff.mp h
      obtain ⟨rank, hrank, h⟩ := bind_eq_ok_iff.mp h
      split at h
      · cases h
      · next hknown =>
        cases h
        refine ⟨⟨by simpa using hsize, ?_, ?_⟩, rank, mapError_eq_ok_iff.mp hrank, rfl⟩
        · exact Formula.validate_eq_ok_iff.mp (mapError_eq_ok_iff.mp hvalid)
        · simpa using hknown
  · rintro ⟨hcovers, rank, hrank, rfl⟩
    have hknown : f.codes.find? (fun code => codec.tableSize ≤ code.toNat) = none := by
      simpa using hcovers.codes_lt
    rw [if_neg (not_not_intro hcovers.size_eq), Formula.validate_eq_ok_iff.mpr hcovers.valid, hrank,
      hknown]
    rfl

/-- The codes that a record spells, as numbers. -/
def codeDigits (codec : Codec) (record : UInt64) : List ℕ :=
  toDigits codec.layout.codeBits (codec.slots - 1) (record.toNat / capacity codec.layout.rankBits)

/-- The stored part of the shape that a record spells. -/
def storedBits (codec : Codec) (record : UInt64) : List Bool :=
  (toDigits 1 codec.layout.shapeBits (record.toNat / capacity codec.layout.rankBits /
    capacity codec.layout.operationBits)).map (· == 1)

/-- What has to hold of the fields of a record that is read as a formula over two slots or more. -/
structure Reads (codec : Codec) (record : UInt64) (f : Formula) : Prop where
  slots_eq : Permutation.unrank (record.toNat % capacity codec.layout.rankBits) codec.slots =
    .ok f.slots
  digits_lt : ∀ digit ∈ codec.codeDigits record, digit < codec.tableSize
  codes_eq : f.codes = (codec.codeDigits record).map UInt8.ofNat
  shape_eq : expandShape codec.slots (codec.storedBits record) = some f.shape
  valid : f.Valid

/-- A number has no bits above a width exactly when it does not exceed the width. -/
theorem div_capacity_eq_zero_iff {number bits : ℕ} :
    number / capacity bits = 0 ↔ number < capacity bits := by
  rw [Nat.div_eq_zero_iff]
  exact or_iff_right (Nat.ne_of_gt (capacity_pos bits))

section Decoding

variable {codec : Codec} {record : UInt64} {f : Formula}

/-- What is read as a formula does not exceed the width. -/
theorem lt_capacity_of_decode (h : codec.decode record = .ok f) :
    record.toNat < capacity codec.width := by
  unfold decode at h
  dsimp only at h
  split at h
  · cases h
  · next hin => exact div_capacity_eq_zero_iff.mp (not_not.mp hin)

/-- Over one slot every number of the width is read as the slot alone. -/
theorem decode_of_slots_eq_one (hin : record.toNat < capacity codec.width)
    (hone : codec.slots = 1) : codec.decode record = .ok Formula.operand := by
  unfold decode
  dsimp only
  split
  · next hout => exact absurd (div_capacity_eq_zero_iff.mpr hin) hout
  · exact if_pos hone

/-- Over two slots or more, what is read as a formula has passed the check of every field. -/
theorem reads_of_decode (hmany : codec.slots ≠ 1) (h : codec.decode record = .ok f) :
    codec.Reads record f := by
  have hin : record.toNat / capacity codec.layout.width = 0 :=
    div_capacity_eq_zero_iff.mpr (lt_capacity_of_decode h)
  unfold decode at h
  dsimp only at h
  rw [if_neg (not_not_intro hin)] at h
  split at h
  · next hone => exact absurd hone hmany
  obtain ⟨slots, hslots, h⟩ := bind_eq_ok_iff.mp h
  split at h
  · cases h
  next hcodes =>
  split at h
  · cases h
  next shape hshape =>
  obtain ⟨rfl, hvalid⟩ := Formula.ofParts_eq_ok_iff.mp (mapError_eq_ok_iff.mp h)
  refine ⟨mapError_eq_ok_iff.mp hslots, fun digit hdigit => ?_, rfl, hshape, hvalid⟩
  exact Nat.lt_of_not_le fun hle =>
    hcodes (List.any_eq_true.mpr ⟨digit, hdigit, decide_eq_true hle⟩)

/-- Over two slots or more, a number whose fields pass their checks is read as their formula. -/
theorem Reads.decode_eq_ok (h : codec.Reads record f) (hin : record.toNat < capacity codec.width)
    (hmany : codec.slots ≠ 1) : codec.decode record = .ok f := by
  have hzero : record.toNat / capacity codec.layout.width = 0 := div_capacity_eq_zero_iff.mpr hin
  unfold decode
  dsimp only
  rw [if_neg (not_not_intro hzero)]
  split
  · next hone => exact absurd hone hmany
  refine bind_eq_ok_iff.mpr ⟨f.slots, mapError_eq_ok_iff.mpr h.slots_eq, ?_⟩
  split
  · next hbad =>
    obtain ⟨digit, hdigit, hle⟩ := List.any_eq_true.mp hbad
    exact absurd (h.digits_lt digit hdigit) (Nat.not_lt_of_le (of_decide_eq_true hle))
  split
  · next hnone => exact nomatch h.shape_eq.symm.trans hnone
  next shape hshape =>
  cases h.shape_eq.symm.trans hshape
  refine mapError_eq_ok_iff.mpr (Formula.ofParts_eq_ok_iff.mpr ⟨?_, h.valid⟩)
  exact congrArg (Formula.mk f.slots · f.shape) h.codes_eq

/-- A record is read field by field, and every field is checked. -/
theorem decode_eq_ok_iff : codec.decode record = .ok f ↔ record.toNat < capacity codec.width ∧
    (codec.slots = 1 ∧ f = Formula.operand ∨ codec.slots ≠ 1 ∧ codec.Reads record f) := by
  constructor
  · intro h
    have hin := lt_capacity_of_decode h
    refine ⟨hin, ?_⟩
    by_cases hone : codec.slots = 1
    · exact Or.inl ⟨hone, Except.ok.inj (h.symm.trans (decode_of_slots_eq_one hin hone))⟩
    · exact Or.inr ⟨hone, reads_of_decode hone h⟩
  · rintro ⟨hin, ⟨hone, rfl⟩ | ⟨hmany, hreads⟩⟩
    · exact decode_of_slots_eq_one hin hone
    · exact hreads.decode_eq_ok hin hmany

end Decoding

/-- Whatever is not read as a formula is reported as corrupt. -/
theorem decode_eq_error {codec : Codec} {record : UInt64} {error : RecordError}
    (h : codec.decode record = .error error) : ∃ reason, error = .corrupt record reason := by
  unfold decode at h
  dsimp only at h
  split at h
  · cases h
    exact ⟨_, rfl⟩
  · split at h
    · cases h
    · rcases bind_eq_error_iff.mp h with hrank | ⟨slots, -, h⟩
      · obtain ⟨_, _, rfl⟩ := mapError_eq_error_iff.mp hrank
        exact ⟨_, rfl⟩
      · split at h
        · cases h
          exact ⟨_, rfl⟩
        · split at h
          · cases h
            exact ⟨_, rfl⟩
          · obtain ⟨_, _, rfl⟩ := mapError_eq_error_iff.mp h
            exact ⟨_, rfl⟩

end Formulary.Record.Codec
