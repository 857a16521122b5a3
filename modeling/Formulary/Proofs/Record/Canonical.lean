import Formulary.Proofs.Record.RoundTrip

/-!
# Records are canonical

For every table and every number of slots that has a codec, the valid formulas over these slots
and the records that decoding accepts correspond to each other one to one. The codec accepts no
other formula, and reports every other number as corrupt.
-/

namespace Formulary.Record

/-- A table of the given number of additions. -/
def additions (count : ℕ) (hpos : 0 < count := by decide)
    (hle : count ≤ maxOperators := by decide) : OperatorTable :=
  ⟨List.replicate count ⟨'+', true, fun a b => a + b⟩, by simpa using hpos, by simpa using hle⟩

/-- The formulas with a record are the valid ones over the codec's slots with codes of its table.
The record stays below the codec's width and is decoded to the formula it was made of. -/
theorem encode_roundTrip (table : OperatorTable) (slots : ℕ) (codec : Codec)
    (hcodec : Codec.make table slots = .ok codec) (f : Formula) :
    ((∃ record, codec.encode f = .ok record) ↔
      f.size = slots ∧ f.validate = .ok () ∧ ∀ code ∈ f.codes, code.toNat < table.size) ∧
    ∀ record, codec.encode f = .ok record →
      record.toNat < 2 ^ codec.width ∧ codec.decode record = .ok f := by
  rw [Codec.exists_encode_iff, Codec.covers_iff_of_make hcodec, Formula.fits_iff]
  exact ⟨Iff.rfl, fun record h => ⟨Codec.encode_lt h, Codec.decode_of_encode h⟩⟩

/-- Eight operators over ten slots fill the word. -/
theorem encode_roundTrip_fullWord :
    let codec : Codec := ⟨⟨10, 3, by decide, by decide, by decide⟩, 8, by decide⟩
    let f : Formula := ⟨[9, 8, 7, 6, 5, 4, 3, 2, 1, 0], List.replicate 9 7,
      List.replicate 10 true ++ List.replicate 9 false⟩
    Codec.make (additions 8) 10 = .ok codec ∧ codec.width = 64 ∧
      ∃ record, codec.encode f = .ok record ∧ codec.decode record = .ok f := by
  intro codec f
  have hcodec : Codec.make (additions 8) 10 = .ok codec :=
    Codec.make_eq_ok (by decide) (by decide) (by decide)
  have hwidth : codec.width = 64 := by decide
  have hcodes : ∀ code ∈ f.codes, code.toNat < (additions 8).size := by
    intro code hcode
    obtain rfl := List.eq_of_mem_replicate hcode
    decide
  have hroundTrip := encode_roundTrip (additions 8) 10 codec hcodec f
  obtain ⟨record, hrecord⟩ := hroundTrip.1.mpr ⟨rfl, rfl, hcodes⟩
  exact ⟨hcodec, hwidth, record, hrecord, (hroundTrip.2 record hrecord).2⟩

/-- Decoding gives valid formulas over the codec's slots with codes of its table, and only the one
whose record was decoded; every number that is no such record is reported as corrupt. -/
theorem decode_canonical (table : OperatorTable) (slots : ℕ) (codec : Codec)
    (hcodec : Codec.make table slots = .ok codec) (record : UInt64) :
    (∀ f, codec.decode record = .ok f →
      f.validate = .ok () ∧ f.size = slots ∧ (∀ code ∈ f.codes, code.toNat < table.size) ∧
        codec.encode f = .ok record) ∧
    (∀ other f, codec.decode record = .ok f → codec.decode other = .ok f → record = other) ∧
    ((∃ reason, codec.decode record = .error (.corrupt record reason)) ↔
      ¬ ∃ f, f.validate = .ok () ∧ f.size = slots ∧ codec.encode f = .ok record) := by
  have htable := Codec.tableSize_le_of_make hcodec
  have hdecoded : ∀ f, codec.decode record = .ok f →
      f.validate = .ok () ∧ f.size = slots ∧ (∀ code ∈ f.codes, code.toNat < table.size) ∧
        codec.encode f = .ok record := by
    intro f h
    have hencode := Codec.encode_of_decode htable h
    obtain ⟨hsize, hvalid, hcodes⟩ := Formula.fits_iff.mp
      ((Codec.covers_iff_of_make hcodec).mp (Codec.exists_encode_iff.mp ⟨record, hencode⟩))
    exact ⟨hvalid, hsize, hcodes, hencode⟩
  refine ⟨hdecoded, fun other f h hother => ?_, fun ⟨reason, h⟩ ⟨f, _, _, hencode⟩ => ?_, fun h => ?_⟩
  · have hencode := Codec.encode_of_decode htable h
    rw [Codec.encode_of_decode htable hother] at hencode
    injection hencode with heq
    exact heq.symm
  · rw [Codec.decode_of_encode hencode] at h
    cases h
  · cases hresult : codec.decode record with
    | error error =>
      obtain ⟨reason, rfl⟩ := Codec.decode_eq_error hresult
      exact ⟨reason, rfl⟩
    | ok f =>
      obtain ⟨hvalid, hsize, -, hencode⟩ := hdecoded f hresult
      exact absurd ⟨f, hvalid, hsize, hencode⟩ h

/-- Three operators leave a code of two bits unused, and six orders two ranks of three bits. -/
theorem decode_canonical_threeSlots :
    let codec : Codec := ⟨⟨3, 2, by decide, by decide, by decide⟩, 3, by decide⟩
    let f : Formula := ⟨[2, 1, 0], [0, 2], [true, true, true, false, false]⟩
    Codec.make (additions 3) 3 = .ok codec ∧ codec.decode 0b11000101 = .ok f ∧
      codec.encode f = .ok 0b11000101 := by
  intro codec f
  have hcodec : Codec.make (additions 3) 3 = .ok codec :=
    Codec.make_eq_ok (by decide) (by decide) (by decide)
  have hdecode : codec.decode 0b11000101 = .ok f := by decide +kernel
  have hcanonical := decode_canonical (additions 3) 3 codec hcodec 0b11000101
  exact ⟨hcodec, hdecode, (hcanonical.1 f hdecode).2.2.2⟩

end Formulary.Record
