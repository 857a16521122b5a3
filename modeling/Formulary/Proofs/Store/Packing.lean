import Formulary.Proofs.Record.Padding
import Formulary.Proofs.Store.Backing

/-!
# Packing and unpacking

A list of formulas is packed if every one of them has a record, and the packed words are unpacked to
the list. Words that are unpacked to a list of formulas hold the records of these formulas, because no
formula has two; so packing the list gives the same words, but for the bits behind the last record,
which are not looked at when words are read and are clear in words that were packed.

How many words an array takes, and where its records stand, is computed in a machine word. A list that
is in memory has fewer bits than that counts.
-/

namespace Formulary

namespace Outcome

variable {ε α β : Type} {f : α → Except ε β} {g : β → Except ε α} {items : List α}
  {results : List β}

/-- A computation on a list succeeds element by element. -/
theorem mapM_eq_ok_iff_forall₂ :
    items.mapM f = .ok results ↔ List.Forall₂ (fun item result => f item = .ok result) items results := by
  induction items generalizing results with
  | nil =>
    rw [List.forall₂_nil_left_iff]
    exact ⟨fun h => (Except.ok.inj h).symm, fun h => h ▸ rfl⟩
  | cons item rest ih =>
    rw [List.mapM_cons, List.forall₂_cons_left_iff, bind_eq_ok_iff]
    constructor
    · rintro ⟨result, hresult, h⟩
      obtain ⟨others, hothers, h⟩ := bind_eq_ok_iff.mp h
      exact ⟨result, others, hresult, ih.mp hothers, (Except.ok.inj h).symm⟩
    · rintro ⟨result, others, hresult, hothers, rfl⟩
      exact ⟨result, hresult, bind_eq_ok_iff.mpr ⟨others, ih.mpr hothers, rfl⟩⟩

/-- Computations that undo each other do so on lists. -/
theorem mapM_eq_ok_iff_mapM (h : ∀ item result, f item = .ok result ↔ g result = .ok item) :
    items.mapM f = .ok results ↔ results.mapM g = .ok items := by
  simp only [mapM_eq_ok_iff_forall₂, h]
  exact ⟨fun hall => hall.flip, fun hall => hall.flip⟩

end Outcome

namespace Record.Codec

variable {codec : Codec} {table : OperatorTable} {slots : ℕ} {packed : PackedRecords}
  {formulas : List Formula} {records : List UInt64}

/-- Formulas that all have a record are packed as their records, with nothing behind them. -/
theorem pack_of_mapM_encode (h : formulas.mapM codec.encode = .ok records) :
    ∃ packed, codec.pack formulas = .ok packed ∧ packed.width = codec.width ∧
      packed.isWhole = true ∧ packed.IsTidy ∧ packed.toList = records := by
  obtain ⟨start, hstart⟩ : ∃ start, PackedRecords.empty codec.width = .ok start :=
    ⟨_, dif_pos codec.layout.fits⟩
  obtain ⟨hwidth, hwhole, hnone⟩ := PackedRecords.toList_empty hstart
  have hrecords : ∀ record ∈ records, record.toNat < capacity start.width := by
    intro record hrecord
    obtain ⟨f, -, hf⟩ := Outcome.exists_of_mem_of_mapM_eq_ok h record hrecord
    rw [hwidth]
    exact encode_lt hf
  obtain ⟨packed, hpush, hsame, hafter, htidy, hlist⟩ :=
    PackedRecords.pushAll_eq_ok hwhole (PackedRecords.isTidy_of_empty hstart) hrecords
  refine ⟨packed, ?_, hsame.trans hwidth, hafter, htidy, by rw [hlist, hnone, List.nil_append]⟩
  unfold pack
  rw [h, hstart]
  simp only [bind, Except.bind, hpush]
  rfl

/-- What is packed are the records of the formulas. -/
theorem of_pack_eq_ok (h : codec.pack formulas = .ok packed) :
    formulas.mapM codec.encode = .ok packed.toList ∧ packed.width = codec.width ∧
      packed.isWhole = true ∧ packed.IsTidy := by
  obtain ⟨records, hrecords, -⟩ := Outcome.bind_eq_ok_iff.mp h
  obtain ⟨made, hmade, hwidth, hwhole, htidy, rfl⟩ := pack_of_mapM_encode hrecords
  cases h.symm.trans hmade
  exact ⟨hrecords, hwidth, hwhole, htidy⟩

/-- Formulas are packed exactly if every one of them has a record. -/
theorem exists_pack_iff : (∃ packed, codec.pack formulas = .ok packed) ↔
    ∀ f ∈ formulas, ∃ record, codec.encode f = .ok record := by
  rw [← Outcome.exists_mapM_eq_ok_iff]
  constructor
  · rintro ⟨packed, h⟩
    exact ⟨_, (of_pack_eq_ok h).1⟩
  · rintro ⟨records, h⟩
    obtain ⟨packed, hpacked, -⟩ := pack_of_mapM_encode h
    exact ⟨packed, hpacked⟩

/-- Records are unpacked to formulas exactly if they are the records of these formulas. -/
theorem mapM_decode_eq_ok_iff (hcodec : make table slots = .ok codec) :
    records.mapM codec.decode = .ok formulas ↔ formulas.mapM codec.encode = .ok records :=
  Outcome.mapM_eq_ok_iff_mapM fun _ _ => decode_eq_ok_iff_encode (tableSize_le_of_make hcodec)

/-- The packed format holds lists of formulas and nothing else, but for the bits behind the last
record. Formulas are packed exactly if every one has a record; then they take as many words as their
bits need, and read as an array again these words are unpacked to the formulas and have each of them
at its index. Conversely, words that are read as an array and unpacked to formulas are what these
formulas are packed to, once every bit behind the last record is cleared.

The second direction asks that a machine word counts the bits. This holds of every list of formulas
that is in memory: a record has at most 64 bits, so `2 ^ 64` bits are `2 ^ 58` formulas or more, and
these take more bytes than there are addresses for one block of memory. Lists here have no such bound. -/
theorem pack_unpack_cleared (hcodec : make table slots = .ok codec) :
    (∀ formulas, (∃ packed, codec.pack formulas = .ok packed) ↔
      ∀ f ∈ formulas, ∃ record, codec.encode f = .ok record) ∧
    (∀ formulas packed, codec.pack formulas = .ok packed →
      packed.words.size = (formulas.length * codec.width + 63) / 64 ∧
      PackedRecords.ofWords packed.words codec.width formulas.length = .ok packed ∧
      codec.unpack packed = .ok formulas ∧
      ∀ index (h : index < formulas.length), codec.get packed index = .ok formulas[index]) ∧
    ∀ words length packed formulas, length * codec.width < 2 ^ 64 →
      PackedRecords.ofWords words codec.width length = .ok packed →
      codec.unpack packed = .ok formulas →
      ∃ again, codec.pack formulas = .ok again ∧
        again.words = clearedFrom words (length * codec.width) := by
  refine ⟨fun formulas => exists_pack_iff, fun formulas packed h => ?_,
    fun words length packed formulas hbits hwords hunpack => ?_⟩
  · obtain ⟨hencode, hwidth, hwhole, -⟩ := of_pack_eq_ok h
    have hlists : PackedStore.Lists ⟨codec, packed⟩ table slots formulas :=
      ⟨hcodec, hwidth, (mapM_decode_eq_ok_iff hcodec).mpr hencode⟩
    have hlength : packed.length = formulas.length := hlists.length_eq
    refine ⟨?_, ?_, ?_, fun index hindex => ?_⟩
    · rw [of_decide_eq_true hwhole, hwidth, hlength]
      rfl
    · rw [← hwidth, ← hlength, PackedRecords.ofWords_self]
    · rw [unpack_eq hwidth, hlists.decode_eq]
    · have hget := hlists.toOption_get index
      rw [List.getElem?_eq_getElem hindex, Outcome.toOption_eq_some_iff] at hget
      exact Outcome.mapError_eq_ok_iff.mp hget
  · obtain ⟨rfl, hwidth, rfl⟩ := PackedRecords.ofWords_eq_ok_iff.mp hwords
    rw [← hwidth] at hbits ⊢
    rw [unpack_eq hwidth] at hunpack
    obtain ⟨again, hagain, hsame, hwhole, htidy, hlist⟩ :=
      pack_of_mapM_encode ((mapM_decode_eq_ok_iff hcodec).mp hunpack)
    exact ⟨again, hagain, htidy.words_eq hwhole (PackedRecords.isWhole_of_lt hbits)
      (hsame.trans hwidth.symm) hlist⟩

/-- A word whose bits behind its one record of eight bits are all set is unpacked to one formula, which
is packed to the word with these bits cleared. -/
theorem pack_unpack_cleared_setPadding :
    let f : Formula := ⟨[0, 1, 2], [0, 0], [true, true, false, true, false]⟩
    ∃ codec read packed, make .arithmetic 3 = .ok codec ∧
      PackedRecords.ofWords #[0xffffffffffffff00] codec.width 1 = .ok read ∧
      codec.unpack read = .ok [f] ∧ codec.pack [f] = .ok packed ∧ packed.words = #[0] ∧
      codec.unpack packed = .ok [f] := by
  intro f
  obtain ⟨codec, read, hcodec, hwidth, hread, hunpack⟩ : ∃ codec read,
      make .arithmetic 3 = .ok codec ∧ codec.width = 8 ∧
      PackedRecords.ofWords #[0xffffffffffffff00] codec.width 1 = .ok read ∧
      codec.unpack read = .ok [f] :=
    ⟨_, ⟨#[0xffffffffffffff00], 8, 1, by decide, by decide⟩, rfl, rfl, rfl, by decide +kernel⟩
  obtain ⟨-, hpacked, hcleared⟩ := pack_unpack_cleared hcodec
  obtain ⟨packed, hpack, hwords⟩ :=
    hcleared _ 1 read [f] (by rw [hwidth]; decide) hread hunpack
  obtain ⟨-, -, hagain, -⟩ := hpacked [f] packed hpack
  rw [hwidth] at hwords
  exact ⟨codec, read, packed, hcodec, hread, hunpack, hpack, hwords.trans (by decide), hagain⟩

end Record.Codec

end Formulary
