import Formulary.Store.Basic
import Formulary.Proofs.Record.PackedArray
import Formulary.Proofs.Record.RoundTrip

/-!
# Stores as lists of formulas

A store of any kind holds a list of formulas over its slots. A valid formula of the right size
with codes of the table is taken by every kind and is added at the end of the list. Writing what
is only buffered leaves the list as it is.

What lies behind a store, if it is one that is written somewhere, is its backing. It stays as it is
until the store is written.
-/

namespace Formulary

variable {table : OperatorTable} {slots : ℕ} {formulas : List Formula} {f : Formula}

/-- Formulas that are read are put behind those read before. -/
theorem Record.Codec.unpackFrom_eq (codec : Codec) (packed : PackedRecords) (found : List Formula)
    (index count : ℕ) :
    codec.unpackFrom packed found index count =
      ((List.range' index count).mapM fun position => packed.get position >>= codec.decode).map
        (found.reverse ++ ·) := by
  induction count generalizing found index with
  | zero => exact congrArg Except.ok (List.append_nil found.reverse).symm
  | succ count ih =>
    have hrest (f : Formula) := ih (f :: found) (index + 1)
    rw [unpackFrom, List.range'_succ, List.mapM_cons]
    generalize (fun position => packed.get position >>= codec.decode) = read at hrest ⊢
    cases packed.get index >>= codec.decode with
    | error error => rfl
    | ok f =>
      dsimp only
      rw [hrest]
      cases (List.range' (index + 1) count).mapM read with
      | error error => rfl
      | ok rest => simp [Except.map, bind, Except.bind, pure, Except.pure]

/-- Records of the codec's width are unpacked one after another. -/
theorem Record.Codec.unpack_eq {codec : Codec} {packed : PackedRecords}
    (hwidth : packed.width = codec.width) :
    codec.unpack packed = packed.toList.mapM codec.decode := by
  have hread : ∀ index ∈ List.range packed.length,
      (packed.get index >>= codec.decode) = (codec.decode ∘ packed.recordAt) index := by
    intro index hindex
    rw [PackedRecords.get_eq_ok (List.mem_range.mp hindex)]
    rfl
  unfold unpack checkWidth
  rw [if_pos hwidth, PackedRecords.toList_eq_map_recordAt, List.mapM_map,
    ← Outcome.mapM_congr hread, List.range_eq_range']
  refine (codec.unpackFrom_eq packed [] 0 packed.length).trans ?_
  cases (List.range' 0 packed.length).mapM fun position =>
      packed.get position >>= codec.decode with
  | error error => rfl
  | ok formulas => rfl

namespace PackedStore

/-- A store made for a table and some slots whose records are those of a list of formulas. -/
structure Lists (store : PackedStore) (table : OperatorTable) (slots : ℕ)
    (formulas : List Formula) : Prop where
  codec_eq : Record.Codec.make table slots = .ok store.codec
  width_eq : store.records.width = store.codec.width
  decode_eq : store.records.toList.mapM store.codec.decode = .ok formulas

/-- A store that lists formulas and whose words have room for all their records, so that more can be
added. -/
structure Holds (store : PackedStore) (table : OperatorTable) (slots : ℕ)
    (formulas : List Formula) : Prop extends store.Lists table slots formulas where
  whole : store.records.isWhole = true

variable {store : PackedStore}

/-- A store that lists formulas is over their number of slots. -/
theorem Lists.slots_eq (h : store.Lists table slots formulas) : store.slots = slots :=
  (Record.Codec.eq_of_make h.codec_eq).1

/-- A store gives back the formulas that it lists. -/
theorem Lists.toList_eq_ok (h : store.Lists table slots formulas) :
    store.toList = .ok formulas := by
  unfold toList
  rw [Record.Codec.unpack_eq h.width_eq, h.decode_eq]
  rfl

/-- There are as many records as formulas. -/
theorem Lists.length_eq (h : store.Lists table slots formulas) :
    store.length = formulas.length := by
  have hlengths := congrArg List.length (Outcome.map_eq_of_mapM_eq_ok h.decode_eq)
  rw [List.length_map, List.length_map, Record.PackedRecords.length_toList] at hlengths
  exact hlengths

/-- Whatever a store lists fits its slots and its table. -/
theorem Lists.fits (h : store.Lists table slots formulas) : ∀ f ∈ formulas, f.Fits table slots := by
  intro f hf
  obtain ⟨record, -, hrecord⟩ := Outcome.exists_of_mem_of_mapM_eq_ok h.decode_eq f hf
  have hencode := Record.Codec.encode_of_decode (Record.Codec.tableSize_le_of_make h.codec_eq) hrecord
  exact (Record.Codec.covers_iff_of_make h.codec_eq).mp
    (Record.Codec.exists_encode_iff.mp ⟨record, hencode⟩)

/-- A formula that has a record is added at the end. -/
theorem Holds.push_eq_ok (h : store.Holds table slots formulas)
    (hfits : f.Fits table slots) :
    ∃ after, store.push f = (.ok (), after) ∧ after.Holds table slots (formulas ++ [f]) := by
  obtain ⟨record, hrecord⟩ := Record.Codec.exists_encode_iff.mpr
    ((Record.Codec.covers_iff_of_make h.codec_eq).mpr hfits)
  have hwide := Record.Codec.encode_lt hrecord
  rw [← h.width_eq] at hwide
  obtain ⟨records, hpush, hwidth, hwhole, hrecords⟩ :=
    Record.PackedRecords.push_eq_ok h.whole hwide
  refine ⟨⟨store.codec, records⟩, ?_, ⟨h.codec_eq, hwidth.trans h.width_eq, ?_⟩, hwhole⟩
  · unfold push
    rw [if_neg (by simp [hfits.size_eq, h.slots_eq]), hrecord]
    simp only [hpush]
    rfl
  · rw [hrecords, List.mapM_append, h.decode_eq, List.mapM_cons, Record.Codec.decode_of_encode hrecord]
    rfl

/-- A formula without a record is refused, and the store stays as it is. -/
theorem Holds.push_eq_error (h : store.Holds table slots formulas) (hfits : ¬ f.Fits table slots) :
    ∃ error, store.push f = (.error error, store) ∧
      (f.size = slots → ∃ reason, store.codec.encode f = .error reason ∧ error = .record reason) := by
  unfold push
  by_cases hsize : f.size = slots
  · rw [if_neg (by simp [hsize, h.slots_eq])]
    cases hencode : store.codec.encode f with
    | error reason => exact ⟨.record reason, rfl, fun _ => ⟨reason, rfl, rfl⟩⟩
    | ok record =>
      have hcovers := Record.Codec.exists_encode_iff.mp ⟨record, hencode⟩
      exact absurd ((Record.Codec.covers_iff_of_make h.codec_eq).mp hcovers) hfits
  · rw [if_pos (by simp [hsize, h.slots_eq])]
    exact ⟨_, rfl, fun heq => absurd heq hsize⟩

/-- A codec is all that an empty store needs. -/
theorem exists_empty {codec : Record.Codec} (hcodec : Record.Codec.make table slots = .ok codec) :
    ∃ store, empty table slots = .ok store := by
  have hrecords : Record.PackedRecords.empty codec.width =
      .ok ⟨#[], codec.width, 0, codec.layout.fits,
        Or.inl (by simp [Record.cutWordsFor, Record.cut, Record.wordBits])⟩ :=
    dif_pos codec.layout.fits
  unfold empty
  rw [hcodec]
  simp only [bind, Except.bind, Except.mapError, hrecords]
  exact ⟨_, rfl⟩

/-- An empty store holds no formulas. -/
theorem holds_nil_of_empty (h : empty table slots = .ok store) : store.Holds table slots [] := by
  obtain ⟨codec, hcodec, h⟩ := Outcome.bind_eq_ok_iff.mp h
  obtain ⟨records, hrecords, h⟩ := Outcome.bind_eq_ok_iff.mp h
  cases h
  obtain ⟨hwidth, hwhole, hnone⟩ :=
    Record.PackedRecords.toList_empty (Outcome.mapError_eq_ok_iff.mp hrecords)
  exact ⟨⟨Outcome.mapError_eq_ok_iff.mp hcodec, hwidth, by rw [hnone]; rfl⟩, hwhole⟩

end PackedStore

namespace Store

variable {β : Type} {store : Store β}

/-- A store over some slots, of any kind, that holds a list of formulas. -/
def Holds (store : Store β) (table : OperatorTable) (slots : ℕ) (formulas : List Formula) : Prop :=
  match store with
  | .memory store => store.slots = slots ∧ store.formulas.toList = formulas
  | .packed store => store.Holds table slots formulas
  | .external store => store.buffer.Holds table slots formulas

/-- A store that holds formulas is over their number of slots. -/
theorem Holds.slots_eq (h : store.Holds table slots formulas) : store.slots = slots := by
  cases store with
  | memory store => exact h.1
  | packed store => exact PackedStore.Lists.slots_eq h.toLists
  | external store => exact PackedStore.Lists.slots_eq h.toLists

/-- What a store holds is what it lists. -/
theorem Holds.toList_eq_ok (h : store.Holds table slots formulas) :
    store.toList = .ok formulas := by
  cases store with
  | memory store => exact congrArg Except.ok h.2
  | packed store => exact PackedStore.Lists.toList_eq_ok h.toLists
  | external store => exact PackedStore.Lists.toList_eq_ok h.toLists

/-- There are as many formulas as a store lists. -/
theorem Holds.length_eq (h : store.Holds table slots formulas) :
    store.length = formulas.length := by
  cases store with
  | memory store => exact congrArg List.length h.2
  | packed store => exact PackedStore.Lists.length_eq h.toLists
  | external store => exact PackedStore.Lists.length_eq h.toLists

/-- A valid formula of the right size with known codes is added at the end. -/
theorem Holds.push_eq_ok (h : store.Holds table slots formulas)
    (hfits : f.Fits table slots) :
    ∃ after, store.push f = (.ok (), after) ∧ after.Holds table slots (formulas ++ [f]) := by
  cases store with
  | memory store =>
    obtain ⟨rfl, rfl⟩ := h
    refine ⟨.memory ⟨store.slots, store.formulas.push f⟩, ?_, rfl, Array.toList_push⟩
    simp [push, MemoryStore.push, hfits.size_eq]
  | packed store =>
    obtain ⟨after, hpush, hafter⟩ := PackedStore.Holds.push_eq_ok h hfits
    exact ⟨.packed after, by simp [push, hpush], hafter⟩
  | external store =>
    obtain ⟨after, hpush, hafter⟩ := PackedStore.Holds.push_eq_ok h hfits
    exact ⟨.external { store with buffer := after },
      by simp [push, ExternalStore.push, hpush], hafter⟩

/-- Writing what is buffered does not change what a store holds. -/
theorem Holds.flush [WordBackend β] (h : store.Holds table slots formulas) :
    store.flush.2.Holds table slots formulas := by
  cases store with
  | memory store => exact h
  | packed store => exact h
  | external store =>
    unfold Store.flush ExternalStore.flush
    dsimp only
    split
    · split
      · exact h
      · exact h
    · exact h

/-- What lies behind a store that is written somewhere, with the number of records that are there
already. -/
def backing : Store β → Option (β × ℕ)
  | .memory _ | .packed _ => none
  | .external store => some (store.backend, store.flushed)

/-- Appending a formula writes nothing. -/
theorem backing_push (store : Store β) (f : Formula) :
    (store.push f).2.backing = store.backing := by
  cases store with
  | memory store => rfl
  | packed store => rfl
  | external store => rfl

/-- Formulas that fit are added one after another, and none of them is written. -/
theorem Holds.pushAll_eq_ok (h : store.Holds table slots formulas) {more : List Formula}
    (hfits : ∀ f ∈ more, f.Fits table slots) :
    ∃ after, store.pushAll more = (.ok (), after) ∧ after.Holds table slots (formulas ++ more) ∧
      after.backing = store.backing := by
  induction more generalizing store formulas with
  | nil => exact ⟨store, rfl, by rwa [List.append_nil], rfl⟩
  | cons f rest ih =>
    obtain ⟨next, hpush, hnext⟩ := h.push_eq_ok (hfits f List.mem_cons_self)
    have hbacking := store.backing_push f
    rw [hpush] at hbacking
    obtain ⟨after, hrest, hafter, hsame⟩ :=
      ih hnext fun other hother => hfits other (List.mem_cons_of_mem f hother)
    refine ⟨after, ?_, ?_, hsame.trans hbacking⟩
    · rw [pushAll, hpush]
      exact hrest
    · rwa [List.append_assoc, List.singleton_append] at hafter

/-- A store with nothing behind it has nothing to write. -/
theorem flush_of_backing_eq_none [WordBackend β] (h : store.backing = none) :
    store.flush = (.ok (), store) := by
  cases store with
  | memory store => rfl
  | packed store => rfl
  | external store => cases h

end Store

namespace StoreKind

variable {kind : StoreKind} {store : Store WordFiles}

/-- A store that is built holds no formulas. -/
theorem holds_nil_of_build (h : kind.build table slots = .ok store) :
    store.Holds table slots [] := by
  cases kind with
  | memory =>
    cases h
    exact ⟨rfl, rfl⟩
  | packed =>
    obtain ⟨packed, hpacked, rfl⟩ := Outcome.map_eq_ok_iff.mp h
    exact PackedStore.holds_nil_of_empty hpacked
  | external path directory =>
    obtain ⟨external, hexternal, rfl⟩ := Outcome.map_eq_ok_iff.mp h
    obtain ⟨packed, hpacked, hparts⟩ := Outcome.bind_eq_ok_iff.mp hexternal
    cases hparts
    exact PackedStore.holds_nil_of_empty hpacked

/-- What lies behind a store of a kind when it is built. -/
def backing (kind : StoreKind) (slots : ℕ) : Option (WordFiles × ℕ) :=
  match kind with
  | .memory | .packed => none
  | .external path directory => some (⟨path, slots, directory⟩, 0)

/-- A store in memory, of formulas or packed, has nothing behind it. -/
theorem backing_eq_none (h : kind = .memory ∨ kind = .packed) : kind.backing slots = none := by
  rcases h with rfl | rfl
  · rfl
  · rfl

/-- Nothing is written when a store is built. -/
theorem backing_of_build (h : kind.build table slots = .ok store) :
    store.backing = kind.backing slots := by
  cases kind with
  | memory =>
    cases h
    rfl
  | packed =>
    obtain ⟨packed, -, rfl⟩ := Outcome.map_eq_ok_iff.mp h
    rfl
  | external path directory =>
    obtain ⟨external, hexternal, rfl⟩ := Outcome.map_eq_ok_iff.mp h
    obtain ⟨packed, hpacked, hparts⟩ := Outcome.bind_eq_ok_iff.mp hexternal
    cases hparts
    have hnone : packed.length = 0 := (PackedStore.holds_nil_of_empty hpacked).length_eq
    simp only [Store.backing, ExternalStore.ofParts, hnone, backing]

/-- A store can be built in memory always, and of any other kind if there is a codec. -/
theorem exists_build (h : kind = .memory ∨ ∃ codec, Record.Codec.make table slots = .ok codec) :
    ∃ store, kind.build table slots = .ok store := by
  rcases h with rfl | ⟨codec, hcodec⟩
  · exact ⟨_, rfl⟩
  · obtain ⟨packed, hpacked⟩ := PackedStore.exists_empty hcodec
    unfold build
    cases kind with
    | memory => exact ⟨_, rfl⟩
    | packed =>
      dsimp only
      rw [hpacked]
      exact ⟨_, rfl⟩
    | external path directory =>
      dsimp only
      rw [ExternalStore.create, hpacked]
      exact ⟨_, rfl⟩

end StoreKind

end Formulary
