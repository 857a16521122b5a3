import Formulary.Proofs.Store.Backing
import Formulary.Proofs.Store.Interruption

/-!
# External stores as lists with a saved copy

An external store behaves like a list of formulas of which a copy is saved somewhere: what is
appended is only in the list, writing the store makes the copy the same as the list, and opening
what is saved makes the list the same as the copy. The copy is always the beginning of the list, so
the two are the same as soon as they are equally long, and this is all that the store looks at.

All that is asked of the backend is that after a write that succeeds the words are read that were
written. Words in memory and words in files have this property.
-/

namespace Formulary

/-- After a write that succeeds, the words are read that were written, with their record count, which
fits a machine word. -/
class WordBackend.ReadsBack (β : Type) [WordBackend β] : Prop where
  read_of_write : ∀ {backend written : β} {words : Array UInt64} {records : ℕ},
    records < WordFiles.recordBound → WordBackend.write backend words records = (.ok (), written) →
      (WordBackend.read written).1 = .ok (words, records)

instance : WordBackend.ReadsBack MemoryWords where
  read_of_write _ h := by
    cases h
    rfl

instance : WordBackend.ReadsBack WordFiles where
  read_of_write := WordFiles.read_of_write

/-- A call on an external store. -/
inductive StoreCall where
  | push (f : Formula)
  | flush
  | get (index : ℕ)
  | reopen

/-- Whether a call appends a formula, or tries to. -/
def StoreCall.isPush : StoreCall → Bool
  | .push _ => true
  | .flush | .get _ | .reopen => false

/-- The first call counts if it appends a formula. -/
theorem StoreCall.countP_cons (call : StoreCall) (rest : List StoreCall) :
    (call :: rest).countP isPush = rest.countP isPush + call.isPush.toNat := by
  rw [List.countP_cons]
  cases call.isPush with
  | false => rfl
  | true => rfl

/-- A list of formulas with the copy of it that was saved last. -/
structure SavedList where
  formulas : List Formula
  saved : List Formula

namespace SavedList

variable {list : SavedList}

/-- The answer of a call and the list after it; no answer is a failure. Only formulas that fit are
appended, and only a copy of at least one formula can be opened. -/
def call (table : OperatorTable) (slots : ℕ) (list : SavedList) :
    StoreCall → Option (Option Formula) × SavedList
  | .push f =>
    if f.Fits table slots then (some none, { list with formulas := list.formulas ++ [f] })
    else (none, list)
  | .flush => (some none, { list with saved := list.formulas })
  | .get index => (list.formulas[index]?.map some, list)
  | .reopen =>
    if list.saved.isEmpty then (none, list)
    else (some none, { list with formulas := list.saved })

/-- The list after calls. -/
def afterCalls (table : OperatorTable) (slots : ℕ) (list : SavedList) : List StoreCall → SavedList
  | [] => list
  | call :: rest => ((list.call table slots call).2).afterCalls table slots rest

/-- Only appending makes the list longer, and by one formula, if the copy is its beginning. -/
theorem length_call_le (table : OperatorTable) (slots : ℕ) (h : list.saved <+: list.formulas)
    (call : StoreCall) :
    (list.call table slots call).2.formulas.length ≤ list.formulas.length + call.isPush.toNat := by
  cases call with
  | push f =>
    unfold SavedList.call
    dsimp only
    split
    · simp [StoreCall.isPush]
    · exact Nat.le_succ _
  | flush => exact Nat.le_refl _
  | get index => exact Nat.le_refl _
  | reopen =>
    unfold SavedList.call
    dsimp only
    split
    · exact Nat.le_refl _
    · exact h.length_le

end SavedList

namespace ExternalStore

variable {β : Type} [WordBackend β] {store : ExternalStore β} {list : SavedList}
  {table : OperatorTable} {slots : ℕ} {f : Formula}

/-- The answer of a call and the store after it. The store that is opened, if there is one, takes the
place of the store. -/
def call (table : OperatorTable) (slots : ℕ) (store : ExternalStore β) :
    StoreCall → Except StoreError (Option Formula) × ExternalStore β
  | .push f =>
    let (outcome, after) := store.push f
    (outcome.map fun _ => none, after)
  | .flush =>
    let (outcome, after) := store.flush
    (outcome.map fun _ => none, after)
  | .get index => ((store.buffer.get index).map some, store)
  | .reopen =>
    match openOver table slots store.backend with
    | (.error error, _) => (.error error, store)
    | (.ok opened, _) => (.ok none, opened)

/-- The store after calls. -/
def afterCalls (table : OperatorTable) (slots : ℕ) (store : ExternalStore β) :
    List StoreCall → ExternalStore β
  | [] => store
  | call :: rest => ((store.call table slots call).2).afterCalls table slots rest

/-- Whenever the store is written in a run, the backend takes what is written. -/
def WritesSucceed (table : OperatorTable) (slots : ℕ) (store : ExternalStore β) :
    List StoreCall → Prop
  | [] => True
  | call :: rest => (call = .flush → store.flush.1 = .ok ()) ∧
      ((store.call table slots call).2).WritesSucceed table slots rest

/-- A store that holds a list of formulas and whose backend holds the copy of it that was saved. -/
structure Mirrors (store : ExternalStore β) (table : OperatorTable) (slots : ℕ) (list : SavedList) :
    Prop where
  buffer : store.buffer.Holds table slots list.formulas
  flushed_eq : store.flushed = list.saved.length
  saved_prefix : list.saved <+: list.formulas
  read_nothing : list.saved = [] → ∃ error, (WordBackend.read store.backend).1 = .error error
  read_saved : list.saved ≠ [] → ∃ kept : PackedStore, kept.Holds table slots list.saved ∧
    (WordBackend.read store.backend).1 = .ok (kept.records.words, kept.records.length)

/-- A store without formulas over a backend that holds nothing. -/
theorem mirrors_nil_of_create {backend : β} (h : create table slots backend = .ok store)
    (hnothing : ∃ error, (WordBackend.read backend).1 = .error error) :
    store.Mirrors table slots ⟨[], []⟩ := by
  obtain ⟨buffer, hbuffer, hparts⟩ := Outcome.bind_eq_ok_iff.mp h
  cases hparts
  have hholds := PackedStore.holds_nil_of_empty hbuffer
  exact ⟨hholds, hholds.length_eq, List.prefix_rfl, fun _ => hnothing, fun hne => absurd rfl hne⟩

/-- A store is dirty exactly when its list differs from the saved copy. -/
theorem Mirrors.isDirty_eq_true_iff (h : store.Mirrors table slots list) :
    store.isDirty = true ↔ list.formulas ≠ list.saved := by
  unfold isDirty
  rw [h.flushed_eq, h.buffer.length_eq, decide_eq_true_iff, not_iff_not]
  exact ⟨fun heq => (h.saved_prefix.eq_of_length heq).symm, fun heq => by rw [heq]⟩

/-- The records of a list of formulas that is not empty pass the check of what is read. -/
theorem validate_eq_ok {kept : PackedStore} {formulas : List Formula}
    (h : kept.Holds table slots formulas) (hne : formulas ≠ []) :
    validate kept.codec kept.records.words kept.records.length = .ok kept := by
  have hlength : kept.records.length ≠ 0 := by
    rw [show kept.records.length = formulas.length from h.length_eq]
    exact fun hzero => hne (List.length_eq_zero_iff.mp hzero)
  have hunpack : kept.codec.unpack kept.records = .ok formulas :=
    (Record.Codec.unpack_eq h.width_eq).trans h.decode_eq
  unfold validate
  rw [if_neg hlength, ← h.width_eq, Record.PackedRecords.ofWords_self]
  simp only [bind, Except.bind, Except.mapError, hunpack]
  exact if_pos h.width_eq

/-- What is saved can be opened, and nothing else. -/
theorem Mirrors.openOver_cases (h : store.Mirrors table slots list) :
    (list.saved = [] ∧ ∃ error warnings,
      openOver table slots store.backend = (.error error, warnings)) ∨
    (list.saved ≠ [] ∧ ∃ opened warnings,
      openOver table slots store.backend = (.ok opened, warnings) ∧
        opened.Mirrors table slots ⟨list.saved, list.saved⟩) := by
  unfold openOver load
  rw [h.buffer.codec_eq]
  rcases hread : WordBackend.read store.backend with ⟨outcome, warnings⟩
  by_cases hsaved : list.saved = []
  · obtain ⟨error, herror⟩ := h.read_nothing hsaved
    rw [hread] at herror
    obtain rfl : outcome = .error error := herror
    exact Or.inl ⟨hsaved, error, warnings, rfl⟩
  · obtain ⟨kept, hkept, hwords⟩ := h.read_saved hsaved
    have hcodec : store.buffer.codec = kept.codec :=
      Except.ok.inj (h.buffer.codec_eq.symm.trans hkept.codec_eq)
    have hbackend : (WordBackend.read store.backend).1 =
        .ok (kept.records.words, kept.records.length) := hwords
    rw [hread] at hwords
    obtain rfl : outcome = .ok (kept.records.words, kept.records.length) := hwords
    refine Or.inr ⟨hsaved, ofParts kept store.backend, warnings, ?_, ?_⟩
    · dsimp only
      rw [hcodec, validate_eq_ok hkept hsaved]
    · exact ⟨hkept, hkept.length_eq, List.prefix_rfl, fun hnone => absurd hnone hsaved,
        fun _ => ⟨kept, hkept, hbackend⟩⟩

/-- A store that is not dirty is written without any effect. -/
theorem flush_of_isDirty_eq_false (h : store.isDirty = false) : store.flush = (.ok (), store) := by
  rcases store.flush_cases with ⟨-, hflush⟩ | ⟨hdirty, -⟩
  · exact hflush
  · exact absurd (of_decide_eq_false h) (not_not_intro hdirty)

/-- When a store is written, the saved copy becomes the same as the list. -/
theorem Mirrors.flush [WordBackend.ReadsBack β] (h : store.Mirrors table slots list)
    (hbound : list.formulas.length < WordFiles.recordBound) (hflush : store.flush.1 = .ok ()) :
    store.flush.2.Mirrors table slots ⟨list.formulas, list.formulas⟩ := by
  have hlength : store.buffer.length = list.formulas.length := h.buffer.length_eq
  rcases store.flush_cases with ⟨hwritten, hunchanged⟩ |
    ⟨hunwritten, ⟨error, backend, -, hfails⟩ | ⟨backend, hwrite, hafter⟩⟩
  · have hsame : list.formulas = list.saved :=
      (h.saved_prefix.eq_of_length (by rw [← h.flushed_eq, hwritten, hlength])).symm
    rw [hunchanged, hsame]
    exact ⟨hsame ▸ h.buffer, h.flushed_eq, List.prefix_rfl, h.read_nothing, h.read_saved⟩
  · rw [hfails] at hflush
    cases hflush
  · have hread := WordBackend.ReadsBack.read_of_write (hlength ▸ hbound) hwrite
    rw [hafter]
    refine ⟨h.buffer, hlength, List.prefix_rfl, fun hnone => ?_,
      fun _ => ⟨store.buffer, h.buffer, hread⟩⟩
    -- something was not written yet, so the list is not empty
    have hformulas : list.formulas = [] := hnone
    have hsaved : list.saved = [] := List.prefix_nil.mp (hformulas ▸ h.saved_prefix)
    rw [h.flushed_eq, hlength, hformulas, hsaved] at hunwritten
    exact absurd rfl hunwritten

/-- A formula that fits is appended, and any other is refused. -/
theorem Mirrors.push_cases (h : store.Mirrors table slots list) (f : Formula) :
    (f.Fits table slots ∧ ∃ after, store.push f = (.ok (), after) ∧
      after.Mirrors table slots { list with formulas := list.formulas ++ [f] }) ∨
    (¬ f.Fits table slots ∧ ∃ error, store.push f = (.error error, store)) := by
  by_cases hfits : f.Fits table slots
  · obtain ⟨buffer, hpush, hbuffer⟩ := h.buffer.push_eq_ok hfits
    refine Or.inl ⟨hfits, { store with buffer := buffer }, by rw [push, hpush], hbuffer, h.flushed_eq,
      h.saved_prefix.trans (List.prefix_append _ _), h.read_nothing, h.read_saved⟩
  · obtain ⟨error, hpush, -⟩ := h.buffer.push_eq_error hfits
    exact Or.inr ⟨hfits, error, by rw [push, hpush]⟩

/-- A store answers a call as the list with its saved copy does, and mirrors it afterwards. -/
theorem Mirrors.call [WordBackend.ReadsBack β] (h : store.Mirrors table slots list)
    (hbound : list.formulas.length < WordFiles.recordBound) (call : StoreCall)
    (hflush : call = .flush → store.flush.1 = .ok ()) :
    (store.call table slots call).1.toOption = (list.call table slots call).1 ∧
      (store.call table slots call).2.Mirrors table slots (list.call table slots call).2 := by
  cases call with
  | push f =>
    unfold ExternalStore.call SavedList.call
    rcases h.push_cases f with ⟨hfits, after, hpush, hafter⟩ | ⟨hfits, error, hpush⟩
    · simp only [hpush, if_pos hfits]
      exact ⟨rfl, hafter⟩
    · simp only [hpush, if_neg hfits]
      exact ⟨rfl, h⟩
  | flush =>
    have hafter := h.flush hbound (hflush rfl)
    rcases hwritten : store.flush with ⟨outcome, after⟩
    rw [hwritten] at hafter
    have houtcome : outcome = .ok () := by rw [← hflush rfl, hwritten]
    unfold ExternalStore.call SavedList.call
    rw [hwritten, houtcome]
    exact ⟨rfl, hafter⟩
  | get index =>
    refine ⟨?_, h⟩
    have hget := h.buffer.toOption_get index
    unfold ExternalStore.call SavedList.call
    dsimp only
    rw [← hget]
    cases store.buffer.get index with
    | error error => rfl
    | ok f => rfl
  | reopen =>
    unfold ExternalStore.call SavedList.call
    rcases h.openOver_cases with ⟨hnone, error, warnings, hopen⟩ |
      ⟨hsaved, opened, warnings, hopen, hopened⟩
    · simp only [hopen, hnone, List.isEmpty_nil, if_true]
      exact ⟨rfl, h⟩
    · simp only [hopen, List.isEmpty_iff, if_neg hsaved]
      exact ⟨rfl, hopened⟩

/-- A store mirrors the list with its saved copy in every run in which writing succeeds. -/
theorem Mirrors.afterCalls [WordBackend.ReadsBack β] {calls : List StoreCall}
    (h : store.Mirrors table slots list)
    (hbound : list.formulas.length + calls.countP StoreCall.isPush < WordFiles.recordBound)
    (hwrites : store.WritesSucceed table slots calls) :
    (store.afterCalls table slots calls).Mirrors table slots (list.afterCalls table slots calls) ∧
      (list.afterCalls table slots calls).formulas.length ≤
        list.formulas.length + calls.countP StoreCall.isPush := by
  induction calls generalizing store list with
  | nil => exact ⟨h, Nat.le_refl _⟩
  | cons call rest ih =>
    have hcount := StoreCall.countP_cons call rest
    have hstep := (h.call (by omega) call hwrites.1).2
    have hlength := SavedList.length_call_le table slots h.saved_prefix call
    obtain ⟨hafter, hle⟩ := ih hstep (by omega) hwrites.2
    refine ⟨hafter, hle.trans ?_⟩
    rw [hcount]
    omega

/-- Where there is a codec, a store that is created over a backend that holds nothing behaves in every
run in which writing succeeds as a list with a saved copy: it holds that list and answers every call
as the list does, it is dirty exactly when the list differs from the copy, writing it has no effect
otherwise, and what is opened is the copy, if that is not empty. The number of formulas that are
appended fits a machine word, as record counts do. -/
theorem afterCalls_savedList [WordBackend.ReadsBack β] {codec : Record.Codec} {backend : β}
    (hcodec : Record.Codec.make table slots = .ok codec)
    (hnothing : ∃ error, (WordBackend.read backend).1 = .error error) :
    ∃ store, create table slots backend = .ok store ∧
      ∀ calls : List StoreCall, calls.countP StoreCall.isPush < WordFiles.recordBound →
        store.WritesSucceed table slots calls →
        let after := store.afterCalls table slots calls
        let list := SavedList.afterCalls table slots ⟨[], []⟩ calls
        after.buffer.toList = .ok list.formulas ∧ after.buffer.length = list.formulas.length ∧
        (∀ call, (call = .flush → after.flush.1 = .ok ()) →
          (after.call table slots call).1.toOption = (list.call table slots call).1) ∧
        (after.isDirty = true ↔ list.formulas ≠ list.saved) ∧
        (after.isDirty = false → after.flush = (.ok (), after)) ∧
        (list.saved ≠ [] → ∃ opened warnings,
          openOver table slots after.backend = (.ok opened, warnings) ∧
            opened.buffer.toList = .ok list.saved ∧ opened.isDirty = false) := by
  obtain ⟨buffer, hbuffer⟩ := PackedStore.exists_empty hcodec
  have hcreate : create table slots backend = .ok (ofParts buffer backend) := by
    rw [create, hbuffer]
    rfl
  refine ⟨ofParts buffer backend, hcreate, fun calls hbound hwrites => ?_⟩
  intro after list
  have hcreated := mirrors_nil_of_create hcreate hnothing
  obtain ⟨hafter, hlength⟩ := hcreated.afterCalls (by rwa [List.length_nil, Nat.zero_add]) hwrites
  rw [List.length_nil, Nat.zero_add] at hlength
  refine ⟨hafter.buffer.toList_eq_ok, hafter.buffer.length_eq, fun call hflush => ?_,
    hafter.isDirty_eq_true_iff, flush_of_isDirty_eq_false, fun hsaved => ?_⟩
  · exact (hafter.call (Nat.lt_of_le_of_lt hlength hbound) call hflush).1
  · rcases hafter.openOver_cases with ⟨hnone, -⟩ | ⟨-, opened, warnings, hopen, hopened⟩
    · exact absurd hnone hsaved
    · refine ⟨opened, warnings, hopen, hopened.buffer.toList_eq_ok, ?_⟩
      rw [← Bool.not_eq_true, hopened.isDirty_eq_true_iff]
      exact not_not_intro rfl

/-- Over one slot a record has no bits, so the words that are written are none. What is opened is the
formula that was written, from memory and from a file that was made where no directory was. -/
theorem afterCalls_savedList_oneSlot :
    let calls : List StoreCall := [.push .operand, .flush, .push .operand, .reopen]
    (∃ store, create .arithmetic 1 MemoryWords.empty = .ok store ∧
      (store.afterCalls .arithmetic 1 calls).buffer.toList = .ok [.operand]) ∧
    ∃ store, create .arithmetic 1 (⟨"sets", 1, .absent⟩ : WordFiles) = .ok store ∧
      (store.afterCalls .arithmetic 1 calls).buffer.toList = .ok [.operand] := by
  intro calls
  have hfits : Formula.operand.Fits .arithmetic 1 :=
    Formula.fits_iff.mpr ⟨rfl, rfl, fun _ hcode => nomatch hcode⟩
  have hlist : SavedList.afterCalls .arithmetic 1 ⟨[], []⟩ calls = ⟨[.operand], [.operand]⟩ := by
    simp [calls, SavedList.afterCalls, SavedList.call, hfits]
  obtain ⟨codec, hcodec⟩ : ∃ codec, Record.Codec.make .arithmetic 1 = .ok codec := ⟨_, rfl⟩
  have hbound : calls.countP StoreCall.isPush < WordFiles.recordBound := by decide
  have hempty : ∃ error, (WordBackend.read MemoryWords.empty).1 = .error error := ⟨_, rfl⟩
  have hmissing : ∃ error, (WordBackend.read (⟨"sets", 1, .absent⟩ : WordFiles)).1 = .error error :=
    ⟨_, rfl⟩
  obtain ⟨memory, hmemory, hruns⟩ := afterCalls_savedList hcodec hempty
  obtain ⟨file, hfile, hruns'⟩ := afterCalls_savedList hcodec hmissing
  refine ⟨⟨memory, hmemory, ?_⟩, file, hfile, ?_⟩
  · obtain ⟨hholds, -⟩ :=
      hruns calls hbound ⟨nofun, fun _ => flush_eq_ok fun _ _ => rfl, nofun, nofun, trivial⟩
    rwa [hlist] at hholds
  · have habsent : (file.call .arithmetic 1 (.push .operand)).2.backend = ⟨"sets", 1, .absent⟩ := by
      obtain ⟨buffer, -, hparts⟩ := Outcome.bind_eq_ok_iff.mp hfile
      cases hparts
      rfl
    have hwrite : (file.call .arithmetic 1 (.push .operand)).2.flush.1 = .ok () :=
      flush_eq_ok fun words records => by
        rw [habsent]
        exact WordFiles.writeInto_absent 1 words records
    obtain ⟨hholds, -⟩ := hruns' calls hbound ⟨nofun, fun _ => hwrite, nofun, nofun, trivial⟩
    rwa [hlist] at hholds

end ExternalStore

end Formulary
