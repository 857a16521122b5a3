import Formulary.Proofs.Store.Contents

/-!
# Reading stores by position and writing them

A store of any kind gives back at every position the formula that it lists there, and nothing
elsewhere. When a store is written for the first time, all its records go to its backing at once.
-/

namespace Formulary

/-- The formula of a packed store at a position is that of the record there. -/
theorem PackedStore.get_eq {store : PackedStore} (hwidth : store.records.width = store.codec.width)
    {index : ℕ} (h : index < store.records.length) :
    store.get index = (store.codec.decode (store.records.recordAt index)).mapError .record := by
  unfold PackedStore.get Record.Codec.get Record.Codec.checkWidth
  rw [if_pos hwidth]
  simp only [bind, Except.bind, Record.PackedRecords.get_eq_ok h]

/-- The formula of a packed store at a position is the one that is listed there. -/
theorem PackedStore.Lists.toOption_get {store : PackedStore} {table : OperatorTable} {slots : ℕ}
    {formulas : List Formula} (h : store.Lists table slots formulas) (index : ℕ) :
    (store.get index).toOption = formulas[index]? := by
  have hdecode := Outcome.map_eq_of_mapM_eq_ok h.decode_eq
  unfold PackedStore.get Record.Codec.get Record.Codec.checkWidth
  rw [if_pos h.width_eq]
  rcases Nat.lt_or_ge index store.records.length with hlt | hge
  · have hentry := congrArg (·[index]?) hdecode
    simp only [Record.PackedRecords.toList_eq_map_recordAt, List.getElem?_map,
      List.getElem?_range hlt, Option.map_some] at hentry
    obtain ⟨f, hf, hrecord⟩ := Option.map_eq_some_iff.mp hentry.symm
    simp only [bind, Except.bind, Record.PackedRecords.get_eq_ok hlt, ← hrecord, hf]
    rfl
  · have hlength : store.records.length = formulas.length := h.length_eq
    have hbounds : store.records.get index =
        .error (.indexOutOfBounds index store.records.length) := if_pos hge
    rw [List.getElem?_eq_none (hlength ▸ hge)]
    simp only [bind, Except.bind, hbounds]
    rfl

namespace ExternalStore

variable {β : Type} [WordBackend β] {store after : ExternalStore β}

/-- What writing a store can do. If all its records count as written, nothing happens. Otherwise all
of them go to the backend, and if it takes them they count as written. -/
theorem flush_cases (store : ExternalStore β) :
    (store.flushed = store.buffer.length ∧ store.flush = (.ok (), store)) ∨
    (store.flushed ≠ store.buffer.length ∧
      ((∃ error backend,
        WordBackend.write store.backend store.buffer.records.words store.buffer.length =
          (.error error, backend) ∧
        store.flush = (.error error, { store with backend := backend })) ∨
      ∃ backend,
        WordBackend.write store.backend store.buffer.records.words store.buffer.length =
          (.ok (), backend) ∧
        store.flush = (.ok (), ⟨store.buffer, backend, store.buffer.length⟩))) := by
  by_cases hwritten : store.flushed = store.buffer.length
  · have hclean : store.isDirty = false := decide_eq_false (not_not_intro hwritten)
    refine Or.inl ⟨hwritten, ?_⟩
    unfold flush
    rw [hclean]
    rfl
  · have hdirty : store.isDirty = true := decide_eq_true hwritten
    refine Or.inr ⟨hwritten, ?_⟩
    rcases hwrite : WordBackend.write store.backend store.buffer.records.words
      store.buffer.records.length with ⟨outcome, backend⟩
    unfold flush
    simp only [hdirty, if_true, hwrite]
    cases outcome with
    | error error => exact Or.inl ⟨error, backend, hwrite, rfl⟩
    | ok done => exact Or.inr ⟨backend, hwrite, rfl⟩

/-- When an external store is written for the first time, all its records go to its backend;
without records nothing is written. -/
theorem eq_of_flush (hfresh : store.flushed = 0) (h : store.flush = (.ok (), after)) :
    after = ⟨store.buffer, if store.buffer.length = 0 then store.backend
      else (WordBackend.write store.backend store.buffer.records.words store.buffer.length).2,
      store.buffer.length⟩ := by
  obtain ⟨buffer, backend, flushed⟩ := store
  subst hfresh
  rcases flush_cases ⟨buffer, backend, 0⟩ with ⟨hnone, hflush⟩ |
    ⟨hsome, ⟨error, written, -, hflush⟩ | ⟨written, hwrite, hflush⟩⟩
  · cases hflush.symm.trans h
    rw [if_pos hnone.symm, ← hnone]
  · cases hflush.symm.trans h
  · cases hflush.symm.trans h
    rw [if_neg (Ne.symm hsome), hwrite]

/-- If the backend takes whatever is written, an external store can be written. -/
theorem flush_eq_ok
    (hwrite : ∀ words records, (WordBackend.write store.backend words records).1 = .ok ()) :
    store.flush.1 = .ok () := by
  rcases store.flush_cases with ⟨-, hflush⟩ | ⟨-, ⟨error, backend, hfails, -⟩ | ⟨backend, -, hflush⟩⟩
  · rw [hflush]
  · cases (congrArg Prod.fst hfails).symm.trans (hwrite _ _)
  · rw [hflush]

end ExternalStore

namespace Store

variable {β : Type} {store : Store β} {table : OperatorTable} {slots : ℕ} {formulas : List Formula}

/-- The formula at a position is the one that is listed there. -/
theorem Holds.toOption_get (h : store.Holds table slots formulas) (index : ℕ) :
    (store.get index).toOption = formulas[index]? := by
  cases store with
  | memory store =>
    obtain ⟨-, rfl⟩ := h
    simp only [get, MemoryStore.get, Array.getElem?_toList]
    cases store.formulas[index]? with
    | none => rfl
    | some f => rfl
  | packed store => exact PackedStore.Lists.toOption_get h.toLists index
  | external store => exact PackedStore.Lists.toOption_get h.toLists index

variable [WordBackend β] {after : Store β} {backend : β}

/-- When a store is written for the first time, all its records go to its backend; without records
nothing is written. -/
theorem eq_of_flush (hbacking : store.backing = some (backend, 0))
    (h : store.flush = (.ok (), after)) :
    ∃ buffer : PackedStore, after = .external ⟨buffer, if buffer.length = 0 then backend
      else (WordBackend.write backend buffer.records.words buffer.length).2, buffer.length⟩ := by
  cases store with
  | memory store => cases hbacking
  | packed store => cases hbacking
  | external store =>
    obtain ⟨buffer, place, flushed⟩ := store
    cases hbacking
    refine ⟨buffer, ?_⟩
    rcases hflush : (ExternalStore.mk buffer place 0).flush with ⟨outcome, written⟩
    have hstore : (outcome, external written) = (.ok (), after) := by
      rw [← h, flush, hflush]
    cases hstore
    rw [ExternalStore.eq_of_flush rfl hflush]

/-- If the backend takes whatever is written, so does the store. -/
theorem flush_eq_ok {flushed : ℕ} (hbacking : store.backing = some (backend, flushed))
    (hwrite : ∀ words records, (WordBackend.write backend words records).1 = .ok ()) :
    store.flush.1 = .ok () := by
  cases store with
  | memory store => cases hbacking
  | packed store => cases hbacking
  | external store =>
    cases hbacking
    exact ExternalStore.flush_eq_ok hwrite

end Store

/-- Where there is no directory yet, everything can be written. -/
theorem WordFiles.writeInto_absent (slots : ℕ) (words : Array UInt64) (records : ℕ) :
    (writeInto slots .absent words records).1 = .ok () := by
  have hplacing : Directory.performAll .absent (placing slots words records) = (true,
      .present [(fileName slots records, .file (words.toList.flatMap wordBytes))]) := by
    cases hname : fileName slots records == stagingName slots records with
    | true => simp [placing, Directory.performAll, Directory.perform, Directory.putEntry,
        Directory.dropEntry, List.lookup_cons, hname]
    | false => simp [placing, Directory.performAll, Directory.perform, Directory.putEntry,
        Directory.dropEntry, List.lookup_cons, hname]
  have hclearing (found : List (String × ℕ))
      (hfound : ∀ file ∈ found, file.1 = fileName slots records) :
      clearing slots records found = [] := by
    unfold clearing
    rw [List.filter_eq_nil_iff.mpr fun file hfile => by simp [hfound file hfile], List.map_nil]
  unfold writeInto
  rw [hplacing]
  simp only [stored]
  rw [hclearing]
  · rfl
  · intro file hfile
    obtain ⟨⟨name, entry⟩, hentry, hname⟩ := List.mem_filterMap.mp (List.mem_mergeSort.mp hfile)
    obtain ⟨count, -, rfl⟩ := Option.map_eq_some_iff.mp hname
    exact congrArg Prod.fst (List.mem_singleton.mp hentry)

end Formulary
