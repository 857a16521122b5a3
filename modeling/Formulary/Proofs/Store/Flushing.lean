import Formulary.Proofs.Store.Refusals
import Formulary.Proofs.Store.SavedCopy

/-!
# What a backend holds after a flush

A store that is created over a backend, as those are that are built for a directory, has an empty
buffer, and takes the backend to hold as much: it compares the length of its buffer with the number
of records that it has written itself. Whatever the backend held before is replaced by the first
write that succeeds, and from then on the records of the buffer are read back after every flush that
succeeds.

As long as the buffer is empty there is nothing that the store would call unwritten. A flush then
succeeds without a write, and what the backend held at the start is still there.
-/

namespace Formulary

namespace ExternalStore

variable {β : Type} [WordBackend β] {store : ExternalStore β} {table : OperatorTable} {slots : ℕ}
  {start : β} {formulas : List Formula}

/-- A store that holds a list of formulas and was created over a backend. Without formulas the
backend is as it was at the start, and when all formulas are written their records are read back. -/
structure Follows (store : ExternalStore β) (table : OperatorTable) (slots : ℕ) (start : β)
    (formulas : List Formula) : Prop where
  buffer : store.buffer.Holds table slots formulas
  flushed_le : store.flushed ≤ formulas.length
  untouched : formulas = [] → store.backend = start
  read_back : store.flushed = formulas.length → formulas ≠ [] →
    (WordBackend.read store.backend).1 = .ok (store.buffer.records.words, store.buffer.length)

/-- A store that was just created holds nothing and has not touched its backend. -/
theorem follows_nil_of_create (h : create table slots start = .ok store) :
    store.Follows table slots start [] := by
  obtain ⟨buffer, hbuffer, hparts⟩ := Outcome.bind_eq_ok_iff.mp h
  cases hparts
  have hholds := PackedStore.holds_nil_of_empty hbuffer
  exact ⟨hholds, Nat.le_of_eq hholds.length_eq, fun _ => rfl, fun _ hne => absurd rfl hne⟩

/-- A formula is appended, so that not all are written, or it is refused and the store stays as it
is. -/
theorem Follows.push (h : store.Follows table slots start formulas) (f : Formula) :
    ∃ appended, (store.push f).2.Follows table slots start appended ∧
      appended.length ≤ formulas.length + 1 := by
  have hle := h.flushed_le
  by_cases hfits : f.Fits table slots
  · obtain ⟨buffer, hpush, hbuffer⟩ := h.buffer.push_eq_ok hfits
    refine ⟨formulas ++ [f], ?_, by simp⟩
    rw [ExternalStore.push, hpush]
    refine ⟨hbuffer, by simp; omega, fun hnone => by simp at hnone, fun hall => ?_⟩
    simp only [List.length_append, List.length_singleton] at hall
    omega
  · obtain ⟨error, hpush, -⟩ := h.buffer.push_eq_error hfits
    refine ⟨formulas, ?_, Nat.le_succ _⟩
    rw [ExternalStore.push, hpush]
    exact h

/-- Where not all formulas are written there are some. -/
theorem Follows.ne_nil_of_unwritten (h : store.Follows table slots start formulas)
    (hunwritten : store.flushed ≠ formulas.length) : formulas ≠ [] := by
  rintro rfl
  exact hunwritten (Nat.le_zero.mp h.flushed_le)

/-- A flush keeps what is known of the backend, and if it succeeds all formulas are written. -/
theorem Follows.flush [WordBackend.ReadsBack β] (h : store.Follows table slots start formulas)
    (hbound : formulas.length < WordFiles.recordBound) :
    store.flush.2.buffer = store.buffer ∧ store.flush.2.Follows table slots start formulas ∧
      (store.flush.1 = .ok () → store.flush.2.flushed = formulas.length) := by
  have hlength : store.buffer.length = formulas.length := h.buffer.length_eq
  rcases store.flush_cases with ⟨hwritten, hunchanged⟩ |
    ⟨hunwritten, ⟨error, backend, -, hfails⟩ | ⟨backend, hwrite, hafter⟩⟩
  · rw [hunchanged]
    exact ⟨rfl, h, fun _ => hwritten.trans hlength⟩
  · have hne := h.ne_nil_of_unwritten (hlength ▸ hunwritten)
    rw [hfails]
    exact ⟨rfl, ⟨h.buffer, h.flushed_le, fun hnone => absurd hnone hne,
      fun hall => absurd (hall.trans hlength.symm) hunwritten⟩, nofun⟩
  · have hne := h.ne_nil_of_unwritten (hlength ▸ hunwritten)
    have hread := WordBackend.ReadsBack.read_of_write (hlength ▸ hbound) hwrite
    rw [hafter]
    exact ⟨rfl, ⟨h.buffer, Nat.le_of_eq hlength, fun hnone => absurd hnone hne,
      fun _ _ => hread⟩, fun _ => hlength⟩

/-- A call other than opening what is saved keeps what is known of the backend. -/
theorem Follows.call [WordBackend.ReadsBack β] (h : store.Follows table slots start formulas)
    (hbound : formulas.length < WordFiles.recordBound) {call : StoreCall} (hcall : call ≠ .reopen) :
    ∃ appended, (store.call table slots call).2.Follows table slots start appended ∧
      appended.length ≤ formulas.length + call.isPush.toNat := by
  cases call with
  | push f => exact h.push f
  | flush => exact ⟨formulas, (h.flush hbound).2.1, Nat.le_refl _⟩
  | get index => exact ⟨formulas, h, Nat.le_refl _⟩
  | reopen => exact absurd rfl hcall

/-- What is known of the backend is kept in every run in which nothing is opened. -/
theorem Follows.afterCalls [WordBackend.ReadsBack β] {calls : List StoreCall}
    (h : store.Follows table slots start formulas) (hcalls : ∀ call ∈ calls, call ≠ .reopen)
    (hbound : formulas.length + calls.countP StoreCall.isPush < WordFiles.recordBound) :
    ∃ appended, (store.afterCalls table slots calls).Follows table slots start appended ∧
      appended.length ≤ formulas.length + calls.countP StoreCall.isPush := by
  induction calls generalizing store formulas with
  | nil => exact ⟨formulas, h, Nat.le_refl _⟩
  | cons call rest ih =>
    have hcount := StoreCall.countP_cons call rest
    obtain ⟨hfirst, hrest⟩ := List.forall_mem_cons.mp hcalls
    obtain ⟨next, hnext, hle⟩ := h.call (by omega) hfirst
    obtain ⟨appended, happended, hlength⟩ := ih hnext hrest (by omega)
    exact ⟨appended, happended, by omega⟩

/-- After a flush that succeeds the records of the buffer are read back, or there are none and the
backend is as it was at the start. -/
theorem Follows.flush_eq_ok [WordBackend.ReadsBack β] (h : store.Follows table slots start formulas)
    (hbound : formulas.length < WordFiles.recordBound) (hflush : store.flush.1 = .ok ()) :
    store.flush.2.buffer = store.buffer ∧
      (store.buffer.length ≠ 0 → (WordBackend.read store.flush.2.backend).1 =
        .ok (store.buffer.records.words, store.buffer.length)) ∧
      (store.buffer.length = 0 → store.flush.2.backend = start) := by
  obtain ⟨hbuffer, hafter, hall⟩ := h.flush hbound
  have hempty : store.buffer.length = 0 ↔ formulas = [] := by
    rw [h.buffer.length_eq, List.length_eq_zero_iff]
  refine ⟨hbuffer, fun hne => ?_, fun hnone => hafter.untouched (hempty.mp hnone)⟩
  rw [hafter.read_back (hall hflush) (mt hempty.mpr hne), hbuffer]

/-- What is known of the backend of a set's store is kept by every offer. -/
theorem Follows.offer {set : FilteredStore β} (hset : set.store = .external store)
    (h : store.Follows table slots start formulas) (f : Formula) :
    ∃ after appended, (set.offer f).2.store = .external after ∧
      after.Follows table slots start appended ∧ appended.length ≤ formulas.length + 1 := by
  unfold FilteredStore.offer
  split
  · exact ⟨store, formulas, hset, h, Nat.le_succ _⟩
  · exact ⟨store, formulas, hset, h, Nat.le_succ _⟩
  · obtain ⟨appended, happended, hlength⟩ := h.push f
    have hpush : (set.store.push f).2 = .external (store.push f).2 := by
      rw [hset]
      rfl
    rcases hpushed : set.store.push f with ⟨outcome, after⟩
    rw [hpushed] at hpush
    cases outcome with
    | error error => exact ⟨_, appended, hpush, happended, hlength⟩
    | ok done => exact ⟨_, appended, hpush, happended, hlength⟩

/-- What is known of the backend of a set's store is kept by offers, whether they fail or not. -/
theorem Follows.afterOffering (set : FilteredStore β) (candidates : List Formula)
    (hset : set.store = .external store) (h : store.Follows table slots start formulas) :
    ∃ after appended, (set.afterOffering candidates).store = .external after ∧
      after.Follows table slots start appended ∧
        appended.length ≤ formulas.length + candidates.length := by
  induction candidates generalizing set store formulas with
  | nil => exact ⟨store, formulas, hset, h, Nat.le_refl _⟩
  | cons first rest ih =>
    obtain ⟨next, more, hnext, hmore, hle⟩ := h.offer hset first
    obtain ⟨after, appended, hafter, happended, hlength⟩ := ih _ hnext hmore
    refine ⟨after, appended, hafter, happended, ?_⟩
    rw [List.length_cons]
    omega

/-- Whatever a backend holds when a store is created over it, after every flush that succeeds in a
run of calls that append, write and read, the words and the record count of the buffer are read back,
if the buffer is not empty; if it is, the backend is still as it was at the start. The same holds when
the store is that of a filtered set and the set is finished. The number of formulas that are offered
fits a machine word, as record counts do. -/
theorem flush_mirrors [WordBackend.ReadsBack β] (hcreate : create table slots start = .ok store) :
    (∀ calls : List StoreCall, (∀ call ∈ calls, call ≠ .reopen) →
      calls.countP StoreCall.isPush < WordFiles.recordBound →
      let before := store.afterCalls table slots calls
      before.flush.1 = .ok () →
        before.flush.2.buffer = before.buffer ∧
        (before.buffer.length ≠ 0 → (WordBackend.read before.flush.2.backend).1 =
          .ok (before.buffer.records.words, before.buffer.length)) ∧
        (before.buffer.length = 0 → before.flush.2.backend = start)) ∧
    ∀ (filter : NoveltyFilter) (candidates : List Formula),
      candidates.length < WordFiles.recordBound →
      let set := FilteredStore.afterOffering ⟨.external store, filter⟩ candidates
      set.finish.1 = .ok () → ∃ before after : ExternalStore β,
        set.store = .external before ∧ set.finish.2 = .external after ∧
        after.buffer = before.buffer ∧
        (before.buffer.length ≠ 0 → (WordBackend.read after.backend).1 =
          .ok (before.buffer.records.words, before.buffer.length)) ∧
        (before.buffer.length = 0 → after.backend = start) := by
  have hcreated := follows_nil_of_create hcreate
  constructor
  · intro calls hcalls hbound before hflush
    obtain ⟨appended, hbefore, hlength⟩ :=
      hcreated.afterCalls hcalls (by rwa [List.length_nil, Nat.zero_add])
    rw [List.length_nil, Nat.zero_add] at hlength
    exact hbefore.flush_eq_ok (Nat.lt_of_le_of_lt hlength hbound) hflush
  · intro filter candidates hbound set hfinish
    obtain ⟨before, appended, hstore, hbefore, hlength⟩ :=
      Follows.afterOffering ⟨.external store, filter⟩ candidates rfl hcreated
    rw [List.length_nil, Nat.zero_add] at hlength
    have hwritten : set.finish = (before.flush.1, .external before.flush.2) := by
      unfold FilteredStore.finish
      rw [hstore]
      rfl
    rw [hwritten] at hfinish ⊢
    exact ⟨before, before.flush.2, hstore, rfl,
      hbefore.flush_eq_ok (Nat.lt_of_le_of_lt hlength hbound) hfinish⟩

/-- A set of three records, of which nothing can be read, is replaced by one of one record. -/
theorem flush_mirrors_replacesOlder :
    let older : MemoryWords := ⟨some (#[7], 3)⟩
    let calls : List StoreCall := [.push .operand]
    ∃ store words, create .arithmetic 1 older = .ok store ∧
      (WordBackend.read (store.afterCalls .arithmetic 1 calls).flush.2.backend).1 =
        .ok (words, 1) := by
  intro older calls
  have hfits : Formula.operand.Fits .arithmetic 1 :=
    Formula.fits_iff.mpr ⟨rfl, rfl, fun _ hcode => nomatch hcode⟩
  obtain ⟨store, hcreate⟩ : ∃ store, create .arithmetic 1 older = .ok store := ⟨_, rfl⟩
  obtain ⟨buffer, hpush, hbuffer⟩ := (follows_nil_of_create hcreate).buffer.push_eq_ok hfits
  have hlength : (store.afterCalls .arithmetic 1 calls).buffer.length = 1 := by
    simp only [calls, afterCalls, call, push, hpush]
    exact hbuffer.length_eq
  obtain ⟨hruns, -⟩ := flush_mirrors hcreate
  obtain ⟨-, hread, -⟩ := hruns calls (by simp [calls]) (by decide) (flush_eq_ok fun _ _ => rfl)
  rw [hlength] at hread
  exact ⟨store, _, hcreate, hread Nat.one_ne_zero⟩

/-- A store to which nothing was appended is written without an error, and the backend still holds
the record of an earlier set: it does not hold what the buffer holds, nor nothing. -/
theorem flush_empty_keepsOlder :
    let older : MemoryWords := ⟨some (#[0], 1)⟩
    ∃ store, create .arithmetic 2 older = .ok store ∧ store.flush.1 = .ok () ∧
      store.flush.2.buffer.length = 0 ∧
      (WordBackend.read store.flush.2.backend).1 = .ok (#[0], 1) ∧
      (WordBackend.read store.flush.2.backend).1 ≠
        .ok (store.flush.2.buffer.records.words, store.flush.2.buffer.length) ∧
      ∀ place, (WordBackend.read store.flush.2.backend).1 ≠ .error (.missing place) := by
  intro older
  refine ⟨_, rfl, rfl, rfl, rfl, ?_, fun place hread => ?_⟩
  · intro hread
    cases hread
  · cases hread

end ExternalStore

end Formulary
