import Formulary.Proofs.Store.Backing
import Formulary.Proofs.Store.Refusals

/-!
# Stores as interchangeable lists

Pushing formulas onto an empty store builds a list. A store that keeps records takes the formulas over
its slots that pass the check and use only codes of the table; any other is refused, before anything
is written, so that nothing of the store changes. A store that keeps the formulas themselves does not
look that closely, but on formulas that the others take it answers as they do.
-/

namespace Formulary.Store

variable {β : Type} {store : Store β} {table : OperatorTable} {slots : ℕ}
  {formulas pushed : List Formula} {f : Formula}

/-- The store after formulas were pushed one after another, whether they were taken or not. -/
def afterPushing (store : Store β) : List Formula → Store β
  | [] => store
  | f :: rest => ((store.push f).2).afterPushing rest

/-- The formulas that are taken when formulas are pushed one after another. -/
def taken (store : Store β) : List Formula → List Formula
  | [] => []
  | f :: rest =>
    match store.push f with
    | (.ok (), after) => f :: after.taken rest
    | (.error _, after) => after.taken rest

/-- A store that answers as a list of formulas does. -/
structure AnswersAs (store : Store β) (formulas : List Formula) : Prop where
  length_eq : store.length = formulas.length
  get_eq : ∀ index (h : index < formulas.length), store.get index = .ok formulas[index]
  get_error : ∀ index, formulas.length ≤ index → ∃ error, store.get index = .error error
  toList_eq : store.toList = .ok formulas

/-- What a store holds is what it answers. -/
theorem Holds.answersAs (h : store.Holds table slots formulas) : store.AnswersAs formulas := by
  refine ⟨h.length_eq, fun index hindex => ?_, fun index hindex => ?_, h.toList_eq_ok⟩
  · rw [← Outcome.toOption_eq_some_iff, h.toOption_get, List.getElem?_eq_getElem hindex]
  · have hnone : (store.get index).toOption = none := by
      rw [h.toOption_get, List.getElem?_eq_none hindex]
    cases hget : store.get index with
    | error error => exact ⟨error, rfl⟩
    | ok f => simp [hget, Except.toOption] at hnone

/-- A store that keeps records refuses what does not fit, and stays as it is. -/
theorem Holds.push_eq_error (h : store.Holds table slots formulas) (hkeeps : store.keepsRecords = true)
    (hfits : ¬ f.Fits table slots) : ∃ error, store.push f = (.error error, store) := by
  cases store with
  | memory store => cases hkeeps
  | packed store =>
    obtain ⟨error, hpush, -⟩ := PackedStore.Holds.push_eq_error h hfits
    exact ⟨error, by simp [push, hpush]⟩
  | external store =>
    obtain ⟨error, hpush, -⟩ := PackedStore.Holds.push_eq_error h hfits
    exact ⟨error, by simp [push, ExternalStore.push, hpush]⟩

/-- A store takes what fits, and holds it behind what it held. A store that keeps records takes nothing
else. -/
theorem Holds.afterPushing (h : store.Holds table slots formulas)
    (hpushed : store.keepsRecords = true ∨ ∀ f ∈ pushed, f.Fits table slots) :
    store.taken pushed = pushed.filter (fun f => f.Fits table slots) ∧
      (store.afterPushing pushed).Holds table slots
        (formulas ++ pushed.filter (fun f => f.Fits table slots)) ∧
      (store.afterPushing pushed).keepsRecords = store.keepsRecords := by
  induction pushed generalizing store formulas with
  | nil => exact ⟨rfl, by simpa [Store.afterPushing] using h, rfl⟩
  | cons f rest ih =>
    have hrest : store.keepsRecords = true ∨ ∀ other ∈ rest, other.Fits table slots :=
      hpushed.imp_right fun hall other hother => hall other (List.mem_cons_of_mem f hother)
    by_cases hfits : f.Fits table slots
    · obtain ⟨after, hpush, hafter⟩ := h.push_eq_ok hfits
      have hkeeps : after.keepsRecords = store.keepsRecords := by
        simpa [hpush] using store.keepsRecords_push f
      obtain ⟨htaken, hholds, hsame⟩ := ih hafter (hkeeps ▸ hrest)
      rw [List.append_assoc] at hholds
      rw [Store.taken, Store.afterPushing, hpush, List.filter_cons_of_pos (by simpa using hfits)]
      exact ⟨congrArg (f :: ·) htaken, hholds, hsame.trans hkeeps⟩
    · have hkeeps := hpushed.resolve_right fun hall => hfits (hall f List.mem_cons_self)
      obtain ⟨error, hpush⟩ := h.push_eq_error hkeeps hfits
      rw [Store.taken, Store.afterPushing, hpush, List.filter_cons_of_neg (by simpa using hfits)]
      exact ih h hrest

/-- Where there is a codec, an empty packed store and an empty external store are made, and both answer
at every moment of a run of pushes as the list of what they have taken. They take a formula exactly if
it is over their slots, passes the check and uses only codes of the table, and a formula that they
refuse changes nothing. On formulas that they take a store in memory answers in the same way. -/
theorem afterPushing_answersAs {codec : Record.Codec}
    (hcodec : Record.Codec.make table slots = .ok codec) (backend : β) :
    ∃ packed external, PackedStore.empty table slots = .ok packed ∧
      ExternalStore.create table slots backend = .ok external ∧
      (∀ start ∈ [Store.packed packed, .external external], ∀ pushed,
        (start.afterPushing pushed).AnswersAs (start.taken pushed) ∧
        start.taken pushed = pushed.filter (fun f => f.Fits table slots) ∧
        ∀ f, (((start.afterPushing pushed).push f).1 = .ok () ↔ f.size = slots ∧
            f.validate = .ok () ∧ ∀ code ∈ f.codes, code.toNat < table.size) ∧
          ∀ error, ((start.afterPushing pushed).push f).1 = .error error →
            ((start.afterPushing pushed).push f).2 = start.afterPushing pushed) ∧
      ∀ pushed, (∀ f ∈ pushed, f.size = slots ∧ f.validate = .ok () ∧
          ∀ code ∈ f.codes, code.toNat < table.size) →
        ∀ start ∈ [Store.packed packed, .external external, .memory (.empty slots)],
          start.taken pushed = pushed ∧ (start.afterPushing pushed).AnswersAs pushed := by
  obtain ⟨packed, hpacked⟩ := PackedStore.exists_empty hcodec
  have hexternal : ExternalStore.create table slots backend = .ok (.ofParts packed backend) := by
    rw [ExternalStore.create, hpacked]
    rfl
  have hempty := PackedStore.holds_nil_of_empty hpacked
  have hholds : ∀ start ∈ [Store.packed packed, .external (.ofParts packed backend),
      .memory (.empty slots)], start.Holds table slots [] := by
    simpa using ⟨hempty, hempty, rfl, rfl⟩
  refine ⟨packed, .ofParts packed backend, hpacked, hexternal, fun start hstart pushed => ?_,
    fun pushed hpushed start hstart => ?_⟩
  · have hkeeps : start.keepsRecords = true := by
      rcases List.mem_pair.mp hstart with rfl | rfl
      · rfl
      · rfl
    obtain ⟨htaken, hafter, hsame⟩ :=
      (hholds start (by simp at hstart ⊢; tauto)).afterPushing (.inl hkeeps)
    rw [List.nil_append] at hafter
    refine ⟨htaken ▸ hafter.answersAs, htaken, fun f => ?_⟩
    rw [← Formula.fits_iff]
    by_cases hfits : f.Fits table slots
    · obtain ⟨after, hpush, -⟩ := hafter.push_eq_ok hfits
      rw [hpush]
      exact ⟨⟨fun _ => hfits, fun _ => rfl⟩, by simp⟩
    · obtain ⟨error, hpush⟩ := hafter.push_eq_error (hsame.trans hkeeps) hfits
      rw [hpush]
      exact ⟨⟨by simp, fun h => absurd h hfits⟩, fun _ _ => rfl⟩
  · have hfits : ∀ f ∈ pushed, f.Fits table slots :=
      fun f hf => Formula.fits_iff.mpr (hpushed f hf)
    obtain ⟨htaken, hafter, -⟩ := (hholds start hstart).afterPushing (.inr hfits)
    have hall : pushed.filter (fun f => f.Fits table slots) = pushed := by simpa using hfits
    rw [hall] at htaken hafter
    exact ⟨htaken, hafter.answersAs⟩

/-- Of five formulas the stores that keep records take two: they refuse a repeated slot, an unknown code
and a wrong size. On the two a store in memory answers as they do. -/
theorem afterPushing_answersAs_twoSlots :
    let sum (slots : List UInt8) (code : UInt8) : Formula := ⟨slots, [code], [true, true, false]⟩
    let taken := [sum [0, 1] 0, sum [1, 0] 3]
    ∃ packed : PackedStore, PackedStore.empty .arithmetic 2 = .ok packed ∧
      ((Store.packed packed : Store MemoryWords).afterPushing
        [sum [0, 1] 0, sum [0, 0] 0, sum [0, 1] 9, .operand, sum [1, 0] 3]).AnswersAs taken ∧
      ((Store.memory (.empty 2) : Store MemoryWords).afterPushing taken).AnswersAs taken := by
  intro sum taken
  obtain ⟨codec, hcodec⟩ : ∃ codec, Record.Codec.make .arithmetic 2 = .ok codec := ⟨_, rfl⟩
  obtain ⟨packed, external, hpacked, -, hruns, hmemory⟩ :=
    afterPushing_answersAs hcodec MemoryWords.empty
  obtain ⟨hanswers, htaken, -⟩ := hruns (.packed packed) (by simp)
    [sum [0, 1] 0, sum [0, 0] 0, sum [0, 1] 9, .operand, sum [1, 0] 3]
  rw [htaken] at hanswers
  exact ⟨packed, hpacked, hanswers, (hmemory taken (by decide +kernel) _ (by simp)).2⟩

end Formulary.Store
