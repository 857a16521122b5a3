import Formulary.Proofs.Admission.Failure
import Formulary.Proofs.Store.Filtered

/-!
# Refusals of admitted candidates

The two parts of a filtered store do not ask the same of a candidate. A filter asks for a value
under every vector; a store that keeps records asks for a valid formula over known codes. A formula
that was admitted has a number as its value under some vector, so if it is valid its codes are
known. What such a store can refuse of the admitted candidates are therefore those that do not pass
the check, for instance because a slot occurs twice in them.

An offer that fails for any other reason leaves the set as it was. A refusal leaves the store as it
was, but the filter has counted the candidate and remembers its values. So the filter counts as
many candidates as the store holds and has refused.
-/

namespace Formulary

variable {table : OperatorTable} {slots : ℕ} {formulas : List Formula} {f : Formula}

/-- A packed store takes a formula over its slots with known codes, or the formula does not pass
the check and the store stays as it is. -/
theorem PackedStore.Holds.push_cases {store : PackedStore} (h : store.Holds table slots formulas)
    (hsize : f.size = slots) (hcodes : f.Valid → f.UsesCodesOf table) :
    (∃ after, store.push f = (.ok (), after) ∧ after.Holds table slots (formulas ++ [f]) ∧
      f.validate = .ok ()) ∨
    ∃ reason, f.validate = .error reason ∧
      store.push f = (.error (.record (.malformed reason)), store) := by
  obtain ⟨hslots, htable⟩ := Record.Codec.eq_of_make h.codec_eq
  by_cases hvalid : f.Valid
  · obtain ⟨after, hpush, hafter⟩ := h.push_eq_ok ⟨hsize, hvalid, hcodes hvalid⟩
    exact Or.inl ⟨after, hpush, hafter, Formula.validate_eq_ok_iff.mpr hvalid⟩
  · obtain ⟨error, hpush, hencode⟩ := h.push_eq_error fun hfits => hvalid hfits.valid
    obtain ⟨recordError, hrecord, rfl⟩ := hencode hsize
    obtain ⟨reason, hreason, rfl⟩ := Record.Codec.encode_eq_error (hsize.trans hslots.symm)
      (fun hvalid' => absurd hvalid' hvalid) hrecord
    exact Or.inr ⟨reason, hreason, hpush⟩

namespace Store

variable {β : Type} {store : Store β}

/-- Whether a store keeps records of its formulas. -/
def keepsRecords (store : Store β) : Bool :=
  store.packed?.isSome

/-- Appending a formula does not change whether a store keeps records. -/
theorem keepsRecords_push (store : Store β) (f : Formula) :
    (store.push f).2.keepsRecords = store.keepsRecords := by
  cases store with
  | memory store => rfl
  | packed store => rfl
  | external store => rfl

/-- A store takes a formula over its slots with known codes, or it keeps records, the formula does
not pass the check and the store stays as it is. -/
theorem Holds.push_cases (h : store.Holds table slots formulas) (hsize : f.size = slots)
    (hcodes : f.Valid → f.UsesCodesOf table) :
    (∃ after, store.push f = (.ok (), after) ∧ after.Holds table slots (formulas ++ [f]) ∧
      (store.keepsRecords = true → f.validate = .ok ())) ∨
    (store.keepsRecords = true ∧ ∃ reason, f.validate = .error reason ∧
      store.push f = (.error (.record (.malformed reason)), store)) := by
  cases store with
  | memory store =>
    obtain ⟨rfl, rfl⟩ := h
    refine Or.inl ⟨.memory ⟨store.slots, store.formulas.push f⟩, ?_, ⟨rfl, Array.toList_push⟩,
      fun hkeeps => nomatch hkeeps⟩
    simp [push, MemoryStore.push, hsize]
  | packed store =>
    rcases PackedStore.Holds.push_cases h hsize hcodes with ⟨after, hpush, hafter, hvalid⟩ |
      ⟨reason, hreason, hpush⟩
    · exact Or.inl ⟨.packed after, by simp [push, hpush], hafter, fun _ => hvalid⟩
    · exact Or.inr ⟨rfl, reason, hreason, by simp [push, hpush]⟩
  | external store =>
    rcases PackedStore.Holds.push_cases h hsize hcodes with ⟨after, hpush, hafter, hvalid⟩ |
      ⟨reason, hreason, hpush⟩
    · exact Or.inl ⟨.external { store with buffer := after },
        by simp [push, ExternalStore.push, hpush], hafter, fun _ => hvalid⟩
    · exact Or.inr ⟨rfl, reason, hreason, by simp [push, ExternalStore.push, hpush]⟩

end Store

/-- The stores that keep records are those of every kind but the first. -/
theorem StoreKind.keepsRecords_of_build {kind : StoreKind} {store : Store WordFiles}
    (h : kind.build table slots = .ok store) : store.keepsRecords = true ↔ kind ≠ .memory := by
  cases kind with
  | memory =>
    cases h
    exact ⟨fun hkeeps => (nomatch hkeeps), fun hother => absurd rfl hother⟩
  | packed =>
    obtain ⟨packed, -, rfl⟩ := Outcome.map_eq_ok_iff.mp h
    exact ⟨fun _ => nofun, fun _ => rfl⟩
  | external path directory =>
    obtain ⟨external, -, rfl⟩ := Outcome.map_eq_ok_iff.mp h
    exact ⟨fun _ => nofun, fun _ => rfl⟩

/-- Whether a filter admits a candidate although it does not pass the check. -/
def NoveltyFilter.admitsMalformed (filter : NoveltyFilter) (f : Formula) : Bool :=
  match (filter.offer f).1, f.validate with
  | .ok true, .error _ => true
  | _, _ => false

/-- A filter with a positive threshold admits only formulas over its slots, and of the valid ones
only those with known codes. -/
theorem NoveltyFilter.Asks.of_admitted {filter : NoveltyFilter} {rule : AdmissionRule}
    (h : filter.Asks slots rule) (hthreshold : 0 < rule.policy.threshold)
    (hadmitted : (filter.offer f).1 = .ok true) :
    f.size = slots ∧ (f.Valid → f.UsesCodesOf rule.table) := by
  rcases h.offer_cases f with ⟨_, hfails, -⟩ | ⟨votes, _, hall, hanswers, hsize, -⟩
  · rw [hfails] at hadmitted
    cases hadmitted
  · rw [hanswers, h.policy_eq, Except.ok.injEq, decide_eq_true_iff] at hadmitted
    obtain ⟨vector, value, hvalue, hnumber⟩ :=
      exists_number_of_votes_pos hall (Nat.lt_of_lt_of_le hthreshold hadmitted)
    rw [h.table_eq] at hvalue
    exact ⟨hsize, fun hvalid => hvalid.usesCodesOf_of_evaluate hvalue hnumber⟩

/-- An offer that is answered counts the candidate if it is admitted. -/
theorem NoveltyFilter.Asks.admitted_of_offer {filter after : NoveltyFilter} {rule : AdmissionRule}
    {admitted : Bool} (h : filter.Asks slots rule) (hoffer : filter.offer f = (.ok admitted, after)) :
    after.admitted = filter.admitted + admitted.toNat := by
  rcases h.offer_cases f with ⟨_, hfails, -⟩ | ⟨_, _, -, hanswers, -⟩
  · rw [hfails] at hoffer
    cases hoffer
  · rw [hanswers] at hoffer
    cases hoffer
    rfl

namespace FilteredStore

variable {β : Type} {set : FilteredStore β} {rule : AdmissionRule}

/-- Whether the store refuses a candidate that the filter admits. -/
def refuses (set : FilteredStore β) (f : Formula) : Bool :=
  set.store.keepsRecords && set.filter.admitsMalformed f

/-- The set after offers, whether they failed or not. -/
def afterOffering (set : FilteredStore β) : List Formula → FilteredStore β
  | [] => set
  | f :: rest => (set.offer f).2.afterOffering rest

/-- The number of candidates that the store refused although they were admitted. -/
def refusals (set : FilteredStore β) : List Formula → ℕ
  | [] => 0
  | f :: rest => (set.refuses f).toNat + (set.offer f).2.refusals rest

/-- A store and a filter over the same slots and the same table, the filter with a threshold that
asks for a vote at least. -/
structure Paired (set : FilteredStore β) (slots : ℕ) (rule : AdmissionRule) : Prop where
  store : ∃ formulas, set.store.Holds rule.table slots formulas
  filter : set.filter.Asks slots rule
  threshold_pos : 0 < rule.policy.threshold

/-- An offer does one of three things: it is answered and both parts count the candidate or
neither does; it fails and leaves the set as it was; or the store refuses what the filter has
admitted and counted. -/
theorem Paired.offer_cases (h : set.Paired slots rule) (f : Formula) :
    (∃ admitted after, set.offer f = (.ok admitted, after) ∧ set.refuses f = false ∧
      after.Paired slots rule ∧ after.store.length = set.store.length + admitted.toNat ∧
      after.filter.admitted = set.filter.admitted + admitted.toNat) ∨
    (∃ error, set.offer f = (.error error, set) ∧ set.refuses f = false) ∨
    ∃ reason filter, set.filter.offer f = (.ok true, filter) ∧ f.validate = .error reason ∧
      set.offer f = (.error (.record (.malformed reason)), ⟨set.store, filter⟩) ∧
      set.refuses f = true ∧ filter.admitted = set.filter.admitted + 1 := by
  obtain ⟨formulas, hstore⟩ := h.store
  have hasks := h.filter.offer f
  rcases hoffer : set.filter.offer f with ⟨answer, filter⟩
  rw [hoffer] at hasks
  cases answer with
  | error error =>
    have hsame : filter = set.filter := by
      have hleaves := h.filter.offer_of_error (f := f) (congrArg Prod.fst hoffer)
      rwa [hoffer] at hleaves
    refine Or.inr (Or.inl ⟨.admission error, ?_, ?_⟩)
    · rw [offer, hoffer, hsame]
    · simp [refuses, NoveltyFilter.admitsMalformed, hoffer]
  | ok admitted =>
    have hcount := h.filter.admitted_of_offer hoffer
    cases admitted with
    | false =>
      refine Or.inl ⟨false, ⟨set.store, filter⟩, ?_, ?_,
        ⟨h.store, hasks, h.threshold_pos⟩, rfl, hcount⟩
      · rw [offer, hoffer]
      · simp [refuses, NoveltyFilter.admitsMalformed, hoffer]
    | true =>
      obtain ⟨hsize, hcodes⟩ := h.filter.of_admitted h.threshold_pos (congrArg Prod.fst hoffer)
      rcases hstore.push_cases hsize hcodes with ⟨store, hpush, hholds, hvalid⟩ |
        ⟨hkeeps, reason, hreason, hpush⟩
      · refine Or.inl ⟨true, ⟨store, filter⟩, ?_, ?_,
          ⟨⟨_, hholds⟩, hasks, h.threshold_pos⟩, ?_, hcount⟩
        · simp only [offer, hoffer, hpush]
        · cases hkeeps : set.store.keepsRecords with
          | false => simp [refuses, hkeeps]
          | true => simp [refuses, NoveltyFilter.admitsMalformed, hoffer, hvalid hkeeps]
        · rw [hholds.length_eq, hstore.length_eq, List.length_append]
          rfl
      · refine Or.inr (Or.inr ⟨reason, filter, rfl, hreason, ?_, ?_, hcount⟩)
        · simp only [offer, hoffer, hpush]
        · simp [refuses, NoveltyFilter.admitsMalformed, hoffer, hreason, hkeeps]

/-- Offering a candidate does not change whether the store keeps records. -/
theorem keepsRecords_offer (set : FilteredStore β) (f : Formula) :
    (set.offer f).2.store.keepsRecords = set.store.keepsRecords := by
  unfold offer
  split
  · rfl
  · rfl
  · have hpush := Store.keepsRecords_push set.store f
    split
    · next hfails => rwa [hfails] at hpush
    · next hstored => rwa [hstored] at hpush

/-- A store that keeps the formulas themselves refuses nothing that is admitted, and no store
refuses an admitted candidate that passes the check. -/
theorem refuses_eq_false (h : set.store.keepsRecords = false ∨ f.validate = .ok ()) :
    set.refuses f = false := by
  rcases h with hkeeps | hvalid
  · simp [refuses, hkeeps]
  · simp [refuses, NoveltyFilter.admitsMalformed, hvalid]

/-- Offering candidates does not change whether the store keeps records. -/
theorem keepsRecords_afterOffering (set : FilteredStore β) (candidates : List Formula) :
    (set.afterOffering candidates).store.keepsRecords = set.store.keepsRecords := by
  induction candidates generalizing set with
  | nil => rfl
  | cons f rest ih => exact (ih _).trans (set.keepsRecords_offer f)

/-- Where no candidate can be refused, none is. -/
theorem refusals_eq_zero {candidates : List Formula}
    (h : set.store.keepsRecords = false ∨ ∀ f ∈ candidates, f.validate = .ok ()) :
    set.refusals candidates = 0 := by
  induction candidates generalizing set with
  | nil => rfl
  | cons f rest ih =>
    have hfirst := refuses_eq_false (h.imp_right fun hvalid => hvalid f List.mem_cons_self)
    have hrest : (set.offer f).2.refusals rest = 0 := ih <| h.imp (set.keepsRecords_offer f).trans
      fun hvalid other hother => hvalid other (List.mem_cons_of_mem f hother)
    rw [refusals, hfirst, hrest]
    rfl

/-- The two parts stay paired. -/
theorem Paired.offer (h : set.Paired slots rule) (f : Formula) :
    (set.offer f).2.Paired slots rule := by
  rcases h.offer_cases f with ⟨_, _, hoffer, -, hafter, -⟩ | ⟨_, hoffer, -⟩ |
    ⟨_, filter, hfilter, -, hoffer, -⟩
  · rw [hoffer]
    exact hafter
  · rw [hoffer]
    exact h
  · have hasks := h.filter.offer f
    rw [hfilter] at hasks
    rw [hoffer]
    exact ⟨h.store, hasks, h.threshold_pos⟩

/-- An offer adds to what the store holds and has refused what it adds to the filter's count. -/
theorem Paired.count_offer (h : set.Paired slots rule) (f : Formula) :
    (set.offer f).2.filter.admitted + set.store.length =
      set.filter.admitted + (set.offer f).2.store.length + (set.refuses f).toNat := by
  rcases h.offer_cases f with ⟨_, _, hoffer, hrefuses, -, hlength, hcount⟩ | ⟨_, hoffer, hrefuses⟩ |
    ⟨_, _, -, -, hoffer, hrefuses, hcount⟩
  · rw [hoffer, hrefuses, hlength, hcount, Bool.toNat_false]
    omega
  · rw [hoffer, hrefuses]
    rfl
  · rw [hoffer, hrefuses, hcount]
    exact Nat.add_right_comm _ _ _

/-- The two parts stay paired in a run, and what the filter counts more is stored or refused. -/
theorem Paired.afterOffering (h : set.Paired slots rule) (candidates : List Formula) :
    (set.afterOffering candidates).Paired slots rule ∧
      (set.afterOffering candidates).filter.admitted + set.store.length =
        set.filter.admitted + (set.afterOffering candidates).store.length +
          set.refusals candidates := by
  induction candidates generalizing set with
  | nil => exact ⟨h, rfl⟩
  | cons f rest ih =>
    obtain ⟨hpaired, hcount⟩ := ih (h.offer f)
    have hfirst := h.count_offer f
    refine ⟨hpaired, ?_⟩
    rw [FilteredStore.afterOffering, refusals]
    omega

/-- A new store and a new filter that are put together are paired. -/
theorem paired_of_make {kind : StoreKind} {store : Store WordFiles} {policy : Policy}
    {fingerprints : List Fingerprint} {filter : NoveltyFilter} {set : FilteredStore WordFiles}
    (hstore : kind.build table slots = .ok store)
    (hfilter : NoveltyFilter.ofFingerprints slots policy table fingerprints = .ok filter)
    (hset : make store filter = .ok set) :
    set = ⟨store, filter⟩ ∧
      set.Paired slots ⟨table, policy, fingerprints.map Fingerprint.values⟩ := by
  obtain ⟨hpolicy, -⟩ := NoveltyFilter.eq_of_ofFingerprints hfilter
  unfold make at hset
  split at hset
  · cases hset
  · cases hset
    exact ⟨rfl, ⟨[], StoreKind.holds_nil_of_build hstore⟩,
      NoveltyFilter.asks_of_ofFingerprints hfilter, (policy.validate_eq_ok_iff.mp hpolicy).1⟩

/-- In every run over a new set, an offer that fails leaves the set as it was, unless the store
refuses a candidate that the filter has admitted. That happens only where the store keeps records
and the candidate does not pass the check; the error then says why it does not, the store stays as
it was, and the filter keeps what it has recorded. So the filter counts as many candidates as the
store holds and has refused. -/
theorem admitted_eq_length_add_refusals {kind : StoreKind} {store : Store WordFiles}
    {policy : Policy} {fingerprints : List Fingerprint} {filter : NoveltyFilter}
    {set : FilteredStore WordFiles} (hstore : kind.build table slots = .ok store)
    (hfilter : NoveltyFilter.ofFingerprints slots policy table fingerprints = .ok filter)
    (hset : make store filter = .ok set) (candidates : List Formula) :
    let before := set.afterOffering candidates
    (∀ f error, before.refuses f = false → (before.offer f).1 = .error error →
      (before.offer f).2 = before) ∧
    (∀ f, before.refuses f = true →
      ∃ reason filter, f.validate = .error reason ∧ before.filter.offer f = (.ok true, filter) ∧
        before.offer f = (.error (.record (.malformed reason)), ⟨before.store, filter⟩)) ∧
    (∀ f, kind = .memory ∨ f.validate = .ok () → before.refuses f = false) ∧
    before.filter.admitted = before.store.length + set.refusals candidates ∧
    (kind = .memory ∨ (∀ f ∈ candidates, f.validate = .ok ()) →
      before.filter.admitted = before.store.length) := by
  intro before
  obtain ⟨rfl, hpaired⟩ := paired_of_make hstore hfilter hset
  obtain ⟨hbefore, hcount⟩ := hpaired.afterOffering candidates
  have hkeeps : kind = .memory → store.keepsRecords = false := by
    intro hmemory
    rw [← Bool.not_eq_true, StoreKind.keepsRecords_of_build hstore]
    exact not_not_intro hmemory
  have hnone : store.length = 0 := (StoreKind.holds_nil_of_build hstore).length_eq
  have hfresh : filter.admitted = 0 := by
    obtain ⟨-, -, -, rfl⟩ := NoveltyFilter.eq_of_ofFingerprints hfilter
    rfl
  have hcounts : before.filter.admitted =
      before.store.length + refusals ⟨store, filter⟩ candidates := by
    rwa [hnone, hfresh, Nat.add_zero, Nat.zero_add] at hcount
  refine ⟨fun f error hrefuses herror => ?_, fun f hrefuses => ?_, fun f hsafe => ?_, hcounts,
    fun hsafe => ?_⟩
  · rcases hbefore.offer_cases f with ⟨_, _, hoffer, -⟩ | ⟨_, hoffer, -⟩ | ⟨_, _, -, -, -, hother, -⟩
    · rw [hoffer] at herror
      cases herror
    · rw [hoffer]
    · rw [hrefuses] at hother
      cases hother
  · rcases hbefore.offer_cases f with ⟨_, _, -, hother, -⟩ | ⟨_, -, hother⟩ |
      ⟨reason, filter, hfilter, hreason, hoffer, -⟩
    · rw [hrefuses] at hother
      cases hother
    · rw [hrefuses] at hother
      cases hother
    · exact ⟨reason, filter, hreason, hfilter, hoffer⟩
  · refine refuses_eq_false (hsafe.imp_left fun hmemory => ?_)
    exact (keepsRecords_afterOffering ⟨store, filter⟩ candidates).trans (hkeeps hmemory)
  · have hzero : refusals ⟨store, filter⟩ candidates = 0 := refusals_eq_zero (hsafe.imp_left hkeeps)
    rw [hcounts, hzero, Nat.add_zero]

/-- A packed store refuses a sum of a slot with itself, which the filter counts as admitted. -/
theorem admitted_eq_length_add_refusals_repeatedSlot :
    let doubled : Formula := ⟨[0, 0], [0], [true, true, false]⟩
    let sum : Formula := ⟨[0, 1], [0], [true, true, false]⟩
    let policy : Policy := { fingerprints := 1, threshold := 1 }
    ∃ store filter set, StoreKind.packed.build .arithmetic 2 = .ok store ∧
      NoveltyFilter.ofFingerprints 2 policy .arithmetic ([[1.0, 2.0]].map .ofValues) = .ok filter ∧
      make store filter = .ok set ∧
      (set.afterOffering [doubled, sum]).filter.admitted =
        (set.afterOffering [doubled, sum]).store.length + set.refusals [doubled, sum] := by
  intro doubled sum policy
  obtain ⟨store, hstore⟩ : ∃ store, StoreKind.packed.build .arithmetic 2 = .ok store := ⟨_, rfl⟩
  obtain ⟨filter, hfilter⟩ : ∃ filter, NoveltyFilter.ofFingerprints 2 policy .arithmetic
      ([[1.0, 2.0]].map .ofValues) = .ok filter := ⟨_, rfl⟩
  obtain ⟨set, hset⟩ : ∃ set, make store filter = .ok set := by
    cases hstore
    cases hfilter
    exact ⟨_, rfl⟩
  obtain ⟨-, -, -, hcounts, -⟩ :=
    admitted_eq_length_add_refusals hstore hfilter hset [doubled, sum]
  exact ⟨store, filter, set, hstore, hfilter, hset, hcounts⟩

/-- What a packed store refuses is counted as admitted nevertheless, and keeps out a formula of the
same value that would have been stored before. -/
theorem offer_repeatedSlot_keepsOut :
    let doubled : Formula := ⟨[0, 0], [0], [true, true, false]⟩
    let sum : Formula := ⟨[0, 1], [0], [true, true, false]⟩
    let policy : Policy := { fingerprints := 1, threshold := 1 }
    ∃ store filter set, StoreKind.packed.build .arithmetic 2 = .ok store ∧
      NoveltyFilter.ofFingerprints 2 policy .arithmetic ([[1.0, 1.0]].map .ofValues) = .ok filter ∧
      make store filter = .ok set ∧
      (set.offer doubled).1 = .error (.record (.malformed (.notAPermutation [0, 0]))) ∧
      (set.offer doubled).2.filter.admitted ≠ (set.offer doubled).2.store.length ∧
      (set.offer sum).1 = .ok true ∧ ((set.offer doubled).2.offer sum).1 = .ok false := by
  intro doubled sum policy
  let rule : AdmissionRule := ⟨.arithmetic, policy, [[1.0, 1.0]]⟩
  obtain ⟨store, hstore⟩ : ∃ store, StoreKind.packed.build .arithmetic 2 = .ok store := ⟨_, rfl⟩
  obtain ⟨filter, hfilter, hremembers⟩ : ∃ filter, NoveltyFilter.ofFingerprints 2 policy .arithmetic
      ([[1.0, 1.0]].map .ofValues) = .ok filter ∧ filter.Remembers 2 rule [] :=
    NoveltyFilter.ofFingerprints_eq_ok rfl rfl (by simp)
  have hholds := StoreKind.holds_nil_of_build hstore
  have hset : make store filter = .ok ⟨store, filter⟩ :=
    if_neg (not_not_intro (hholds.slots_eq.trans hremembers.slots_eq.symm))
  have hevaluates : rule.Evaluates doubled ∧ rule.Evaluates sum := by
    refine ⟨?_, ?_⟩
    · exact List.forall_mem_singleton.mpr ⟨_, rfl⟩
    · exact List.forall_mem_singleton.mpr ⟨_, rfl⟩
  have hadmits : rule.admits [] doubled = true ∧ rule.admits [] sum = true ∧
      rule.admits [doubled] sum = false := by decide +kernel
  obtain ⟨after, hdoubled, hafter⟩ := hremembers.offer_eq_ok rfl hevaluates.1
  obtain ⟨_, hsum, -⟩ := hremembers.offer_eq_ok rfl hevaluates.2
  obtain ⟨_, hknown, -⟩ := hafter.offer_eq_ok rfl hevaluates.2
  rw [hadmits.1] at hdoubled
  rw [hadmits.2.1] at hsum
  rw [List.nil_append, hadmits.2.2] at hknown
  have hrefused : store.push doubled =
      (.error (.record (.malformed (.notAPermutation [0, 0]))), store) := by
    cases hstore
    rfl
  have hfits : sum.Fits .arithmetic 2 := Formula.fits_iff.mpr ⟨rfl, rfl, by decide +kernel⟩
  obtain ⟨_, hstored, -⟩ := hholds.push_eq_ok hfits
  have hoffer : (⟨store, filter⟩ : FilteredStore WordFiles).offer doubled =
      (.error (.record (.malformed (.notAPermutation [0, 0]))), ⟨store, after⟩) := by
    simp only [offer, hdoubled, hrefused]
  have hcount : after.admitted = filter.admitted + 1 :=
    hremembers.asks.admitted_of_offer hdoubled
  have hnone : store.length = 0 := hholds.length_eq
  refine ⟨store, filter, ⟨store, filter⟩, hstore, hfilter, hset, ?_, ?_, ?_, ?_⟩
  · rw [hoffer]
  · rw [hoffer]
    dsimp only
    omega
  · simp only [offer, hsum, hstored]
  · rw [hoffer, offer, hknown]

end FilteredStore

end Formulary
