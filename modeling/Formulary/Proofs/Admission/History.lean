import Formulary.Proofs.Admission.Offering
import Formulary.Proofs.Numeral.Equality

/-!
# The history of a novelty filter

Candidates are offered to a filter one after another, and each call is kept with its answer. What
the filter is after that follows from the calls that were answered: every fingerprint has seen the
keys of their values and nothing else, whether the candidates were admitted or not, and the counts
are the numbers of calls that were answered and of those that admitted their candidate. Calls that
fail leave no trace.

So it does not matter in which order the candidates came, no candidate is admitted twice, and of
two admitted ones the later has another value than the earlier under as many vectors as the
threshold asks for.
-/

namespace Formulary

namespace AdmissionRule

variable {rule : AdmissionRule} {shown : List Formula} {earlier later f : Formula}
  {vector : List Float}

/-- A formula has a key if its rounded value is a number, the key of that number. -/
theorem keyUnder_eq_some_iff {key : UInt64} : rule.keyUnder vector f = some key ↔
    ∃ value, f.evaluate rule.table vector rule.policy.digits = .ok value ∧ value.isNaN = false ∧
      Fingerprint.key value = key := by
  unfold keyUnder
  cases f.evaluate rule.table vector rule.policy.digits with
  | error error => simp
  | ok value =>
    cases hnan : value.isNaN with
    | true => simp
    | false => simp

/-- Whether the rounded value of a formula is a number and not that of an earlier formula. -/
def separates (rule : AdmissionRule) (earlier later : Formula) (vector : List Float) : Bool :=
  match earlier.evaluate rule.table vector rule.policy.digits,
    later.evaluate rule.table vector rule.policy.digits with
  | .ok before, .ok value => !value.isNaN && !(before == value)
  | _, _ => false

/-- A value that is new is not the value of any formula that was shown before. -/
theorem separates_of_isNew (hnew : rule.isNew shown later vector = true) (hmem : earlier ∈ shown)
    (hvalue : ∃ before, earlier.evaluate rule.table vector rule.policy.digits = .ok before) :
    rule.separates earlier later vector = true := by
  obtain ⟨before, hbefore⟩ := hvalue
  obtain ⟨key, hkey, hothers⟩ := isNew_iff.mp hnew
  obtain ⟨value, hlater, hnumber, rfl⟩ := keyUnder_eq_some_iff.mp hkey
  have hdiffer : (before == value) = false := by
    by_contra heq
    rw [Bool.not_eq_false] at heq
    have hnumber' := Numeral.isNaN_eq_false_of_beq heq
    have hsame := (Numeral.key_eq_key_iff hnumber' hnumber).mpr heq
    exact hothers earlier hmem (keyUnder_eq_some_iff.mpr ⟨before, hbefore, hnumber', hsame⟩)
  unfold separates
  rw [hbefore, hlater]
  simp only [hnumber, hdiffer, Bool.not_false, Bool.and_self]

/-- All keys of a formula are keys of formulas that were shown before. -/
def Knows (rule : AdmissionRule) (shown : List Formula) (f : Formula) : Prop :=
  ∀ vector ∈ rule.vectors, ∀ key, rule.keyUnder vector f = some key →
    ∃ other ∈ shown, rule.keyUnder vector other = some key

/-- What was shown is known. -/
theorem knows_of_mem (h : f ∈ shown) : rule.Knows shown f :=
  fun _ _ _ hkey => ⟨f, h, hkey⟩

/-- A formula whose keys are all known is not admitted. -/
theorem Knows.admits_eq_false (hknown : rule.Knows shown f) (hpos : 0 < rule.policy.threshold) :
    rule.admits shown f = false := by
  have hvotes : rule.votes shown f = 0 := by
    refine List.countP_eq_zero.mpr fun vector hvector hnew => ?_
    obtain ⟨key, hkey, hothers⟩ := isNew_iff.mp hnew
    obtain ⟨other, hother, hsame⟩ := hknown vector hvector key hkey
    exact hothers other hother hsame
  exact decide_eq_false (by omega)

/-- A formula with a number as its value under one vector has a value under all of them. -/
theorem evaluates_of_keyUnder {slots : ℕ} {key : UInt64}
    (hlength : ∀ vector ∈ rule.vectors, vector.length = slots) (hmem : vector ∈ rule.vectors)
    (hkey : rule.keyUnder vector f = some key) : rule.Evaluates f := by
  obtain ⟨value, hvalue, hnumber, -⟩ := keyUnder_eq_some_iff.mp hkey
  intro other hother
  have hsame : other.length = vector.length := (hlength other hother).trans (hlength vector hmem).symm
  exact Formula.exists_evaluate_eq_ok_of_evaluate hsame hvalue hnumber

end AdmissionRule

/-- A candidate that was offered, with the answer. -/
structure Call where
  candidate : Formula
  answer : Except AdmissionError Bool

namespace Call

/-- Whether the candidate was taken note of, admitted or not. -/
def isAnswered (call : Call) : Bool :=
  call.answer.isOk

/-- Whether the candidate was admitted. -/
def isAdmitted (call : Call) : Bool :=
  match call.answer with
  | .ok admitted => admitted
  | .error _ => false

end Call

/-- The candidates whose calls were answered. -/
def answeredIn (calls : List Call) : List Formula :=
  (calls.filter Call.isAnswered).map Call.candidate

/-- The candidates that were admitted. -/
def admittedIn (calls : List Call) : List Formula :=
  (calls.filter Call.isAdmitted).map Call.candidate

/-- Calls behind others are answered behind them. -/
@[simp] theorem answeredIn_append (calls more : List Call) :
    answeredIn (calls ++ more) = answeredIn calls ++ answeredIn more := by
  simp [answeredIn]

/-- What is admitted by calls behind others comes behind what these have admitted. -/
@[simp] theorem admittedIn_append (calls more : List Call) :
    admittedIn (calls ++ more) = admittedIn calls ++ admittedIn more := by
  simp [admittedIn]

/-- An answered call admits its candidate or does not, as the answer says. -/
@[simp] theorem admittedIn_ok (f : Formula) (admitted : Bool) :
    admittedIn [⟨f, .ok admitted⟩] = if admitted then [f] else [] := by
  cases admitted with
  | true => rfl
  | false => rfl

/-- Every candidate that was admitted has been answered. -/
theorem admittedIn_sublist (calls : List Call) : (admittedIn calls).Sublist (answeredIn calls) := by
  apply List.Sublist.map
  apply List.monotone_filter_right
  intro call hadmitted
  unfold Call.isAdmitted at hadmitted
  unfold Call.isAnswered
  split at hadmitted
  · next hanswer => rw [hanswer]; rfl
  · cases hadmitted

namespace NoveltyFilter

/-- Offer candidates one after another, and keep the calls. -/
def calls (filter : NoveltyFilter) : List Formula → List Call
  | [] => []
  | f :: rest => ⟨f, (filter.offer f).1⟩ :: (filter.offer f).2.calls rest

/-- The filter after candidates were offered one after another. -/
def afterOffering (filter : NoveltyFilter) : List Formula → NoveltyFilter
  | [] => filter
  | f :: rest => (filter.offer f).2.afterOffering rest

/-- The filters have seen the same values. -/
def SameSeen (filter other : NoveltyFilter) : Prop :=
  List.Forall₂ (fun a b : Fingerprint => a.values = b.values ∧ a.seen.Equiv b.seen)
    filter.fingerprints other.fingerprints

/-- A filter that follows a rule is what the calls have made of a fresh one. -/
structure Follows (filter : NoveltyFilter) (slots : ℕ) (rule : AdmissionRule)
    (history : List Call) : Prop where
  remembers : filter.Remembers slots rule (answeredIn history)
  offered_eq : filter.offered = (answeredIn history).length
  admitted_eq : filter.admitted = (admittedIn history).length
  answered_iff : ∀ call ∈ history, call.isAnswered = true ↔
    call.candidate.size = slots ∧ rule.Evaluates call.candidate
  separated : (admittedIn history).Pairwise fun earlier later =>
    rule.policy.threshold ≤ rule.vectors.countP (rule.separates earlier later)
  le_recorded : rule.policy.threshold * filter.admitted ≤ recorded filter.fingerprints
  recorded_le : recorded filter.fingerprints ≤ rule.vectors.length * filter.offered

variable {filter other after : NoveltyFilter} {slots : ℕ} {rule : AdmissionRule}
  {history : List Call} {f : Formula}

/-- An admitted formula differs from every formula that had a value before it. -/
theorem le_countP_separates {shown : List Formula} {earlier : Formula}
    (hadmits : rule.admits shown f = true) (hmem : earlier ∈ shown)
    (hvalues : rule.Evaluates earlier) :
    rule.policy.threshold ≤ rule.vectors.countP (rule.separates earlier f) := by
  have hvotes : rule.policy.threshold ≤ rule.votes shown f := of_decide_eq_true hadmits
  refine Nat.le_trans hvotes (List.countP_mono_left fun vector hvector hnew => ?_)
  exact AdmissionRule.separates_of_isNew hnew hmem (hvalues vector hvector)

/-- All formulas that were answered have values under all vectors. -/
theorem Follows.evaluates (h : filter.Follows slots rule history) {earlier : Formula}
    (hmem : earlier ∈ answeredIn history) : rule.Evaluates earlier := by
  obtain ⟨call, hcall, rfl⟩ := List.mem_map.mp hmem
  obtain ⟨hcall, hanswered⟩ := List.mem_filter.mp hcall
  exact ((h.answered_iff call hcall).mp hanswered).2

/-- A call that fails leaves no trace. -/
theorem Follows.append_failed (h : filter.Follows slots rule history) (error : AdmissionError)
    (hfails : ¬ (f.size = slots ∧ rule.Evaluates f)) :
    filter.Follows slots rule (history ++ [⟨f, .error error⟩]) := by
  have hsame : answeredIn (history ++ [⟨f, .error error⟩]) = answeredIn history :=
    (answeredIn_append history _).trans (List.append_nil _)
  have hsame' : admittedIn (history ++ [⟨f, .error error⟩]) = admittedIn history :=
    (admittedIn_append history _).trans (List.append_nil _)
  refine ⟨hsame ▸ h.remembers, hsame ▸ h.offered_eq, hsame' ▸ h.admitted_eq, ?_,
    hsame' ▸ h.separated, h.le_recorded, h.recorded_le⟩
  intro call hcall
  rcases List.mem_append.mp hcall with hcall | hcall
  · exact h.answered_iff call hcall
  · obtain rfl := List.mem_singleton.mp hcall
    exact ⟨fun hanswer => (nomatch hanswer), fun hboth => absurd hboth hfails⟩

/-- If one more candidate is admitted, it is separated from all that were admitted before. -/
theorem Follows.separated_append (h : filter.Follows slots rule history) (f : Formula) :
    (admittedIn history ++ if rule.admits (answeredIn history) f then [f] else []).Pairwise
      fun earlier later => rule.policy.threshold ≤ rule.vectors.countP (rule.separates earlier later) := by
  split
  · next hadmits =>
    refine List.pairwise_append.mpr ⟨h.separated, List.pairwise_singleton _ _, ?_⟩
    intro earlier hearlier later hlater
    obtain rfl := List.mem_singleton.mp hlater
    have hmem := (admittedIn_sublist history).subset hearlier
    exact le_countP_separates hadmits hmem (h.evaluates hmem)
  · rw [List.append_nil]
    exact h.separated

/-- A candidate that is admitted leaves as many keys as the threshold asks for. -/
theorem Follows.le_recorded_of_answered (h : filter.Follows slots rule history)
    (hanswered : filter.Answered after slots rule (answeredIn history) f) :
    rule.policy.threshold * after.admitted ≤ recorded after.fingerprints := by
  rw [hanswered.admitted_eq, hanswered.recorded_eq, Nat.mul_add]
  apply Nat.add_le_add h.le_recorded
  cases hadmits : rule.admits (answeredIn history) f with
  | true =>
    rw [Bool.toNat_true, Nat.mul_one]
    exact of_decide_eq_true hadmits
  | false => exact Nat.zero_le _

/-- A call that is answered adds its candidate to those that are remembered. -/
theorem Follows.append_answered (h : filter.Follows slots rule history)
    (hanswered : filter.Answered after slots rule (answeredIn history) f) :
    after.Follows slots rule (history ++ [⟨f, .ok (rule.admits (answeredIn history) f)⟩]) := by
  have hmore : answeredIn (history ++ [⟨f, .ok (rule.admits (answeredIn history) f)⟩]) =
      answeredIn history ++ [f] := answeredIn_append history _
  have hadmitted : admittedIn (history ++ [⟨f, .ok (rule.admits (answeredIn history) f)⟩]) =
      admittedIn history ++ if rule.admits (answeredIn history) f then [f] else [] := by
    rw [admittedIn_append, admittedIn_ok]
  refine ⟨hmore ▸ hanswered.remembers, ?_, ?_, ?_, hadmitted ▸ h.separated_append f,
    h.le_recorded_of_answered hanswered, ?_⟩
  · rw [hmore, hanswered.offered_eq, h.offered_eq, List.length_append, List.length_singleton]
  · rw [hadmitted, hanswered.admitted_eq, h.admitted_eq, List.length_append]
    cases rule.admits (answeredIn history) f with
    | true => rfl
    | false => rfl
  · intro call hcall
    rcases List.mem_append.mp hcall with hcall | hcall
    · exact h.answered_iff call hcall
    · obtain rfl := List.mem_singleton.mp hcall
      exact ⟨fun _ => ⟨hanswered.size_eq, hanswered.evaluates⟩, fun _ => rfl⟩
  · rw [hanswered.offered_eq, hanswered.recorded_eq, Nat.mul_add, Nat.mul_one]
    exact Nat.add_le_add h.recorded_le List.countP_le_length

/-- One more call, answered or not, keeps a filter what its calls have made of it. -/
theorem Follows.offer (h : filter.Follows slots rule history) (f : Formula) :
    (filter.offer f).2.Follows slots rule (history ++ [⟨f, (filter.offer f).1⟩]) := by
  rcases h.remembers.offer_cases f with ⟨error, hoffer, hfails⟩ | ⟨after, hoffer, hanswered⟩
  · rw [hoffer]
    exact h.append_failed error hfails
  · rw [hoffer]
    exact h.append_answered hanswered

/-- A filter stays what its calls have made of it while candidates are offered. -/
theorem Follows.afterOffering (h : filter.Follows slots rule history) (candidates : List Formula) :
    (filter.afterOffering candidates).Follows slots rule (history ++ filter.calls candidates) := by
  induction candidates generalizing filter history with
  | nil => simpa [NoveltyFilter.afterOffering, calls] using h
  | cons f rest ih =>
    have hrest := ih (h.offer f)
    rwa [List.append_assoc, List.singleton_append] at hrest

/-- Every candidate is called for once. -/
theorem map_candidate_calls (filter : NoveltyFilter) (candidates : List Formula) :
    (filter.calls candidates).map Call.candidate = candidates := by
  induction candidates generalizing filter with
  | nil => rfl
  | cons f rest ih => exact congrArg (f :: ·) (ih _)

/-- Filters of one rule have seen the same values if the formulas shown to them have the same
keys. -/
theorem sameSeen_of_remembers {shown shown' : List Formula}
    (h : filter.Remembers slots rule shown) (h' : other.Remembers slots rule shown')
    (hkeys : ∀ vector ∈ rule.vectors, ∀ key, (∃ f ∈ shown, rule.keyUnder vector f = some key) ↔
      ∃ f ∈ shown', rule.keyUnder vector f = some key) : filter.SameSeen other := by
  have hvalues : List.Forall₂ (fun a b : Fingerprint => a.values = b.values) filter.fingerprints
      other.fingerprints := by
    have heq := h.values_eq.trans h'.values_eq.symm
    rw [← List.forall₂_eq_eq_eq, List.forall₂_map_left_iff, List.forall₂_map_right_iff] at heq
    exact heq
  apply List.forall₂_iff_zip.mpr
  obtain ⟨hlength, hpairs⟩ := List.forall₂_iff_zip.mp hvalues
  refine ⟨hlength, fun {a b} hmem => ?_⟩
  have hsame := hpairs hmem
  obtain ⟨ha, hb⟩ := List.of_mem_zip hmem
  refine ⟨hsame, Std.HashSet.Equiv.of_forall_mem_iff fun key => ?_⟩
  have hvector : a.values ∈ rule.vectors := h.values_eq ▸ List.mem_map_of_mem ha
  rw [h.remembers a ha key, h'.remembers b hb key, ← hsame]
  exact hkeys a.values hvector key

/-- The candidates that are answered are those of the right size that have values. -/
theorem Follows.mem_answeredIn_calls (h : filter.Follows slots rule []) {candidates : List Formula} :
    f ∈ answeredIn (filter.calls candidates) ↔
      f ∈ candidates ∧ f.size = slots ∧ rule.Evaluates f := by
  have hall := (h.afterOffering candidates).answered_iff
  rw [List.nil_append] at hall
  constructor
  · intro hmem
    obtain ⟨call, hcall, rfl⟩ := List.mem_map.mp hmem
    obtain ⟨hcall, hanswered⟩ := List.mem_filter.mp hcall
    refine ⟨?_, (hall call hcall).mp hanswered⟩
    rw [← filter.map_candidate_calls candidates]
    exact List.mem_map_of_mem hcall
  · rintro ⟨hmem, hboth⟩
    rw [← filter.map_candidate_calls candidates] at hmem
    obtain ⟨call, hcall, rfl⟩ := List.mem_map.mp hmem
    exact List.mem_map_of_mem (List.mem_filter.mpr ⟨hcall, (hall call hcall).mpr hboth⟩)

/-- A candidate is admitted if it has the right size and enough vectors give it a new key. -/
theorem Remembers.offer_eq_ok_true_iff {shown : List Formula}
    (h : filter.Remembers slots rule shown) (hpos : 0 < rule.policy.threshold) :
    (filter.offer f).1 = .ok true ↔
      f.size = slots ∧ rule.policy.threshold ≤ rule.vectors.countP (rule.isNew shown f) := by
  rcases h.offer_cases f with ⟨error, hoffer, hfails⟩ | ⟨after, hoffer, hanswered⟩
  · rw [hoffer]
    refine ⟨fun hanswer => (nomatch hanswer), fun ⟨hsize, hvotes⟩ => ?_⟩
    obtain ⟨vector, hvector, hnew⟩ := List.countP_pos_iff.mp (Nat.lt_of_lt_of_le hpos hvotes)
    obtain ⟨key, hkey, -⟩ := AdmissionRule.isNew_iff.mp hnew
    exact absurd ⟨hsize, AdmissionRule.evaluates_of_keyUnder h.length_eq hvector hkey⟩ hfails
  · rw [hoffer]
    constructor
    · intro hadmits
      exact ⟨hanswered.size_eq, of_decide_eq_true (Except.ok.inj hadmits)⟩
    · intro ⟨_, hvotes⟩
      exact congrArg Except.ok (decide_eq_true hvotes)

/-- A candidate that was offered before is not admitted. -/
theorem Follows.offer_ne_ok_true (h : filter.Follows slots rule [])
    (hpos : 0 < rule.policy.threshold) {candidates : List Formula} (hmem : f ∈ candidates) :
    ((filter.afterOffering candidates).offer f).1 ≠ .ok true := by
  have hafter := (h.afterOffering candidates).remembers
  rw [List.nil_append] at hafter
  rcases hafter.offer_cases f with ⟨error, hoffer, -⟩ | ⟨after, hoffer, hanswered⟩
  · rw [hoffer]
    exact nofun
  · have hshown := h.mem_answeredIn_calls.mpr ⟨hmem, hanswered.size_eq, hanswered.evaluates⟩
    rw [hoffer, (AdmissionRule.knows_of_mem hshown).admits_eq_false hpos]
    exact nofun

/-- A filter over fresh fingerprints follows its rule, and its policy is a valid one. -/
theorem follows_of_ofFingerprints {policy : Policy} {table : OperatorTable}
    {vectors : List (List Float)}
    (h : ofFingerprints slots policy table (vectors.map .ofValues) = .ok filter) :
    policy.validate = .ok () ∧ vectors.length = policy.fingerprints ∧
      filter.Follows slots ⟨table, policy, vectors⟩ [] := by
  obtain ⟨hvalid, hcount, hlength, rfl⟩ := eq_of_ofFingerprints h
  rw [List.length_map] at hcount
  obtain ⟨fresh, hfresh, hremembers⟩ :=
    ofFingerprints_eq_ok hvalid hcount (List.forall_mem_map.mp hlength)
  rw [h] at hfresh
  cases hfresh
  have hrecorded : recorded (vectors.map Fingerprint.ofValues) = 0 := by
    unfold recorded
    rw [List.map_map]
    exact List.sum_eq_zero fun size hsize => by
      obtain ⟨vector, -, rfl⟩ := List.mem_map.mp hsize
      exact Std.HashSet.size_empty
  exact ⟨hvalid, hcount, hremembers, rfl, rfl, fun _ hmem => (nomatch hmem), List.Pairwise.nil,
    Nat.zero_le _, Nat.le_of_eq hrecorded⟩

/-- What the fingerprints of a filter have seen once candidates were offered to it. -/
structure SeenAfter (filter : NoveltyFilter) (rule : AdmissionRule) (candidates : List Formula) :
    Prop where
  /-- The vectors are still those of the rule. -/
  values_eq : (filter.afterOffering candidates).fingerprints.map Fingerprint.values = rule.vectors
  /-- Each seen set holds the keys of the numbers that the answered candidates have as their values
  under its vector, and nothing else. -/
  mem_seen_iff : ∀ fingerprint ∈ (filter.afterOffering candidates).fingerprints, ∀ key,
    key ∈ fingerprint.seen ↔ ∃ f ∈ answeredIn (filter.calls candidates), ∃ value,
      f.evaluate rule.table fingerprint.values rule.policy.digits = .ok value ∧
        value.isNaN = false ∧ Fingerprint.key value = key
  /-- The order of the answered candidates does not matter, nor do those whose calls failed. -/
  sameSeen_of_answered : ∀ others,
    (answeredIn (filter.calls candidates)).Perm (answeredIn (filter.calls others)) →
      (filter.afterOffering candidates).SameSeen (filter.afterOffering others)
  /-- So the order of the candidates does not matter. -/
  sameSeen_of_perm : ∀ others, candidates.Perm others →
    (filter.afterOffering candidates).SameSeen (filter.afterOffering others)

/-- How a filter over some slots answers once candidates were offered to it, and how it has answered
them. -/
structure AnswersAfter (filter : NoveltyFilter) (slots : ℕ) (rule : AdmissionRule)
    (candidates : List Formula) : Prop where
  /-- A candidate is admitted exactly when it has the filter's size and gives as many vectors as the
  threshold asks for a key that no answered candidate before it gave. -/
  eq_ok_true_iff : ∀ f, ((filter.afterOffering candidates).offer f).1 = .ok true ↔ f.size = slots ∧
    rule.policy.threshold ≤
      rule.vectors.countP (rule.isNew (answeredIn (filter.calls candidates)) f)
  /-- A candidate of another size is refused before any vector is asked. -/
  eq_wrongSize : ∀ f, f.size ≠ slots → (filter.afterOffering candidates).offer f =
    (.error (.wrongSize slots f.size), filter.afterOffering candidates)
  /-- No candidate is admitted again. -/
  ne_ok_true : ∀ f ∈ candidates, ((filter.afterOffering candidates).offer f).1 ≠ .ok true
  /-- Of two admitted candidates the later has another number as its value than the earlier under as
  many vectors as the threshold asks for. -/
  separated : (admittedIn (filter.calls candidates)).Pairwise fun earlier later =>
    rule.policy.threshold ≤ rule.vectors.countP (rule.separates earlier later)

/-- How the counts of a filter and the sizes of its seen sets bound each other once candidates were
offered to it. -/
structure CountsAfter (filter : NoveltyFilter) (policy : Policy) (candidates : List Formula) :
    Prop where
  offered_eq : (filter.afterOffering candidates).offered =
    (answeredIn (filter.calls candidates)).length
  admitted_eq : (filter.afterOffering candidates).admitted =
    (admittedIn (filter.calls candidates)).length
  le_sum_size : policy.threshold * (filter.afterOffering candidates).admitted ≤
    ((filter.afterOffering candidates).fingerprints.map Fingerprint.size).sum
  sum_size_le : ((filter.afterOffering candidates).fingerprints.map Fingerprint.size).sum ≤
    policy.fingerprints * (filter.afterOffering candidates).offered
  admitted_le : (filter.afterOffering candidates).admitted ≤
    (filter.afterOffering candidates).offered

/-- After any candidates, a fresh filter remembers those that were answered. -/
theorem Follows.remembers_afterOffering (h : filter.Follows slots rule [])
    (candidates : List Formula) : (filter.afterOffering candidates).Remembers slots rule
      (answeredIn (filter.calls candidates)) :=
  (h.afterOffering candidates).remembers

/-- Runs of a fresh filter that answered the same candidates have seen the same values. -/
theorem Follows.sameSeen (h : filter.Follows slots rule []) {candidates others : List Formula}
    (hmem : ∀ f, f ∈ answeredIn (filter.calls candidates) ↔ f ∈ answeredIn (filter.calls others)) :
    (filter.afterOffering candidates).SameSeen (filter.afterOffering others) := by
  apply sameSeen_of_remembers (h.remembers_afterOffering candidates) (h.remembers_afterOffering others)
  intro vector _ key
  exact exists_congr fun f => and_congr_left fun _ => hmem f

/-- A fresh filter sees the values of the candidates that it answers. -/
theorem Follows.seenAfter (h : filter.Follows slots rule []) (candidates : List Formula) :
    filter.SeenAfter rule candidates := by
  have hafter := h.remembers_afterOffering candidates
  refine ⟨hafter.values_eq, fun fingerprint hmem key => ?_, fun others hperm => ?_,
    fun others hperm => ?_⟩
  · rw [hafter.remembers fingerprint hmem key]
    exact exists_congr fun f => and_congr_right fun _ => AdmissionRule.keyUnder_eq_some_iff
  · exact h.sameSeen fun f => hperm.mem_iff
  · apply h.sameSeen
    intro f
    rw [h.mem_answeredIn_calls, h.mem_answeredIn_calls, hperm.mem_iff]

/-- A fresh filter answers by the values that it has seen. -/
theorem Follows.answersAfter (h : filter.Follows slots rule []) (hpos : 0 < rule.policy.threshold)
    (candidates : List Formula) : filter.AnswersAfter slots rule candidates := by
  have hafter := h.remembers_afterOffering candidates
  refine ⟨fun f => hafter.offer_eq_ok_true_iff hpos, fun f hsize => ?_,
    fun f hmem => h.offer_ne_ok_true hpos hmem, (h.afterOffering candidates).separated⟩
  rw [NoveltyFilter.offer, hafter.slots_eq, if_pos hsize]

/-- The counts of a fresh filter are those of its calls. -/
theorem Follows.countsAfter (h : filter.Follows slots rule [])
    (hcount : rule.vectors.length = rule.policy.fingerprints) (candidates : List Formula) :
    filter.CountsAfter rule.policy candidates := by
  have hafter := h.afterOffering candidates
  refine ⟨hafter.offered_eq, hafter.admitted_eq, hafter.le_recorded, ?_, ?_⟩
  · rw [← hcount]
    exact hafter.recorded_le
  · rw [hafter.offered_eq, hafter.admitted_eq]
    exact (admittedIn_sublist _).length_le

/-- The run of a filter over fresh fingerprints, for any candidates in any order. Each seen set
holds the keys of the numbers that the answered candidates have as their values under its vector,
and nothing else; so the seen sets depend neither on the order of the candidates nor on those whose
calls failed. A candidate is admitted exactly when it has the filter's size and gives as many
vectors as the threshold asks for a key that no answered candidate before it gave; a candidate of
another size is refused before any vector is asked. No candidate is admitted again, of two admitted
ones the later has another number than the earlier under as many vectors as the threshold asks for,
and the counts and the sizes of the seen sets bound each other. -/
theorem afterOffering_history {policy : Policy} {table : OperatorTable}
    {vectors : List (List Float)}
    (hfilter : ofFingerprints slots policy table (vectors.map .ofValues) = .ok filter)
    (candidates : List Formula) :
    filter.SeenAfter ⟨table, policy, vectors⟩ candidates ∧
      filter.AnswersAfter slots ⟨table, policy, vectors⟩ candidates ∧
      filter.CountsAfter policy candidates := by
  obtain ⟨hpolicy, hcount, hfresh⟩ := follows_of_ofFingerprints hfilter
  have hpos : 0 < policy.threshold := ((policy.validate_eq_ok_iff).mp hpolicy).1
  exact ⟨hfresh.seenAfter candidates, hfresh.answersAfter hpos candidates,
    hfresh.countsAfter hcount candidates⟩

/-- A sum of two slots is admitted, once. -/
theorem afterOffering_history_sum :
    let sum : Formula := ⟨[0, 1], [0], [true, true, false]⟩
    let policy : Policy := { fingerprints := 1, threshold := 1 }
    ∃ filter, ofFingerprints 2 policy .arithmetic ([[1.0, 2.0]].map .ofValues) = .ok filter ∧
      (filter.offer sum).1 = .ok true ∧ ((filter.afterOffering [sum]).offer sum).1 ≠ .ok true ∧
      1 * (filter.afterOffering [sum]).admitted ≤
        ((filter.afterOffering [sum]).fingerprints.map Fingerprint.size).sum := by
  intro sum policy
  obtain ⟨filter, hfilter⟩ : ∃ filter,
      ofFingerprints 2 policy .arithmetic ([[1.0, 2.0]].map .ofValues) = .ok filter := ⟨_, rfl⟩
  have hvotes : policy.threshold ≤ [[1.0, 2.0]].countP
      (AdmissionRule.isNew ⟨.arithmetic, policy, [[1.0, 2.0]]⟩ [] sum) := by decide +kernel
  obtain ⟨-, hfirst, -⟩ := afterOffering_history hfilter []
  obtain ⟨-, hsecond, hcounts⟩ := afterOffering_history hfilter [sum]
  exact ⟨filter, hfilter, (hfirst.eq_ok_true_iff sum).mpr ⟨rfl, hvotes⟩,
    hsecond.ne_ok_true sum List.mem_cons_self, hcounts.le_sum_size⟩

end NoveltyFilter

end Formulary
