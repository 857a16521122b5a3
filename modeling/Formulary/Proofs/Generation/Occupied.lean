import Formulary.Proofs.Admission.Drawn
import Formulary.Proofs.Formula.TreeEvaluation
import Formulary.Proofs.Generation.Backends
import Formulary.Proofs.Numeral.Places

/-!
# Which levels are empty

The first candidate over any number of slots is the sum of all slots from left to right: the first
split takes the last slot away, the first formula over the others is their sum, and addition comes
first among the operators. A sum of finite numbers is a number. As nothing was offered before it, the
sum is new under every vector, and it is admitted, provided that rounding leaves it a number.

That depends on the places alone. Up to 308 places rounding makes a number of every number, so every
level has its sum. From 309 places on it makes NaN of everything, no candidate is ever new, and all
levels are empty.
-/

namespace Formulary

section First

variable {α β : Type} {items : List α} {listFor : α → List β} {a : α} {b : β}

/-- The first of several lists one behind the other begins with its own first item. -/
theorem head?_flatMap_eq_some (h : items.head? = some a) (hb : (listFor a).head? = some b) :
    (items.flatMap listFor).head? = some b := by
  cases items with
  | nil => cases h
  | cons first rest =>
    cases h
    rw [List.flatMap_cons, List.head?_append, hb]
    rfl

/-- The first size takes one slot away. -/
theorem head?_splitSizes {m : ℕ} (hm : 1 < m) : (splitSizes m).head? = some (m - 1) := by
  have hlast (lower : ℕ) (hlower : lower + 1 < m) :
      (List.range' (lower + 1) (m - (lower + 1))).getLast? = some (m - 1) := by
    rw [List.getLast?_range', if_neg (by omega)]
    congr 1
    omega
  unfold splitSizes
  dsimp only
  rw [List.head?_reverse]
  split
  · exact hlast _ (by omega)
  · exact hlast _ (by omega)

/-- One slot more stands behind the others. -/
theorem slotsBelow_succ (m : ℕ) : slotsBelow (m + 1) = slotsBelow m ++ [UInt8.ofNat m] := by
  rw [slotsBelow, List.range_succ, List.map_append]
  rfl

/-- The first split takes the last slot away. -/
theorem head?_allSplits {m : ℕ} (hpos : 0 < m) (hm : m + 1 ≤ UInt8.size) :
    (allSplits (m + 1)).head? = some ⟨slotsBelow m, [UInt8.ofNat m]⟩ := by
  have hfirst : (choices m (slotsBelow (m + 1))).head? = some (slotsBelow m) := by
    rw [Subsets.slotsBelow_eq_consecutive, Subsets.head?_choices_consecutive, if_pos (Nat.le_succ m),
      Subsets.slotsBelow_eq_consecutive]
  have hstands : standsForSplit m (m + 1) (slotsBelow m) = true := by
    obtain ⟨fewer, rfl⟩ := Nat.exists_eq_succ_of_ne_zero hpos.ne'
    have hzero : (slotsBelow (fewer + 1)).head? = some 0 := by
      rw [slotsBelow, List.range_succ_eq_map]
      rfl
    unfold standsForSplit
    rw [Bool.or_eq_true, decide_eq_true_eq, decide_eq_true_eq]
    exact Or.inr hzero
  have hcomplement : complement (slotsBelow m) (m + 1) = [UInt8.ofNat m] := by
    have hnodup : (slotsBelow (m + 1)).Nodup := Permutation.nodup_identity hm
    rw [slotsBelow_succ, List.nodup_append] at hnodup
    obtain ⟨-, -, hdisjoint⟩ := hnodup
    have hlast : UInt8.ofNat m ∉ slotsBelow m :=
      fun hmem => hdisjoint _ hmem _ (List.mem_singleton.mpr rfl) rfl
    unfold complement
    rw [slotsBelow_succ, List.filter_append, List.filter_eq_nil_iff.mpr, List.nil_append]
    · simp [hlast]
    · intro slot hslot
      simp [hslot]
  apply head?_flatMap_eq_some (head?_splitSizes (by omega))
  unfold splitsVisited
  rw [Nat.add_sub_cancel]
  cases hchoices : choices m (slotsBelow (m + 1)) with
  | nil =>
    rw [hchoices] at hfirst
    cases hfirst
  | cons first rest =>
    rw [hchoices] at hfirst
    cases hfirst
    rw [List.filter_cons_of_pos hstands, List.map_cons, hcomplement]
    rfl

end First

namespace Tree

/-- The sum of slot zero and the next `more` slots, from left to right. -/
def sum : ℕ → Tree
  | 0 => leaf 0
  | more + 1 => node 0 (sum more) (leaf (UInt8.ofNat (more + 1)))

/-- A sum stays what it is if it is put on its own slots. -/
theorem placeOn_sum {more m : ℕ} (hlt : more < m) (hm : m ≤ UInt8.size) :
    (sum more).toFormula.placeOn (slotsBelow m) = (sum more).toFormula := by
  have hslot {slot : ℕ} (hslot : slot < m) :
      (slotsBelow m).getD (UInt8.ofNat slot).toNat 0 = UInt8.ofNat slot := by
    rw [UInt8.toNat_ofNat_of_lt' (hslot.trans_le hm), slotsBelow, List.getD_eq_getElem _ _ (by simpa)]
    simp
  rw [← toFormula_relabel]
  congr 1
  induction more with
  | zero => exact congrArg leaf (hslot hlt)
  | succ more ih =>
    rw [sum, relabel, ih (by omega), relabel, hslot hlt]

/-- A sum of finite numbers is a number. -/
theorem exists_evaluate_sum {values : List Float} {more : ℕ} (hlt : more < values.length)
    (hbyte : more < UInt8.size) (hfinite : ∀ value ∈ values, value.isFinite = true) :
    ∃ value, (sum more).evaluate .arithmetic values = .ok value ∧ value.isNaN = false := by
  have hleaf {slot : ℕ} (hslot : slot < values.length) (hbyte : slot < UInt8.size) :
      ∃ value, (leaf (UInt8.ofNat slot)).evaluate .arithmetic values = .ok value ∧
        value.isFinite = true := by
    refine ⟨values[slot], ?_, hfinite _ (List.getElem_mem hslot)⟩
    rw [evaluate, UInt8.toNat_ofNat_of_lt' hbyte, List.getElem?_eq_getElem hslot]
  induction more with
  | zero =>
    obtain ⟨value, hvalue, hfinite⟩ := hleaf hlt hbyte
    exact ⟨value, hvalue, (Numeral.isNaN_eq_false_of_isFinite hfinite).1⟩
  | succ more ih =>
    obtain ⟨x, hx, hnumber⟩ := ih (by omega) (by omega)
    obtain ⟨y, hy, hfinite⟩ := hleaf hlt hbyte
    have hsum := Numeral.isNaN_add_eq_false hnumber hfinite
    have hplus : OperatorTable.arithmetic.applyCode 0 x y =
        if (x + y).isNaN then .error (.notANumber (x + y)) else .ok (x + y) := rfl
    refine ⟨x + y, ?_, hsum⟩
    rw [sum, evaluate, hx, hy]
    simp only [bind, Except.bind, hplus, hsum, Bool.false_eq_true, if_false]

end Tree

section Offered

/-- The first candidate is the sum of all slots, if the first formula over all but the last slot is
their sum. -/
theorem head?_candidates {level : ℕ → List Formula} {m : ℕ} (hm : m + 1 ≤ UInt8.size)
    (hbelow : ∀ more < m, (level (more + 1)).head? = some (Tree.sum more).toFormula) :
    (candidates .arithmetic level (m + 1)).head? = some (Tree.sum m).toFormula := by
  cases m with
  | zero => rfl
  | succ more =>
    rw [candidates, if_neg (by omega)]
    apply head?_flatMap_eq_some (head?_allSplits more.succ_pos hm)
    have hlength : (slotsBelow (more + 1)).length = more + 1 := by
      rw [slotsBelow, List.length_map, List.length_range]
    have hleft : ((level (slotsBelow (more + 1)).length).map
        fun f => f.placeOn (slotsBelow (more + 1))).head? = some (Tree.sum more).toFormula := by
      rw [hlength, List.head?_map, hbelow more more.lt_succ_self, Option.map_some,
        Tree.placeOn_sum more.lt_succ_self (by omega)]
    have hright : ((level [UInt8.ofNat (more + 1)].length).map
        fun f => f.placeOn [UInt8.ofNat (more + 1)]).head? =
          some (Tree.leaf (UInt8.ofNat (more + 1))).toFormula := by
      rw [List.length_singleton, List.head?_map, hbelow 0 more.succ_pos]
      rfl
    exact head?_flatMap_eq_some hleft (head?_flatMap_eq_some hright rfl)

end Offered

namespace AdmissionRule

variable {rule : AdmissionRule} {f : Formula} {vector : List Float}

/-- Vectors of finite numbers over `m` slots, as many as a policy asks for. -/
structure FiniteVectors (policy : Policy) (m : ℕ) (vectors : List (List Float)) : Prop where
  count_eq : vectors.length = policy.fingerprints
  length_eq : ∀ vector ∈ vectors, vector.length = m
  finite : ∀ vector ∈ vectors, ∀ value ∈ vector, value.isFinite = true

/-- Up to 308 places a sum of finite numbers has a key. -/
theorem exists_keyUnder_sum {more : ℕ} (htable : rule.table = .arithmetic)
    (hdigits : rule.policy.digits ≤ 308) (hlt : more < vector.length) (hbyte : more < UInt8.size)
    (hfinite : ∀ value ∈ vector, value.isFinite = true) :
    ∃ key, rule.keyUnder vector (Tree.sum more).toFormula = some key := by
  obtain ⟨value, hvalue, hnumber⟩ := Tree.exists_evaluate_sum hlt hbyte hfinite
  have hrounded := Numeral.isNaN_round_eq_false hnumber hdigits
  refine ⟨Fingerprint.key (Places.round value rule.policy.digits), ?_⟩
  unfold keyUnder Formula.evaluate
  rw [htable, Formula.evaluateRaw_toFormula, hvalue]
  simp only [answerOf, bind, Except.bind, pure, Except.pure, hnumber, hrounded, Bool.false_eq_true,
    if_false]

/-- From 309 places on no formula has a key. -/
theorem keyUnder_eq_none (hdigits : 309 ≤ rule.policy.digits) (vector : List Float) (f : Formula) :
    rule.keyUnder vector f = none := by
  unfold keyUnder Formula.evaluate
  cases f.evaluateRaw rule.table vector with
  | error error => rfl
  | ok raw =>
    cases hraw : raw.isNaN with
    | true => simp only [bind, Except.bind, pure, Except.pure, hraw, if_true]
    | false =>
      have hrounded := Numeral.isNaN_round raw hdigits
      simp only [bind, Except.bind, pure, Except.pure, hraw, hrounded, Bool.false_eq_true, if_false,
        if_true]

/-- The first candidate is admitted if it has a key under every vector. -/
theorem head?_admissions {candidates : List Formula} (hhead : candidates.head? = some f)
    (hthreshold : rule.policy.threshold ≤ rule.vectors.length)
    (hkey : ∀ vector ∈ rule.vectors, ∃ key, rule.keyUnder vector f = some key) :
    (rule.admissions candidates).head? = some f := by
  have hnew : ∀ vector ∈ rule.vectors, rule.isNew [] f vector = true := by
    intro vector hvector
    obtain ⟨key, hkey⟩ := hkey vector hvector
    exact isNew_iff.mpr ⟨key, hkey, nofun⟩
  have hadmits : rule.admits [] f = true := by
    unfold admits votes
    rw [List.countP_eq_length.mpr hnew]
    exact decide_eq_true hthreshold
  cases candidates with
  | nil => cases hhead
  | cons first rest =>
    cases hhead
    simp [admissions, List.zipIdx_cons, hadmits]

/-- No candidate is admitted if no formula has a key. -/
theorem admissions_eq_nil (hpos : 0 < rule.policy.threshold)
    (hkey : ∀ vector f, rule.keyUnder vector f = none) (candidates : List Formula) :
    rule.admissions candidates = [] := by
  have hadmits (earlier : List Formula) (f : Formula) : rule.admits earlier f = false := by
    have hnone : rule.votes earlier f = 0 := by
      apply List.countP_eq_zero.mpr
      intro vector _ hnew
      obtain ⟨key, hsome, -⟩ := isNew_iff.mp hnew
      cases (hkey vector f).symm.trans hsome
    unfold admits
    rw [hnone]
    exact decide_eq_false hpos.not_ge
  unfold admissions
  rw [List.filter_eq_nil_iff.mpr fun entry _ => by simp [hadmits]]
  rfl

end AdmissionRule

namespace Generation

open AdmissionRule (FiniteVectors)

/-- Which levels are empty, and what the first one is: the slot alone, unless it is empty. -/
def Occupied (digits m : ℕ) (formulas : List Formula) : Prop :=
  (formulas = [] ↔ 309 ≤ digits) ∧ (m = 1 → digits ≤ 308 → formulas = [Formula.operand])

variable {policy : Policy} {vectors : ℕ → List (List Float)} {level : ℕ → List Formula} {slots : ℕ}

/-- Up to 308 places every level begins with the sum of its slots. -/
theorem head?_level (hpolicy : policy.validate = .ok ()) (hdigits : policy.digits ≤ 308)
    (hbyte : slots ≤ UInt8.size)
    (hvectors : ∀ m, 1 ≤ m → m ≤ slots → FiniteVectors policy m (vectors m))
    (hlevel : ∀ m, 1 ≤ m → m ≤ slots → level m =
      AdmissionRule.admissions ⟨.arithmetic, policy, vectors m⟩ (candidates .arithmetic level m))
    {more : ℕ} (hlt : more < slots) : (level (more + 1)).head? = some (Tree.sum more).toFormula := by
  induction more using Nat.strong_induction_on with
  | _ more ih =>
    obtain ⟨hcount, hlength, hfinite⟩ := hvectors (more + 1) more.succ_pos hlt
    obtain ⟨-, hthreshold⟩ := policy.validate_eq_ok_iff.mp hpolicy
    rw [hlevel (more + 1) more.succ_pos hlt]
    apply AdmissionRule.head?_admissions
    · exact head?_candidates (by omega) fun fewer hfewer => ih fewer hfewer (by omega)
    · exact hthreshold.trans hcount.ge
    · intro vector hvector
      exact AdmissionRule.exists_keyUnder_sum rfl hdigits ((hlength vector hvector).symm ▸ more.lt_succ_self)
        (by omega) (hfinite vector hvector)

/-- A level that holds what a rule over finite vectors admits is empty exactly from 309 places on. -/
theorem occupied_level (hpolicy : policy.validate = .ok ()) (hbyte : slots ≤ UInt8.size)
    (hvectors : ∀ m, 1 ≤ m → m ≤ slots → FiniteVectors policy m (vectors m))
    (hlevel : ∀ m, 1 ≤ m → m ≤ slots → level m =
      AdmissionRule.admissions ⟨.arithmetic, policy, vectors m⟩ (candidates .arithmetic level m))
    {m : ℕ} (hpos : 1 ≤ m) (hle : m ≤ slots) : Occupied policy.digits m (level m) := by
  rcases Nat.lt_or_ge 308 policy.digits with hmany | hfew
  · have hnone : level m = [] := by
      have hdigits : 309 ≤ (AdmissionRule.mk .arithmetic policy (vectors m)).policy.digits := hmany
      rw [hlevel m hpos hle]
      exact AdmissionRule.admissions_eq_nil (policy.validate_eq_ok_iff.mp hpolicy).1
        (AdmissionRule.keyUnder_eq_none hdigits) _
    exact ⟨iff_of_true hnone hmany, fun _ hfew => absurd hmany hfew.not_gt⟩
  · obtain ⟨more, rfl⟩ := Nat.exists_eq_succ_of_ne_zero (Nat.one_le_iff_ne_zero.mp hpos)
    have hhead := head?_level hpolicy hfew hbyte hvectors hlevel hle
    refine ⟨iff_of_false ?_ hfew.not_gt, ?_⟩
    · intro hnone
      rw [hnone] at hhead
      cases hhead
    · rintro hone -
      obtain rfl : more = 0 := by omega
      have hsublist := AdmissionRule.admissions_sublist ⟨.arithmetic, policy, vectors 1⟩
        (candidates .arithmetic level 1)
      rw [← hlevel 1 le_rfl hle] at hsublist
      exact hsublist.eq_of_length_le (List.length_pos_of_mem (List.mem_of_head? hhead))

/-- The vectors that are drawn are finite. -/
theorem finiteVectors_drawnRule (m : ℕ) (policy : Policy) (table : OperatorTable)
    (fresh : ChaCha.Key) :
    FiniteVectors policy m (NoveltyFilter.drawnRule m policy table fresh).vectors where
  count_eq := by simp [NoveltyFilter.drawnRule, ChaCha.vectors]
  length_eq := fun _ => NoveltyFilter.length_of_mem_drawnRule
  finite := fun _ hvector _ hvalue => (ChaCha.exact_of_mem_vectors hvector hvalue).1

/-- A run that succeeds has levels that are empty exactly from 309 places on. -/
theorem exists_level_occupied {entropy : Entropy} {request : Request} {levels : Levels}
    {warnings : List Warning} (hrequest : request.validate = .ok ())
    (hrun : levelsUpTo entropy request .arithmetic request.slots = (.ok levels, warnings)) {m : ℕ}
    (hpos : 1 ≤ m) (hle : m ≤ request.slots) :
    ∃ store formulas, levels[m - 1]? = some store ∧ store.toList = .ok formulas ∧
      Occupied request.policy.digits m formulas := by
  obtain ⟨⟨-, hslots⟩, hpolicy⟩ := Request.validate_eq_ok_iff.mp hrequest
  obtain ⟨-, hmade⟩ := made_of_levelsUpTo (hslots.trans (by decide)) hrun
  obtain ⟨⟨store, hstore, hholds, -⟩, -, -⟩ := hmade m hpos hle
  refine ⟨store, formulasAt levels m, hstore, hholds.toList_eq_ok, ?_⟩
  exact occupied_level hpolicy (hslots.trans (by decide))
    (fun size _ _ => finiteVectors_drawnRule size request.policy .arithmetic (entropy size))
    (fun size hsize hsmall => (hmade size hsize hsmall).eq_admissions) hpos hle

/-- There is a codec for every number of slots that can be asked for. -/
theorem exists_codec_arithmetic {slots : ℕ} (hpos : 1 ≤ slots) (hle : slots ≤ 11) :
    ∃ codec, Record.Codec.make .arithmetic slots = .ok codec := by
  have hlargest : ∃ codec, Record.Codec.make .arithmetic 11 = .ok codec :=
    Record.Codec.exists_make_iff.mpr ⟨by decide, by decide, by decide⟩
  exact Record.Codec.exists_make_of_le hlargest hpos hle

/-- Under the arithmetic operators and a valid policy, whichever finite vectors there are for each number
of slots, the levels that hold what is admitted are either all empty, if values are rounded to 309
places or more, or none of them is, and the first one is the slot alone. The same is true of the levels
of every run over one to eleven slots, and such a run succeeds if its finished set can be written. -/
theorem level_eq_nil_iff (policy : Policy) (hpolicy : policy.validate = .ok ()) :
    (∀ (slots : ℕ) (vectors : ℕ → List (List Float)) (level : ℕ → List Formula), slots ≤ 11 →
      (∀ m, 1 ≤ m → m ≤ slots → FiniteVectors policy m (vectors m)) →
      (∀ m, 1 ≤ m → m ≤ slots → level m =
        AdmissionRule.admissions ⟨.arithmetic, policy, vectors m⟩ (candidates .arithmetic level m)) →
      ∀ m, 1 ≤ m → m ≤ slots → (level m = [] ↔ 309 ≤ policy.digits) ∧
        (m = 1 → policy.digits ≤ 308 → level m = [Formula.operand])) ∧
    ∀ (entropy : Entropy) (request : Request), request.policy = policy →
      1 ≤ request.slots → request.slots ≤ 11 → WriteSucceeds entropy request .arithmetic →
      ∃ levels warnings, generateLevels entropy request .arithmetic = (.ok levels, warnings) ∧
        levels.length = request.slots ∧
        ∀ m, 1 ≤ m → m ≤ request.slots → ∃ store formulas, levels[m - 1]? = some store ∧
          store.toList = .ok formulas ∧ (formulas = [] ↔ 309 ≤ policy.digits) ∧
            (m = 1 → policy.digits ≤ 308 → formulas = [Formula.operand]) := by
  constructor
  · intro slots vectors level hslots hvectors hlevel m hpos hle
    exact occupied_level hpolicy (hslots.trans (by decide)) hvectors hlevel hpos hle
  · rintro entropy request rfl hpos hle hwrite
    have hrequest : request.validate = .ok () :=
      Request.validate_eq_ok_iff.mpr ⟨⟨hpos, hle⟩, hpolicy⟩
    obtain ⟨levels, warnings, hrun⟩ :=
      exists_levelsUpTo_slots hrequest (exists_codec_arithmetic hpos hle) hwrite
    obtain ⟨hlength, -⟩ := made_of_levelsUpTo (hle.trans (by decide)) hrun
    refine ⟨levels, warnings, ?_, hlength, fun m hm hsmall =>
      exists_level_occupied hrequest hrun hm hsmall⟩
    unfold generateLevels
    rw [hrequest]
    exact hrun

/-- Three slots in memory, rounded to five places: no level is empty. -/
theorem level_eq_nil_iff_threeSlots :
    let request : Request := { slots := 3, policy := { seed := some 7 } }
    let fresh : Entropy := fun _ => Vector.replicate 8 0
    ∃ levels warnings, generateLevels fresh request .arithmetic = (.ok levels, warnings) ∧
      ∀ m, 1 ≤ m → m ≤ 3 → ∃ store formulas, levels[m - 1]? = some store ∧
        store.toList = .ok formulas ∧ formulas ≠ [] := by
  intro request fresh
  obtain ⟨-, hruns⟩ := level_eq_nil_iff request.policy rfl
  have hwrite : WriteSucceeds fresh request .arithmetic := fun path directory hkind => nomatch hkind
  obtain ⟨levels, warnings, hrun, -, hlevels⟩ := hruns fresh request rfl (by decide) (by decide) hwrite
  refine ⟨levels, warnings, hrun, fun m hm hle => ?_⟩
  obtain ⟨store, formulas, hstore, hlist, hempty, -⟩ := hlevels m hm hle
  exact ⟨store, formulas, hstore, hlist, fun hnone => absurd (hempty.mp hnone) (by decide)⟩

/-- A policy that asks for 309 places is accepted, and then not even the slot alone is kept. -/
theorem exists_empty_level_of_manyPlaces :
    let request : Request := { slots := 1, policy := { digits := 309, seed := some 6 } }
    request.policy.validate = .ok () ∧
      ∀ entropy, ∃ levels warnings store,
        generateLevels entropy request .arithmetic = (.ok levels, warnings) ∧
          levels[0]? = some store ∧ store.toList = .ok [] := by
  intro request
  have hrequest : request.validate = .ok () := rfl
  refine ⟨rfl, fun entropy => ?_⟩
  have hwrite : WriteSucceeds entropy request .arithmetic :=
    fun path directory hkind => nomatch hkind
  obtain ⟨levels, warnings, hrun⟩ :=
    exists_levelsUpTo_slots hrequest (exists_codec_arithmetic le_rfl (by decide)) hwrite
  obtain ⟨store, formulas, hstore, hlist, hempty, -⟩ :=
    exists_level_occupied hrequest hrun le_rfl le_rfl
  obtain rfl : formulas = [] := hempty.mpr (by decide)
  exact ⟨levels, warnings, store, hrun, hstore, hlist⟩

end Generation

end Formulary
