import Formulary.Proofs.Search.Answers

/-!
# Searches in the order of the index

A search meets at every position of an index a formula whose value matches the target, a formula whose
value does not, or an error. The search for all solutions collects matches until there are as many as
are wanted, and ends with an error that comes before. The search for the first solution ends with what
comes first, a match or an error. So the first solution is the head of all solutions, an error of the
second search is one of the first, and where the second finds nothing the first does not either.

In the order of the index one worker takes up the positions. It files what it finds at once, so its
course comes down to a recursion that counts how many solutions are still wanted, and what it files is
sorted already.

Nothing is asked of the index: its formulas need not be readable, and they need not have values.
-/

namespace Formulary.Search

section Meeting

variable {β : Type} (index : Index β) (config : SearchConfig) (values : List Float)

/-- The formula at a position cannot be read, or it has no value. -/
def Fails (position : ℕ) (error : SearchError) : Prop :=
  (∃ reason, index.get position = .error reason ∧ error = .store reason) ∨
    ∃ f reason, index.get position = .ok f ∧
      f.evaluate index.table values config.digits = .error reason ∧ error = .formula reason

/-- The formula at a position has a value that is within the tolerance of the target. -/
def Matches (target : Float) (position : ℕ) (solution : Solution) : Prop :=
  ∃ f value, index.get position = .ok f ∧
    f.evaluate index.table values config.digits = .ok value ∧
    isWithin config.tolerance value target = true ∧
    solution = ⟨position, f, values, target, value, index.table⟩

/-- The formula at a position has a value that is not within the tolerance of the target. -/
def Misses (target : Float) (position : ℕ) : Prop :=
  ∃ f value, index.get position = .ok f ∧
    f.evaluate index.table values config.digits = .ok value ∧
    isWithin config.tolerance value target = false

variable {index config values} {target : Float} {position : ℕ}

/-- A value is read off a formula, and compared. -/
theorem solutionAt_of_value {f : Formula} {value : Float} (hget : index.get position = .ok f)
    (hvalue : f.evaluate index.table values config.digits = .ok value) :
    solutionAt index config values target position =
      .ok (if isWithin config.tolerance value target then
        some ⟨position, f, values, target, value, index.table⟩ else none) := by
  simp only [solutionAt, valueAt, hget, hvalue, Except.mapError, bind, Except.bind, pure, Except.pure]

/-- Every position is one of the three kinds, and the probe tells which. -/
theorem solutionAt_cases (index : Index β) (config : SearchConfig) (values : List Float)
    (target : Float) (position : ℕ) :
    (∃ error, Fails index config values position error ∧
      solutionAt index config values target position = .error error) ∨
    (∃ solution, Matches index config values target position solution ∧
      solutionAt index config values target position = .ok (some solution)) ∨
    (Misses index config values target position ∧
      solutionAt index config values target position = .ok none) := by
  cases hget : index.get position with
  | error reason =>
    refine Or.inl ⟨.store reason, Or.inl ⟨reason, hget, rfl⟩, ?_⟩
    simp only [solutionAt, valueAt, hget, Except.mapError, bind, Except.bind]
  | ok f =>
    cases hvalue : f.evaluate index.table values config.digits with
    | error reason =>
      refine Or.inl ⟨.formula reason, Or.inr ⟨f, reason, hget, hvalue, rfl⟩, ?_⟩
      simp only [solutionAt, valueAt, hget, hvalue, Except.mapError, bind, Except.bind]
    | ok value =>
      have hprobe : solutionAt index config values target position = _ :=
        solutionAt_of_value hget hvalue
      cases hwithin : isWithin config.tolerance value target with
      | true =>
        rw [hwithin] at hprobe
        exact Or.inr (Or.inl ⟨_, ⟨f, value, hget, hvalue, hwithin, rfl⟩, hprobe⟩)
      | false =>
        rw [hwithin] at hprobe
        exact Or.inr (Or.inr ⟨⟨f, value, hget, hvalue, hwithin⟩, hprobe⟩)

/-- The probe of a position fails with the error that is met there. -/
theorem solutionAt_eq_error_iff {error : SearchError} :
    solutionAt index config values target position = .error error ↔
      Fails index config values position error := by
  constructor
  · intro h
    rcases solutionAt_cases index config values target position with
      ⟨met, hmet, hprobe⟩ | ⟨solution, -, hprobe⟩ | ⟨-, hprobe⟩
    · rwa [Except.error.inj (h.symm.trans hprobe)]
    · cases h.symm.trans hprobe
    · cases h.symm.trans hprobe
  · rintro (⟨reason, hget, rfl⟩ | ⟨f, reason, hget, hvalue, rfl⟩)
    · simp only [solutionAt, valueAt, hget, Except.mapError, bind, Except.bind]
    · simp only [solutionAt, valueAt, hget, hvalue, Except.mapError, bind, Except.bind]

/-- The probe of a position gives the match that is met there. -/
theorem solutionAt_eq_some_iff {solution : Solution} :
    solutionAt index config values target position = .ok (some solution) ↔
      Matches index config values target position solution := by
  constructor
  · intro h
    rcases solutionAt_cases index config values target position with
      ⟨error, -, hprobe⟩ | ⟨met, hmet, hprobe⟩ | ⟨-, hprobe⟩
    · cases h.symm.trans hprobe
    · rwa [Option.some.inj (Except.ok.inj (h.symm.trans hprobe))]
    · cases h.symm.trans hprobe
  · rintro ⟨f, value, hget, hvalue, hwithin, rfl⟩
    rw [solutionAt_of_value hget hvalue, if_pos hwithin]

/-- The probe of a position gives nothing where the value does not match. -/
theorem solutionAt_eq_none_iff :
    solutionAt index config values target position = .ok none ↔
      Misses index config values target position := by
  constructor
  · intro h
    rcases solutionAt_cases index config values target position with
      ⟨error, -, hprobe⟩ | ⟨solution, -, hprobe⟩ | ⟨hmet, -⟩
    · cases h.symm.trans hprobe
    · cases h.symm.trans hprobe
    · exact hmet
  · rintro ⟨f, value, hget, hvalue, hwithin⟩
    rw [solutionAt_of_value hget hvalue, hwithin]
    rfl

/-- A position at which nothing fails is one whose probe succeeds. -/
theorem exists_solutionAt_iff :
    (∃ found, solutionAt index config values target position = .ok found) ↔
      ¬ ∃ error, Fails index config values position error := by
  constructor
  · rintro ⟨found, hprobe⟩ ⟨error, herror⟩
    cases hprobe.symm.trans (solutionAt_eq_error_iff.mpr herror)
  · intro h
    cases hprobe : solutionAt index config values target position with
    | error error => exact absurd ⟨error, solutionAt_eq_error_iff.mp hprobe⟩ h
    | ok found => exact ⟨found, rfl⟩

end Meeting

section Scanning

/-- Collect what a probe finds at positions in order, up to a limit. The solutions found so far
are kept in reverse. Once the limit is reached no further position is probed. -/
def collect (probe : ℕ → Except SearchError (Option Solution)) (found : List Solution) :
    (limit : ℕ) → List ℕ → Except SearchError (List Solution)
  | 0, _ => .ok found.reverse
  | _, [] => .ok found.reverse
  | limit + 1, position :: rest =>
    match probe position with
    | .error error => .error error
    | .ok none => collect probe found (limit + 1) rest
    | .ok (some solution) => collect probe (solution :: found) limit rest

variable {probe : ℕ → Except SearchError (Option Solution)} {positions done rest : List ℕ}
  {found : List Solution} {position : ℕ} {error : SearchError}

/-- When there are enough solutions, a worker that is alone leaves everything as it is. -/
theorem foldlM_visits_of_full (probe : ℕ → Except SearchError (Option Solution)) (limit : ℕ)
    (filed : List Solution) (positions : List ℕ) :
    (visits positions).foldlM (Progress.step probe limit) ⟨[], filed, true⟩ =
      .ok ⟨[], filed, true⟩ := by
  induction positions with
  | nil => rfl
  | cons position rest ih => exact ih

/-- A worker that is alone collects what it finds. -/
theorem foldlM_visits (probe : ℕ → Except SearchError (Option Solution)) {limit wanted : ℕ}
    {filed : List Solution} (hlimit : filed.length + wanted = limit) (positions : List ℕ) :
    (visits positions).foldlM (Progress.step probe limit) ⟨[], filed, wanted == 0⟩ =
      (collect probe filed.reverse wanted positions).map
        fun solutions => ⟨[], solutions, solutions.length == limit⟩ := by
  induction positions generalizing filed wanted with
  | nil =>
    cases wanted <;> simp [collect, Except.map, pure, Except.pure, ← hlimit]
  | cons position rest ih =>
    cases wanted with
    | zero =>
      rw [collect, beq_self_eq_true, foldlM_visits_of_full]
      simp [Except.map, ← hlimit]
    | succ more =>
      have hopen : (more + 1 == 0) = false := rfl
      rw [collect, visits_cons, List.foldlM_cons, Progress.step, Progress.take, hopen]
      rcases hprobe : probe position with error | _ | solution
      · rfl
      · exact ih hlimit
      · have hlt : filed.length < limit := by omega
        have hfull : decide (limit ≤ (filed ++ [solution]).length) = (more == 0) := by
          rw [Bool.eq_iff_iff, decide_eq_true_eq, beq_iff_eq, List.length_append,
            List.length_singleton]
          omega
        have hnext : Progress.file limit ⟨[(position, solution)], filed, false⟩ position =
            ⟨[], filed ++ [solution], more == 0⟩ := by
          rw [← hfull]
          simp [Progress.file, hlt]
        have hmore : (filed ++ [solution]).length + more = limit := by
          simp only [List.length_append, List.length_singleton]
          omega
        have hrest := ih hmore
        rw [List.reverse_append] at hrest
        simp only [Bool.false_eq_true, if_false, bind, Except.bind, List.foldlM_cons, Progress.step,
          hnext]
        exact hrest

/-- Positions at which no probe fails, with the solutions there in order. -/
structure Clear (probe : ℕ → Except SearchError (Option Solution)) (positions : List ℕ)
    (found : List Solution) : Prop where
  succeeds : ∀ position ∈ positions, ∃ answer, probe position = .ok answer
  found_eq : found = positions.filterMap (foundBy probe)

/-- A probe that succeeds adds what it finds at the end. -/
theorem Clear.append_singleton {answer : Option Solution} (h : Clear probe positions found)
    (hprobe : probe position = .ok answer) :
    Clear probe (positions ++ [position]) (found ++ answer.toList) := by
  have hfound : foundBy probe position = answer := by
    rw [foundBy, hprobe]
    rfl
  refine ⟨fun other hother => ?_, ?_⟩
  · rcases List.mem_append.mp hother with hother | hother
    · exact h.succeeds other hother
    · exact ⟨answer, List.mem_singleton.mp hother ▸ hprobe⟩
  · cases answer with
    | none => simp [h.found_eq, hfound]
    | some solution => simp [h.found_eq, hfound]

/-- Positions that are clear only add to what was found before. -/
theorem Clear.collect_append (h : Clear probe done found) (before : List Solution) {limit : ℕ}
    (hlimit : found.length ≤ limit) :
    collect probe before limit (done ++ rest) =
      collect probe (found.reverse ++ before) (limit - found.length) rest := by
  obtain ⟨hsucceeds, rfl⟩ := h
  induction done generalizing before limit with
  | nil => rfl
  | cons position done ih =>
    obtain ⟨⟨answer, hprobe⟩, hdone⟩ := List.forall_mem_cons.mp hsucceeds
    have hfound : foundBy probe position = answer := by
      rw [foundBy, hprobe]
      rfl
    cases answer with
    | none =>
      rw [List.filterMap_cons_none hfound] at hlimit ⊢
      rw [← ih before hdone hlimit]
      cases limit with
      | zero => simp only [collect]
      | succ limit => rw [List.cons_append, collect, hprobe]
    | some solution =>
      rw [List.filterMap_cons_some hfound, List.length_cons] at hlimit ⊢
      obtain ⟨limit, rfl⟩ := Nat.exists_eq_add_one_of_ne_zero (Nat.ne_zero_of_lt hlimit)
      rw [List.cons_append, collect, hprobe]
      simp [ih (solution :: before) hdone (Nat.le_of_succ_le_succ hlimit)]

/-- Collecting ends as soon as there are as many solutions as are wanted, or at the end. -/
theorem Clear.collect_eq_ok (h : Clear probe done found) {limit : ℕ}
    (hend : found.length = limit ∨ rest = [] ∧ found.length < limit) :
    collect probe [] limit (done ++ rest) = .ok found := by
  rw [h.collect_append [] (by omega), List.append_nil]
  rcases hend with rfl | ⟨rfl, hlt⟩
  · rw [Nat.sub_self, collect, List.reverse_reverse]
  · cases limit - found.length with
    | zero => rw [collect, List.reverse_reverse]
    | succ more => rw [collect, List.reverse_reverse]; simp

/-- Collecting ends with an error that comes before that. -/
theorem Clear.collect_eq_error (h : Clear probe done found) (hprobe : probe position = .error error)
    {limit : ℕ} (hlimit : found.length < limit) :
    collect probe [] limit (done ++ position :: rest) = .error error := by
  obtain ⟨more, hmore⟩ := Nat.exists_eq_add_one_of_ne_zero (Nat.sub_ne_zero_of_lt hlimit)
  rw [h.collect_append [] (Nat.le_of_lt hlimit), hmore, collect, hprobe]

/-- There is always such an end. -/
theorem exists_end (probe : ℕ → Except SearchError (Option Solution)) (limit : ℕ)
    (positions : List ℕ) :
    (∃ done rest found, positions = done ++ rest ∧ Clear probe done found ∧
      (found.length = limit ∨ rest = [] ∧ found.length < limit)) ∨
    ∃ done position rest found error, positions = done ++ position :: rest ∧
      Clear probe done found ∧ probe position = .error error ∧ found.length < limit := by
  induction positions using List.reverseRecOn with
  | nil =>
    refine Or.inl ⟨[], [], [], rfl, ⟨by simp, rfl⟩, ?_⟩
    rcases Nat.eq_zero_or_pos limit with rfl | hpos
    · exact Or.inl rfl
    · exact Or.inr ⟨rfl, hpos⟩
  | append_singleton positions position ih =>
    rcases ih with ⟨done, rest, found, rfl, hclear, hfull | ⟨rfl, hmore⟩⟩ |
      ⟨done, failing, rest, found, error, rfl, hclear, hprobe, hlimit⟩
    · exact Or.inl ⟨done, rest ++ [position], found, by simp, hclear, Or.inl hfull⟩
    · cases hprobe : probe position with
      | error error =>
        exact Or.inr ⟨done, position, [], found, error, by simp, hclear, hprobe, hmore⟩
      | ok answer =>
        refine Or.inl ⟨done ++ [position], [], found ++ answer.toList, by simp,
          hclear.append_singleton hprobe, ?_⟩
        have hone : answer.toList.length ≤ 1 := by cases answer <;> simp
        rw [List.length_append]
        exact (Nat.lt_or_ge (found.length + answer.toList.length) limit).elim
          (fun hlt => Or.inr ⟨rfl, hlt⟩) (fun hge => Or.inl (by omega))
    · exact Or.inr ⟨done, failing, rest ++ [position], found, error, by simp, hclear, hprobe, hlimit⟩

/-- What is collected are the solutions at positions that are clear. -/
theorem collect_eq_ok_iff {limit : ℕ} {solutions : List Solution} :
    collect probe [] limit positions = .ok solutions ↔
      ∃ done rest, positions = done ++ rest ∧ Clear probe done solutions ∧
        (solutions.length = limit ∨ rest = [] ∧ solutions.length < limit) := by
  constructor
  · intro h
    rcases exists_end probe limit positions with ⟨done, rest, found, rfl, hclear, hend⟩ |
      ⟨done, position, rest, found, error, rfl, hclear, hprobe, hlimit⟩
    · obtain rfl := Except.ok.inj (h.symm.trans (hclear.collect_eq_ok hend))
      exact ⟨done, rest, rfl, hclear, hend⟩
    · cases h.symm.trans (hclear.collect_eq_error hprobe hlimit)
  · rintro ⟨done, rest, rfl, hclear, hend⟩
    exact hclear.collect_eq_ok hend

/-- Collecting fails with the first error, if fewer solutions come before it than are wanted. -/
theorem collect_eq_error_iff {limit : ℕ} :
    collect probe [] limit positions = .error error ↔
      ∃ done position rest found, positions = done ++ position :: rest ∧ Clear probe done found ∧
        probe position = .error error ∧ found.length < limit := by
  constructor
  · intro h
    rcases exists_end probe limit positions with ⟨done, rest, found, rfl, hclear, hend⟩ |
      ⟨done, position, rest, found, met, rfl, hclear, hprobe, hlimit⟩
    · cases h.symm.trans (hclear.collect_eq_ok hend)
    · obtain rfl := Except.error.inj (h.symm.trans (hclear.collect_eq_error hprobe hlimit))
      exact ⟨done, position, rest, found, rfl, hclear, hprobe, hlimit⟩
  · rintro ⟨done, position, rest, found, rfl, hclear, hprobe, hlimit⟩
    exact hclear.collect_eq_error hprobe hlimit

/-- Nothing is found first exactly where nothing is found at all. -/
theorem firstOf_eq_none_iff :
    firstOf probe positions = .ok none ↔ ∀ position ∈ positions, probe position = .ok none := by
  induction positions with
  | nil => simp [firstOf]
  | cons position rest ih =>
    rw [firstOf, List.forall_mem_cons, ← ih]
    rcases probe position with error | _ | solution
    · simp
    · simp
    · simp

/-- What is found first, a solution or an error, is the outcome of a probe before which nothing is
found. -/
theorem firstOf_eq_iff {outcome : Except SearchError (Option Solution)} (h : outcome ≠ .ok none) :
    firstOf probe positions = outcome ↔ ∃ done position rest, positions = done ++ position :: rest ∧
      (∀ earlier ∈ done, probe earlier = .ok none) ∧ probe position = outcome := by
  induction positions with
  | nil => simpa [firstOf] using h.symm
  | cons first others ih =>
    have hcases : (∃ done position rest, first :: others = done ++ position :: rest ∧
        (∀ earlier ∈ done, probe earlier = .ok none) ∧ probe position = outcome) ↔
        probe first = outcome ∨ probe first = .ok none ∧
          ∃ done position rest, others = done ++ position :: rest ∧
            (∀ earlier ∈ done, probe earlier = .ok none) ∧ probe position = outcome := by
      constructor
      · rintro ⟨done, position, rest, hsplit, hdone, hprobe⟩
        cases done with
        | nil =>
          obtain ⟨rfl, rfl⟩ := List.cons.inj hsplit
          exact Or.inl hprobe
        | cons _ done =>
          obtain ⟨rfl, rfl⟩ := List.cons.inj hsplit
          obtain ⟨hfirst, hdone⟩ := List.forall_mem_cons.mp hdone
          exact Or.inr ⟨hfirst, done, position, rest, rfl, hdone, hprobe⟩
      · rintro (hprobe | ⟨hfirst, done, position, rest, rfl, hdone, hprobe⟩)
        · exact ⟨[], first, others, rfl, by simp, hprobe⟩
        · exact ⟨first :: done, position, rest, rfl, List.forall_mem_cons.mpr ⟨hfirst, hdone⟩, hprobe⟩
    rw [hcases, ← ih, firstOf]
    rcases hprobe : probe first with error | _ | solution
    · simp
    · simpa using fun heq => absurd heq.symm h
    · simp

/-- Positions at which nothing is found are clear. -/
theorem clear_nil_of_none (h : ∀ position ∈ positions, probe position = .ok none) :
    Clear probe positions [] := by
  refine ⟨fun position hposition => ⟨none, h position hposition⟩, ?_⟩
  refine (List.filterMap_eq_nil_iff.mpr fun position hposition => ?_).symm
  rw [foundBy, h position hposition]
  rfl

/-- What is found first among positions that are clear is the first of what is found there. -/
theorem Clear.firstOf_append (h : Clear probe done found) :
    firstOf probe (done ++ rest) =
      if found.isEmpty then firstOf probe rest else .ok found.head? := by
  obtain ⟨hsucceeds, rfl⟩ := h
  induction done with
  | nil => rfl
  | cons position done ih =>
    obtain ⟨⟨answer, hprobe⟩, hdone⟩ := List.forall_mem_cons.mp hsucceeds
    have hfound : foundBy probe position = answer := by
      rw [foundBy, hprobe]
      rfl
    rw [List.cons_append, firstOf, hprobe]
    cases answer with
    | none => rw [List.filterMap_cons_none hfound, ← ih hdone]
    | some solution => rw [List.filterMap_cons_some hfound]; rfl

/-- If all solutions can be collected, the first of them is what is found first. -/
theorem firstOf_of_collect {limit : ℕ} (hpos : 1 ≤ limit) {solutions : List Solution}
    (h : collect probe [] limit positions = .ok solutions) :
    firstOf probe positions = .ok solutions.head? := by
  obtain ⟨done, rest, rfl, hclear, hend⟩ := collect_eq_ok_iff.mp h
  rw [hclear.firstOf_append]
  cases solutions with
  | nil =>
    rcases hend with hfull | ⟨rfl, -⟩
    · rw [List.length_nil] at hfull
      omega
    · rfl
  | cons first others => rfl

/-- An error that comes before every solution ends both searches. -/
theorem collect_of_firstOf_eq_error {limit : ℕ} (hpos : 1 ≤ limit)
    (h : firstOf probe positions = .error error) : collect probe [] limit positions = .error error := by
  have hne : Except.error error ≠ Except.ok (none : Option Solution) := by simp
  obtain ⟨done, position, rest, rfl, hdone, hprobe⟩ := (firstOf_eq_iff hne).mp h
  exact (clear_nil_of_none hdone).collect_eq_error hprobe hpos

/-- Where nothing is found first, nothing is collected. -/
theorem collect_of_firstOf_eq_none (limit : ℕ) (h : firstOf probe positions = .ok none) :
    collect probe [] limit positions = .ok [] := by
  have hclear := clear_nil_of_none (firstOf_eq_none_iff.mp h)
  rw [← List.append_nil positions]
  exact hclear.collect_eq_ok ((Nat.eq_zero_or_pos limit).imp (fun hzero => hzero.symm)
    fun hpos => ⟨rfl, hpos⟩)

/-- Positions in a row are those below a number and those from it on. -/
theorem range_eq_append {count length : ℕ} (h : count ≤ length) :
    List.range length = List.range count ++ List.range' count (length - count) := by
  have hjoin := List.range'_append_1 (s := 0) (m := count) (n := length - count)
  rw [Nat.zero_add, Nat.add_sub_cancel' h] at hjoin
  rw [List.range_eq_range', List.range_eq_range', hjoin]

/-- They are cut in two in no other way. -/
theorem of_range_eq_append {length : ℕ} (h : List.range length = done ++ rest) :
    ∃ count ≤ length, done = List.range count ∧ rest = List.range' count (length - count) := by
  have hle : done.length ≤ length := by
    have hlength := congrArg List.length h
    rw [List.length_range, List.length_append] at hlength
    omega
  obtain ⟨hdone, hrest⟩ := List.append_inj (h.symm.trans (range_eq_append hle)) (by simp)
  exact ⟨done.length, hle, hdone, hrest⟩

/-- The position behind those below it is its own number. -/
theorem of_range_eq_append_cons {length : ℕ} (h : List.range length = done ++ position :: rest) :
    position < length ∧ done = List.range position := by
  obtain ⟨count, -, rfl, hrest⟩ := of_range_eq_append h
  cases hleft : length - count with
  | zero => simp [hleft] at hrest
  | succ left =>
    rw [hleft, List.range'_succ] at hrest
    obtain ⟨rfl, -⟩ := List.cons.inj hrest
    exact ⟨by omega, rfl⟩

/-- A position is behind those below it. -/
theorem exists_range_eq_append_cons {length : ℕ} (h : position < length) :
    ∃ rest, List.range length = List.range position ++ position :: rest := by
  obtain ⟨left, hleft⟩ := Nat.exists_eq_add_one_of_ne_zero (Nat.sub_ne_zero_of_lt h)
  exact ⟨List.range' (position + 1) left, by
    rw [range_eq_append (Nat.le_of_lt h), hleft, List.range'_succ]⟩

end Scanning

section Ordered

variable {β : Type} {index : Index β} {config : SearchConfig} {values : List Float} {target : Float}

/-- The matches at the positions below a number, in index order. -/
structure MatchesBelow (index : Index β) (config : SearchConfig) (values : List Float)
    (target : Float) (count : ℕ) (solutions : List Solution) : Prop where
  ordered : solutions.Pairwise fun first second => first.position < second.position
  mem_iff : ∀ solution, solution ∈ solutions ↔
    ∃ position < count, Matches index config values target position solution

/-- A match is at its own position. -/
theorem Matches.position_eq {position : ℕ} {solution : Solution}
    (h : Matches index config values target position solution) : solution.position = position := by
  obtain ⟨f, value, -, -, -, rfl⟩ := h
  rfl

/-- What is found at a position is the match there. -/
theorem foundBy_eq_some_iff {position : ℕ} {solution : Solution} :
    foundBy (solutionAt index config values target) position = some solution ↔
      Matches index config values target position solution := by
  rw [← solutionAt_eq_some_iff, foundBy]
  rcases solutionAt index config values target position with error | _ | met
  · simp [Except.toOption]
  · simp [Except.toOption]
  · simp [Except.toOption]

/-- What is found below a number are the matches there. -/
theorem matchesBelow_found (index : Index β) (config : SearchConfig) (values : List Float)
    (target : Float) (count : ℕ) : MatchesBelow index config values target count
      ((List.range count).filterMap (foundBy (solutionAt index config values target))) := by
  refine ⟨?_, fun solution => ?_⟩
  · rw [List.pairwise_filterMap]
    refine List.pairwise_lt_range.imp fun hlt first hfirst second hsecond => ?_
    rwa [(foundBy_eq_some_iff.mp hfirst).position_eq, (foundBy_eq_some_iff.mp hsecond).position_eq]
  · simp only [List.mem_filterMap, List.mem_range, foundBy_eq_some_iff]

/-- There is one list of the matches below a number. -/
theorem MatchesBelow.unique {count : ℕ} {solutions others : List Solution}
    (h : MatchesBelow index config values target count solutions)
    (hothers : MatchesBelow index config values target count others) : solutions = others := by
  have hne {a b : Solution} (hlt : a.position < b.position) : a ≠ b :=
    fun heq => Nat.ne_of_lt hlt (congrArg Solution.position heq)
  have hperm : solutions.Perm others :=
    (List.perm_ext_iff_of_nodup (h.ordered.imp hne) (hothers.ordered.imp hne)).mpr fun solution =>
      (h.mem_iff solution).trans (hothers.mem_iff solution).symm
  exact hperm.eq_of_pairwise (fun a b _ _ hab hba => absurd hab (Nat.lt_asymm hba)) h.ordered
    hothers.ordered

/-- Positions below a number are clear if nothing fails there, and what is found are the matches. -/
theorem clear_range_iff {count : ℕ} {solutions : List Solution} :
    Clear (solutionAt index config values target) (List.range count) solutions ↔
      (∀ position < count, ¬ ∃ error, Fails index config values position error) ∧
        MatchesBelow index config values target count solutions := by
  have hfound := matchesBelow_found index config values target count
  have hsucceeds : (∀ position ∈ List.range count,
      ∃ answer, solutionAt index config values target position = .ok answer) ↔
      ∀ position < count, ¬ ∃ error, Fails index config values position error := by
    simp only [List.mem_range, exists_solutionAt_iff]
  constructor
  · rintro ⟨hclear, rfl⟩
    exact ⟨hsucceeds.mp hclear, hfound⟩
  · rintro ⟨hclear, hmatches⟩
    exact ⟨hsucceeds.mpr hclear, hmatches.unique hfound⟩

/-- All solutions are the first matches in index order. -/
structure FindsAll (index : Index β) (config : SearchConfig) (values : List Float) (target : Float) :
    Prop where
  /-- There are as many as are wanted, or all that there are, if no error comes before the last of
  them. -/
  eq_ok_iff : ∀ solutions, findAll index config values target = .ok solutions ↔
    ∃ count ≤ index.length,
      (∀ position < count, ¬ ∃ error, Fails index config values position error) ∧
      MatchesBelow index config values target count solutions ∧
      (solutions.length = config.maxSolutions ∨
        count = index.length ∧ solutions.length < config.maxSolutions)
  /-- Otherwise there is the first error. -/
  eq_error_iff : ∀ error, findAll index config values target = .error error ↔
    ∃ position < index.length,
      (∀ earlier < position, ¬ ∃ error, Fails index config values earlier error) ∧
      Fails index config values position error ∧
      ∃ found, MatchesBelow index config values target position found ∧
        found.length < config.maxSolutions
  /-- If none is wanted, nothing is met at all. -/
  of_noneWanted : config.maxSolutions = 0 → findAll index config values target = .ok []

/-- The first solution is the first match in index order, unless an error comes before it. -/
structure FindsFirst (index : Index β) (config : SearchConfig) (values : List Float)
    (target : Float) : Prop where
  eq_some_iff : ∀ solution, findFirst index config values target = .ok (some solution) ↔
    ∃ position < index.length,
      (∀ earlier < position, Misses index config values target earlier) ∧
      Matches index config values target position solution
  eq_error_iff : ∀ error, findFirst index config values target = .error error ↔
    ∃ position < index.length,
      (∀ earlier < position, Misses index config values target earlier) ∧
      Fails index config values position error
  eq_none_iff : findFirst index config values target = .ok none ↔
    ∀ position < index.length, Misses index config values target position

section Valid

variable (hvalues : validateValues values index.slots = .ok ()) (htarget : target.isFinite = true)

include hvalues htarget

/-- In the order of the index all solutions are collected. -/
theorem findAll_eq_collect : findAll index config values target =
    collect (solutionAt index config values target) [] config.maxSolutions
      (List.range index.length) := by
  have hwanted : ([] : List Solution).length + config.maxSolutions = config.maxSolutions :=
    Nat.zero_add config.maxSolutions
  have hrun := foldlM_visits (solutionAt index config values target) hwanted
    (List.range index.length)
  have hsearch : findAll index config values target =
      (collect (solutionAt index config values target) [] config.maxSolutions
        (List.range index.length)).map sortByPosition := by
    rw [findAll, findAllBy, checkInputs_eq hvalues, if_pos htarget]
    simp only [bind, Except.bind, Schedule.inOrder, Progress.start]
    rw [hrun, List.reverse_nil]
    cases collect (solutionAt index config values target) [] config.maxSolutions
      (List.range index.length) <;> rfl
  rw [hsearch]
  cases hcollect : collect (solutionAt index config values target) [] config.maxSolutions
      (List.range index.length) with
  | error error => rfl
  | ok solutions =>
    obtain ⟨done, rest, hsplit, hclear, -⟩ := collect_eq_ok_iff.mp hcollect
    obtain ⟨count, -, rfl, -⟩ := of_range_eq_append hsplit
    exact congrArg Except.ok
      (sortByPosition_eq (List.Perm.refl solutions) (clear_range_iff.mp hclear).2.ordered)

/-- The search for the first solution takes the positions in the order of the index. -/
theorem findFirst_eq_firstOf : findFirst index config values target =
    firstOf (solutionAt index config values target) (List.range index.length) := by
  rw [findFirst, checkInputs_eq hvalues, if_pos htarget]
  rfl

/-- All solutions are the matches at the first positions, none of which fails. There are as many as
are wanted, or the index ends before. -/
theorem findAll_eq_ok_iff {solutions : List Solution} :
    findAll index config values target = .ok solutions ↔ ∃ count ≤ index.length,
      (∀ position < count, ¬ ∃ error, Fails index config values position error) ∧
      MatchesBelow index config values target count solutions ∧
      (solutions.length = config.maxSolutions ∨
        count = index.length ∧ solutions.length < config.maxSolutions) := by
  rw [findAll_eq_collect hvalues htarget, collect_eq_ok_iff]
  constructor
  · rintro ⟨done, rest, hsplit, hclear, hend⟩
    obtain ⟨count, hcount, rfl, rfl⟩ := of_range_eq_append hsplit
    obtain ⟨hfails, hmatches⟩ := clear_range_iff.mp hclear
    refine ⟨count, hcount, hfails, hmatches, hend.imp_right fun ⟨hrest, hlt⟩ => ⟨?_, hlt⟩⟩
    have hnone := List.range'_eq_nil_iff.mp hrest
    omega
  · rintro ⟨count, hcount, hfails, hmatches, hend⟩
    refine ⟨_, _, range_eq_append hcount, clear_range_iff.mpr ⟨hfails, hmatches⟩,
      hend.imp_right fun ⟨heq, hlt⟩ => ⟨?_, hlt⟩⟩
    rw [heq, Nat.sub_self, List.range'_zero]

/-- The search for all solutions fails with the first error, if fewer matches come before it than are
wanted. -/
theorem findAll_eq_error_iff {error : SearchError} :
    findAll index config values target = .error error ↔ ∃ position < index.length,
      (∀ earlier < position, ¬ ∃ error, Fails index config values earlier error) ∧
      Fails index config values position error ∧
      ∃ found, MatchesBelow index config values target position found ∧
        found.length < config.maxSolutions := by
  rw [findAll_eq_collect hvalues htarget, collect_eq_error_iff]
  constructor
  · rintro ⟨done, position, rest, found, hsplit, hclear, hprobe, hlimit⟩
    obtain ⟨hposition, rfl⟩ := of_range_eq_append_cons hsplit
    obtain ⟨hfails, hmatches⟩ := clear_range_iff.mp hclear
    exact ⟨position, hposition, hfails, solutionAt_eq_error_iff.mp hprobe, found, hmatches, hlimit⟩
  · rintro ⟨position, hposition, hfails, herror, found, hmatches, hlimit⟩
    obtain ⟨rest, hsplit⟩ := exists_range_eq_append_cons hposition
    exact ⟨_, position, rest, found, hsplit, clear_range_iff.mpr ⟨hfails, hmatches⟩,
      solutionAt_eq_error_iff.mpr herror, hlimit⟩

/-- The search for the first solution finds nothing exactly where no position has a match or an
error. -/
theorem findFirst_eq_none_iff : findFirst index config values target = .ok none ↔
    ∀ position < index.length, Misses index config values target position := by
  simp only [findFirst_eq_firstOf hvalues htarget, firstOf_eq_none_iff, List.mem_range,
    solutionAt_eq_none_iff]

/-- What the search for the first solution gives otherwise is what is met behind positions that have
neither a match nor an error. -/
theorem findFirst_eq_iff {outcome : Except SearchError (Option Solution)} (h : outcome ≠ .ok none) :
    findFirst index config values target = outcome ↔ ∃ position < index.length,
      (∀ earlier < position, Misses index config values target earlier) ∧
      solutionAt index config values target position = outcome := by
  rw [findFirst_eq_firstOf hvalues htarget, firstOf_eq_iff h]
  constructor
  · rintro ⟨done, position, rest, hsplit, hdone, hprobe⟩
    obtain ⟨hposition, rfl⟩ := of_range_eq_append_cons hsplit
    exact ⟨position, hposition,
      fun earlier hearlier => solutionAt_eq_none_iff.mp (hdone earlier (List.mem_range.mpr hearlier)),
      hprobe⟩
  · rintro ⟨position, hposition, hmisses, hprobe⟩
    obtain ⟨rest, hsplit⟩ := exists_range_eq_append_cons hposition
    exact ⟨_, position, rest, hsplit,
      fun earlier hearlier => solutionAt_eq_none_iff.mpr (hmisses earlier (List.mem_range.mp hearlier)),
      hprobe⟩

/-- Over valid values and a finite target all solutions are found in index order. -/
theorem findsAll : FindsAll index config values target := by
  refine ⟨fun _ => findAll_eq_ok_iff hvalues htarget, fun _ => findAll_eq_error_iff hvalues htarget,
    fun hzero => ?_⟩
  rw [findAll_eq_collect hvalues htarget, hzero, collect]
  rfl

/-- Over valid values and a finite target the first solution is found in index order. -/
theorem findsFirst : FindsFirst index config values target := by
  refine ⟨fun solution => ?_, fun error => ?_, findFirst_eq_none_iff hvalues htarget⟩
  · have hne : Except.ok (some solution) ≠ (.ok none : Except SearchError (Option Solution)) := by simp
    simp only [findFirst_eq_iff hvalues htarget hne, solutionAt_eq_some_iff]
  · have hne : Except.error error ≠ Except.ok (none : Option Solution) := by simp
    simp only [findFirst_eq_iff hvalues htarget hne, solutionAt_eq_error_iff]

/-- The two searches are one. All solutions are the first matches in index order, up to the number that
is wanted, if no error comes before the last of them, and otherwise there is the first error; if none
is wanted, nothing is met at all. The first solution is what comes first, unless an error does, and
there is none where neither comes. So the first solution is the head of all solutions, an error of the
search for it is one of the search for all, and if it finds nothing, all solutions are none. -/
theorem findAll_findFirst_ordered :
    FindsAll index config values target ∧ FindsFirst index config values target ∧
    (1 ≤ config.maxSolutions →
      (∀ solutions, findAll index config values target = .ok solutions →
        findFirst index config values target = .ok solutions.head?) ∧
      (∀ error, findFirst index config values target = .error error →
        findAll index config values target = .error error) ∧
      (findFirst index config values target = .ok none →
        findAll index config values target = .ok [])) := by
  refine ⟨findsAll hvalues htarget, findsFirst hvalues htarget, fun hpos => ?_⟩
  rw [findAll_eq_collect hvalues htarget, findFirst_eq_firstOf hvalues htarget]
  exact ⟨fun solutions => firstOf_of_collect hpos, fun error => collect_of_firstOf_eq_error hpos,
    collect_of_firstOf_eq_none config.maxSolutions⟩

end Valid

/-- Where a formula with an unknown code stands behind a match, one solution is found by either
search. -/
theorem findAll_findFirst_ordered_errorBehind :
    let sum (code : UInt8) : Formula := ⟨[0, 1], [code], [true, true, false]⟩
    let index : Index MemoryWords := ⟨.arithmetic, .memory ⟨2, #[sum 0, sum 9]⟩⟩
    let config : SearchConfig := { maxSolutions := 1 }
    ∃ solution, solution.position = 0 ∧ solution.value = 3 ∧
      findAll index config [1, 2] 3 = .ok [solution] ∧
      findFirst index config [1, 2] 3 = .ok (some solution) ∧
      Fails index config [1, 2] 1 (.formula (.operator (.unknownCode 9))) := by
  intro sum index config
  have hvalues : validateValues [1, 2] index.slots = .ok () :=
    validateValues_eq_ok_iff.mpr ⟨rfl, by decide +kernel⟩
  have htarget : (3 : Float).isFinite = true := by decide +kernel
  have hmatches : Matches index config [1, 2] 3 0 ⟨0, sum 0, [1, 2], 3, 3, .arithmetic⟩ :=
    ⟨sum 0, 3, rfl, by decide +kernel, by decide +kernel, rfl⟩
  have hfails : Fails index config [1, 2] 1 (.formula (.operator (.unknownCode 9))) :=
    Or.inr ⟨sum 9, _, rfl, by decide +kernel, rfl⟩
  have hprobe := solutionAt_eq_some_iff.mpr hmatches
  have hclear : Clear (solutionAt index config [1, 2] 3) (List.range 1)
      [⟨0, sum 0, [1, 2], 3, 3, .arithmetic⟩] :=
    ⟨by simpa using ⟨_, hprobe⟩, by simp [List.range_succ, foundBy, hprobe, Except.toOption]⟩
  obtain ⟨hnone, hbelow⟩ := clear_range_iff.mp hclear
  obtain ⟨hall, -, hagree⟩ := findAll_findFirst_ordered hvalues htarget
  have hfound := (hall.eq_ok_iff _).mpr ⟨1, by decide, hnone, hbelow, Or.inl rfl⟩
  exact ⟨_, rfl, rfl, hfound, (hagree (Nat.le_refl 1)).1 _ hfound, hfails⟩

end Ordered

end Formulary.Search
