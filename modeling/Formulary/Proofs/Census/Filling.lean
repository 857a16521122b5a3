import Formulary.Proofs.Census.GroupSizes

/-!
# Making the group sizes in one array

The lists of group sizes can be made one after the other in a single array, without keeping any of them.
The places are filled from the last one down. A place takes each size from the average of what is left
up to what leaves one for every place below, but none above the size at the next place, and every time
the first place is reached the list is complete and is visited.

Every operation is checked here: a place outside of the array, a difference below zero and a sum of
indices above twice the length of the array stop the filling. None of this happens. What is above the
current place stays as it is while the places below are filled, so the cap that is read there is the
cap of `sizesFrom`, and by induction on the place the lists that are visited are those of `groupSizes`
in the same order, each with its smallest size first.
-/

namespace Formulary.Census

variable {α σ τ : Type}

/-- A difference, unless it is below zero. -/
def minus? (a b : ℕ) : Option ℕ :=
  if b ≤ a then some (a - b) else none

/-- A sum, unless it is above a bound. -/
def plus? (bound a b : ℕ) : Option ℕ :=
  if a + b ≤ bound then some (a + b) else none

/-- The entries with another one at a place, if there is such a place. -/
def write? (entries : Array α) (place : ℕ) (entry : α) : Option (Array α) :=
  if place < entries.size then some (entries.setIfInBounds place entry) else none

/-- A difference that is not below zero is the usual one. -/
@[simp] theorem minus?_of_le {a b : ℕ} (h : b ≤ a) : minus? a b = some (a - b) :=
  if_pos h

/-- A sum up to the bound is the usual one. -/
@[simp] theorem plus?_of_le {bound a b : ℕ} (h : a + b ≤ bound) : plus? bound a b = some (a + b) :=
  if_pos h

/-- A place inside of an array is written. -/
@[simp] theorem write?_of_lt {entries : Array α} {place : ℕ} (entry : α) (h : place < entries.size) :
    write? entries place entry = some (entries.setIfInBounds place entry) :=
  if_pos h

/-- The places of all groups, if the array has as many. -/
def groupsOf? (sizes : Array ℕ) (groups : ℕ) : Option (Array ℕ) :=
  if groups ≤ sizes.size then some (sizes.extract 0 groups) else none

/-- The greatest size for a place: it leaves one for every place below, and is not above the size at
the next place. -/
def greatest? (sizes : Array ℕ) (groups current left : ℕ) : Option ℕ := do
  let room ← minus? left current
  let last ← minus? groups 1
  if current < last then
    let next ← sizes[current + 1]?
    pure (min room next)
  else
    pure room

/-- The least size for a place, so that none below has to be greater. -/
def least? (sizes : Array ℕ) (current left : ℕ) : Option ℕ := do
  let total ← plus? (2 * sizes.size) left current
  let places ← plus? (2 * sizes.size) current 1
  pure (total / places)

/-- Fill the places from `current` down to the first with sizes that sum up to `left`, in all ways
that go with the sizes above, and visit the sizes of all groups each time. -/
def fill (visit : Array ℕ → σ → Option σ) (groups : ℕ) :
    (current left : ℕ) → Array ℕ × σ → Option (Array ℕ × σ)
  | 0, left, (sizes, state) => do
    let sizes ← write? sizes 0 left
    let parts ← groupsOf? sizes groups
    let state ← visit parts state
    pure (sizes, state)
  | below + 1, left, (sizes, state) => do
    let most ← greatest? sizes groups (below + 1) left
    let least ← least? sizes (below + 1) left
    (List.range' least (most + 1 - least)).foldlM (fun (sizes, state) size => do
      let sizes ← write? sizes (below + 1) size
      let rest ← minus? left size
      fill visit groups below rest (sizes, state)) (sizes, state)

/-- Visit the sizes of at least two groups that sum up to `n`, for one number of groups after the
other. -/
def fillAll (visit : Array ℕ → σ → Option σ) (n : ℕ) (start : Array ℕ × σ) :
    Option (Array ℕ × σ) :=
  (List.range' 2 (n - 1)).foldlM (fun entries groups => do
    let last ← minus? groups 1
    fill visit groups last n entries) start

/-- A loop over the elements of several lists is a loop over these lists. -/
theorem foldlM_flatMap (step : σ → α → Option σ) (lists : τ → List α) (items : List τ) (start : σ) :
    (items.flatMap lists).foldlM step start =
      items.foldlM (fun state item => (lists item).foldlM step state) start := by
  induction items generalizing start with
  | nil => rfl
  | cons item items ih => simp only [List.flatMap_cons, List.foldlM_append, List.foldlM_cons, ih]

/-- Related outcomes are both missing, or there are related results. -/
theorem rel_cases {R : τ → σ → Prop} {x : Option τ} {y : Option σ} (h : Option.Rel R x y) :
    (x = none ∧ y = none) ∨ ∃ t s, x = some t ∧ y = some s ∧ R t s := by
  cases h with
  | some hR => exact .inr ⟨_, _, rfl, rfl, hR⟩
  | none => exact .inl ⟨rfl, rfl⟩

/-- Outcomes stay related when the relation asks for less. -/
theorem rel_mono {R S : τ → σ → Prop} {x : Option τ} {y : Option σ} (hRS : ∀ t s, R t s → S t s)
    (h : Option.Rel R x y) : Option.Rel S x y := by
  cases h with
  | some hR => exact .some (hRS _ _ hR)
  | none => exact .none

/-- Two loops over the same elements have related outcomes if their steps have. -/
theorem rel_foldlM {R : τ → σ → Prop} {step : τ → α → Option τ} {step' : σ → α → Option σ}
    {items : List α}
    (hstep : ∀ item ∈ items, ∀ t s, R t s → Option.Rel R (step t item) (step' s item))
    {t : τ} {s : σ} (hstart : R t s) :
    Option.Rel R (items.foldlM step t) (items.foldlM step' s) := by
  induction items generalizing t s with
  | nil => exact .some hstart
  | cons item items ih =>
    have hfirst := hstep item List.mem_cons_self t s hstart
    rw [List.foldlM_cons, List.foldlM_cons]
    obtain ⟨hx, hy⟩ | ⟨t', s', hx, hy, hnext⟩ := rel_cases hfirst
    · rw [hx, hy]
      exact .none
    · rw [hx, hy]
      exact ih (fun other hother => hstep other (List.mem_cons_of_mem item hother)) hnext

/-- Visit a list of sizes, whose first is the largest, in front of the sizes that stand above. -/
def visitWith (visit : Array ℕ → σ → Option σ) (above : List ℕ) (state : σ) (sizes : List ℕ) :
    Option σ :=
  visit (sizes.reverse ++ above).toArray state

/-- The first size of a list may as well stand above the others. -/
theorem visitWith_cons (visit : Array ℕ → σ → Option σ) (above : List ℕ) (state : σ) (size : ℕ)
    (sizes : List ℕ) :
    visitWith visit above state (size :: sizes) = visitWith visit (size :: above) state sizes := by
  simp [visitWith]

/-- The entries of an array of which some places are filled already. -/
def FilledAbove (places : ℕ) (above behind : List ℕ) (sizes : Array ℕ) : Prop :=
  ∃ front : List ℕ, front.length = places ∧ sizes = (front ++ above ++ behind).toArray

/-- What is at the place right above. -/
theorem FilledAbove.next_eq {places : ℕ} {above behind : List ℕ} {sizes : Array ℕ}
    (h : FilledAbove places above behind sizes) (habove : above ≠ []) :
    sizes[places]? = above.head? := by
  obtain ⟨front, rfl, rfl⟩ := h
  cases above with
  | nil => exact absurd rfl habove
  | cons next above => simp

/-- The last place that was open takes a size. -/
theorem FilledAbove.exists_write? {places : ℕ} {above behind : List ℕ} {sizes : Array ℕ}
    (h : FilledAbove (places + 1) above behind sizes) (size : ℕ) :
    ∃ sizes', write? sizes places size = some sizes' ∧
      FilledAbove places (size :: above) behind sizes' := by
  obtain ⟨front, hlength, rfl⟩ := h
  rcases List.eq_nil_or_concat front with rfl | ⟨before, last, rfl⟩
  · simp at hlength
  · obtain rfl : before.length = places := by simpa using hlength
    refine ⟨(before ++ (size :: above) ++ behind).toArray, ?_, before, rfl, rfl⟩
    rw [write?_of_lt _ (by simp)]
    simp

/-- The places of the array are those left to fill in, those filled in and those behind. -/
theorem FilledAbove.size_eq {places : ℕ} {above behind : List ℕ} {sizes : Array ℕ}
    (h : FilledAbove places above behind sizes) :
    sizes.size = places + above.length + behind.length := by
  obtain ⟨front, rfl, rfl⟩ := h
  simp [Nat.add_assoc]

/-- When no place is open any more, the groups have the sizes above. -/
theorem FilledAbove.groupsOf?_eq {above behind : List ℕ} {sizes : Array ℕ}
    (h : FilledAbove 0 above behind sizes) : groupsOf? sizes above.length = some above.toArray := by
  obtain ⟨front, hlength, rfl⟩ := h
  obtain rfl := List.length_eq_zero_iff.mp hlength
  simp [groupsOf?]

/-- A place whose size was set is open again. -/
theorem FilledAbove.reopen {places size : ℕ} {above behind : List ℕ} {sizes : Array ℕ}
    (h : FilledAbove places (size :: above) behind sizes) :
    FilledAbove (places + 1) above behind sizes := by
  obtain ⟨front, rfl, rfl⟩ := h
  exact ⟨front ++ [size], by simp, by simp⟩

/-- The greatest size for a place is the bound that `sizesFrom` has for it. -/
theorem FilledAbove.greatest?_eq {current left cap groups : ℕ} {above behind : List ℕ} {sizes : Array ℕ}
    (h : FilledAbove (current + 1) above behind sizes) (hgroups : groups = current + 1 + above.length)
    (hleft : current ≤ left) (hnext : ∀ next ∈ above.head?, next = cap) (hlast : above = [] → left ≤ cap) :
    greatest? sizes groups current left = some (min (left - current) cap) := by
  cases above with
  | nil =>
    have hcap := hlast rfl
    simp [greatest?, hgroups, hleft, show left - current ≤ cap by omega]
  | cons next above =>
    obtain rfl := hnext next rfl
    have hbelow : current < groups - 1 := by rw [hgroups, List.length_cons]; omega
    rw [greatest?, minus?_of_le hleft, minus?_of_le (by omega), h.next_eq (by simp)]
    simp [hbelow]

/-- The least size for a place is the average of what is left, rounded up. -/
theorem least?_eq {current left : ℕ} {sizes : Array ℕ} (hleft : left ≤ sizes.size)
    (hcurrent : current < sizes.size) :
    least? sizes current left = some ((left + current) / (current + 1)) := by
  rw [least?, plus?_of_le (by omega), plus?_of_le (by omega)]
  rfl

/-- Filling ends in a state, with an array of which some places are filled. -/
def EndsWith (places : ℕ) (above behind : List ℕ) (entries : Array ℕ × σ) (state : σ) : Prop :=
  FilledAbove places above behind entries.1 ∧ entries.2 = state

/-- The places are filled with the lists of `sizesFrom` in their order, and what is above and behind
them stays. -/
theorem rel_fill (visit : Array ℕ → σ → Option σ) {current left cap groups : ℕ}
    {above behind : List ℕ} {sizes : Array ℕ} (s : σ) (hgroups : groups = current + 1 + above.length)
    (hroom : current + 1 ≤ left) (hleft : left ≤ groups + behind.length)
    (hnext : ∀ next ∈ above.head?, next = cap) (hlast : above = [] → left ≤ cap)
    (hsizes : FilledAbove (current + 1) above behind sizes) :
    Option.Rel (EndsWith (current + 1) above behind) (fill visit groups current left (sizes, s))
      ((sizesFrom current left cap).foldlM (visitWith visit above) s) := by
  induction current generalizing left cap above sizes s with
  | zero =>
    obtain ⟨sizes', hwrite, hfull⟩ := hsizes.exists_write? left
    have hparts : groupsOf? sizes' groups = some (left :: above).toArray := by
      rw [hgroups, ← hfull.groupsOf?_eq, List.length_cons, Nat.zero_add, Nat.add_comm]
    have hvisit : (sizesFrom 0 left cap).foldlM (visitWith visit above) s =
        visit (left :: above).toArray s := by
      simp [sizesFrom, visitWith]
    simp only [hvisit, fill, hwrite, hparts, Option.bind_eq_bind, Option.bind_some]
    cases visit (left :: above).toArray s with
    | none => exact .none
    | some s' => exact .some ⟨hfull.reopen, rfl⟩
  | succ below ih =>
    have hsize := hsizes.size_eq
    have hmost := hsizes.greatest?_eq hgroups (by omega) hnext hlast
    have hleast : least? sizes (below + 1) left = _ := least?_eq (by omega) (by omega)
    simp only [sizesFrom, foldlM_flatMap, fill, hmost, hleast, Option.bind_eq_bind, Option.bind_some]
    -- the loop over the sizes for this place leaves the places above as they are
    refine rel_foldlM (fun size hsize entries s hentries => ?_) ⟨hsizes, rfl⟩
    obtain ⟨hopen, rfl⟩ := hentries
    obtain ⟨haverage, hrest, hcap⟩ := mem_firstSizes_iff.mp hsize
    obtain ⟨sizes', hwrite, hset⟩ := hopen.exists_write? size
    have hbelow : Option.Rel (EndsWith (below + 1) (size :: above) behind)
        (fill visit groups below (left - size) (sizes', entries.2))
        ((sizesFrom below (left - size) size).foldlM (visitWith visit (size :: above)) entries.2) :=
      ih entries.2 (by rw [hgroups, List.length_cons]; omega) (by omega) (by omega)
        (fun next hnext => (Option.mem_some.mp hnext).symm) (by simp) hset
    simp only [hwrite, minus?_of_le (show size ≤ left by omega), Option.bind_some, List.foldlM_map,
      visitWith_cons]
    exact rel_mono (fun _ _ hend => ⟨hend.1.reopen, hend.2⟩) hbelow

/-- At least two groups get the sizes of `groupSizes` in their order. -/
theorem rel_fillAll (visit : Array ℕ → σ → Option σ) {n : ℕ} {sizes : Array ℕ} (s : σ)
    (hsizes : n < sizes.size) :
    Option.Rel (fun entries state => entries.1.size = sizes.size ∧ entries.2 = state)
      (fillAll visit n (sizes, s)) ((groupSizes n).foldlM (visitWith visit []) s) := by
  rw [groupSizes, foldlM_flatMap]
  refine rel_foldlM (fun groups hgroups entries s hentries => ?_) ⟨rfl, rfl⟩
  obtain ⟨hsize, rfl⟩ := hentries
  rw [List.mem_range'_1] at hgroups
  have hplaces : groups = groups - 1 + 1 + ([] : List ℕ).length := by
    rw [List.length_nil]
    omega
  have hopen : FilledAbove (groups - 1 + 1) [] (entries.1.toList.drop groups) entries.1 := by
    refine ⟨entries.1.toList.take groups, ?_, by simp⟩
    rw [List.length_take, Array.length_toList]
    omega
  have hfill : Option.Rel (EndsWith (groups - 1 + 1) [] (entries.1.toList.drop groups))
      (fill visit groups (groups - 1) n entries)
      ((sizesFrom (groups - 1) n n).foldlM (visitWith visit []) entries.2) :=
    rel_fill visit entries.2 hplaces (by omega) (by simp; omega) (by simp) (fun _ => le_rfl) hopen
  rw [minus?_of_le (show 1 ≤ groups by omega), Option.bind_eq_bind, Option.bind_some]
  exact rel_mono (fun _ _ hend => ⟨by rw [hend.1.size_eq, ← hsize, hopen.size_eq], hend.2⟩) hfill

/-- The sizes of all groups as they stand in the array, with the smallest first. -/
def ascendingSizes (n : ℕ) : List (Array ℕ) :=
  (groupSizes n).map fun sizes => sizes.reverse.toArray

/-- Every list of at least two positive sizes in ascending order with the right sum. -/
theorem mem_ascendingSizes_iff {n : ℕ} {parts : Array ℕ} :
    parts ∈ ascendingSizes n ↔ 2 ≤ parts.size ∧ parts.toList.sum = n ∧
      (∀ part ∈ parts, 1 ≤ part) ∧ parts.toList.Pairwise (· ≤ ·) := by
  rw [ascendingSizes, List.mem_map]
  constructor
  · rintro ⟨sizes, hsizes, rfl⟩
    obtain ⟨hmany, hdecreasing⟩ := mem_groupSizes_iff.mp hsizes
    exact ⟨by simpa using hmany, by simpa using hdecreasing.sum_eq, by simpa using hdecreasing.pos,
      by simpa [List.pairwise_reverse] using hdecreasing.ordered⟩
  · rintro ⟨hmany, hsum, hpos, hordered⟩
    refine ⟨parts.toList.reverse, mem_groupSizes_iff.mpr ⟨by simpa using hmany, ?_⟩, by simp⟩
    exact ⟨by simpa using hsum, by simpa using hpos, by simpa [List.pairwise_reverse] using hordered⟩

/-- No list of sizes is made twice. -/
theorem nodup_ascendingSizes (n : ℕ) : (ascendingSizes n).Nodup :=
  (nodup_groupSizes n).map fun _ _ heq => by simpa using heq

/-- Whatever is done with the sizes of the groups, filling the array does it once with each list, and
with nothing else. -/
theorem fillAll_eq (visit : Array ℕ → σ → Option σ) {n : ℕ} {sizes : Array ℕ} (s : σ)
    (hsizes : n < sizes.size) :
    (fillAll visit n (sizes, s)).map Prod.snd =
      (ascendingSizes n).foldlM (fun state parts => visit parts state) s := by
  have hvisits : (ascendingSizes n).foldlM (fun state parts => visit parts state) s =
      (groupSizes n).foldlM (visitWith visit []) s := by
    rw [ascendingSizes, List.foldlM_map]
    congr
    funext state sizes
    simp [visitWith]
  rw [hvisits]
  obtain ⟨hx, hy⟩ | ⟨entries, state, hx, hy, -, rfl⟩ := rel_cases (rel_fillAll visit s hsizes)
  · rw [hx, hy, Option.map_none]
  · rw [hx, hy, Option.map_some]

end Formulary.Census
