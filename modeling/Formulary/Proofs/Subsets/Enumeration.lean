import Formulary.Proofs.Census.ExactDivision
import Formulary.Proofs.Subsets.InPlace

/-!
# All subsets, once each and in order

Walks through the subsets can be held side by side and copied at any time. Where each of them stands is
a number: a call of one walk counts its own number up, and a copy begins with the number of the walk it
is copied from. The answer to a call is the subset with that number, so by induction on the calls every
walk goes on from where it stands, whatever is done with the others in between, and gives nothing once
all subsets were given.

The number of subsets is computed by multiplying and dividing in turn. Here the products are kept below
a bound and a division must leave nothing: each product is the next binomial coefficient times its
divisor.
-/

namespace Formulary.Subsets

open Census (minus? minus?_of_le divide? divide?_mul)

/-- A call on sequences that are held side by side: one of them is asked for its next element, or is
copied. -/
inductive Call where
  | next (held : ℕ)
  | copy (held : ℕ)
deriving DecidableEq

section Calls

variable {α σ : Type}

/-- The answers to calls on sequences that are held side by side, each known by its place. A copy is held
behind all others, and where nothing is held a call does nothing. -/
def answers? (next? : σ → Option (Option α × σ)) : List σ → List Call → Option (List (Option α))
  | _, [] => some []
  | held, .next place :: calls =>
    match held[place]? with
    | none => answers? next? held calls
    | some s => do
      let (answer, s) ← next? s
      let answers ← answers? next? (held.set place s) calls
      pure (answer :: answers)
  | held, .copy place :: calls => answers? next? (held ++ held[place]?.toList) calls

/-- The answers to calls when each sequence is a list of which a number of elements were given. -/
def answersFrom (items : List α) : List ℕ → List Call → List (Option α)
  | _, [] => []
  | given, .next place :: calls =>
    match given[place]? with
    | none => answersFrom items given calls
    | some count => items[count]? :: answersFrom items (given.set place (count + 1)) calls
  | given, .copy place :: calls => answersFrom items (given ++ given[place]?.toList) calls

/-- If one call on a sequence gives the element with its number and counts it up, then so do calls on any
sequences that are held side by side. -/
theorem answers?_eq {next? : σ → Option (Option α × σ)} {items : List α} {At : σ → ℕ → Prop}
    (hstep : ∀ s count, At s count → ∃ s', next? s = some (items[count]?, s') ∧ At s' (count + 1))
    (held : List (σ × ℕ)) (hheld : ∀ entry ∈ held, At entry.1 entry.2) (calls : List Call) :
    answers? next? (held.map Prod.fst) calls =
      some (answersFrom items (held.map Prod.snd) calls) := by
  induction calls generalizing held with
  | nil => rfl
  | cons call calls ih =>
    cases call with
    | next place =>
      rw [answers?, answersFrom, List.getElem?_map, List.getElem?_map]
      cases hget : held[place]? with
      | none => exact ih held hheld
      | some entry =>
        obtain ⟨s', hnext, hat⟩ := hstep _ _ (hheld entry (List.mem_of_getElem? hget))
        have hset : ∀ other ∈ held.set place (s', entry.2 + 1), At other.1 other.2 := by
          intro other hother
          rcases List.mem_or_eq_of_mem_set hother with hold | rfl
          · exact hheld other hold
          · exact hat
        have hanswers := ih _ hset
        rw [List.map_set, List.map_set] at hanswers
        simp only [Option.map_some, hnext, Option.bind_eq_bind, Option.bind_some, hanswers]
        rfl
    | copy place =>
      have hcopied : ∀ other ∈ held ++ held[place]?.toList, At other.1 other.2 := by
        intro other hother
        rcases List.mem_append.mp hother with hold | hcopy
        · exact hheld other hold
        · exact hheld other (List.mem_of_getElem? (Option.mem_toList.mp hcopy))
      have hanswers := ih _ hcopied
      rw [List.map_append, List.map_append, ← Option.toList_map, ← Option.toList_map] at hanswers
      rw [answers?, answersFrom, List.getElem?_map, List.getElem?_map]
      exact hanswers

end Calls

section Walks

variable {total size : ℕ}

/-- Positions that are held side by side give the subsets with the numbers where they stand. -/
theorem answers?_position (htotal : total ≤ maxSubsetTotal) (calls : List Call) :
    answers? (fun s => some s.next) [position total size 0] calls =
      some (answersFrom (choices size (slotsBelow total)) [0] calls) := by
  have hstep (s : Subsets) (count : ℕ) (hat : s = position total size count) :
      ∃ s', some s.next = some ((choices size (slotsBelow total))[count]?, s') ∧
        s' = position total size (count + 1) := by
    rw [hat, next_position htotal]
    exact ⟨_, rfl, rfl⟩
  exact answers?_eq hstep [(position total size 0, 0)] (by simp) calls

/-- So do walks that are held side by side, without an overflow. -/
theorem Walk.StandsAt.answers?_eq {w : Walk} (h : w.StandsAt (position total size 0))
    (htotal : total ≤ maxSubsetTotal) (calls : List Call) :
    answers? Walk.next? [w] calls =
      some (answersFrom (choices size (slotsBelow total)) [0] calls) := by
  have hstep (w : Walk) (count : ℕ) (hat : w.StandsAt (position total size count)) :
      ∃ w', w.next? = some ((choices size (slotsBelow total))[count]?, w') ∧
        w'.StandsAt (position total size (count + 1)) := by
    have hnext := hat.exists_next?
    rwa [next_position htotal] at hnext
  exact Subsets.answers?_eq hstep [(w, 0)] (by simpa using h) calls

end Walks

/-- A product, unless it is above a bound. -/
def times? (bound a b : ℕ) : Option ℕ :=
  if a * b ≤ bound then some (a * b) else none

/-- A product up to the bound is the usual one. -/
@[simp] theorem times?_of_le {bound a b : ℕ} (h : a * b ≤ bound) : times? bound a b = some (a * b) :=
  if_pos h

/-- Multiply by the number of elements that are left and divide by the number of those chosen. -/
def chooseOneMore? (bound total count chosen : ℕ) : Option ℕ := do
  let left ← minus? total chosen
  let product ← times? bound count left
  divide? product (chosen + 1)

/-- The number of subsets, where every product has to stay below a bound and every division to leave
nothing. -/
def binomial? (bound total size : ℕ) : Option ℕ :=
  if total < size then
    some 0
  else do
    let rest ← minus? total size
    (List.range (min size rest)).foldlM (chooseOneMore? bound total) 1

/-- From one binomial coefficient to the next the division leaves nothing. -/
theorem chooseOneMore?_eq {bound total chosen : ℕ} (hchosen : chosen ≤ total)
    (hfits : total.choose chosen * (total - chosen) ≤ bound) :
    chooseOneMore? bound total (total.choose chosen) chosen = some (total.choose (chosen + 1)) := by
  rw [chooseOneMore?, minus?_of_le hchosen, Option.bind_eq_bind, Option.bind_some, times?_of_le hfits,
    Option.bind_some, ← Nat.choose_succ_right_eq, divide?_mul _ chosen.succ_pos]

/-- As long as the products stay below the bound, the binomial coefficients come one after the other. -/
theorem foldlM_chooseOneMore? {bound total count : ℕ} (hcount : count ≤ total)
    (hfits : ∀ i < count, total.choose i * (total - i) ≤ bound) :
    (List.range count).foldlM (chooseOneMore? bound total) 1 = some (total.choose count) := by
  induction count with
  | zero => rw [Nat.choose_zero_right, List.range_zero, List.foldlM_nil]; rfl
  | succ count ih =>
    have hbefore := ih (Nat.le_of_succ_le hcount) fun i hi => hfits i (Nat.lt_succ_of_lt hi)
    have hstep := chooseOneMore?_eq (Nat.le_of_succ_le hcount) (hfits count count.lt_succ_self)
    rw [List.range_succ, List.foldlM_append, hbefore, Option.bind_eq_bind, Option.bind_some,
      List.foldlM_cons, hstep]
    rfl

/-- Every division on the way to the number of subsets is exact. -/
theorem binomial?_eq {bound total size : ℕ}
    (hfits : ∀ i < min size (total - size), total.choose i * (total - i) ≤ bound) :
    binomial? bound total size = some (binomial total size) := by
  unfold binomial? binomial
  by_cases hsize : total < size
  · rw [if_pos hsize, if_pos hsize]
  · have hle := Nat.le_of_not_lt hsize
    rw [if_neg hsize, if_neg hsize, minus?_of_le hle, foldl_range_eq_choose]
    exact foldlM_chooseOneMore? (by omega) hfits

/-- A list of all subsets of one size, in strictly increasing lexicographic order. -/
structure ListsSubsets (total size : ℕ) (subsets : List (List UInt8)) : Prop where
  /-- Listed are the increasing lists of that many slots. -/
  mem_iff : ∀ slots, slots ∈ subsets ↔
    slots.Pairwise (· < ·) ∧ (∀ slot ∈ slots, slot.toNat < total) ∧ slots.length = size
  sorted : subsets.Pairwise (· < ·)
  length_eq : subsets.length = binomial total size

/-- A sequence of subsets and a walk in one array that both give a list and then nothing. -/
structure GoThrough (s : Subsets) (w : Walk) (subsets : List (List UInt8)) : Prop where
  /-- The sequence gives the list and then nothing, however often it is asked. -/
  next_drop : ∀ count, (s.drop count).next.1 = subsets[count]?
  /-- Copies of the sequence go on from where they were copied. -/
  answers_sequence : ∀ calls,
    answers? (fun s => some s.next) [s] calls = some (answersFrom subsets [0] calls)
  /-- So do copies of the walk, without an overflow. -/
  answers_walk : ∀ calls, answers? Walk.next? [w] calls = some (answersFrom subsets [0] calls)

/-- The choices of a number of slots are all subsets of that size. -/
theorem listsSubsets_choices {total : ℕ} (htotal : total ≤ maxSubsetTotal) (size : ℕ) :
    ListsSubsets total size (choices size (slotsBelow total)) := by
  have hbyte : total ≤ UInt8.size := Nat.le_trans htotal maxSubsetTotal_le
  refine ⟨fun slots => mem_choices_slotsBelow hbyte, sorted_choices (sorted_slotsBelow hbyte) size, ?_⟩
  rw [length_choices, slotsBelow_eq_consecutive, length_consecutive, binomial_eq_choose]

/-- The sequence from its first place on, and a walk that stands there, go through the choices. -/
theorem Walk.StandsAt.goThrough {w : Walk} {total size : ℕ} (h : w.StandsAt (position total size 0))
    (htotal : total ≤ maxSubsetTotal) :
    GoThrough (position total size 0) w (choices size (slotsBelow total)) := by
  refine ⟨fun count => ?_, answers?_position htotal, h.answers?_eq htotal⟩
  rw [drop_position htotal, next_position htotal, Nat.zero_add]

/-- For every size up to a total of at most 255 slots there is one list of subsets that everything goes
by. It holds exactly the increasing lists of that many slots, in strictly increasing lexicographic order,
so each once, and their number is the binomial coefficient, which no division rounds: it also comes out
where the products are kept below any bound that they do not exceed and where a division that leaves
something is refused. The sequence of subsets gives the list and then nothing, however often it is asked.
So does the walk in one array, without an overflow, and whatever is done with copies of a sequence or a
walk, each of them goes on from where it was copied. -/
theorem walks_enumerate {total size : ℕ} (htotal : total ≤ maxSubsetTotal) (hsize : size ≤ total) :
    ∃ subsets s w, subsetsOf total size = .ok subsets ∧ Subsets.start total size = .ok s ∧
      Walk.start total size = .ok w ∧ ListsSubsets total size subsets ∧ GoThrough s w subsets ∧
      binomial total size = total.choose size ∧
      ∀ bound, (∀ i < min size (total - size), total.choose i * (total - i) ≤ bound) →
        binomial? bound total size = some (binomial total size) := by
  obtain ⟨w, hw, s, hs, hstands⟩ := Walk.exists_start htotal hsize
  obtain rfl : s = position total size 0 := Except.ok.inj (hs.symm.trans (start_eq_ok htotal hsize))
  exact ⟨_, _, w, subsetsOf_eq_ok htotal hsize, hs, hw, listsSubsets_choices htotal size,
    hstands.goThrough htotal, binomial_eq_choose total size, fun bound => binomial?_eq⟩

/-- With one slot of 255 the walk goes through all slots up to the last byte but one, and a copy that is
taken behind the first one gives the second one as well. -/
theorem walks_enumerate_oneSlot :
    255 ≤ maxSubsetTotal ∧ 1 ≤ 255 ∧ ∃ subsets w, subsetsOf 255 1 = .ok subsets ∧
      Walk.start 255 1 = .ok w ∧ subsets.length = 255 ∧ subsets[254]? = some [254] ∧
      binomial? (2 ^ 64 - 1) 255 1 = some 255 ∧
      answers? Walk.next? [w] [.next 0, .copy 0, .next 1, .next 0] =
        some [some [0], some [1], some [1]] := by
  have htotal : 255 ≤ maxSubsetTotal := by decide
  have hsize : 1 ≤ 255 := by decide
  have hcount : binomial 255 1 = 255 := by decide
  obtain ⟨subsets, s, w, hsubsets, hs, hw, hlists, hgo, -, hbinomial⟩ :=
    walks_enumerate htotal hsize
  obtain rfl : (⟨255, some [0]⟩ : Subsets) = s := Except.ok.inj hs
  have hget (count : ℕ) (slot : UInt8)
      (h : ((⟨255, some [0]⟩ : Subsets).drop count).next.1 = some [slot]) :
      subsets[count]? = some [slot] := (hgo.next_drop count).symm.trans h
  have hanswers := hgo.answers_walk [.next 0, .copy 0, .next 1, .next 0]
  have hfrom : answersFrom subsets [0] [.next 0, .copy 0, .next 1, .next 0] =
      [subsets[0]?, subsets[1]?, subsets[1]?] := rfl
  rw [hfrom, hget 0 0 rfl, hget 1 1 rfl] at hanswers
  have hword := hbinomial (2 ^ 64 - 1) (by decide)
  have hlength := hlists.length_eq
  rw [hcount] at hlength hword
  exact ⟨htotal, hsize, subsets, w, hsubsets, hw, hlength, hget 254 254 (by decide +kernel), hword,
    hanswers⟩

end Formulary.Subsets
