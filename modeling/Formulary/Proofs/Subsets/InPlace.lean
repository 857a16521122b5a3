import Formulary.Proofs.Census.Filling
import Formulary.Proofs.Subsets.Order

/-!
# Walking through the subsets in one array

The subsets of one size can be walked through in a single array of bytes. A step looks for the last
place whose slot can still move, moves it, and writes the slots behind it consecutively. The first call
gives the array as it was made; each later one makes a step first, and once a step finds no place the
walk has ended and is not stepped again.

Every operation is checked here: a number that is no byte, a difference below zero and a place outside
of the array stop the walk. None of this happens. A slot that moves leaves room for the places behind it
below the total, so even the number behind the last slot is at most the total, which is a byte. The
places are tried from the last one down, and by induction on the place the step is the recursion of
`successor`: a place is reached when what is behind it has no successor.
-/

namespace Formulary.Subsets

open Census (minus? minus?_of_le write? write?_of_lt)

/-- The slot behind another one, unless it is no byte any more. -/
def increment? (slot : UInt8) : Option UInt8 :=
  if slot.toNat + 1 < UInt8.size then some (slot + 1) else none

/-- A slot below the last byte is incremented as usual. -/
@[simp] theorem increment?_of_lt {slot : UInt8} (h : slot.toNat + 1 < UInt8.size) :
    increment? slot = some (slot + 1) :=
  if_pos h

/-- Write consecutive slots to the places from one on. -/
def refill? (slots : Array UInt8) (place : ℕ) (next : UInt8) : (count : ℕ) → Option (Array UInt8)
  | 0 => some slots
  | count + 1 => do
    let slots ← write? slots place next
    let next ← increment? next
    refill? slots (place + 1) next count

/-- Move the slot at the last of some places where one can still move, and pack the slots behind it right
behind. -/
def advance? (total : UInt8) (slots : Array UInt8) : (places : ℕ) → Option (Option (Array UInt8))
  | 0 => some none
  | place + 1 => do
    let slot ← slots[place]?
    let room ← minus? total.toNat slots.size
    if slot.toNat < room + place then
      let next ← increment? slot
      let count ← minus? slots.size place
      let slots ← refill? slots place next count
      pure (some slots)
    else
      advance? total slots place

/-- A walk through the subsets: the array with the last subset that was given or the first one to
give, and whether the walk has begun and has ended. -/
structure Walk where
  total : UInt8
  slots : Array UInt8
  begun : Bool
  ended : Bool
deriving DecidableEq

namespace Walk

/-- The walk through all subsets with `size` of `total` slots, from its beginning. -/
def start (total size : ℕ) : Except InputError Walk :=
  if maxSubsetTotal < total ∨ total < size then .error (.invalidCombination total size)
  else .ok ⟨UInt8.ofNat total, (slotsBelow size).toArray, false, false⟩

/-- The next subset, and the walk behind it. -/
def next? (w : Walk) : Option (Option (List UInt8) × Walk) :=
  if w.ended then
    some (none, w)
  else if w.begun then do
    match ← advance? w.total w.slots w.slots.size with
    | none => pure (none, { w with ended := true })
    | some slots => pure (some slots.toList, { w with slots := slots })
  else
    some (some w.slots.toList, { w with begun := true })

end Walk

/-- Consecutive slots are written without leaving the bytes if the one behind the last is a byte. -/
theorem refill?_eq (before old : List UInt8) (next : UInt8)
    (h : next.toNat + old.length < UInt8.size) :
    refill? (before ++ old).toArray before.length next old.length =
      some (before ++ consecutive next old.length).toArray := by
  induction old generalizing before next with
  | nil => rfl
  | cons slot rest ih =>
    have hnext : next.toNat + 1 < UInt8.size := by
      rw [List.length_cons] at h
      omega
    have hrest : (next + 1).toNat + rest.length < UInt8.size := by
      rw [UInt8.toNat_add, UInt8.toNat_one, Nat.mod_eq_of_lt hnext]
      rw [List.length_cons] at h
      omega
    have hrefilled := ih (before ++ [next]) (next + 1) hrest
    rw [List.length_cons, refill?, write?_of_lt _ (by simp), increment?_of_lt hnext]
    simpa [consecutive] using hrefilled

/-- What is behind a list has a successor exactly if the whole list has one that keeps the list. -/
theorem successor_append {total : ℕ} {behind after : List UInt8} (before : List UInt8)
    (h : successor total behind = some after) :
    successor total (before ++ behind) = some (before ++ after) := by
  induction before with
  | nil => exact h
  | cons slot before ih => rw [List.cons_append, successor, ih, List.cons_append]

/-- A slot that moves leaves room for those behind it, so that they can be written. -/
theorem refill?_of_room {total slot : UInt8} (before rest : List UInt8)
    (hroom : slot.toNat + rest.length + 1 < total.toNat) :
    refill? (before ++ slot :: rest).toArray before.length (slot + 1) (rest.length + 1) =
      some (before ++ consecutive (slot + 1) (rest.length + 1)).toArray := by
  have htotal := total.toNat_lt
  have hnext : (slot + 1).toNat = slot.toNat + 1 := by
    rw [UInt8.toNat_add, UInt8.toNat_one, Nat.mod_eq_of_lt (by omega)]
  exact refill?_eq before (slot :: rest) (slot + 1) (by rw [hnext, List.length_cons, UInt8.size]; omega)

/-- A place is moved, with the slots behind it, if these fit after it; else the places before it are
tried. -/
theorem advance?_succ {total slot : UInt8} (before rest : List UInt8)
    (hsize : before.length + rest.length + 1 ≤ total.toNat) :
    advance? total (before ++ slot :: rest).toArray (before.length + 1) =
      if slot.toNat + rest.length + 1 < total.toNat then
        some (some (before ++ consecutive (slot + 1) (rest.length + 1)).toArray)
      else advance? total (before ++ slot :: rest).toArray before.length := by
  have hlength : (before ++ slot :: rest).toArray.size = before.length + rest.length + 1 := by
    rw [List.size_toArray, List.length_append, List.length_cons, Nat.add_assoc]
  have hslot : (before ++ slot :: rest).toArray[before.length]? = some slot := by simp
  rw [advance?, hslot, hlength, minus?_of_le hsize, minus?_of_le (by omega)]
  simp only [Option.bind_eq_bind, Option.bind_some]
  by_cases hroom : slot.toNat + rest.length + 1 < total.toNat
  · have htotal := total.toNat_lt
    have hcount : before.length + rest.length + 1 - before.length = rest.length + 1 := by omega
    rw [if_pos (by omega), if_pos hroom, increment?_of_lt (by rw [UInt8.size]; omega), Option.bind_some,
      hcount, refill?_of_room before rest hroom]
    rfl
  · rw [if_neg (by omega), if_neg hroom]

/-- Trying the places from one down, while nothing behind them can move, is looking for the successor of
the whole list. -/
theorem advance?_append {total : UInt8} (before behind : List UInt8)
    (hsize : before.length + behind.length ≤ total.toNat)
    (hbehind : successor total.toNat behind = none) :
    advance? total (before ++ behind).toArray before.length =
      some ((successor total.toNat (before ++ behind)).map List.toArray) := by
  -- from the last place down: one that cannot move joins what is behind
  induction before using List.reverseRecOn generalizing behind with
  | nil =>
    rw [List.nil_append, hbehind]
    rfl
  | append_singleton before slot ih =>
    rw [List.length_append, List.length_singleton] at hsize
    rw [List.append_assoc, List.singleton_append, List.length_append, List.length_singleton,
      advance?_succ before behind (by omega)]
    have hmoved : successor total.toNat (slot :: behind) =
        if slot.toNat + behind.length + 1 < total.toNat then
          some (consecutive (slot + 1) (behind.length + 1)) else none := by
      rw [successor, hbehind]
    by_cases hroom : slot.toNat + behind.length + 1 < total.toNat
    · rw [if_pos hroom] at hmoved ⊢
      rw [successor_append before hmoved]
      rfl
    · rw [if_neg hroom] at hmoved ⊢
      exact ih (slot :: behind) (by rw [List.length_cons]; omega) hmoved

/-- One step in the array is one step to the successor, and nothing overflows on the way. -/
theorem advance?_eq {total : UInt8} {slots : List UInt8} (hsize : slots.length ≤ total.toNat) :
    advance? total slots.toArray slots.length =
      some ((successor total.toNat slots).map List.toArray) := by
  have hall : advance? total (slots ++ []).toArray slots.length = _ := advance?_append slots [] hsize rfl
  rwa [List.append_nil] at hall

namespace Walk

/-- A walk stands at a position: what its next call is to give is the upcoming subset. -/
structure StandsAt (w : Walk) (s : Subsets) : Prop where
  total_eq : s.total = w.total.toNat
  size_le : w.slots.size ≤ w.total.toNat
  upcoming_eq : s.upcoming =
    if w.ended then none
    else if w.begun then successor w.total.toNat w.slots.toList
    else some w.slots.toList

/-- The walk begins where the sequence of subsets begins. -/
theorem exists_start {total size : ℕ} (htotal : total ≤ maxSubsetTotal) (hsize : size ≤ total) :
    ∃ w, Walk.start total size = .ok w ∧ ∃ s, Subsets.start total size = .ok s ∧ w.StandsAt s := by
  have hnumbers : ¬ (maxSubsetTotal < total ∨ total < size) := by omega
  have hbyte : (UInt8.ofNat total).toNat = total :=
    UInt8.toNat_ofNat_of_lt' (Nat.lt_of_le_of_lt htotal (by decide))
  refine ⟨_, if_neg hnumbers, _, if_neg hnumbers, hbyte.symm, ?_, ?_⟩
  · simpa [hbyte, slotsBelow] using hsize
  · simp [slotsBelow_eq_consecutive]

/-- Every call of a walk gives the upcoming subset, without an overflow, and goes on as the position
does. -/
theorem StandsAt.exists_next? {w : Walk} {s : Subsets} (h : w.StandsAt s) :
    ∃ w', w.next? = some (s.next.1, w') ∧ w'.StandsAt s.next.2 := by
  obtain ⟨total, ⟨slots⟩, begun, ended⟩ := w
  obtain ⟨_, upcoming⟩ := s
  obtain ⟨rfl, hsize, hupcoming⟩ := h
  dsimp only at hsize hupcoming
  rw [List.size_toArray] at hsize
  -- a call makes a step only behind the first one and before the end
  cases ended with
  | true =>
    rw [if_pos rfl] at hupcoming
    subst hupcoming
    exact ⟨_, rfl, rfl, hsize, rfl⟩
  | false =>
    cases begun with
    | false =>
      obtain rfl : upcoming = some slots := hupcoming
      exact ⟨_, rfl, rfl, hsize, rfl⟩
    | true =>
      obtain rfl : upcoming = successor total.toNat slots := hupcoming
      have hadvance : advance? total ⟨slots⟩ slots.length = _ := advance?_eq hsize
      cases hafter : successor total.toNat slots with
      | none =>
        rw [hafter] at hadvance
        refine ⟨⟨total, ⟨slots⟩, true, true⟩, ?_, rfl, hsize, rfl⟩
        simp [next?, hadvance, Subsets.next]
      | some after =>
        rw [hafter] at hadvance
        refine ⟨⟨total, after.toArray, true, false⟩, ?_, rfl, ?_, rfl⟩
        · simp [next?, hadvance, Subsets.next]
        · exact Nat.le_trans (Nat.le_of_eq (length_successor hafter)) hsize

end Walk

end Formulary.Subsets
