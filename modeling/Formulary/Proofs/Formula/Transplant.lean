import Mathlib.Data.List.GetD
import Formulary.Generation.Candidates
import Formulary.Proofs.Formula.Valid

/-!
# Transplanting and combining formulas

A formula is transplanted by renaming its slots along a list. If two valid formulas are put on
lists that together hold every slot once, then combining them gives a valid formula, and this
formula determines both of them, the lists and the code: its shape is cut in two in one way only.
-/

namespace Formulary.Formula

/-- The formula with slot `s` renamed to the entry `s` of a list. -/
def placeOn (f : Formula) (mapping : List UInt8) : Formula :=
  { f with slots := f.slots.map fun slot => mapping.getD slot.toNat 0 }

/-- Putting a formula on other slots does not change their number. -/
@[simp] theorem size_placeOn (f : Formula) (mapping : List UInt8) :
    (f.placeOn mapping).size = f.size :=
  List.length_map _

/-- Relabelling succeeds when the list has an entry for every slot. -/
theorem relabel_eq_ok {f : Formula} {mapping : List UInt8}
    (h : ∀ slot ∈ f.slots, slot.toNat < mapping.length) :
    f.relabel mapping = .ok (f.placeOn mapping) := by
  have hslots : f.slots.mapM (relabelSlot mapping) =
      .ok (f.slots.map fun slot => mapping.getD slot.toNat 0) := by
    apply Outcome.mapM_eq_ok_map
    intro slot hslot
    have hlt := h slot hslot
    rw [relabelSlot, List.getElem?_eq_getElem hlt, List.getD_eq_getElem _ _ hlt]
  unfold relabel
  rw [hslots]
  rfl

/-- Relabelling succeeds exactly when the list has an entry for every slot. -/
theorem relabel_eq_ok_iff {f g : Formula} {mapping : List UInt8} :
    f.relabel mapping = .ok g ↔
      (∀ slot ∈ f.slots, slot.toNat < mapping.length) ∧ g = f.placeOn mapping := by
  constructor
  · intro h
    obtain ⟨slots, hslots, -⟩ := Outcome.bind_eq_ok_iff.mp h
    have hroom : ∀ slot ∈ f.slots, slot.toNat < mapping.length := by
      intro slot hslot
      obtain ⟨target, htarget⟩ := Outcome.exists_of_mapM_eq_ok hslots slot hslot
      unfold relabelSlot at htarget
      split at htarget
      · next hentry => exact (List.getElem?_eq_some_iff.mp hentry).1
      · cases htarget
    rw [relabel_eq_ok hroom] at h
    exact ⟨hroom, (Except.ok.inj h).symm⟩
  · rintro ⟨hroom, rfl⟩
    exact relabel_eq_ok hroom

namespace Valid

variable {f : Formula} {mapping : List UInt8}

/-- A valid formula can be put on any list with as many entries as the formula has slots. -/
theorem relabel_eq_ok (h : f.Valid) (hlen : mapping.length = f.size) :
    f.relabel mapping = .ok (f.placeOn mapping) := by
  apply Formula.relabel_eq_ok
  intro slot hslot
  rw [hlen]
  exact h.mem_slots_iff.mp hslot

/-- A formula that was put on a list uses the entries of the list. -/
theorem slots_placeOn_perm (h : f.Valid) (hlen : mapping.length = f.size) :
    (f.placeOn mapping).slots.Perm mapping := by
  have hlist : (slotsBelow f.size).map (fun slot => mapping.getD slot.toNat 0) = mapping := by
    apply List.ext_getElem
    · simp [slotsBelow, hlen]
    · intro i hi hi'
      have hbyte : i < 256 := by
        have hle := h.le
        unfold maxSlots at hle
        omega
      simp [slotsBelow, Nat.mod_eq_of_lt hbyte, hi']
  have hperm := h.slots_perm.map fun slot : UInt8 => mapping.getD slot.toNat 0
  rw [hlist] at hperm
  exact hperm

/-- On a list without repetitions different formulas stay different. -/
theorem placeOn_inj {other : Formula} (h : f.Valid) (hother : other.Valid)
    (hsize : other.size = f.size) (hlen : mapping.length = f.size) (hnodup : mapping.Nodup)
    (heq : f.placeOn mapping = other.placeOn mapping) : f = other := by
  have hslots : f.slots = other.slots := by
    apply List.ext_getElem hsize.symm
    intro i hi hi'
    have hlt : f.slots[i].toNat < mapping.length := by
      rw [hlen]
      exact h.mem_slots_iff.mp (List.getElem_mem hi)
    have hlt' : other.slots[i].toNat < mapping.length := by
      rw [hlen, ← hsize]
      exact hother.mem_slots_iff.mp (List.getElem_mem hi')
    have hentry := congrArg (·[i]?) (congrArg Formula.slots heq)
    simp only [placeOn, List.getElem?_map, List.getElem?_eq_getElem hi,
      List.getElem?_eq_getElem hi', Option.map_some, List.getD_eq_getElem _ _ hlt,
      List.getD_eq_getElem _ _ hlt', Option.some.injEq] at hentry
    exact UInt8.toNat_inj.mp ((List.Nodup.getElem_inj_iff hnodup).mp hentry)
  obtain ⟨slots, codes, shape⟩ := f
  obtain ⟨slots', codes', shape'⟩ := other
  simp only [placeOn, Formula.mk.injEq] at heq hslots ⊢
  exact ⟨hslots, heq.2⟩

/-- Valid formulas on complementary lists combine to a valid formula. -/
theorem combine_placeOn {left right : Formula} {onto behind : List UInt8} (hleft : left.Valid)
    (hright : right.Valid) (honto : onto.length = left.size) (hbehind : behind.length = right.size)
    (hsize : left.size + right.size ≤ maxSlots)
    (hperm : (onto ++ behind).Perm (slotsBelow (left.size + right.size))) (code : UInt8) :
    (combine (left.placeOn onto) (right.placeOn behind) code).Valid := by
  have hpos := hleft.pos
  have hpos' := hright.pos
  have hcodes := hleft.codes_length
  have hcodes' := hright.codes_length
  have hshape := hleft.shape_length
  have hshape' := hright.shape_length
  have htotal : (combine (left.placeOn onto) (right.placeOn behind) code).size =
      left.size + right.size := by
    rw [size_combine, size_placeOn, size_placeOn]
  refine ⟨by omega, by omega, ?_, ?_, ?_, hleft.balanced.combine hright.balanced⟩
  · simp only [combine, placeOn, List.length_append, List.length_singleton] at *
    omega
  · simp only [combine, placeOn, List.length_append, List.length_singleton] at *
    omega
  · rw [htotal]
    exact ((hleft.slots_placeOn_perm honto).append (hright.slots_placeOn_perm hbehind)).trans hperm

end Valid

/-- The parts that a combination was made of. -/
theorem combine_placeOn_inj {left right left' right' : Formula}
    {onto behind onto' behind' : List UInt8} {code code' : UInt8}
    (hleft : left.Valid) (hright : right.Valid) (hleft' : left'.Valid) (hright' : right'.Valid)
    (heq : combine (left.placeOn onto) (right.placeOn behind) code =
      combine (left'.placeOn onto') (right'.placeOn behind') code') :
    left.placeOn onto = left'.placeOn onto' ∧ right.placeOn behind = right'.placeOn behind' ∧
      code = code' := by
  obtain ⟨hslots, hcodes, hshape⟩ := Formula.mk.injEq .. ▸ heq
  obtain ⟨hl, hr⟩ := hleft.balanced.append_inj hright.balanced hleft'.balanced hright'.balanced
    (List.append_cancel_right hshape)
  have hsize : left.size = left'.size := by
    have hlength := hleft.shape_length
    have hlength' := hleft'.shape_length
    have hpos := hleft.pos
    have hpos' := hleft'.pos
    rw [hl] at hlength
    omega
  have hcodesLength : left.codes.length = left'.codes.length := by
    rw [hleft.codes_length, hleft'.codes_length, hsize]
  have hslotsLength : (left.placeOn onto).slots.length = (left'.placeOn onto').slots.length := by
    rw [← size, ← size, size_placeOn, size_placeOn, hsize]
  obtain ⟨hslotsLeft, hslotsRight⟩ := List.append_inj hslots hslotsLength
  obtain ⟨hcodesBoth, hcode⟩ := List.append_inj' hcodes rfl
  obtain ⟨hcodesLeft, hcodesRight⟩ := List.append_inj hcodesBoth hcodesLength
  refine ⟨?_, ?_, List.singleton_inj.mp hcode⟩
  · exact Formula.mk.injEq .. ▸ ⟨hslotsLeft, hcodesLeft, hl⟩
  · exact Formula.mk.injEq .. ▸ ⟨hslotsRight, hcodesRight, hr⟩

end Formulary.Formula
