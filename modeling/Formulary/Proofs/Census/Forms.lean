import Mathlib.Logic.Relation
import Formulary.Proofs.Census.Slopes

/-!
# Forms of values

A formula of a family is a single slot, or it is the total over at least two groups, each with a formula
of the other family. Some groups may be flipped, that is subtracted or divided by, but not all of them.

The value of a form tells its groups. All slots of one group are joined by links in the family, since in
the group's own form slots of different groups are linked, and no link leaves a group.
-/

namespace Formulary.Census

open Finset Relation

variable {σ K : Type*} [DecidableEq σ] [Field K]

/-- Not all groups are flipped, and no group of a sum is if nothing may be subtracted. -/
structure Flips (minus : Bool) (F : Family) (blocks : Finset (Finset σ)) (flips : Finset σ → Bool) :
    Prop where
  upright : ∃ block ∈ blocks, flips block = false
  plain : F = .sum → minus = false → ∀ block ∈ blocks, flips block = false

/-- The values of the formulas of a family over a set of slots. -/
inductive Form (C : Coordinates σ K) (minus : Bool) : Family → Finset σ → K → Prop
  | single (F : Family) (x : σ) : Form C minus F {x} (C.var x)
  | groups {F : Family} {s : Finset σ} (P : Finpartition s) (flips : Finset σ → Bool)
      (value : Finset σ → K) (hmany : 2 ≤ #P.parts) (hflips : Flips minus F P.parts flips)
      (hvalue : ∀ block ∈ P.parts, Form C minus F.other block (value block)) :
      Form C minus F s (F.total P.parts fun block => F.flip (flips block) (value block))

namespace Coordinates

variable {C : Coordinates σ K} {F : Family} {s : Finset σ} {q q' : K} {x y : σ}

/-- A value whose slots are joined by links in a family, so that it is one group there. -/
structure Piece (C : Coordinates σ K) (F : Family) (s : Finset σ) (q : K) : Prop where
  on : C.On s q
  joined : ∀ x ∈ s, ∀ y ∈ s, ReflTransGen (C.Linked F q) x y

/-- A piece stays one if it is flipped. -/
theorem Piece.flip (h : C.Piece F s q) (flipped : Bool) : C.Piece F s (F.flip flipped q) := by
  have hmono : C.Linked F q ≤ C.Linked F (F.flip flipped q) := fun _ _ => linked_flip.mpr
  exact ⟨h.on.flip F flipped, fun x hx y hy => ReflTransGen.mono hmono x y (h.joined x hx y hy)⟩

section Total

variable {P P' : Finpartition s} {value value' : Finset σ → K}

/-- No link of the family leaves a group. -/
theorem part_eq_of_linked (hvalue : ∀ block ∈ P.parts, C.On block (value block))
    (hlinked : C.Linked F (F.total P.parts value) x y) : P.part x = P.part y := by
  obtain rfl | hs := s.eq_empty_or_nonempty
  · rw [P.part_eq_empty.mpr (notMem_empty x), P.part_eq_empty.mpr (notMem_empty y)]
  · obtain ⟨-, hy⟩ := hlinked.mem (On.total hs hvalue F)
    obtain ⟨block, hblock, hy⟩ := P.exists_mem hy
    rw [linked_total_iff hvalue hblock hy] at hlinked
    obtain ⟨hx, -⟩ := hlinked.mem (hvalue block hblock)
    rw [P.part_eq_of_mem hblock hx, P.part_eq_of_mem hblock hy]

/-- The groups are the sets of slots that are joined by links. -/
theorem part_eq_part_iff (hvalue : ∀ block ∈ P.parts, C.Piece F block (value block)) (hx : x ∈ s)
    (hy : y ∈ s) : P.part x = P.part y ↔ ReflTransGen (C.Linked F (F.total P.parts value)) x y := by
  have hon (block : Finset σ) (hblock : block ∈ P.parts) : C.On block (value block) :=
    (hvalue block hblock).on
  constructor
  · intro hpart
    obtain ⟨block, hblock, hyblock⟩ := P.exists_mem hy
    have hxblock : x ∈ block := by
      rw [← P.part_eq_of_mem hblock hyblock, ← hpart]
      exact P.mem_part_self.mpr hx
    have hmono : C.Linked F (value block) ≤ C.Linked F (F.total P.parts value) := fun a b hlinked =>
      (linked_total_iff hon hblock (hlinked.mem (hon block hblock)).2).mpr hlinked
    exact ReflTransGen.mono hmono x y ((hvalue block hblock).joined x hxblock y hyblock)
  · intro hjoined
    induction hjoined with
    | refl => rfl
    | tail _ hlinked ih =>
      have hs : s.Nonempty := ⟨x, hx⟩
      exact (ih (hlinked.mem (On.total hs hon F)).1).trans (part_eq_of_linked hon hlinked)

/-- A partition is finer than another if slots of one block are in one block of the other. -/
theorem le_of_part_eq (h : ∀ x ∈ s, ∀ y ∈ s, P.part x = P.part y → P'.part x = P'.part y) : P ≤ P' := by
  intro block hblock
  obtain ⟨x, hx⟩ := P.nonempty_of_mem_parts hblock
  have hxs : x ∈ s := P.le hblock hx
  refine ⟨P'.part x, P'.part_mem.mpr hxs, fun y hy => ?_⟩
  have hys : y ∈ s := P.le hblock hy
  rw [h x hxs y hys (by rw [P.part_eq_of_mem hblock hx, P.part_eq_of_mem hblock hy])]
  exact P'.mem_part_self.mpr hys

/-- Values with the same links have the same groups. -/
theorem eq_of_linked_iff (hvalue : ∀ block ∈ P.parts, C.Piece F block (value block))
    (hvalue' : ∀ block ∈ P'.parts, C.Piece F block (value' block))
    (hlinked : ∀ x y, C.Linked F (F.total P.parts value) x y ↔ C.Linked F (F.total P'.parts value') x y) :
    P = P' := by
  have hsame : C.Linked F (F.total P.parts value) = C.Linked F (F.total P'.parts value') := by
    ext x y
    exact hlinked x y
  have hpart (x : σ) (hx : x ∈ s) (y : σ) (hy : y ∈ s) : P.part x = P.part y ↔ P'.part x = P'.part y := by
    rw [part_eq_part_iff hvalue hx hy, part_eq_part_iff hvalue' hx hy, hsame]
  exact le_antisymm (le_of_part_eq fun x hx y hy => (hpart x hx y hy).mp)
    (le_of_part_eq fun x hx y hy => (hpart x hx y hy).mpr)

/-- If there are at least two blocks, some slot is in another block than the given one. -/
theorem exists_part_ne (hmany : 2 ≤ #P.parts) (x : σ) : ∃ y ∈ s, P.part y ≠ P.part x := by
  obtain ⟨block, hblock, hne⟩ := exists_mem_ne hmany (P.part x)
  obtain ⟨y, hy⟩ := P.nonempty_of_mem_parts hblock
  exact ⟨y, P.le hblock hy, by rwa [P.part_eq_of_mem hblock hy]⟩

/-- Two partitions into several blocks have a pair of slots that both of them separate. -/
theorem exists_separated (hmany : 2 ≤ #P.parts) (hmany' : 2 ≤ P'.parts.card) :
    ∃ x ∈ s, ∃ y ∈ s, P.part x ≠ P.part y ∧ P'.part x ≠ P'.part y := by
  obtain ⟨block, hblock⟩ : P.parts.Nonempty := card_pos.mp (by omega)
  obtain ⟨x, hx⟩ := P.nonempty_of_mem_parts hblock
  have hxs : x ∈ s := P.le hblock hx
  obtain ⟨y, hy, hne'⟩ := exists_part_ne hmany' x
  by_cases hxy : P.part y = P.part x
  · -- a third slot is in another block than both, and it is separated from one of them
    obtain ⟨z, hz, hne⟩ := exists_part_ne hmany x
    by_cases hzx : P'.part z = P'.part x
    · exact ⟨z, hz, y, hy, hxy ▸ hne, fun hzy => hne' (hzy.symm.trans hzx)⟩
    · exact ⟨z, hz, x, hxs, hne, hzx⟩
  · exact ⟨y, hy, x, hxs, hxy, hne'⟩

/-- Slots of different groups are not linked in the family of the groups, so they are in the other. -/
theorem linked_other_total (hs : s.Nonempty) (hvalue : ∀ block ∈ P.parts, C.On block (value block))
    (hx : x ∈ s) (hy : y ∈ s) (hpart : P.part x ≠ P.part y) :
    C.Linked F.other (F.total P.parts value) x y :=
  linked_other (On.total hs hvalue F) hx hy fun hlinked => hpart (part_eq_of_linked hvalue hlinked)

/-- Several groups are joined to one in the other family. -/
theorem piece_total (hmany : 2 ≤ #P.parts) (hvalue : ∀ block ∈ P.parts, C.On block (value block)) :
    C.Piece F.other s (F.total P.parts value) := by
  have hs : s.Nonempty := card_pos.mp (by have := P.card_parts_le_card; omega)
  refine ⟨On.total hs hvalue F, fun x hx y hy => ?_⟩
  by_cases hxy : P.part x = P.part y
  · obtain ⟨z, hz, hne⟩ := exists_part_ne hmany x
    refine .tail (.single (linked_other_total hs hvalue hx hz hne.symm)) ?_
    exact linked_other_total hs hvalue hz hy (hxy ▸ hne)
  · exact .single (linked_other_total hs hvalue hx hy hxy)

end Total

end Coordinates

open Coordinates

namespace Form

variable {C : Coordinates σ K} {minus : Bool} {F : Family} {s : Finset σ} {q : K}

/-- The value of a form is one group in the other family, and a single slot is one in both. -/
theorem piece (h : Form C minus F s q) : C.Piece F.other s q := by
  induction h with
  | single F x =>
    refine ⟨on_var x, fun y hy z hz => ?_⟩
    rw [mem_singleton.mp hy, mem_singleton.mp hz]
  | groups P flips value hmany hflips hvalue ih =>
    exact piece_total hmany fun block hblock => (ih block hblock).on.flip _ _

/-- The value of a form is not zero. -/
theorem ne_zero (h : Form C minus F s q) : q ≠ 0 :=
  h.piece.on.ne_zero

/-- A group is one piece in the family of a formula, flipped or not. -/
theorem flip_piece (h : Form C minus F.other s q) (flipped : Bool) : C.Piece F s (F.flip flipped q) := by
  have hpiece := h.piece
  rw [Family.other_other] at hpiece
  exact hpiece.flip flipped

/-- A form is a single slot, or there are several slots and it has groups. -/
theorem single_or_groups (h : Form C minus F s q) :
    (∃ x, s = {x} ∧ q = C.var x) ∨ 2 ≤ #s ∧
      ∃ (P : Finpartition s) (flips : Finset σ → Bool) (value : Finset σ → K), 2 ≤ #P.parts ∧
        Flips minus F P.parts flips ∧ (∀ block ∈ P.parts, Form C minus F.other block (value block)) ∧
        q = F.total P.parts fun block => F.flip (flips block) (value block) := by
  cases h with
  | single F x => exact .inl ⟨x, rfl, rfl⟩
  | groups P flips value hmany hflips hvalue =>
    exact .inr ⟨hmany.trans P.card_parts_le_card, P, flips, value, hmany, hflips, hvalue, rfl⟩

/-- A form has at least one slot. -/
theorem nonempty (h : Form C minus F s q) : s.Nonempty := by
  obtain ⟨x, rfl, -⟩ | ⟨hmany, -⟩ := h.single_or_groups
  · exact singleton_nonempty x
  · exact card_pos.mp (by omega)

/-- Over one slot there is nothing but the slot. -/
theorem eq_var {x : σ} (h : Form C minus F {x} q) : q = C.var x := by
  obtain ⟨y, hy, rfl⟩ | ⟨hmany, -⟩ := h.single_or_groups
  · rw [singleton_injective hy]
  · rw [card_singleton] at hmany
    omega

/-- Over several slots a form has groups. -/
theorem exists_groups (h : Form C minus F s q) (hs : 2 ≤ #s) :
    ∃ (P : Finpartition s) (flips : Finset σ → Bool) (value : Finset σ → K), 2 ≤ #P.parts ∧
      Flips minus F P.parts flips ∧ (∀ block ∈ P.parts, Form C minus F.other block (value block)) ∧
      q = F.total P.parts fun block => F.flip (flips block) (value block) := by
  obtain ⟨x, rfl, -⟩ | ⟨-, hgroups⟩ := h.single_or_groups
  · rw [card_singleton] at hs
    omega
  · exact hgroups

end Form

end Formulary.Census
