import Formulary.Proofs.Census.Negatives

/-!
# Trees with every slot once

A binary tree of `+ - * /` denotes a value unless it divides by zero. If no slot comes twice it never
does, and its value has a form: the operands of a node are totals over groups in the family of the
operator, one of them flipped as a whole for `-` and `/`, and together they are a total over all their
groups. In the other direction a group that is not flipped is combined with one other group after another.
-/

namespace Formulary.Census

open Finset

variable {σ K : Type*}

/-- The four operators. -/
inductive Operation where
  | add
  | sub
  | mul
  | div
deriving DecidableEq

/-- A binary tree of the four operators over slots. -/
inductive ArithmeticTree (σ : Type*) where
  | slot (x : σ)
  | node (op : Operation) (left right : ArithmeticTree σ)

open scoped Classical in
/-- The value of an operator; there is none for a division by zero. -/
noncomputable def Operation.apply [Field K] (op : Operation) (p q : K) : Option K :=
  match op with
  | add => some (p + q)
  | sub => some (p - q)
  | mul => some (p * q)
  | div => if q = 0 then none else some (p / q)

namespace ArithmeticTree

/-- The slots at the leaves, from left to right. -/
def slots : ArithmeticTree σ → List σ
  | slot x => [x]
  | node _ left right => left.slots ++ right.slots

/-- The value of a tree, unless it divides by zero. -/
noncomputable def eval [Field K] (var : σ → K) : ArithmeticTree σ → Option K
  | slot x => some (var x)
  | node op left right => do
    let p ← left.eval var
    let q ← right.eval var
    op.apply p q

end ArithmeticTree

namespace Operation

/-- The family of formulas with the operator outermost. -/
def family : Operation → Family
  | add | sub => .sum
  | mul | div => .product

/-- Whether the right operand is subtracted or divided by. -/
def flips : Operation → Bool
  | add | mul => false
  | sub | div => true

/-- The operator of a family that flips its right operand, or does not. -/
def ofFamily : Family → Bool → Operation
  | .sum, false => add
  | .sum, true => sub
  | .product, false => mul
  | .product, true => div

/-- The operator of a family belongs to it. -/
@[simp] theorem family_ofFamily (F : Family) (flipped : Bool) : (ofFamily F flipped).family = F := by
  cases F <;> cases flipped <;> rfl

/-- An operator that is asked for by what it flips flips just that. -/
@[simp] theorem flips_ofFamily (F : Family) (flipped : Bool) : (ofFamily F flipped).flips = flipped := by
  cases F <;> cases flipped <;> rfl

end Operation

namespace Family

variable [Field K] {ι : Type*} {F : Family}

/-- Two values added or multiplied. -/
def join (F : Family) (p q : K) : K :=
  match F with
  | sum => p + q
  | product => p * q

/-- Two values are joined in either order. -/
theorem join_comm (p q : K) : F.join p q = F.join q p := by
  cases F with
  | sum => exact add_comm p q
  | product => exact mul_comm p q

/-- Flipping twice is flipping once or not at all. -/
theorem flip_flip (flipped flipped' : Bool) (q : K) :
    F.flip flipped (F.flip flipped' q) = F.flip (flipped ^^ flipped') q := by
  cases F <;> cases flipped <;> cases flipped' <;> simp [flip]

/-- A total is flipped by flipping all of its groups. -/
theorem flip_total (flipped : Bool) (groups : Finset ι) (value : ι → K) :
    F.flip flipped (F.total groups value) = F.total groups fun group => F.flip flipped (value group) := by
  cases F <;> cases flipped <;> simp [flip, total]

/-- The total over two sets of groups joins their totals. -/
theorem total_union [DecidableEq ι] {groups groups' : Finset ι} (hdisjoint : Disjoint groups groups')
    (value : ι → K) :
    F.total (groups ∪ groups') value = F.join (F.total groups value) (F.total groups' value) := by
  cases F with
  | sum => exact sum_union hdisjoint
  | product => exact prod_union hdisjoint

/-- The total with one more group joins its value to the total of the others. -/
theorem total_insert [DecidableEq ι] {group : ι} {groups : Finset ι} (hnew : group ∉ groups)
    (value : ι → K) : F.total (insert group groups) value = F.join (value group) (F.total groups value) := by
  cases F with
  | sum => exact sum_insert hnew
  | product => exact prod_insert hnew

/-- The total over one group is its value. -/
theorem total_singleton (group : ι) (value : ι → K) : F.total {group} value = value group := by
  cases F <;> simp [total]

end Family

/-- An operator joins its left operand and the right one, flipped or not. -/
theorem Operation.apply_eq [Field K] (op : Operation) (p : K) {q : K} (hq : q ≠ 0) :
    op.apply p q = some (op.family.join p (op.family.flip op.flips q)) := by
  cases op <;> simp [apply, family, flips, Family.join, Family.flip, hq, sub_eq_add_neg, div_eq_mul_inv]

variable [DecidableEq σ] [Field K] {C : Coordinates σ K} {F : Family} {s t : Finset σ} {p q : K}

/-- A total over one or several groups, not all of them flipped. -/
def Grouped (C : Coordinates σ K) (F : Family) (s : Finset σ) (q : K) : Prop :=
  ∃ (P : Finpartition s) (flips : Finset σ → Bool) (value : Finset σ → K),
    (∃ block ∈ P.parts, flips block = false) ∧
    (∀ block ∈ P.parts, Form C true F.other block (value block)) ∧
    q = F.total P.parts fun block => F.flip (flips block) (value block)

/-- A formula of the other family is a single group. -/
theorem Form.grouped_single (h : Form C true F.other s q) : Grouped C F s q := by
  have hs : s ≠ ⊥ := h.nonempty.ne_empty
  refine ⟨.indiscrete hs, fun _ => false, fun _ => q, ⟨s, mem_singleton_self s, rfl⟩, ?_, ?_⟩
  · intro block hblock
    rwa [mem_singleton.mp hblock]
  · rw [Finpartition.indiscrete, Family.total_singleton, Family.flip_false]

/-- A formula is a total over groups in both families. -/
theorem Form.grouped {F' : Family} (h : Form C true F' s q) (F : Family) : Grouped C F s q := by
  by_cases hF : F' = F
  · subst hF
    obtain ⟨x, rfl, rfl⟩ | ⟨-, P, flips, value, -, hflips, hvalue, heq⟩ := h.single_or_groups
    · exact (Form.single F'.other x).grouped_single
    · exact ⟨P, flips, value, hflips.upright, hvalue, heq⟩
  · have hother : F' = F.other := by
      cases F <;> cases F' <;> first | rfl | exact absurd rfl hF
    exact (hother ▸ h).grouped_single

/-- A total over groups is a formula of its family, or of the other one if there is only one group. -/
theorem Grouped.exists_form (h : Grouped C F s q) : ∃ F', Form C true F' s q := by
  obtain ⟨P, flips, value, ⟨first, hfirst, hupright⟩, hvalue, rfl⟩ := h
  by_cases hmany : 2 ≤ #P.parts
  · exact ⟨F, .groups P flips value hmany ⟨⟨first, hfirst, hupright⟩, fun _ h => absurd h (by decide)⟩ hvalue⟩
  · have hone : P.parts = {first} :=
      eq_singleton_iff_unique_mem.mpr
        ⟨hfirst, fun block hblock => card_le_one.mp (by omega) block hblock first hfirst⟩
    have hs : first = s := by
      rw [← P.sup_parts, hone, sup_singleton, id]
    have hvalue_eq : F.total P.parts (fun block => F.flip (flips block) (value block)) = value first := by
      rw [hone, Family.total_singleton, hupright, Family.flip_false]
    rw [hvalue_eq, ← hs]
    exact ⟨F.other, hvalue first hfirst⟩

/-- The blocks of two partitions of disjoint sets. -/
def unionBlocks (P : Finpartition s) (P' : Finpartition t) (hdisjoint : Disjoint s t) :
    Finpartition (s ∪ t) where
  parts := P.parts ∪ P'.parts
  supIndep := by
    rw [supIndep_iff_pairwiseDisjoint, coe_union]
    refine (Set.pairwiseDisjoint_union).mpr ⟨P.disjoint, P'.disjoint, fun block hblock block' hblock' _ => ?_⟩
    exact hdisjoint.mono (P.le hblock) (P'.le hblock')
  sup_parts := by rw [sup_union, P.sup_parts, P'.sup_parts]; rfl
  bot_notMem := by
    rw [mem_union]
    exact not_or.mpr ⟨P.bot_notMem, P'.bot_notMem⟩

/-- Partitions of disjoint sets have no block in common. -/
theorem disjoint_parts (P : Finpartition s) (P' : Finpartition t) (hdisjoint : Disjoint s t) :
    Disjoint P.parts P'.parts := by
  rw [disjoint_left]
  intro block hblock hblock'
  exact P.ne_bot hblock (disjoint_self.mp (hdisjoint.mono (P.le hblock) (P'.le hblock')))

/-- Totals over groups are joined to a total over all of them, and to flip the second one is to flip its
groups. -/
theorem Grouped.join (h : Grouped C F s p) (h' : Grouped C F t q) (hdisjoint : Disjoint s t)
    (flipped : Bool) : Grouped C F (s ∪ t) (F.join p (F.flip flipped q)) := by
  obtain ⟨P, flips, value, ⟨first, hfirst, hupright⟩, hvalue, rfl⟩ := h
  obtain ⟨P', flips', value', -, hvalue', rfl⟩ := h'
  have hparts := disjoint_parts P P' hdisjoint
  have hright (block : Finset σ) (hblock : block ∈ P'.parts) : block ∉ P.parts :=
    disjoint_right.mp hparts hblock
  refine ⟨unionBlocks P P' hdisjoint, P.parts.piecewise flips fun block => flipped ^^ flips' block,
    P.parts.piecewise value value', ⟨first, mem_union_left _ hfirst, ?_⟩, fun block hblock => ?_, ?_⟩
  · rwa [piecewise_eq_of_mem _ _ _ hfirst]
  · by_cases hleft : block ∈ P.parts
    · rw [piecewise_eq_of_mem _ _ _ hleft]
      exact hvalue block hleft
    · rw [piecewise_eq_of_notMem _ _ _ hleft]
      exact hvalue' block ((mem_union.mp hblock).resolve_left hleft)
  · rw [unionBlocks, Family.total_union hparts, Family.flip_total]
    congr 1
    · refine Family.total_congr fun block hblock => ?_
      simp only [piecewise_eq_of_mem _ _ _ hblock]
    · refine Family.total_congr fun block hblock => ?_
      simp only [piecewise_eq_of_notMem _ _ _ (hright block hblock), Family.flip_flip]

/-- A tree in which no slot comes twice has a value, and the value has a form. -/
theorem ArithmeticTree.exists_form (C : Coordinates σ K) (tree : ArithmeticTree σ) (hnodup : tree.slots.Nodup) :
    ∃ q F, tree.eval C.var = some q ∧ Form C true F tree.slots.toFinset q := by
  induction tree with
  | slot x => exact ⟨C.var x, .sum, rfl, .single .sum x⟩
  | node op left right ihl ihr =>
    obtain ⟨hleft, hright, hdisjoint⟩ := List.nodup_append'.mp hnodup
    obtain ⟨p, F, hp, hform⟩ := ihl hleft
    obtain ⟨q, F', hq, hform'⟩ := ihr hright
    obtain ⟨F'', hresult⟩ := ((hform.grouped op.family).join (hform'.grouped op.family)
      (List.disjoint_toFinset_iff_disjoint.mpr hdisjoint) op.flips).exists_form
    refine ⟨_, F'', ?_, by rwa [slots, List.toFinset_append]⟩
    rw [eval, hp, hq]
    exact op.apply_eq p hform'.ne_zero

/-- A value that some tree with every slot of a set once has. -/
def Denoted (C : Coordinates σ K) (s : Finset σ) (q : K) : Prop :=
  ∃ tree : ArithmeticTree σ, tree.slots.Nodup ∧ tree.slots.toFinset = s ∧ tree.eval C.var = some q

/-- What two trees denote over disjoint slots is joined by one more operator. -/
theorem Denoted.join (h : Denoted C s p) (h' : Denoted C t q) (hdisjoint : Disjoint s t) (F : Family)
    (flipped : Bool) (hq : q ≠ 0) : Denoted C (s ∪ t) (F.join p (F.flip flipped q)) := by
  obtain ⟨left, hleft, rfl, hp⟩ := h
  obtain ⟨right, hright, rfl, hq_eval⟩ := h'
  refine ⟨.node (.ofFamily F flipped) left right, ?_, List.toFinset_append, ?_⟩
  · exact List.nodup_append'.mpr ⟨hleft, hright, List.disjoint_toFinset_iff_disjoint.mp hdisjoint⟩
  · rw [ArithmeticTree.eval, hp, hq_eval]
    simpa using (Operation.ofFamily F flipped).apply_eq p hq

/-- Every form is the value of a tree. -/
theorem Form.denoted (h : Form C true F s q) : Denoted C s q := by
  induction h with
  | single F x => exact ⟨.slot x, List.nodup_singleton x, rfl, rfl⟩
  | @groups F s P flips value hmany hflips hvalue ih =>
    obtain ⟨first, hfirst, hupright⟩ := hflips.upright
    -- from a group that is not flipped to all groups, by induction on those that are added to it
    have hpart (rest : Finset (Finset σ)) (hrest : rest ⊆ P.parts.erase first) :
        Denoted C ((insert first rest).sup id)
          (F.total (insert first rest) fun block => F.flip (flips block) (value block)) := by
      induction rest using Finset.induction_on with
      | empty =>
        rw [insert_empty_eq, sup_singleton, id, Family.total_singleton, hupright, Family.flip_false]
        exact ih first hfirst
      | insert block rest hnew ihrest =>
        obtain ⟨hblock, hrest⟩ := insert_subset_iff.mp hrest
        obtain ⟨hne, hblock⟩ := mem_erase.mp hblock
        have hnew' : block ∉ insert first rest := by
          rw [mem_insert]
          exact not_or.mpr ⟨hne, hnew⟩
        have hsubset : insert first rest ⊆ P.parts :=
          insert_subset hfirst (hrest.trans (erase_subset first P.parts))
        have hdisjoint : Disjoint ((insert first rest).sup id) block :=
          (P.supIndep hsubset hblock hnew').symm
        rw [insert_comm, Family.total_insert hnew', sup_insert, Family.join_comm, sup_comm]
        exact (ihrest hrest).join (ih block hblock) hdisjoint F (flips block) (hvalue block hblock).ne_zero
    have hall := hpart _ subset_rfl
    rwa [insert_erase hfirst, P.sup_parts] at hall

end Formulary.Census
