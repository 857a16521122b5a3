import Formulary.Proofs.Formula.Trees

/-!
# The grammar of formulas

The three lists of a formula are a way to write a tree down, and the tree can be read off again:
the last pop of a shape belongs to the root, and since two balanced shapes can be told apart, what
stands before it is cut in one place only. So different trees have different postfix forms. The
check of the three lists lets through the postfix forms of the trees on at most 255 leaves that
hold every slot below their number once. Splicing and renaming leave that grammar only in the
slots, which may repeat then: what they make is still the postfix form of one tree.
-/

namespace Formulary

namespace Tree

/-- The number of leaves. -/
def leaves (t : Tree) : ℕ :=
  t.slots.length

variable {t u : Tree}

/-- A node has the leaves of both operands. -/
theorem leaves_node (code : UInt8) (left right : Tree) :
    (node code left right).leaves = left.leaves + right.leaves :=
  List.length_append

/-- A tree has a leaf. -/
theorem leaves_pos (t : Tree) : 1 ≤ t.leaves := by
  induction t with
  | leaf slot => exact Nat.le_refl 1
  | node code left right ihLeft _ =>
    rw [leaves_node]
    exact Nat.le_add_right_of_le ihLeft

/-- A tree has one node less than it has leaves. -/
theorem length_codes (t : Tree) : t.codes.length + 1 = t.leaves := by
  induction t with
  | leaf slot => rfl
  | node code left right ihLeft ihRight =>
    rw [leaves_node, codes, List.length_append, List.length_append, List.length_singleton]
    omega

/-- The postfix walk meets every leaf and every node. -/
theorem length_shape (t : Tree) : t.shape.length + 1 = 2 * t.leaves := by
  induction t with
  | leaf slot => rfl
  | node code left right ihLeft ihRight =>
    rw [leaves_node, shape, List.length_append, List.length_append, List.length_singleton]
    omega

/-- The postfix walk over a tree is balanced. -/
theorem balanced_shape (t : Tree) : Formula.Balanced t.shape := by
  induction t with
  | leaf slot => rfl
  | node code left right ihLeft ihRight => exact ihLeft.combine ihRight

/-- Trees with one shape have equally many leaves. -/
theorem leaves_eq_of_shape_eq (h : t.shape = u.shape) : t.leaves = u.leaves := by
  have ht := t.length_shape
  have hu := u.length_shape
  rw [h] at ht
  omega

/-- A leaf is written down in another way than a node. -/
theorem shape_leaf_ne (slot code : UInt8) (left right : Tree) :
    (leaf slot).shape ≠ (node code left right).shape := by
  intro h
  have hleaves := leaves_eq_of_shape_eq h
  have hleft := left.leaves_pos
  have hright := right.leaves_pos
  have hone : (leaf slot).leaves = 1 := rfl
  rw [leaves_node] at hleaves
  omega

/-- The parts of two nodes that are written down in one way. -/
theorem toFormula_node_inj {code code' : UInt8} {left right left' right' : Tree}
    (h : (node code left right).toFormula = (node code' left' right').toFormula) :
    code = code' ∧ left.toFormula = left'.toFormula ∧ right.toFormula = right'.toFormula := by
  obtain ⟨hslots, hcodes, hshape⟩ := Formula.mk.injEq .. ▸ h
  -- The shapes are cut where the first balanced shape ends, and the other lists by its length.
  obtain ⟨hshapeLeft, hshapeRight⟩ := left.balanced_shape.append_inj right.balanced_shape
    left'.balanced_shape right'.balanced_shape (List.append_cancel_right hshape)
  have hleaves : left.slots.length = left'.slots.length := leaves_eq_of_shape_eq hshapeLeft
  have hnodes : left.codes.length = left'.codes.length := by
    have hleft := left.length_codes
    have hleft' := left'.length_codes
    unfold leaves at hleft hleft'
    omega
  obtain ⟨hslotsLeft, hslotsRight⟩ := List.append_inj hslots hleaves
  obtain ⟨hcodesBoth, hcode⟩ := List.append_inj' hcodes rfl
  obtain ⟨hcodesLeft, hcodesRight⟩ := List.append_inj hcodesBoth hnodes
  refine ⟨List.singleton_inj.mp hcode, ?_, ?_⟩
  · exact Formula.mk.injEq .. ▸ ⟨hslotsLeft, hcodesLeft, hshapeLeft⟩
  · exact Formula.mk.injEq .. ▸ ⟨hslotsRight, hcodesRight, hshapeRight⟩

/-- Different trees have different postfix forms. -/
theorem toFormula_injective : Function.Injective toFormula := by
  intro t
  induction t with
  | leaf slot =>
    intro u h
    cases u with
    | leaf slot' =>
      have hslots : [slot] = [slot'] := congrArg Formula.slots h
      rw [List.singleton_inj.mp hslots]
    | node code left right =>
      exact absurd (congrArg Formula.shape h) (shape_leaf_ne slot code left right)
  | node code left right ihLeft ihRight =>
    intro u h
    cases u with
    | leaf slot =>
      exact absurd (congrArg Formula.shape h).symm (shape_leaf_ne slot code left right)
    | node code' left' right' =>
      obtain ⟨rfl, hleft, hright⟩ := toFormula_node_inj h
      rw [ihLeft hleft, ihRight hright]

/-- A tree on a number of leaves that a formula may have, which hold each slot below it once. -/
structure Numbered (t : Tree) : Prop where
  pos : 1 ≤ t.leaves
  le : t.leaves ≤ 255
  slots_perm : t.slots.Perm (slotsBelow t.leaves)

/-- The postfix form of a tree is valid exactly when the leaves are numbered. -/
theorem valid_toFormula_iff : t.toFormula.Valid ↔ t.Numbered := by
  constructor
  · intro h
    exact ⟨h.pos, h.le, h.slots_perm⟩
  · intro h
    have hcodes := t.length_codes
    have hshape := t.length_shape
    exact ⟨h.pos, h.le, Nat.eq_sub_of_add_eq hcodes, Nat.eq_sub_of_add_eq hshape, h.slots_perm,
      t.balanced_shape⟩

end Tree

namespace Formula

variable {f : Formula}

/-- What can be obtained from the slot alone and from checked lists by splicing and renaming. -/
inductive Obtained : Formula → Prop
  | operand : Obtained operand
  | ofParts {slots codes : List UInt8} {shape : List Bool} {f : Formula}
      (made : ofParts slots codes shape = .ok f) : Obtained f
  | combine {left right : Formula} (code : UInt8) (first : Obtained left)
      (second : Obtained right) : Obtained (combine left right code)
  | relabel {f g : Formula} {mapping : List UInt8} (obtained : Obtained f)
      (relabelled : f.relabel mapping = .ok g) : Obtained g

/-- A splice of postfix forms is a postfix form. -/
theorem IsPostfix.combine {left right : Formula} (hleft : left.IsPostfix)
    (hright : right.IsPostfix) (code : UInt8) : (combine left right code).IsPostfix := by
  obtain ⟨t, rfl⟩ := hleft
  obtain ⟨u, rfl⟩ := hright
  exact ⟨.node code t u, Tree.toFormula_node code t u⟩

/-- Whatever is obtained is the postfix form of a tree. -/
theorem Obtained.isPostfix (h : f.Obtained) : f.IsPostfix := by
  induction h with
  | operand => exact ⟨.leaf 0, Tree.toFormula_leaf_zero⟩
  | ofParts made => exact (ofParts_eq_ok_iff.mp made).2.isPostfix
  | combine code first second ihFirst ihSecond => exact ihFirst.combine ihSecond code
  | relabel obtained relabelled ih =>
    rw [(relabel_eq_ok_iff.mp relabelled).2]
    exact ih.placeOn _

/-- What is built along a tree is obtained. -/
theorem obtained_of_builds {t : Tree} (h : t.Builds f) : f.Obtained := by
  induction h with
  | operand => exact .operand
  | relabel built relabelled ih => exact .relabel ih relabelled
  | combine code first second ihFirst ihSecond => exact .combine code ihFirst ihSecond

/-- The postfix form of every tree is obtained, and nothing else is. -/
theorem obtained_iff_isPostfix : f.Obtained ↔ f.IsPostfix := by
  constructor
  · exact Obtained.isPostfix
  · rintro ⟨t, rfl⟩
    exact obtained_of_builds t.builds_toFormula

/-- Lists pass the check exactly if they are the postfix form of a tree with numbered leaves. -/
theorem ofParts_eq_ok_iff_exists_tree {slots codes : List UInt8} {shape : List Bool} :
    ofParts slots codes shape = .ok f ↔
      f = ⟨slots, codes, shape⟩ ∧ ∃ t : Tree, t.Numbered ∧ t.toFormula = f := by
  rw [ofParts_eq_ok_iff]
  refine and_congr_right fun _ => ⟨fun hvalid => ?_, ?_⟩
  · obtain ⟨t, rfl⟩ := hvalid.isPostfix
    exact ⟨t, Tree.valid_toFormula_iff.mp hvalid, rfl⟩
  · rintro ⟨t, hnumbered, rfl⟩
    exact Tree.valid_toFormula_iff.mpr hnumbered

/-- A beginning of a balanced shape leaves an entry on the stack, and the whole shape leaves one. -/
theorem Balanced.prefix_counts {shape : List Bool} (h : Balanced shape) :
    (∀ before behind, shape = before ++ behind → before ≠ [] →
        before.count false < before.count true) ∧
      shape.count true = shape.count false + 1 := by
  constructor
  · rintro before behind rfl hne
    unfold Balanced at h
    rw [depthAfter_append] at h
    obtain ⟨between, hbetween, -⟩ := Option.bind_eq_some_iff.mp h
    have hpos := depthAfter_zero_pos hne hbetween
    have hcount := depth_add_count hbetween
    omega
  · have hcount := depth_add_count h
    omega

/-- The three lists of a formula are accepted exactly if they are the leaves, the codes in
post-order and the postfix walk of a tree whose leaves hold each slot below their number once, and
no two trees share them. Whatever is obtained by splicing and renaming is the postfix form of one
tree too, so its lengths fit together and its shape is balanced. -/
theorem ofParts_grammar :
    (∀ slots codes shape f, ofParts slots codes shape = .ok f ↔
      f = ⟨slots, codes, shape⟩ ∧
        ∃ t : Tree, t.Numbered ∧ t.slots = slots ∧ t.codes = codes ∧ t.shape = shape) ∧
    (∀ t u : Tree, t.slots = u.slots → t.codes = u.codes → t.shape = u.shape → t = u) ∧
    ∀ f : Formula, f.Obtained →
      (∃! t : Tree, t.toFormula = f) ∧
      f.codes.length + 1 = f.size ∧ f.shape.length + 1 = 2 * f.size ∧
      (∀ before behind, f.shape = before ++ behind → before ≠ [] →
        before.count false < before.count true) ∧
      f.shape.count true = f.shape.count false + 1 := by
  refine ⟨fun slots codes shape f => ?_, fun t u hslots hcodes hshape => ?_, fun f hf => ?_⟩
  · rw [ofParts_eq_ok_iff_exists_tree]
    refine and_congr_right ?_
    rintro rfl
    simp only [Tree.toFormula, Formula.mk.injEq]
  · exact Tree.toFormula_injective (Formula.mk.injEq .. ▸ ⟨hslots, hcodes, hshape⟩)
  · obtain ⟨t, rfl⟩ := hf.isPostfix
    refine ⟨⟨t, rfl, fun u hu => Tree.toFormula_injective hu⟩, t.length_codes, t.length_shape, ?_⟩
    exact t.balanced_shape.prefix_counts

/-- The lists of `(a + b) * a` are not accepted, since a slot repeats, but its formula is obtained
by splicing and renaming, and it is the postfix form of one tree. -/
theorem ofParts_grammar_repeated_slot :
    ofParts [0, 1, 0] [0, 2] [true, true, false, true, false] =
        .error (.notAPermutation [0, 1, 0]) ∧
      Obtained ⟨[0, 1, 0], [0, 2], [true, true, false, true, false]⟩ ∧
      ∃! t : Tree, t.toFormula = ⟨[0, 1, 0], [0, 2], [true, true, false, true, false]⟩ := by
  have hobtained : Obtained ⟨[0, 1, 0], [0, 2], [true, true, false, true, false]⟩ :=
    obtained_iff_isPostfix.mpr ⟨.node 2 (.node 0 (.leaf 0) (.leaf 1)) (.leaf 0), rfl⟩
  exact ⟨rfl, hobtained, (ofParts_grammar.2.2 _ hobtained).1⟩

end Formula

end Formulary
