import Formulary.Formula.Tree
import Formulary.Proofs.Formula.Transplant

/-!
# Formulas and the trees they are built from

Starting from the slot alone, relabelling and combining build formulas and trees side by side. The
formula that goes with a tree is the postfix form of the tree, and every tree is reached. In the
other direction a formula whose shape is balanced and meets as many slots and codes as it asks for
is the postfix form of a tree: the trees that are still to be combined are kept on a stack, and
what is written down so far is their postfix forms one behind the other.
-/

namespace Formulary

namespace Tree

/-- Rename every slot `s` at a leaf to the entry `s` of a list. -/
def relabel (mapping : List UInt8) : Tree → Tree
  | leaf slot => leaf (mapping.getD slot.toNat 0)
  | node code left right => node code (left.relabel mapping) (right.relabel mapping)

/-- A formula is built the way a tree is put together. -/
inductive Builds : Tree → Formula → Prop
  | operand : Builds (leaf 0) Formula.operand
  | relabel {t : Tree} {f g : Formula} {mapping : List UInt8} (built : Builds t f)
      (relabelled : f.relabel mapping = .ok g) : Builds (t.relabel mapping) g
  | combine {left right : Tree} {f g : Formula} (code : UInt8) (first : Builds left f)
      (second : Builds right g) : Builds (node code left right) (Formula.combine f g code)

variable {t left right : Tree} {f g : Formula} {mapping : List UInt8}

/-- The postfix form of a tree with renamed leaves. -/
theorem toFormula_relabel (t : Tree) (mapping : List UInt8) :
    (t.relabel mapping).toFormula = t.toFormula.placeOn mapping := by
  induction t with
  | leaf slot => rfl
  | node code left right ihLeft ihRight =>
    rw [relabel, toFormula_node, ihLeft, ihRight, toFormula_node]
    simp [Formula.combine, Formula.placeOn]

/-- Whatever is built with a tree is the postfix form of the tree. -/
theorem Builds.eq_toFormula (h : Builds t f) : f = t.toFormula := by
  induction h with
  | operand => rfl
  | relabel built relabelled ih =>
    subst ih
    rw [toFormula_relabel]
    exact (Formula.relabel_eq_ok_iff.mp relabelled).2
  | combine code first second ihFirst ihSecond => rw [toFormula_node, ihFirst, ihSecond]

/-- The postfix form of every tree can be built. -/
theorem builds_toFormula (t : Tree) : Builds t t.toFormula := by
  induction t with
  | leaf slot =>
    have hslot : Formula.operand.relabel [slot] = .ok (leaf slot).toFormula := rfl
    exact Builds.relabel Builds.operand hslot
  | node code left right ihLeft ihRight => exact Builds.combine code ihLeft ihRight

end Tree

namespace Formula

/-- A formula that is the postfix form of a tree. -/
def IsPostfix (f : Formula) : Prop :=
  ∃ t : Tree, t.toFormula = f

/-- Trees on a stack, the topmost first, are combined to one tree by a shape that goes through. -/
theorem exists_tree_of_depthAfter {shape : List Bool} {slots codes : List UInt8} {stack : List Tree}
    (hdepth : depthAfter stack.length shape = some 1) (hslots : slots.length = shape.count true)
    (hcodes : codes.length = shape.count false) :
    ∃ t : Tree, t.toFormula = ⟨stack.reverse.flatMap Tree.slots ++ slots,
      stack.reverse.flatMap Tree.codes ++ codes, stack.reverse.flatMap Tree.shape ++ shape⟩ := by
  induction shape generalizing slots codes stack with
  | nil =>
    obtain ⟨t, rfl⟩ := List.length_eq_one_iff.mp (Option.some.inj hdepth)
    obtain rfl := List.length_eq_zero_iff.mp hslots
    obtain rfl := List.length_eq_zero_iff.mp hcodes
    exact ⟨t, by simp [Tree.toFormula]⟩
  | cons push rest ih =>
    cases push with
    | true =>
      cases slots with
      | nil => simp at hslots
      | cons slot slots =>
        have hpush : depthAfter (Tree.leaf slot :: stack).length rest = some 1 := hdepth
        obtain ⟨t, ht⟩ := ih hpush (by simpa using hslots) (by simpa using hcodes)
        exact ⟨t, by simpa [Tree.slots, Tree.codes, Tree.shape] using ht⟩
    | false =>
      obtain ⟨htwo, hrest⟩ := depthAfter_pop_eq_some hdepth
      match stack, htwo, hrest with
      | right :: left :: stack, _, hrest =>
        cases codes with
        | nil => simp at hcodes
        | cons code codes =>
          have hpop : depthAfter (Tree.node code left right :: stack).length rest = some 1 := hrest
          obtain ⟨t, ht⟩ := ih hpop (by simpa using hslots) (by simpa using hcodes)
          exact ⟨t, by simpa [Tree.slots, Tree.codes, Tree.shape] using ht⟩

/-- A valid formula is the postfix form of a tree. -/
theorem Valid.isPostfix {f : Formula} (h : f.Valid) : f.IsPostfix := by
  have hbalanced : depthAfter ([] : List Tree).length f.shape = some 1 := h.balanced
  exact exists_tree_of_depthAfter hbalanced h.count_push.symm h.count_pop.symm

/-- Putting a formula on the slots of a list does not touch its shape. -/
theorem IsPostfix.placeOn {f : Formula} (h : f.IsPostfix) (mapping : List UInt8) :
    (f.placeOn mapping).IsPostfix := by
  obtain ⟨t, rfl⟩ := h
  exact ⟨t.relabel mapping, t.toFormula_relabel mapping⟩

end Formula

end Formulary
