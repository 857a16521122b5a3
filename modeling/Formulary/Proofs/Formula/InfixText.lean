import Formulary.Formula.Rendering
import Formulary.Proofs.Decimal
import Formulary.Proofs.Formula.Grammar
import Formulary.Proofs.Formula.TreeEvaluation

/-!
# Reading infix texts back

The text of a formula is the fully parenthesised text of its tree, since rendering keeps the texts of
the operands on a stack as the evaluation keeps their values. A text begins with a parenthesis if the tree
has a node and with a letter if it is a leaf, so it can be taken apart from the left. Only slots with a
number in their name have to be told from what stands behind: a name ends where the next character is no
digit, and the letter `x` alone is the slot with that letter. What follows an operand is the name of an
operator, a closing parenthesis or nothing. So no operator may be named by a digit, and if no two have the
same name, a text belongs to one formula only. An operator named by a letter or by a parenthesis does no
harm.
-/

namespace Formulary

variable {table : OperatorTable}

/-- The name of the operator with a code. -/
def OperatorTable.nameOf (table : OperatorTable) (code : UInt8) : Char :=
  (table.operators[code.toNat]?.map Operator.name).getD ' '

/-- The fully parenthesised infix text of a tree. -/
def Tree.infixText (table : OperatorTable) : Tree → String
  | leaf slot => Formula.slotLabel slot
  | node code left right =>
    "(" ++ left.infixText table ++ String.singleton (table.nameOf code) ++ right.infixText table ++ ")"

namespace OperatorTable

/-- A code of the table has an operator, whose name is shown for it. -/
theorem get_eq_ok_nameOf {code : UInt8} (hcode : code.toNat < table.size) :
    ∃ op ∈ table.operators, table.get code = .ok op ∧ op.name = table.nameOf code := by
  have hop := List.getElem?_eq_getElem hcode
  refine ⟨_, List.getElem_mem hcode, get_eq_ok hcode, ?_⟩
  simp only [nameOf, hop, Option.map_some, Option.getD_some]

/-- Operators with different names have known codes that can be told apart by them. -/
theorem nameOf_inj (hnames : (table.operators.map Operator.name).Nodup) {code other : UInt8}
    (hcode : code.toNat < table.size) (hother : other.toNat < table.size)
    (h : table.nameOf code = table.nameOf other) : code = other := by
  have hfound := List.getElem?_eq_getElem hcode
  have hfound' := List.getElem?_eq_getElem hother
  simp only [nameOf, hfound, hfound', Option.map_some, Option.getD_some] at h
  have hplace : code.toNat < (table.operators.map Operator.name).length := by
    simpa [size] using hcode
  have hplace' : other.toNat < (table.operators.map Operator.name).length := by
    simpa [size] using hother
  have hentry : (table.operators.map Operator.name)[code.toNat] =
      (table.operators.map Operator.name)[other.toNat] := by
    rw [List.getElem_map, List.getElem_map]
    exact h
  exact UInt8.toNat_inj.mp ((List.Nodup.getElem_inj_iff hnames).mp hentry)

end OperatorTable

namespace Formula

/-- Rendering a program that begins with the postfix form of a tree puts the text of the tree on the stack,
then renders the rest. -/
theorem renderFrom_toFormula_append {t : Tree} (hcodes : ∀ code ∈ t.codes, code.toNat < table.size)
    (shape : List Bool) (slots codes : List UInt8) (stack : List String) :
    renderFrom table (fun slot => some (slotLabel slot)) (t.shape ++ shape) (t.slots ++ slots)
        (t.codes ++ codes) stack =
      renderFrom table (fun slot => some (slotLabel slot)) shape slots codes
        (t.infixText table :: stack) := by
  induction t generalizing shape slots codes stack with
  | leaf slot => rfl
  | node code left right ihLeft ihRight =>
    have hleft : ∀ code ∈ left.codes, code.toNat < table.size := fun code h =>
      hcodes code (by simp [Tree.codes, h])
    have hright : ∀ code ∈ right.codes, code.toNat < table.size := fun code h =>
      hcodes code (by simp [Tree.codes, h])
    obtain ⟨op, -, hop, hname⟩ := table.get_eq_ok_nameOf (hcodes code (by simp [Tree.codes]))
    simp only [Tree.shape, Tree.slots, Tree.codes, List.append_assoc]
    rw [ihLeft hleft, ihRight hright]
    simp only [List.singleton_append, renderFrom, hop, hname, Tree.infixText]

/-- The text of a postfix form is that of its tree. -/
theorem render_toFormula {t : Tree} (hcodes : ∀ code ∈ t.codes, code.toNat < table.size) :
    t.toFormula.render table = some (t.infixText table) := by
  have h := renderFrom_toFormula_append hcodes [] [] [] []
  simp only [List.append_nil] at h
  exact h

/-- The name of a slot is a letter, or the letter `x` with a number behind it. -/
theorem toList_slotLabel (slot : UInt8) : (slotLabel slot).toList =
    if slot < 26 then [Char.ofNat (97 + slot.toNat)] else 'x' :: Nat.toDigits 10 slot.toNat := by
  unfold slotLabel
  split
  · simp
  · simp

/-- The letters from `a` on are different, and none is a parenthesis. -/
theorem letters_inj : (∀ m < 26, ∀ n < 26, Char.ofNat (97 + m) = Char.ofNat (97 + n) → m = n) ∧
    ∀ n < 26, Char.ofNat (97 + n) ≠ '(' := by decide

/-- Names of slots can be told apart even where a further text stands behind them. -/
theorem slotLabel_append_inj {slot other : UInt8} {text text' : List Char} (h : NoDigitAhead text)
    (h' : NoDigitAhead text')
    (heq : (slotLabel slot).toList ++ text = (slotLabel other).toList ++ text') :
    slot = other ∧ text = text' := by
  rw [toList_slotLabel, toList_slotLabel] at heq
  -- a letter is taken for another name only if it is `x` and a number stands behind it
  split at heq
  · next hslot =>
    split at heq
    · next hother =>
      obtain ⟨hletter, htext⟩ := List.cons.inj heq
      exact ⟨UInt8.toNat_inj.mp (letters_inj.1 _ hslot _ hother hletter), htext⟩
    · exact absurd (List.cons.inj heq).2 (h.ne_toDigits_append _ _)
  · split at heq
    · exact absurd (List.cons.inj heq).2.symm (h'.ne_toDigits_append _ _)
    · obtain ⟨hslot, htext⟩ := toDigits_append_inj h h' (List.cons.inj heq).2
      exact ⟨UInt8.toNat_inj.mp hslot, htext⟩

/-- A name of a slot does not begin with a parenthesis. -/
theorem slotLabel_append_ne (slot : UInt8) (text other : List Char) :
    (slotLabel slot).toList ++ text ≠ '(' :: other := by
  intro heq
  rw [toList_slotLabel] at heq
  split at heq
  · next hslot => exact letters_inj.2 _ hslot (List.cons.inj heq).1
  · exact absurd (List.cons.inj heq).1 (by decide)

end Formula

namespace Tree

/-- The text of a node, character by character. -/
theorem toList_infixText_node (code : UInt8) (left right : Tree) :
    ((node code left right).infixText table).toList = '(' :: ((left.infixText table).toList ++
      table.nameOf code :: ((right.infixText table).toList ++ [')'])) := by
  simp [infixText]

/-- Texts of trees can be told apart even where a further text stands behind them. -/
theorem infixText_append_inj {t u : Tree} {text text' : List Char}
    (hnames : (table.operators.map Operator.name).Nodup)
    (hdigits : ∀ op ∈ table.operators, op.name.isDigit = false)
    (ht : ∀ code ∈ t.codes, code.toNat < table.size)
    (hu : ∀ code ∈ u.codes, code.toNat < table.size) (h : NoDigitAhead text)
    (h' : NoDigitAhead text')
    (heq : (t.infixText table).toList ++ text = (u.infixText table).toList ++ text') :
    t = u ∧ text = text' := by
  induction t generalizing u text text' with
  | leaf slot =>
    cases u with
    | leaf other =>
      obtain ⟨rfl, htext⟩ := Formula.slotLabel_append_inj h h' heq
      exact ⟨rfl, htext⟩
    | node code left right =>
      rw [toList_infixText_node] at heq
      exact absurd heq (Formula.slotLabel_append_ne _ _ _)
  | node code left right ihLeft ihRight =>
    cases u with
    | leaf other =>
      rw [toList_infixText_node] at heq
      exact absurd heq.symm (Formula.slotLabel_append_ne _ _ _)
    | node other left' right' =>
      have hname (code : UInt8) (hcode : code.toNat < table.size) (rest : List Char) :
          NoDigitAhead (table.nameOf code :: rest) := by
        obtain ⟨op, hop, -, hname⟩ := table.get_eq_ok_nameOf hcode
        exact noDigitAhead_cons rest (hname ▸ hdigits op hop)
      have hcode : code.toNat < table.size := ht code (by simp [codes])
      have hother : other.toNat < table.size := hu other (by simp [codes])
      simp only [toList_infixText_node, List.cons_append, List.append_assoc, List.nil_append,
        List.cons.injEq, true_and] at heq
      obtain ⟨rfl, hbehind⟩ := ihLeft (fun code h => ht code (by simp [codes, h]))
        (fun code h => hu code (by simp [codes, h])) (hname code hcode _) (hname other hother _) heq
      obtain ⟨hnameEq, hright⟩ := List.cons.inj hbehind
      obtain rfl := table.nameOf_inj hnames hcode hother hnameEq
      obtain ⟨rfl, hclosing⟩ := ihRight (fun code h => ht code (by simp [codes, h]))
        (fun code h => hu code (by simp [codes, h])) (noDigitAhead_cons _ (by decide))
        (noDigitAhead_cons _ (by decide)) hright
      exact ⟨rfl, (List.cons.inj hclosing).2⟩

end Tree

namespace Formula

/-- Every formula that is obtained by splicing and renaming with known codes has a text, the fully
parenthesised text of the tree whose value it evaluates to. If the operators have different names, none of
them a digit, then formulas with the same text are the same. -/
theorem render_unambiguous (table : OperatorTable) :
    (∀ f : Formula, f.Obtained → (∀ code ∈ f.codes, code.toNat < table.size) →
      ∃ t : Tree, t.toFormula = f ∧ f.render table = some (t.infixText table) ∧
        ∀ values : List Float, f.evaluateRaw table values =
          answerOf values.length (t.evaluate table values)) ∧
    ((table.operators.map Operator.name).Nodup →
      (∀ op ∈ table.operators, op.name.isDigit = false) →
      ∀ f g : Formula, f.Obtained → g.Obtained → (∀ code ∈ f.codes, code.toNat < table.size) →
        (∀ code ∈ g.codes, code.toNat < table.size) → f.render table = g.render table → f = g) := by
  refine ⟨fun f hf hcodes => ?_, fun hnames hdigits f g hf hg hcodes hcodes' heq => ?_⟩
  · obtain ⟨t, rfl⟩ := hf.isPostfix
    exact ⟨t, rfl, render_toFormula hcodes, fun values => evaluateRaw_toFormula t⟩
  · obtain ⟨t, rfl⟩ := hf.isPostfix
    obtain ⟨u, rfl⟩ := hg.isPostfix
    rw [render_toFormula hcodes, render_toFormula hcodes', Option.some.injEq] at heq
    have htexts : (t.infixText table).toList ++ [] = (u.infixText table).toList ++ [] := by rw [heq]
    obtain ⟨rfl, -⟩ := Tree.infixText_append_inj hnames hdigits hcodes hcodes' noDigitAhead_nil
      noDigitAhead_nil htexts
    rfl

/-- The text of a difference of the slots 26 and 23, in which `x` stands for a slot and begins the name of
another, belongs to one formula, however that is put together, and not to the difference in the other
order. -/
theorem render_unambiguous_difference :
    let difference : Formula := ⟨[26, 23], [1], [true, true, false]⟩
    let spliced : Formula := combine ⟨[26], [], [true]⟩ ⟨[23], [], [true]⟩ 1
    let exchanged : Formula := ⟨[23, 26], [1], [true, true, false]⟩
    difference.render .arithmetic = some "(x26-x)" ∧ exchanged.render .arithmetic = some "(x-x26)" ∧
      difference = spliced ∧ difference.render .arithmetic ≠ exchanged.render .arithmetic := by
  intro difference spliced exchanged
  have hdifference : difference.Obtained :=
    obtained_iff_isPostfix.mpr ⟨.node 1 (.leaf 26) (.leaf 23), rfl⟩
  have hspliced : spliced.Obtained := hdifference
  have hexchanged : exchanged.Obtained :=
    obtained_iff_isPostfix.mpr ⟨.node 1 (.leaf 23) (.leaf 26), rfl⟩
  have hcodes : ∀ code ∈ ([1] : List UInt8), code.toNat < OperatorTable.arithmetic.size := by
    decide +kernel
  have hnames : (OperatorTable.arithmetic.operators.map Operator.name).Nodup := by decide
  have hdigits : ∀ op ∈ OperatorTable.arithmetic.operators, op.name.isDigit = false := by
    simp [OperatorTable.arithmetic]
  obtain ⟨htext, hunique⟩ := render_unambiguous .arithmetic
  refine ⟨by decide +kernel, by decide +kernel, ?_, ?_⟩
  · exact hunique hnames hdigits difference spliced hdifference hspliced hcodes hcodes rfl
  · intro heq
    exact absurd (hunique hnames hdigits _ _ hdifference hexchanged hcodes hcodes heq) (by decide)

end Formula

end Formulary
