import Formulary.Proofs.Formula.Subtrees
import Formulary.Proofs.Generation.Occupied

/-!
# The parts of what is generated

A formula over more than one slot is admitted only as a composition of formulas that are stored over
fewer slots. A proper subtree of its tree is therefore a subtree of an operand, whose leaves are renamed
along the slots of a part, and these stand in increasing order. So renumbering the slots of the subtree
in the formula is renumbering them in the operand, and by strong induction on the number of slots the
renumbered part is stored as well.
-/

namespace Formulary

open Formulary.Tree

variable {table : OperatorTable} {level : ℕ → List Formula} {m : ℕ} {part : Finset ℕ}
  {left right : Formula} {code : UInt8} {s t : Tree}

/-- The slots of a part stand in increasing order. -/
theorem sorted_ascending (hm : m ≤ UInt8.size) (h : part ⊆ Finset.range m) :
    (ascending part).Pairwise (· < ·) :=
  (Permutation.sorted_identity hm).sublist (sublist_slotsBelow_iff.mpr ⟨part, h, rfl⟩)

/-- A subtree of a composition is the whole, or it is a subtree of an operand that was put on a part. -/
theorem Composable.exists_operand_of_mem_subtrees (h : Composable level m part left right)
    (hfits : LevelsFit table level m) (ht : t.toFormula = composed m part left right code)
    (hs : s ∈ t.subtrees) :
    s = t ∨ ∃ (part : Finset ℕ) (other : Formula) (operand s' : Tree),
      Composable level m part operand.toFormula other ∧ s' ∈ operand.subtrees ∧
        s = s'.relabel (ascending part) := by
  obtain ⟨l, rfl⟩ := (h.left_fits hfits).valid.isPostfix
  obtain ⟨r, rfl⟩ := (h.right_fits hfits).valid.isPostfix
  rw [composed, ← toFormula_relabel, ← toFormula_relabel, ← toFormula_node] at ht
  obtain rfl := toFormula_injective ht
  rw [subtrees, List.mem_cons, List.mem_append, subtrees_relabel, subtrees_relabel] at hs
  rcases hs with rfl | hs | hs
  · exact Or.inl rfl
  · obtain ⟨s', hs', rfl⟩ := List.mem_map.mp hs
    exact Or.inr ⟨part, r.toFormula, l, s', h, hs', rfl⟩
  · obtain ⟨s', hs', rfl⟩ := List.mem_map.mp hs
    exact Or.inr ⟨Finset.range m \ part, l.toFormula, r, s', h.swap, hs', rfl⟩

namespace Generation

variable {entropy : Entropy} {request : Request} {levels : Levels}

/-- What is stored was offered. -/
theorem LevelMade.mem_candidates (h : LevelMade entropy request table levels m) {f : Formula}
    (hf : f ∈ formulasAt levels m) : f ∈ candidates table (formulasAt levels) m := by
  rw [h.eq_admissions] at hf
  exact (AdmissionRule.admissions_sublist _ _).subset hf

/-- A formula that is stored over more than one slot is composed of stored ones. -/
theorem LevelMade.exists_composed (h : LevelMade entropy request table levels m) (hm : m ≤ UInt8.size)
    (hmany : m ≠ 1) {f : Formula} (hf : f ∈ formulasAt levels m) :
    ∃ part left right code, Composable (formulasAt levels) m part left right ∧
      f = composed m part left right code := by
  obtain ⟨part, left, right, code, -, hcomposable, -, -, heq⟩ :=
    (mem_candidates_iff hm hmany).mp (h.mem_candidates hf)
  exact ⟨part, left, right, code, hcomposable, heq⟩

/-- The only formula over one slot is the slot. -/
theorem LevelMade.eq_leaf (h : LevelMade entropy request table levels 1)
    (ht : t.toFormula ∈ formulasAt levels 1) : t = leaf 0 := by
  have hcandidate := h.mem_candidates ht
  rw [candidates, if_pos rfl, List.mem_singleton] at hcandidate
  exact toFormula_injective hcandidate

/-- A stored formula is renumbered to itself. -/
theorem LevelMade.placeOn_eq_self (h : LevelMade entropy request table levels m) (hm : m ≤ UInt8.size)
    (ht : t.toFormula ∈ formulasAt levels m) {mapping : List UInt8} (hmapping : Renumbers mapping t.slots) :
    t.toFormula.placeOn mapping = t.toFormula ∧ t.leaves = m := by
  obtain ⟨hsize, hvalid, -⟩ := h.fits _ ht
  have hleaves : t.slots.length = m := hsize
  have hperm : t.slots.Perm (slotsBelow t.slots.length) := hvalid.slots_perm
  have hslots : t.slots.map (fun slot => mapping.getD slot.toNat 0) = t.slots := by
    conv_rhs => rw [← List.map_id t.slots]
    exact List.map_congr_left fun slot hslot => hmapping.eq_self hperm (hleaves.trans_le hm) hslot
  refine ⟨?_, hleaves⟩
  rw [Formula.placeOn, toFormula, hslots]

/-- Every subtree of a stored formula, renumbered from zero on, is stored. -/
theorem mem_formulasAt_of_mem_subtrees {n : ℕ} (hn : n ≤ maxSubsetTotal)
    (hmade : ∀ size, 0 < size → size ≤ n → LevelMade entropy request table levels size)
    (hpos : 0 < m) (hle : m ≤ n) (ht : t.toFormula ∈ formulasAt levels m) (hs : s ∈ t.subtrees)
    {mapping : List UInt8} (hmapping : Renumbers mapping s.slots) :
    s.toFormula.placeOn mapping ∈ formulasAt levels s.leaves := by
  induction m using Nat.strong_induction_on generalizing s t mapping with
  | _ m ih =>
    have hm : m ≤ UInt8.size := (hle.trans hn).trans maxSubsetTotal_le
    by_cases hself : s = t
    · subst hself
      obtain ⟨hsame, hleaves⟩ := (hmade m hpos hle).placeOn_eq_self hm ht hmapping
      rwa [hsame, hleaves]
    · have hmany : m ≠ 1 := by
        rintro rfl
        obtain rfl := (hmade 1 hpos hle).eq_leaf ht
        exact hself (List.mem_singleton.mp hs)
      have hfits : LevelsFit table (formulasAt levels) m :=
        fun size hsize hlt => (hmade size hsize (by omega)).fits
      obtain ⟨_, _, _, code, hcomposed, heq⟩ := (hmade m hpos hle).exists_composed hm hmany ht
      obtain ⟨part, other, operand, s', hoperand, hs', rfl⟩ :=
        (hcomposed.exists_operand_of_mem_subtrees hfits heq hs).resolve_left hself
      -- the slots of the operand are places in its part, in increasing order
      have hvalid := (hoperand.left_fits hfits).valid
      have hroom (slot : UInt8) (hslot : slot ∈ s'.slots) : slot.toNat < (ascending part).length := by
        rw [length_ascending, ← (hoperand.left_fits hfits).size_eq]
        exact hvalid.mem_slots_iff.mp ((slots_sublist hs').subset hslot)
      rw [slots_relabel] at hmapping
      have hoperandMapping := hmapping.comp (sorted_ascending hm hoperand.subset) hroom
      have hstored := ih part.card hoperand.toCut.card_lt hoperand.nonempty.card_pos
        (hoperand.toCut.card_lt.le.trans hle) hoperand.left_mem hs' hoperandMapping
      rwa [toFormula_relabel, leaves_relabel, Formula.placeOn_placeOn hroom]

/-- What is listed for a number of slots is what the store of that level holds. -/
theorem mem_formulasAt_iff {n : ℕ}
    (hmade : ∀ size, 0 < size → size ≤ n → LevelMade entropy request table levels size)
    (hpos : 0 < m) (hle : m ≤ n) {f : Formula} :
    f ∈ formulasAt levels m ↔
      ∃ store formulas, levels[m - 1]? = some store ∧ store.toList = .ok formulas ∧ f ∈ formulas := by
  obtain ⟨store, hstore, hholds, -⟩ := (hmade m hpos hle).holds
  constructor
  · intro hf
    exact ⟨store, formulasAt levels m, hstore, hholds.toList_eq_ok, hf⟩
  · rintro ⟨store', formulas, hstore', hlist, hf⟩
    rwa [formulasAt_eq hstore' hlist]

/-- A run makes one level after the other, and whenever it has made `n` of them each formula that is
stored in one of them is the postfix form of a tree. The slots of any subtree of this tree can be
renumbered from zero on in their order, and the renumbered subtree is stored in the level for as many
slots as it has leaves. -/
theorem subtrees_stored (hvalid : request.validate = .ok ()) :
    generateLevels entropy request table = levelsUpTo entropy request table request.slots ∧
      ∀ n levels warnings, n ≤ request.slots →
        levelsUpTo entropy request table n = (.ok levels, warnings) →
        ∀ m store formulas, 1 ≤ m → levels[m - 1]? = some store → store.toList = .ok formulas →
        ∀ f ∈ formulas, (∃ t : Tree, t.toFormula = f) ∧
          ∀ t : Tree, t.toFormula = f → ∀ s ∈ t.subtrees,
            (∃ mapping, Renumbers mapping s.slots) ∧
              ∀ mapping, Renumbers mapping s.slots →
                ∃ part below kept, s.toFormula.relabel mapping = .ok part ∧
                  levels[s.leaves - 1]? = some below ∧ below.toList = .ok kept ∧ part ∈ kept := by
  obtain ⟨⟨-, hslots⟩, -⟩ := Request.validate_eq_ok_iff.mp hvalid
  have hbound : request.slots ≤ maxSubsetTotal := Nat.le_trans hslots (by decide)
  refine ⟨by rw [generateLevels, hvalid], ?_⟩
  intro n levels warnings hn hrun m store formulas hpos hstore hlist f hf
  obtain ⟨hlength, hmade⟩ := made_of_levelsUpTo (hn.trans hbound) hrun
  have hle : m ≤ n := by
    have hlt := (List.getElem?_eq_some_iff.mp hstore).1
    omega
  have hf' : f ∈ formulasAt levels m := by rwa [formulasAt_eq hstore hlist]
  have hfits := (hmade m hpos hle).fits f hf'
  refine ⟨hfits.valid.isPostfix, ?_⟩
  rintro t rfl s hs
  refine ⟨?_, fun mapping hmapping => ?_⟩
  · have hnodup : t.slots.Nodup := hfits.valid.slots_perm.nodup_iff.mpr
      (Permutation.nodup_identity (hfits.valid.le.trans Formula.maxSlots_le))
    exact exists_renumbers (hnodup.sublist (slots_sublist hs))
  · have hstored := mem_formulasAt_of_mem_subtrees (hn.trans hbound) hmade hpos hle hf' hs hmapping
    have hleaves : s.leaves ≤ m := (slots_sublist hs).length_le.trans hfits.size_eq.le
    obtain ⟨below, kept, hbelow, hkept, hmem⟩ :=
      (mem_formulasAt_iff hmade s.leaves_pos (hleaves.trans hle)).mp hstored
    exact ⟨_, below, kept, Formula.relabel_eq_ok hmapping.room, hbelow, hkept, hmem⟩

/-- Three slots in memory: the last slot of the sum over all of them is stored as the only formula over
one slot. -/
theorem subtrees_stored_threeSlots :
    let request : Request := { slots := 3, policy := { seed := some 7 } }
    let fresh : Entropy := fun _ => Vector.replicate 8 0
    request.validate = .ok () ∧ ∃ levels warnings store formulas,
      levelsUpTo fresh request .arithmetic 3 = (.ok levels, warnings) ∧
        levels[3 - 1]? = some store ∧ store.toList = .ok formulas ∧ (Tree.sum 2).toFormula ∈ formulas ∧
          leaf 2 ∈ (Tree.sum 2).subtrees ∧ Renumbers [0, 0, 0] (leaf 2).slots ∧
            ∃ below kept, (leaf 2).toFormula.relabel [0, 0, 0] = .ok Formula.operand ∧
              levels[0]? = some below ∧ below.toList = .ok kept ∧ Formula.operand ∈ kept := by
  intro request fresh
  have hvalid : request.validate = .ok () := rfl
  obtain ⟨levels, warnings, hrun⟩ : ∃ levels warnings,
      levelsUpTo fresh request .arithmetic 3 = (.ok levels, warnings) :=
    exists_levelsUpTo rfl (by decide) fun size _ _ => Or.inl rfl
  obtain ⟨-, hmade⟩ := made_of_levelsUpTo (by decide) hrun
  obtain ⟨store, hstore, hholds, -⟩ := (hmade 3 (by decide) le_rfl).holds
  have hhead : (formulasAt levels 3).head? = some (Tree.sum 2).toFormula :=
    head?_level (show request.policy.validate = .ok () from rfl) (by decide) (by decide)
      (fun size _ _ => finiteVectors_drawnRule size request.policy .arithmetic (fresh size))
      (fun size hpos hle => (hmade size hpos hle).eq_admissions) (by decide)
  have hsum := List.mem_of_head? hhead
  have hleaf : leaf 2 ∈ (Tree.sum 2).subtrees := by decide
  have hrenumbers : Renumbers [0, 0, 0] (leaf 2).slots :=
    ⟨by simp [Tree.slots], by simp [Tree.slots], by simp [Tree.slots, slotsBelow]⟩
  obtain ⟨-, hparts⟩ := (subtrees_stored hvalid).2 3 levels warnings le_rfl hrun 3 store _ (by decide)
    hstore hholds.toList_eq_ok _ hsum
  obtain ⟨-, hstored⟩ := hparts (Tree.sum 2) rfl (leaf 2) hleaf
  obtain ⟨part, below, kept, hpart, hbelow, hkept, hmem⟩ := hstored [0, 0, 0] hrenumbers
  cases hpart
  exact ⟨hvalid, levels, warnings, store, _, hrun, hstore, hholds.toList_eq_ok, hsum, hleaf, hrenumbers,
    below, kept, rfl, hbelow, hkept, hmem⟩

end Generation

end Formulary
