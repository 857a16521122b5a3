import Mathlib.Data.Finset.Card
import Mathlib.Data.Finset.Range
import Mathlib.Data.Nat.Prime.Basic
import Formulary.Proofs.Record.Making
import Formulary.Proofs.Record.RoundTrip

/-!
# Fewer formulas than words

The word with all bits set is no record. Where records have fewer bits than a word it is too wide.
Where they fill the word there are three slots at least, so three divides the number of orders. As
it divides no power of two, there are fewer orders than the rank field has values, and the largest
value is no rank.

Different formulas have different records, so a list of formulas without repetition has fewer
entries than there are words.
-/

namespace Formulary

/-- The number of orders of three or more slots is no power of two. -/
theorem factorial_ne_capacity {n bits : ℕ} (h : 3 ≤ n) : factorial n ≠ capacity bits := by
  have hdvd : 3 ∣ factorial n := by
    induction n, h using Nat.le_induction with
    | base => exact ⟨2, rfl⟩
    | succ n _ ih => exact Dvd.dvd.mul_left ih (n + 1)
  intro heq
  rw [heq] at hdvd
  have htwo : 3 ∣ 2 := Nat.prime_three.dvd_of_dvd_pow hdvd
  omega

/-- The lowest bits of a number whose bits are all set are all set. -/
theorem pred_capacity_mod {bits more : ℕ} (h : bits ≤ more) :
    (capacity more - 1) % capacity bits = capacity bits - 1 := by
  obtain ⟨rest, rfl⟩ := Nat.exists_eq_add_of_le h
  have hpos := capacity_pos bits
  have hrest := capacity_pos rest
  have hcapacity : capacity (bits + rest) = capacity bits * capacity rest := Nat.pow_add 2 bits rest
  have hsplit : capacity bits * capacity rest - 1 =
      capacity bits - 1 + capacity bits * (capacity rest - 1) := by
    rw [Nat.mul_sub_one]
    have hle := Nat.le_mul_of_pos_right (capacity bits) hrest
    omega
  rw [hcapacity, hsplit, Nat.add_mul_mod_self_left, Nat.mod_eq_of_lt (by omega)]

/-- Operator codes are bytes. -/
theorem OperatorTable.codeBits_le (table : OperatorTable) : table.codeBits ≤ 8 := by
  have hsize : table.size - 1 < capacity 8 := by
    have hle := table.size_le
    have hpos : 0 < capacity 8 := capacity_pos 8
    have hbyte : UInt8.size = capacity 8 := rfl
    omega
  exact max_le (by decide) (bitLength_le_iff.mpr hsize)

namespace Record.Codec

variable {table : OperatorTable} {slots : ℕ} {codec : Codec} {formulas : List Formula}

/-- Records over two slots have one bit of rank and at most eight bits of code. -/
theorem width_le_of_slots_eq_two (hcodec : make table slots = .ok codec) (h : codec.slots = 2) :
    codec.width ≤ 9 := by
  have hslots : codec.layout.slots = 2 := h
  have hbits := table.codeBits_le
  have hone : rankBits 2 = 1 := rfl
  unfold width Layout.width totalBits operationBits shapeBits
  rw [hslots, codeBits_of_make hcodec, hone]
  omega

/-- The word with all bits set is no record. -/
theorem decode_lastWord_ne_ok (hcodec : make table slots = .ok codec) {record : UInt64}
    (hlast : record.toNat = capacity wordBits - 1) (f : Formula) : codec.decode record ≠ .ok f := by
  intro hdecode
  obtain ⟨hlt, ⟨hone, -⟩ | ⟨hmany, hreads⟩⟩ := decode_eq_ok_iff.mp hdecode
  · rw [width_of_slots_eq_one hone, hlast] at hlt
    exact absurd hlt (by decide)
  obtain ⟨-, hrank⟩ := Permutation.exists_unrank_iff.mp ⟨_, hreads.slots_eq⟩
  have hwidth : codec.layout.rankBits ≤ wordBits := by
    have hfits := codec.layout.fits
    unfold totalBits at hfits
    exact Nat.le_trans (Nat.le_trans (Nat.le_add_right _ _) (Nat.le_add_right _ _)) hfits
  rw [hlast, pred_capacity_mod hwidth] at hrank
  have hle : factorial codec.slots ≤ capacity codec.layout.rankBits := codec.layout.factorial_le
  rcases Nat.lt_or_ge codec.slots 3 with htwo | hthree
  · have htwo : codec.slots = 2 := by
      have hpos : 0 < codec.slots := codec.layout.slots_pos
      omega
    have hwidth := width_le_of_slots_eq_two hcodec htwo
    rw [hlast] at hlt
    exact absurd (Nat.lt_of_lt_of_le hlt (capacity_le_capacity hwidth)) (by decide)
  · have hne : factorial codec.slots ≠ capacity codec.layout.rankBits := factorial_ne_capacity hthree
    omega

/-- Formulas that fit and of which none occurs twice are fewer than there are words. -/
theorem length_lt_of_nodup (hcodec : make table slots = .ok codec) (hnodup : formulas.Nodup)
    (hfits : ∀ f ∈ formulas, f.Fits table slots) : formulas.length < capacity wordBits := by
  have hrecord : ∀ f ∈ formulas, ∃ record, codec.encode f = .ok record :=
    fun f hf => exists_encode_iff.mpr ((covers_iff_of_make hcodec).mpr (hfits f hf))
  choose! recordOf hrecordOf using hrecord
  have hinjective : Set.InjOn (fun f => (recordOf f).toNat) formulas.toFinset := by
    intro f hf g hg heq
    have hsame := UInt64.toNat_inj.mp heq
    have hdecode := decode_of_encode (hrecordOf f (List.mem_toFinset.mp hf))
    rw [hsame, decode_of_encode (hrecordOf g (List.mem_toFinset.mp hg))] at hdecode
    exact (Except.ok.inj hdecode).symm
  have hbelow : ∀ f ∈ formulas.toFinset,
      (recordOf f).toNat ∈ Finset.range (capacity wordBits - 1) := by
    intro f hf
    have hdecode := decode_of_encode (hrecordOf f (List.mem_toFinset.mp hf))
    have hne : (recordOf f).toNat ≠ capacity wordBits - 1 :=
      fun hlast => decode_lastWord_ne_ok hcodec hlast f hdecode
    have hlt : (recordOf f).toNat < capacity wordBits := (recordOf f).toNat_lt
    rw [Finset.mem_range]
    omega
  have hcard := Finset.card_le_card_of_injOn _ hbelow hinjective
  rw [Finset.card_range, List.toFinset_card_of_nodup hnodup] at hcard
  have hpos := capacity_pos wordBits
  omega

end Record.Codec

end Formulary
