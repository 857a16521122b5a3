import Formulary.Operator
import Formulary.Subsets
import Formulary.Proofs.Permutation

/-!
# Operators and their codes

The codes of a table are the numbers below its size, and each of them has one operator and one
entry. There are so few that every code is a byte.
-/

namespace Formulary.OperatorTable

variable {table : OperatorTable} {code : UInt8} {op : Operator}

/-- Every position in a table is a byte. -/
theorem size_le (table : OperatorTable) : table.size ≤ UInt8.size :=
  Nat.le_trans table.length_le (by decide)

/-- The codes below the size of a table have operators. -/
theorem get_eq_ok (h : code.toNat < table.size) :
    table.get code = .ok table.operators[code.toNat] :=
  (table.get_eq_ok_iff code _).mpr (List.getElem?_eq_getElem h)

/-- The codes from the size of a table on have none. -/
theorem get_eq_error (h : table.size ≤ code.toNat) : table.get code = .error (.unknownCode code) := by
  unfold get
  rw [List.getElem?_eq_none h]

/-- A code with an operator is below the size of the table. -/
theorem lt_size_of_get (h : table.get code = .ok op) : code.toNat < table.size :=
  (List.getElem?_eq_some_iff.mp ((get_eq_ok_iff table code op).mp h)).1

/-- The entries of a table are its operators with the codes that they have. -/
theorem mem_entries_iff : (code, op) ∈ table.entries ↔ table.get code = .ok op := by
  rw [get_eq_ok_iff, entries, List.mem_map]
  constructor
  · intro h
    obtain ⟨⟨other, position⟩, hentry, heq⟩ := h
    obtain ⟨rfl, rfl⟩ := Prod.mk.inj heq
    have hoperator := List.mem_zipIdx_iff_getElem?.mp hentry
    have hlt := (List.getElem?_eq_some_iff.mp hoperator).1
    rwa [UInt8.toNat_ofNat_of_lt' (Nat.lt_of_lt_of_le hlt table.size_le)]
  · intro h
    exact ⟨(op, code.toNat), List.mem_zipIdx_iff_getElem?.mpr h, by simp⟩

/-- The entries of a table hold its operators in order. -/
theorem map_snd_entries (table : OperatorTable) : table.entries.map Prod.snd = table.operators := by
  rw [entries, List.map_map]
  exact List.zipIdx_map_fst 0 table.operators

/-- No code has two entries. -/
theorem nodup_entries (table : OperatorTable) : table.entries.Nodup := by
  have hcodes : table.entries.map Prod.fst = slotsBelow table.size := by
    rw [entries, List.map_map, slotsBelow, List.range_eq_range', size,
      ← List.zipIdx_map_snd 0 table.operators, List.map_map]
    rfl
  apply List.Nodup.of_map Prod.fst
  rw [hcodes]
  exact Permutation.nodup_identity table.size_le

end Formulary.OperatorTable
