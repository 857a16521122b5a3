import Formulary.Proofs.Record.Padding

/-!
# Packed arrays that are edited

An array of records is edited by appending records and by overwriting them. Whatever is done to it, an
array with room for all its records remains the list of its records: a call answers what it answers on
the list, and the array after it is the list after it. Arrays whose bits a machine word counts have
that room, wherever their words come from.

Bits behind the records are written by no call. An array that began without records has them all clear,
so its words depend on its records only and not on the calls that brought them there.

What a machine word does not count is lost. Too few words are then taken for an array, and positions in
it are cut off, so that records share bits and one is overwritten with another.
-/

namespace Formulary.Record

/-- A call that changes an array of records. -/
inductive RecordCall where
  | push (value : UInt64)
  | set (index : ℕ) (value : UInt64)

namespace RecordCall

/-- The answer of a call on a list of records of a width, and the list after it. Values have to fit
the width. A record that is overwritten has to be there, which is looked at first. -/
def onList (width : ℕ) (records : List UInt64) :
    RecordCall → Except RecordError Unit × List UInt64
  | .push value =>
    if value.toNat < capacity width then (.ok (), records ++ [value])
    else (.error (.valueTooWide value width), records)
  | .set index value =>
    if records.length ≤ index then (.error (.indexOutOfBounds index records.length), records)
    else if value.toNat < capacity width then (.ok (), records.set index value)
    else (.error (.valueTooWide value width), records)

/-- The list after calls. -/
def afterCalls (width : ℕ) (records : List UInt64) : List RecordCall → List UInt64
  | [] => records
  | call :: rest => afterCalls width (call.onList width records).2 rest

/-- No call makes the list shorter. -/
theorem length_le_onList (width : ℕ) (records : List UInt64) (call : RecordCall) :
    records.length ≤ (call.onList width records).2.length := by
  cases call with
  | push value =>
    dsimp only [onList]
    split
    · simp
    · exact Nat.le_refl _
  | set index value =>
    dsimp only [onList]
    split_ifs
    · exact Nat.le_refl _
    · simp
    · exact Nat.le_refl _

/-- No call takes a record away. -/
theorem length_le_afterCalls (width : ℕ) (records : List UInt64) (calls : List RecordCall) :
    records.length ≤ (afterCalls width records calls).length := by
  induction calls generalizing records with
  | nil => exact Nat.le_refl _
  | cons call rest ih => exact Nat.le_trans (length_le_onList width records call) (ih _)

end RecordCall

/-- A machine word counts so many records of a width, and their bits. -/
def IsCounted (records width : ℕ) : Prop :=
  records < capacity wordBits ∧ records * width < capacity wordBits

instance (records width : ℕ) : Decidable (IsCounted records width) :=
  inferInstanceAs (Decidable (_ ∧ _))

namespace PackedRecords

variable {packed other : PackedRecords} {width : ℕ} {records : List UInt64} {value : UInt64}

/-- The answer of a call and the array after it. -/
def call (packed : PackedRecords) : RecordCall → Except RecordError Unit × PackedRecords
  | .push value => packed.push value
  | .set index value => packed.set index value

/-- The array after calls. -/
def afterCalls (packed : PackedRecords) : List RecordCall → PackedRecords
  | [] => packed
  | call :: rest => ((packed.call call).2).afterCalls rest

/-- An array that answers as a list of records of a width does, and has just as many words as they
take. -/
structure AnswersAs (packed : PackedRecords) (width : ℕ) (records : List UInt64) : Prop where
  toList_eq : packed.toList = records
  length_eq : packed.length = records.length
  get_eq : ∀ index (h : index < records.length), packed.get index = .ok records[index]
  get_error : ∀ index, records.length ≤ index →
    packed.get index = .error (.indexOutOfBounds index records.length)
  size_words : packed.words.size = (records.length * width + 63) / 64

/-- An array with room for all its records, which are a list of records of a width. -/
structure Lists (packed : PackedRecords) (width : ℕ) (records : List UInt64) : Prop where
  width_eq : packed.width = width
  isWhole : packed.isWhole = true
  toList_eq : packed.toList = records

/-- A list of the records of an array is as long as the array. -/
theorem Lists.length_eq (h : packed.Lists width records) : packed.length = records.length := by
  rw [← length_toList, h.toList_eq]

/-- The records of an array are what it answers. -/
theorem Lists.answersAs (h : packed.Lists width records) : packed.AnswersAs width records := by
  refine ⟨h.toList_eq, h.length_eq, fun index hindex => ?_, fun index hindex => ?_, ?_⟩
  · have hrecord : records[index] = packed.recordAt index := by
      simp [← h.toList_eq, toList_eq_map_recordAt]
    rw [get_eq_ok (h.length_eq ▸ hindex), hrecord]
  · rw [get, if_pos (h.length_eq ▸ hindex), h.length_eq]
  · rw [of_decide_eq_true h.isWhole, h.length_eq, h.width_eq]
    rfl

/-- An array has room for all its records if a machine word counts those of a list that is at least as
long, and their bits. -/
theorem lists_of_isCounted (h : IsCounted records.length packed.width)
    (hle : packed.toList.length ≤ records.length) : packed.Lists packed.width packed.toList := by
  rw [length_toList] at hle
  exact ⟨rfl, isWhole_of_lt (Nat.lt_of_le_of_lt (Nat.mul_le_mul_right _ hle) h.2), rfl⟩

/-- What exceeds the width is too wide. -/
theorem isTooWide_eq_true (hvalue : ¬ value.toNat < capacity packed.width) :
    packed.isTooWide value = true := by
  rwa [← isTooWide_eq_false_iff, Bool.not_eq_false] at hvalue

/-- A value that does not fit is not appended. -/
theorem push_eq_error (hvalue : ¬ value.toNat < capacity packed.width) :
    packed.push value = (.error (.valueTooWide value packed.width), packed) :=
  if_pos (isTooWide_eq_true hvalue)

/-- A value that does not fit is not written over a record. -/
theorem set_eq_error {index : ℕ} (h : index < packed.length)
    (hvalue : ¬ value.toNat < capacity packed.width) :
    packed.set index value = (.error (.valueTooWide value packed.width), packed) := by
  rw [set, if_neg (Nat.not_le_of_lt h), if_pos (isTooWide_eq_true hvalue)]

/-- Overwriting a record overwrites one element of the list. -/
theorem Lists.set {index : ℕ} (h : packed.Lists width records) (hindex : index < records.length)
    (hvalue : value.toNat < capacity width) :
    ∃ after, packed.set index value = (.ok (), after) ∧
      after.Lists width (records.set index value) := by
  obtain ⟨rfl, hwhole, rfl⟩ := h
  rw [length_toList] at hindex
  obtain ⟨after, hset, hwidth, hlength, hafter, hrecords⟩ := set_eq_ok hwhole hindex hvalue
  refine ⟨after, hset, hwidth, hafter, ?_⟩
  apply List.ext_getElem (by simp [hlength])
  intro place hplace _
  simp [toList_eq_map_recordAt, hrecords, List.getElem_set, eq_comm]

/-- An array answers a call as the list of its records does, and lists what the list is afterwards. A
call that is refused changes nothing. -/
theorem Lists.call (h : packed.Lists width records) (call : RecordCall) :
    ∃ after, packed.call call = ((call.onList width records).1, after) ∧
      after.Lists width (call.onList width records).2 ∧
      ∀ error, (call.onList width records).1 = .error error → after = packed := by
  obtain rfl := h.width_eq
  cases call with
  | push value =>
    dsimp only [PackedRecords.call, RecordCall.onList]
    by_cases hvalue : value.toNat < capacity packed.width
    · obtain ⟨after, hpush, hwidth, hafter, hlist⟩ := push_eq_ok h.isWhole hvalue
      rw [if_pos hvalue]
      exact ⟨after, hpush, ⟨hwidth, hafter, by rw [hlist, h.toList_eq]⟩, nofun⟩
    · rw [if_neg hvalue]
      exact ⟨packed, push_eq_error hvalue, h, fun _ _ => rfl⟩
  | set index value =>
    dsimp only [PackedRecords.call, RecordCall.onList]
    by_cases hindex : records.length ≤ index
    · rw [if_pos hindex]
      refine ⟨packed, ?_, h, fun _ _ => rfl⟩
      rw [PackedRecords.set, if_pos (h.length_eq ▸ hindex), h.length_eq]
    · have hlt := Nat.lt_of_not_le hindex
      rw [if_neg hindex]
      by_cases hvalue : value.toNat < capacity packed.width
      · obtain ⟨after, hset, hafter⟩ := h.set hlt hvalue
        rw [if_pos hvalue]
        exact ⟨after, hset, hafter, nofun⟩
      · rw [if_neg hvalue]
        exact ⟨packed, set_eq_error (h.length_eq ▸ hlt) hvalue, h, fun _ _ => rfl⟩

/-- No call writes behind the records. -/
theorem IsTidy.call (h : packed.IsTidy) (hwhole : packed.isWhole = true) (call : RecordCall) :
    (packed.call call).2.IsTidy := by
  cases call with
  | push value => exact h.push hwhole value
  | set index value => exact h.set hwhole index value

/-- After any calls an array is the list after these calls. -/
theorem Lists.afterCalls (h : packed.Lists width records) (calls : List RecordCall) :
    (packed.afterCalls calls).Lists width (RecordCall.afterCalls width records calls) := by
  induction calls generalizing packed records with
  | nil => exact h
  | cons call rest ih =>
    obtain ⟨after, hcall, hafter, -⟩ := h.call call
    rw [PackedRecords.afterCalls, hcall]
    exact ih hafter

/-- After any calls nothing stands behind the records if nothing did before. -/
theorem IsTidy.afterCalls (h : packed.IsTidy) (hlists : packed.Lists width records)
    (calls : List RecordCall) : (packed.afterCalls calls).IsTidy := by
  induction calls generalizing packed records with
  | nil => exact h
  | cons call rest ih =>
    obtain ⟨after, hcall, hafter, -⟩ := hlists.call call
    have htidy := h.call hlists.isWhole call
    rw [hcall] at htidy
    rw [PackedRecords.afterCalls, hcall]
    exact ih htidy hafter

/-- Two arrays with the same records and nothing behind them have the same words. -/
theorem IsTidy.words_eq_words (h : packed.IsTidy) (hother : other.IsTidy)
    (hlists : packed.Lists width records) (hsame : other.Lists width records) :
    packed.words = other.words := by
  have hwidth : packed.width = other.width := hlists.width_eq.trans hsame.width_eq.symm
  have hlist : packed.toList = other.toList := hlists.toList_eq.trans hsame.toList_eq.symm
  calc packed.words
      = clearedFrom other.words (other.length * other.width) :=
        h.words_eq hlists.isWhole hsame.isWhole hwidth hlist
    _ = other.words := (hother.words_eq hsame.isWhole hsame.isWhole rfl rfl).symm

/-- An array without records, or one that was read from words, is after any calls the list that these
calls make of its records, as long as a machine word counts the records of that list and their bits. Each
of the calls answers what it answers on the list, and changes nothing when it is refused. If there were no
records at first, all bits behind them remain clear, and other calls that lead to the same records lead to
the same words. -/
theorem afterCalls_records (hwidth : width ≤ wordBits) :
    ∃ fresh, empty width = .ok fresh ∧
      (∀ start, (start = fresh ∨ ∃ words length, ofWords words width length = .ok start) →
        ∀ calls, IsCounted (RecordCall.afterCalls width start.toList calls).length width →
          (start.afterCalls calls).AnswersAs width
            (RecordCall.afterCalls width start.toList calls) ∧
          ∀ before call rest, calls = before ++ call :: rest →
            ((start.afterCalls before).call call).1 =
              (call.onList width (RecordCall.afterCalls width start.toList before)).1 ∧
            ∀ error, ((start.afterCalls before).call call).1 = .error error →
              ((start.afterCalls before).call call).2 = start.afterCalls before) ∧
      ∀ calls, IsCounted (RecordCall.afterCalls width [] calls).length width →
        (∀ position, (fresh.afterCalls calls).length * width ≤ position →
          bitAt (fresh.afterCalls calls).words position = false) ∧
        ∀ others, IsCounted (RecordCall.afterCalls width [] others).length width →
          (fresh.afterCalls others).toList = (fresh.afterCalls calls).toList →
            (fresh.afterCalls others).words = (fresh.afterCalls calls).words := by
  obtain ⟨fresh, hfresh⟩ : ∃ fresh, empty width = .ok fresh := ⟨_, dif_pos hwidth⟩
  obtain ⟨hwidthFresh, hwhole, hnil⟩ := toList_empty hfresh
  have hlists : fresh.Lists width [] := ⟨hwidthFresh, hwhole, hnil⟩
  have hafter (calls : List RecordCall) := hlists.afterCalls calls
  have htidy (calls : List RecordCall) := (isTidy_of_empty hfresh).afterCalls hlists calls
  refine ⟨fresh, hfresh, fun start hstart calls hcounted => ?_,
    fun calls _ => ⟨fun position hposition => ?_, fun others _ hlist => ?_⟩⟩
  · have hsame : start.width = width := by
      rcases hstart with rfl | ⟨words, length, hwords⟩
      · exact hwidthFresh
      · exact (ofWords_eq_ok_iff.mp hwords).2.1
    subst hsame
    have hstarted :=
      lists_of_isCounted hcounted (RecordCall.length_le_afterCalls start.width start.toList calls)
    refine ⟨(hstarted.afterCalls calls).answersAs, fun before call rest _ => ?_⟩
    obtain ⟨after, hcall, -, hrefused⟩ := (hstarted.afterCalls before).call call
    rw [hcall]
    exact ⟨rfl, hrefused⟩
  · refine htidy calls position ?_
    rwa [(hafter calls).width_eq]
  · have hsame : (fresh.afterCalls others).Lists width (fresh.afterCalls calls).toList :=
      ⟨(hafter others).width_eq, (hafter others).isWhole, hlist⟩
    have hcalls : (fresh.afterCalls calls).Lists width (fresh.afterCalls calls).toList :=
      ⟨(hafter calls).width_eq, (hafter calls).isWhole, rfl⟩
    exact (htidy others).words_eq_words (htidy calls) hsame hcalls

/-- In records of twenty-four bits a third one straddles two words. The bits behind two records that
were read are written over, and two ways to build the same records lead to the same words. -/
theorem afterCalls_records_straddling :
    let calls : List RecordCall := [.set 0 5, .push 7, .set 3 1, .push 0x1000000]
    let other : List RecordCall := [.push 0xffffff, .push 7, .set 0 5]
    (∃ start, ofWords #[0xffffffffffffffff] 24 2 = .ok start ∧
      (start.afterCalls calls).AnswersAs 24 [5, 0xffffff, 7]) ∧
    ∃ fresh, empty 24 = .ok fresh ∧
      (fresh.afterCalls [.push 5, .push 7]).words = (fresh.afterCalls other).words := by
  intro calls other
  obtain ⟨start, hstart, hlist⟩ : ∃ start, ofWords #[0xffffffffffffffff] 24 2 = .ok start ∧
      start.toList = [0xffffff, 0xffffff] :=
    ⟨_, rfl, by decide +kernel⟩
  obtain ⟨fresh, hfresh, hruns, hbuilt⟩ := afterCalls_records (show 24 ≤ wordBits by decide)
  refine ⟨⟨start, hstart, ?_⟩, fresh, hfresh, ?_⟩
  · obtain ⟨hanswers, -⟩ := hruns start (Or.inr ⟨_, 2, hstart⟩) calls (by rw [hlist]; decide)
    rwa [hlist] at hanswers
  · obtain ⟨-, -, hnil⟩ := toList_empty hfresh
    have hlists (calls : List RecordCall)
        (hcounted : IsCounted (RecordCall.afterCalls 24 [] calls).length 24) :
        (fresh.afterCalls calls).toList = RecordCall.afterCalls 24 [] calls := by
      obtain ⟨hanswers, -⟩ := hruns fresh (Or.inl rfl) calls (by rwa [hnil])
      rw [hanswers.toList_eq, hnil]
    refine (hbuilt other (by decide)).2 _ (by decide) ?_
    rw [hlists _ (by decide), hlists _ (by decide)]
    rfl

/-- One word is accepted for more records of eight bits than a machine word counts bits for. The first
record and one far behind it are then the same bits, so that to overwrite one is to overwrite both. -/
theorem set_of_cut_overwrites_another :
    ∃ packed, ofWords #[0] 8 (capacity 61 + 1) = .ok packed ∧
      packed.words.size < (packed.length * packed.width + 63) / 64 ∧
      packed.get (capacity 61) = .ok 0 ∧ (packed.set 0 7).1 = .ok () ∧
        (packed.set 0 7).2.get (capacity 61) = .ok 7 := by
  refine ⟨⟨#[0], 8, capacity 61 + 1, by decide, Or.inl (by decide)⟩, rfl, ?_, ?_, ?_, ?_⟩
  all_goals decide +kernel

end PackedRecords

end Formulary.Record
