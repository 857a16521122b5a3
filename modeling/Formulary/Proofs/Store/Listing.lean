import Mathlib.Data.List.Nodup
import Formulary.Store.Words
import Formulary.Proofs.Store.Directory

/-!
# Which file of words is read

The stored files are listed in some order and sorted by their record counts, so of two files with
the same count the one that is listed first stays first. This can happen, because a count can be
written in more than one way. The file that is read is the last one of the sorted list: no other has
more records, and those that have as many are listed before it.
-/

namespace Formulary

/-- An element of a list stands before another one. -/
def Before {α : Type} (items : List α) (first second : α) : Prop :=
  [first, second].Sublist items

namespace Before

variable {α β : Type} {items others : List α} {first second : α}

/-- What comes before something in a list does so in a longer one. -/
theorem mono (h : Before items first second) (hitems : items.Sublist others) :
    Before others first second :=
  h.trans hitems

/-- A function on the items keeps their order. -/
theorem map (f : α → β) (h : Before items first second) :
    Before (items.map f) (f first) (f second) :=
  List.Sublist.map f h

/-- What is in the first of two lists comes before what is in the second. -/
theorem of_append (hfirst : first ∈ items) (hsecond : second ∈ others) :
    Before (items ++ others) first second :=
  (List.singleton_sublist.mpr hfirst).append (List.singleton_sublist.mpr hsecond)

/-- Of two elements of a list, one stands before the other. -/
theorem total (hfirst : first ∈ items) (hsecond : second ∈ items) (hne : first ≠ second) :
    Before items first second ∨ Before items second first := by
  obtain ⟨before, behind, rfl⟩ := List.append_of_mem hfirst
  rcases List.mem_append.mp hsecond with hbefore | hbehind
  · exact Or.inr (of_append hbefore List.mem_cons_self)
  · have hrest := (List.mem_cons.mp hbehind).resolve_left (Ne.symm hne)
    exact Or.inl ((of_append (List.mem_singleton_self first) hrest).mono (List.sublist_append_right _ _))

/-- In a list without repetitions, two elements do not stand before each other. -/
theorem asymm (hnodup : items.Nodup) (h : Before items first second) :
    ¬ Before items second first := by
  induction items with
  | nil => cases h
  | cons item rest ih =>
    obtain ⟨habsent, hrest⟩ := List.nodup_cons.mp hnodup
    intro hother
    rcases List.sublist_cons_iff.mp h with hthere | ⟨_, hitem, hsecond⟩
    · rcases List.sublist_cons_iff.mp hother with hback | ⟨_, hitem, hfirst⟩
      · exact ih hrest hthere hback
      · obtain ⟨rfl, rfl⟩ := List.cons.inj hitem
        exact habsent (hthere.subset (by simp))
    · obtain ⟨rfl, rfl⟩ := List.cons.inj hitem
      have hfirst : first ∈ rest := by
        rcases List.sublist_cons_iff.mp hother with hback | ⟨_, hitem, hfirst⟩
        · exact hback.subset (by simp)
        · obtain ⟨rfl, rfl⟩ := List.cons.inj hitem
          exact List.singleton_sublist.mp hfirst
      exact habsent hfirst

/-- The last element of a list without repetitions is the one that all others stand before. -/
theorem getLast?_eq_some_iff (hnodup : items.Nodup) :
    items.getLast? = some first ↔ first ∈ items ∧ ∀ other ∈ items, other ≠ first →
      Before items other first := by
  constructor
  · intro h
    obtain ⟨init, rfl⟩ := List.getLast?_eq_some_iff.mp h
    refine ⟨List.mem_append_right init (List.mem_singleton_self first), fun other hother hne => ?_⟩
    have hinit : other ∈ init := by
      rcases List.mem_append.mp hother with hinit | hlast
      · exact hinit
      · exact absurd (List.mem_singleton.mp hlast) hne
    exact of_append hinit (List.mem_singleton_self first)
  · rintro ⟨hmem, hbefore⟩
    cases hlast : items.getLast? with
    | none => rw [List.getLast?_eq_none_iff.mp hlast] at hmem; cases hmem
    | some last =>
      obtain ⟨init, rfl⟩ := List.getLast?_eq_some_iff.mp hlast
      by_contra hne
      have hother : last ≠ first := fun heq => hne (congrArg some heq)
      have hback := hbefore last (List.mem_append_right init (List.mem_singleton_self last)) hother
      have hinit : first ∈ init := by
        rcases List.mem_append.mp hmem with hinit | hsingle
        · exact hinit
        · exact absurd (List.mem_singleton.mp hsingle).symm hother
      exact asymm hnodup hback (of_append hinit (List.mem_singleton_self last))

end Before

/-- How a directory is listed: its entries come in any order in which the names of another directory,
as far as they are there, stay in the order in which they are listed in it. -/
inductive Directory.ListedAs (before : Directory) : Directory → Directory → Prop
  | absent : ListedAs before .absent .absent
  | blocked : ListedAs before .blocked .blocked
  | present {entries seen : List (String × Entry)} (hperm : seen.Perm entries)
    (horder : ((seen.map Prod.fst).filter (· ∈ before.names)).Sublist before.names) :
    ListedAs before (.present entries) (.present seen)

namespace Directory.ListedAs

variable {before directory seen : Directory}

/-- A listing has the entries of the directory, each as often. -/
theorem entries_perm (h : ListedAs before directory seen) : seen.entries.Perm directory.entries := by
  cases h with
  | absent => exact List.Perm.refl _
  | blocked => exact List.Perm.refl _
  | present hperm _ => exact hperm

/-- A listing has the names of the directory, each as often. -/
theorem names_perm (h : ListedAs before directory seen) : seen.names.Perm directory.names :=
  h.entries_perm.map Prod.fst

/-- The names of the other directory are listed in the order that they have in it. -/
theorem names_sublist (h : ListedAs before directory seen) :
    (seen.names.filter (· ∈ before.names)).Sublist before.names := by
  cases h with
  | absent => exact List.nil_sublist _
  | blocked => exact List.nil_sublist _
  | present _ horder => exact horder

/-- The same is found in every listing. -/
theorem find?_eq (h : ListedAs before directory seen) (hnodup : directory.names.Nodup)
    (name : String) : seen.find? name = directory.find? name := by
  cases h with
  | absent => rfl
  | blocked => rfl
  | present hperm _ => exact lookup_eq_of_perm hnodup hperm name

/-- A directory is listed as blocked exactly if it is. -/
theorem eq_blocked_iff (h : ListedAs before directory seen) :
    seen = .blocked ↔ directory = .blocked := by
  cases h with
  | absent => exact Iff.rfl
  | blocked => exact Iff.rfl
  | present _ _ => exact ⟨nofun, nofun⟩

/-- Two names of the other directory are listed as they are in it. -/
theorem before_names (h : ListedAs before directory seen) {first second : String}
    (hfirst : first ∈ before.names) (hsecond : second ∈ before.names)
    (hbefore : Before seen.names first second) : Before before.names first second := by
  have hfilter := List.Sublist.filter (· ∈ before.names) hbefore
  rw [List.filter_cons_of_pos (by simpa using hfirst), List.filter_cons_of_pos (by simpa using hsecond),
    List.filter_nil] at hfilter
  exact hfilter.trans h.names_sublist

/-- Two names that operations leave alone are listed as they were before. -/
theorem before_names_of_untouched {operations : List FileOperation}
    (h : ListedAs (before.untouched operations) directory seen) {first second : String}
    (hfirst : first ∈ before.names) (hfirst' : first ∉ before.touched operations)
    (hsecond : second ∈ before.names) (hsecond' : second ∉ before.touched operations)
    (hbefore : Before seen.names first second) : Before before.names first second :=
  (h.before_names (Directory.mem_names_untouched_iff.mpr ⟨hfirst, hfirst'⟩)
    (Directory.mem_names_untouched_iff.mpr ⟨hsecond, hsecond'⟩) hbefore).mono
      (Directory.names_untouched_sublist before operations)

end Directory.ListedAs

namespace WordFiles

variable {slots : ℕ} {names : List String} {file other : String × ℕ}

/-- The names that are names of stored files, with their record counts. -/
def counted (slots : ℕ) (names : List String) : List (String × ℕ) :=
  names.filterMap fun name => (recordsIn slots name).map (name, ·)

/-- The stored files, fewest records first. -/
def sorted (slots : ℕ) (names : List String) : List (String × ℕ) :=
  (counted slots names).mergeSort fun a b => a.2 ≤ b.2

/-- The stored files of a directory are those among its names. -/
theorem stored_eq_ok {directory : Directory} (h : directory ≠ .blocked) :
    stored slots directory = .ok (sorted slots directory.names) := by
  cases directory with
  | absent => simp [stored, sorted, counted, Directory.names, Directory.entries]
  | blocked => exact absurd rfl h
  | present entries =>
    unfold stored sorted counted
    rw [Directory.names_present, List.filterMap_map]
    rfl

/-- The files that are counted are those whose names tell a number of records. -/
theorem mem_counted_iff :
    file ∈ counted slots names ↔ file.1 ∈ names ∧ recordsIn slots file.1 = some file.2 := by
  unfold counted
  rw [List.mem_filterMap]
  constructor
  · rintro ⟨name, hname, hfile⟩
    obtain ⟨records, hrecords, rfl⟩ := Option.map_eq_some_iff.mp hfile
    exact ⟨hname, hrecords⟩
  · rintro ⟨hname, hrecords⟩
    exact ⟨file.1, hname, by rw [hrecords]; rfl⟩

/-- The files in order of their numbers are the same files. -/
theorem mem_sorted_iff :
    file ∈ sorted slots names ↔ file.1 ∈ names ∧ recordsIn slots file.1 = some file.2 :=
  List.mem_mergeSort.trans mem_counted_iff

/-- The names of the stored files stand in the order in which they are listed. -/
theorem map_counted_sublist (slots : ℕ) (names : List String) :
    ((counted slots names).map Prod.fst).Sublist names := by
  induction names with
  | nil => exact List.Sublist.slnil
  | cons name rest ih =>
    unfold counted
    rw [List.filterMap_cons]
    cases recordsIn slots name with
    | none => exact ih.cons name
    | some records => exact ih.cons_cons name

/-- No two stored files have the same name. -/
theorem nodup_map_sorted (h : names.Nodup) : ((sorted slots names).map Prod.fst).Nodup :=
  ((List.mergeSort_perm _ _).map Prod.fst).nodup_iff.mpr (h.sublist (map_counted_sublist slots names))

/-- If no name comes twice, no file does. -/
theorem nodup_sorted (h : names.Nodup) : (sorted slots names).Nodup :=
  (nodup_map_sorted h).of_map Prod.fst

/-- One stored file is listed before another exactly when its name is. -/
theorem before_counted_iff (h : file ∈ counted slots names) (hother : other ∈ counted slots names) :
    Before (counted slots names) other file ↔ Before names other.1 file.1 := by
  refine ⟨fun hbefore => (hbefore.map Prod.fst).mono (map_counted_sublist slots names),
    fun hbefore => ?_⟩
  have hpair : counted slots [other.1, file.1] = [other, file] := by
    unfold counted
    rw [List.filterMap_cons_some (b := other) (by rw [(mem_counted_iff.mp hother).2]; rfl),
      List.filterMap_cons_some (b := file) (by rw [(mem_counted_iff.mp h).2]; rfl),
      List.filterMap_nil]
  have hfilter : (counted slots [other.1, file.1]).Sublist (counted slots names) :=
    List.Sublist.filterMap _ hbefore
  rwa [hpair] at hfilter

/-- Files are compared by their record counts, which is transitive and total. -/
private theorem fewer_trans (first second third : String × ℕ) :
    decide (first.2 ≤ second.2) = true → decide (second.2 ≤ third.2) = true →
      decide (first.2 ≤ third.2) = true := by
  simp only [decide_eq_true_iff]
  exact Nat.le_trans

/-- Of two numbers one is at most the other. -/
private theorem fewer_total (first second : String × ℕ) :
    (decide (first.2 ≤ second.2) || decide (second.2 ≤ first.2)) = true := by
  simpa using Nat.le_total first.2 second.2

/-- Sorting puts files with fewer records first. -/
theorem le_of_before_sorted (h : Before (sorted slots names) other file) : other.2 ≤ file.2 := by
  have hordered : (sorted slots names).Pairwise fun a b => decide (a.2 ≤ b.2) = true :=
    List.pairwise_mergeSort fewer_trans fewer_total _
  exact of_decide_eq_true (List.pairwise_iff_forall_sublist.mp hordered h)

/-- Sorting keeps the order of files unless their record counts are against it. -/
theorem before_sorted_of_counted (hle : other.2 ≤ file.2) (h : Before (counted slots names) other file) :
    Before (sorted slots names) other file :=
  List.pair_sublist_mergeSort fewer_trans fewer_total (decide_eq_true hle) h

/-- A stored file is sorted before another if it has fewer records, or as many and is listed before
it. -/
theorem before_sorted_iff (hnames : names.Nodup) (h : file ∈ sorted slots names)
    (hother : other ∈ sorted slots names) (hne : other ≠ file) :
    Before (sorted slots names) other file ↔
      other.2 < file.2 ∨ other.2 = file.2 ∧ Before names other.1 file.1 := by
  have hlisted := before_counted_iff (List.mem_mergeSort.mp h) (List.mem_mergeSort.mp hother)
  constructor
  · intro hbefore
    refine (Nat.lt_or_eq_of_le (le_of_before_sorted hbefore)).imp_right fun heq => ⟨heq, ?_⟩
    rcases Before.total (List.mem_mergeSort.mp hother) (List.mem_mergeSort.mp h) hne with hfirst | hlast
    · exact hlisted.mp hfirst
    · have hback := before_sorted_of_counted (Nat.le_of_eq heq.symm) hlast
      exact absurd hback (hbefore.asymm (nodup_sorted hnames))
  · rintro (hlt | ⟨heq, hbefore⟩)
    · refine (Before.total hother h hne).resolve_right fun hback => ?_
      exact absurd hlt (Nat.not_lt_of_le (le_of_before_sorted hback))
    · exact before_sorted_of_counted (Nat.le_of_eq heq) (hlisted.mpr hbefore)

/-- The file that is read has the most records, and those that have as many are listed before it. -/
theorem getLast?_sorted_iff (hnames : names.Nodup) :
    (sorted slots names).getLast? = some file ↔ file ∈ sorted slots names ∧
      ∀ other ∈ sorted slots names, other ≠ file →
        other.2 < file.2 ∨ other.2 = file.2 ∧ Before names other.1 file.1 := by
  rw [Before.getLast?_eq_some_iff (nodup_sorted hnames)]
  refine and_congr_right fun hfile => forall_congr' fun other => ?_
  exact forall_congr' fun hother => forall_congr' fun hne => before_sorted_iff hnames hfile hother hne

/-- What is read depends on the last of the sorted files and on what is found under its name. -/
theorem fst_read {files : WordFiles} (h : files.directory ≠ .blocked) :
    files.read.1 = match (sorted files.slots files.directory.names).getLast? with
      | none => .error (.missing (files.pathOf (nameStart files.slots ++ "*" ++ nameEnd)))
      | some (name, records) => (files.wordsIn name).map (·, records) := by
  unfold read
  rw [stored_eq_ok h]
  dsimp only
  cases (sorted files.slots files.directory.names).getLast? with
  | none => rfl
  | some file => rfl

end WordFiles

end Formulary
