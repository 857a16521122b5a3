import Mathlib.Data.List.Nodup
import Mathlib.Logic.Function.Basic
import Formulary.Store.Directory

/-!
# What operations do to a directory

A directory is known by what is found under each name. An operation that succeeds leaves a directory
in which one or two names are changed, and no name is listed twice if none was before. The order in
which names are listed is another matter: it is up to the file system, and all that is asked of it
is that the entries that no operation touches stay in order.
-/

namespace Formulary

namespace Directory

variable {directory after : Directory} {operation : FileOperation} {name : String} {entry : Entry}

/-- The names that are listed. -/
def names (directory : Directory) : List String :=
  directory.entries.map Prod.fst

/-- An entry is looked up by its name. -/
@[simp] theorem find?_present (entries : List (String × Entry)) (name : String) :
    (present entries).find? name = entries.lookup name := rfl

/-- The names of a directory are those of its entries, in order. -/
@[simp] theorem names_present (entries : List (String × Entry)) :
    (present entries).names = entries.map Prod.fst := rfl

/-- A name is listed exactly when something is found under it. -/
theorem mem_names_iff : name ∈ directory.names ↔ ∃ entry, directory.find? name = some entry := by
  unfold names find?
  rw [← Option.isSome_iff_exists, List.lookup_isSome_iff, List.mem_map]
  refine exists_congr fun other => and_congr_right fun _ => ?_
  rw [beq_iff_eq, eq_comm]

/-- What is found is listed. -/
theorem mem_of_lookup_eq_some {entries : List (String × Entry)}
    (h : entries.lookup name = some entry) : (name, entry) ∈ entries := by
  obtain ⟨before, behind, rfl, -⟩ := List.lookup_eq_some_iff.mp h
  exact List.mem_append_right before List.mem_cons_self

/-- If no name is listed twice, what is listed is found. -/
theorem lookup_eq_some {entries : List (String × Entry)} (hnodup : (entries.map Prod.fst).Nodup)
    (h : (name, entry) ∈ entries) : entries.lookup name = some entry := by
  induction entries with
  | nil => cases h
  | cons first rest ih =>
    obtain ⟨habsent, hrest⟩ := List.nodup_cons.mp hnodup
    rcases List.mem_cons.mp h with rfl | hmem
    · exact List.lookup_cons_self
    · have hne : name ≠ first.1 := fun heq => habsent (heq ▸ List.mem_map_of_mem hmem)
      rw [List.lookup_cons, beq_eq_false_iff_ne.mpr hne]
      exact ih hrest hmem

/-- If no name is listed twice, the order of the entries does not matter for what is found. -/
theorem lookup_eq_of_perm {entries others : List (String × Entry)}
    (hnodup : (entries.map Prod.fst).Nodup) (hperm : others.Perm entries) (name : String) :
    others.lookup name = entries.lookup name := by
  have hothers : (others.map Prod.fst).Nodup := (hperm.map Prod.fst).nodup_iff.mpr hnodup
  refine Option.ext fun entry => ⟨fun h => ?_, fun h => ?_⟩
  · exact lookup_eq_some hnodup (hperm.mem_iff.mp (mem_of_lookup_eq_some h))
  · exact lookup_eq_some hothers (hperm.mem_iff.mpr (mem_of_lookup_eq_some h))

/-- A new entry is found under its name, and under all other names what was there before. -/
theorem lookup_putEntry (name : String) (entry : Entry) (entries : List (String × Entry))
    (other : String) : (putEntry name entry entries).lookup other =
      if other = name then some entry else entries.lookup other := by
  induction entries with
  | nil =>
    unfold putEntry
    by_cases hother : other = name
    · rw [if_pos hother, hother, List.lookup_cons_self]
    · rw [if_neg hother, List.lookup_cons, beq_eq_false_iff_ne.mpr hother]
  | cons first rest ih =>
    unfold putEntry
    by_cases hfirst : first.1 = name
    · rw [if_pos hfirst, List.lookup_cons, List.lookup_cons, hfirst]
      by_cases hother : other = name
      · simp [hother]
      · simp [hother, beq_eq_false_iff_ne.mpr hother]
    · rw [if_neg hfirst, List.lookup_cons, List.lookup_cons, ih]
      by_cases hother : other = first.1
      · simp [hother, hfirst]
      · simp [beq_eq_false_iff_ne.mpr hother]

/-- Nothing is found under a name that was taken out. -/
theorem lookup_dropEntry (name : String) (entries : List (String × Entry)) (other : String) :
    (dropEntry name entries).lookup other =
      if other = name then none else entries.lookup other := by
  unfold dropEntry
  induction entries with
  | nil => simp
  | cons first rest ih =>
    rw [List.filter_cons]
    by_cases hfirst : first.1 = name
    · rw [if_neg (by simp [hfirst]), ih, List.lookup_cons, hfirst]
      by_cases hother : other = name
      · rw [if_pos hother, if_pos hother]
      · simp [hother, beq_eq_false_iff_ne.mpr hother]
    · rw [if_pos (by simp [hfirst]), List.lookup_cons, List.lookup_cons, ih]
      by_cases hother : other = first.1
      · simp [hother, hfirst]
      · simp [beq_eq_false_iff_ne.mpr hother]

/-- The names after a new entry: those before, and the new one at the end unless it was there. -/
theorem map_putEntry (name : String) (entry : Entry) (entries : List (String × Entry)) :
    (putEntry name entry entries).map Prod.fst =
      if name ∈ entries.map Prod.fst then entries.map Prod.fst
      else entries.map Prod.fst ++ [name] := by
  induction entries with
  | nil => rfl
  | cons first rest ih =>
    unfold putEntry
    by_cases hfirst : first.1 = name
    · simp [hfirst]
    · rw [if_neg hfirst, List.map_cons, ih, List.map_cons]
      by_cases hmem : name ∈ rest.map Prod.fst
      · rw [if_pos hmem, if_pos (List.mem_cons_of_mem _ hmem)]
      · rw [if_neg hmem, if_neg (by simp [Ne.symm hfirst, hmem]), List.cons_append]

/-- Putting an entry under a name does not make a name come twice. -/
theorem nodup_putEntry {entries : List (String × Entry)} (h : (entries.map Prod.fst).Nodup)
    (name : String) (entry : Entry) : ((putEntry name entry entries).map Prod.fst).Nodup := by
  rw [map_putEntry]
  split
  · exact h
  · next hmem => exact List.Nodup.append h (List.nodup_singleton name) (by simpa using hmem)

/-- Dropping an entry does not make a name come twice. -/
theorem nodup_dropEntry {entries : List (String × Entry)} (h : (entries.map Prod.fst).Nodup)
    (name : String) : ((dropEntry name entries).map Prod.fst).Nodup :=
  h.sublist (List.filter_sublist.map Prod.fst)

section Kept

variable {kept : String → Prop} [DecidablePred kept]

/-- The entries whose names are kept are not concerned by a new entry of another name. -/
theorem filter_putEntry {name : String} (h : ¬ kept name) (entry : Entry)
    (entries : List (String × Entry)) :
    (putEntry name entry entries).filter (fun other => kept other.1) =
      entries.filter fun other => kept other.1 := by
  induction entries with
  | nil => simp [putEntry, h]
  | cons first rest ih =>
    unfold putEntry
    by_cases hfirst : first.1 = name
    · have hnot : ¬ kept first.1 := by rwa [hfirst]
      rw [if_pos hfirst, List.filter_cons_of_neg (by simpa using h),
        List.filter_cons_of_neg (by simpa using hnot)]
    · rw [if_neg hfirst, List.filter_cons, List.filter_cons, ih]

/-- Nor are they by the loss of another name. -/
theorem filter_dropEntry {name : String} (h : ¬ kept name) (entries : List (String × Entry)) :
    (dropEntry name entries).filter (fun other => kept other.1) =
      entries.filter fun other => kept other.1 := by
  unfold dropEntry
  rw [List.filter_filter]
  refine List.filter_congr fun other _ => ?_
  by_cases hother : other.1 = name
  · simp [hother, h]
  · simp [hother]

/-- What is found under a name that is kept is found among the entries that are. -/
theorem lookup_filter (kept : String → Prop) [DecidablePred kept] {name : String} (h : kept name)
    (entries : List (String × Entry)) :
    (entries.filter fun other => kept other.1).lookup name = entries.lookup name := by
  induction entries with
  | nil => rfl
  | cons first rest ih =>
    by_cases hfirst : name = first.1
    · subst hfirst
      rw [List.filter_cons_of_pos (by simpa using h), List.lookup_cons, List.lookup_cons,
        beq_self_eq_true]
    · rw [List.filter_cons, List.lookup_cons, beq_eq_false_iff_ne.mpr hfirst]
      split
      · rw [List.lookup_cons, beq_eq_false_iff_ne.mpr hfirst]
        exact ih
      · exact ih

end Kept

end Directory

/-- The names that an operation gives a new entry or takes away. -/
def FileOperation.names : FileOperation → List String
  | .makeDirectory => []
  | .fill name _ => [name]
  | .rename source target => [source, target]
  | .remove name => [name]

/-- What is found under each name after an operation, given what was found before. -/
def FileOperation.effect (operation : FileOperation) (find : String → Option Entry) :
    String → Option Entry :=
  match operation with
  | .makeDirectory => find
  | .fill name bytes => Function.update find name (some (.file bytes))
  | .rename source target => Function.update (Function.update find source none) target (find source)
  | .remove name => Function.update find name none

/-- An operation has an effect under its names only. -/
theorem FileOperation.effect_of_notMem {operation : FileOperation} {name : String}
    (h : name ∉ operation.names) (find : String → Option Entry) :
    operation.effect find name = find name := by
  cases operation with
  | makeDirectory => rfl
  | fill filled bytes => exact Function.update_of_ne (List.ne_of_not_mem_cons h) _ _
  | rename source target =>
    have htarget := List.ne_of_not_mem_cons (List.not_mem_of_not_mem_cons h)
    exact (Function.update_of_ne htarget _ _).trans
      (Function.update_of_ne (List.ne_of_not_mem_cons h) _ _)
  | remove removed => exact Function.update_of_ne (List.ne_of_not_mem_cons h) _ _

namespace Directory

variable {directory after : Directory} {operation : FileOperation} {operations : List FileOperation}
  {name : String}

/-- What an operation that succeeds leaves: the entries that can be listed, some put or dropped. -/
theorem perform_cases (h : directory.perform operation = some after) :
    (operation = .makeDirectory ∧ after = .present directory.entries) ∨
    (∃ name bytes, operation = .fill name bytes ∧
      after = .present (putEntry name (.file bytes) directory.entries)) ∨
    (∃ source target bytes, operation = .rename source target ∧
      directory.find? source = some (.file bytes) ∧
        after = .present (putEntry target (.file bytes) (dropEntry source directory.entries))) ∨
    ∃ name, operation = .remove name ∧ after = .present (dropEntry name directory.entries) := by
  unfold perform at h
  split at h
  · cases h
    exact Or.inl ⟨rfl, rfl⟩
  · cases h
    exact Or.inl ⟨rfl, rfl⟩
  · next entries name bytes =>
    split at h
    · cases h
    · cases h
      exact Or.inr (Or.inl ⟨name, bytes, rfl, rfl⟩)
  · next entries source target =>
    split at h
    · cases h
    · next bytes hsource _ =>
      cases h
      exact Or.inr (Or.inr (Or.inl ⟨source, target, bytes, rfl, hsource, rfl⟩))
    · cases h
  · next entries name =>
    split at h
    · cases h
      exact Or.inr (Or.inr (Or.inr ⟨name, rfl, rfl⟩))
    · cases h
  · cases h

/-- An operation that succeeds has its effect and leaves a directory that can be listed, in which no
name is listed twice if none was before. -/
theorem of_perform (h : directory.perform operation = some after) :
    after.find? = operation.effect directory.find? ∧ after ≠ .blocked ∧
      (directory.names.Nodup → after.names.Nodup) := by
  rcases perform_cases h with ⟨rfl, rfl⟩ | ⟨name, bytes, rfl, rfl⟩ |
    ⟨source, target, bytes, rfl, hsource, rfl⟩ | ⟨name, rfl, rfl⟩
  · exact ⟨rfl, nofun, id⟩
  · refine ⟨funext fun other => ?_, nofun, fun hnodup => nodup_putEntry hnodup name _⟩
    rw [find?_present, lookup_putEntry, FileOperation.effect, Function.update_apply]
    rfl
  · refine ⟨funext fun other => ?_, nofun,
      fun hnodup => nodup_putEntry (nodup_dropEntry hnodup source) target _⟩
    rw [find?_present, lookup_putEntry, lookup_dropEntry, FileOperation.effect,
      Function.update_apply, Function.update_apply, hsource]
    rfl
  · refine ⟨funext fun other => ?_, nofun, fun hnodup => nodup_dropEntry hnodup name⟩
    rw [find?_present, lookup_dropEntry, FileOperation.effect, Function.update_apply]
    rfl

/-- An operation that succeeds leaves the entries of all names that it does not concern. -/
theorem filter_entries_of_perform {kept : String → Prop} [DecidablePred kept]
    (h : directory.perform operation = some after) (hnames : ∀ name ∈ operation.names, ¬ kept name) :
    after.entries.filter (fun entry => kept entry.1) =
      directory.entries.filter fun entry => kept entry.1 := by
  rcases perform_cases h with ⟨rfl, rfl⟩ | ⟨name, bytes, rfl, rfl⟩ |
    ⟨source, target, bytes, rfl, -, rfl⟩ | ⟨name, rfl, rfl⟩
  · rfl
  · exact filter_putEntry (hnames name List.mem_cons_self) _ directory.entries
  · have hsource := hnames source List.mem_cons_self
    have htarget := hnames target (List.mem_cons_of_mem source List.mem_cons_self)
    exact (filter_putEntry htarget _ _).trans (filter_dropEntry hsource directory.entries)
  · exact filter_dropEntry (hnames name List.mem_cons_self) directory.entries

/-- Where there is nothing that can be listed because something else is in the way, nothing can be
done. -/
theorem perform_blocked (operation : FileOperation) : blocked.perform operation = none := by
  cases operation with
  | makeDirectory => rfl
  | fill name bytes => rfl
  | rename source target => rfl
  | remove name => rfl

/-- Operations leave the entries of all names that none of them concerns, wherever they fail. -/
theorem filter_entries_performAll {kept : String → Prop} [DecidablePred kept]
    {operations : List FileOperation}
    (hnames : ∀ operation ∈ operations, ∀ name ∈ operation.names, ¬ kept name) :
    (directory.performAll operations).2.entries.filter (fun entry => kept entry.1) =
      directory.entries.filter fun entry => kept entry.1 := by
  induction operations generalizing directory with
  | nil => rfl
  | cons operation rest ih =>
    obtain ⟨hfirst, hrest⟩ := List.forall_mem_cons.mp hnames
    rw [performAll]
    split
    · next after hperform => exact (ih hrest).trans (filter_entries_of_perform hperform hfirst)
    · rfl

/-- Operations do not list a name twice if none was listed twice before. -/
theorem nodup_performAll (h : directory.names.Nodup) (operations : List FileOperation) :
    (directory.performAll operations).2.names.Nodup := by
  induction operations generalizing directory with
  | nil => exact h
  | cons operation rest ih =>
    rw [performAll]
    split
    · next after hperform => exact ih ((of_perform hperform).2.2 h)
    · exact h

/-- Operations leave a directory that can be listed just where there was one. -/
theorem performAll_eq_blocked_iff (operations : List FileOperation) :
    (directory.performAll operations).2 = .blocked ↔ directory = .blocked := by
  induction operations generalizing directory with
  | nil => exact Iff.rfl
  | cons operation rest ih =>
    rw [performAll]
    split
    · next after hperform =>
      rw [ih]
      refine ⟨fun hblocked => absurd hblocked (of_perform hperform).2.1, ?_⟩
      rintro rfl
      rw [perform_blocked] at hperform
      cases hperform
    · exact Iff.rfl

/-- Operations that are performed one after the other are performed up to the first that fails. -/
theorem performAll_append (directory : Directory) (first second : List FileOperation) :
    directory.performAll (first ++ second) =
      if (directory.performAll first).1 then (directory.performAll first).2.performAll second
      else (false, (directory.performAll first).2) := by
  induction first generalizing directory with
  | nil => rfl
  | cons operation rest ih =>
    rw [List.cons_append, performAll, performAll]
    split
    · exact ih _
    · rfl

/-- The names that operations give new entries or take away, up to the first operation that fails. -/
def touched (directory : Directory) : List FileOperation → List String
  | [] => []
  | operation :: rest =>
    match directory.perform operation with
    | some after => operation.names ++ after.touched rest
    | none => []

/-- The entries of a directory that operations leave alone. -/
def untouched (directory : Directory) (operations : List FileOperation) : Directory :=
  .present (directory.entries.filter fun entry => entry.1 ∉ directory.touched operations)

/-- What is not touched are the names of the directory that no operation goes to. -/
theorem mem_names_untouched_iff : name ∈ (directory.untouched operations).names ↔
    name ∈ directory.names ∧ name ∉ directory.touched operations := by
  simp only [untouched, names, entries, List.mem_map, List.mem_filter, decide_eq_true_eq]
  constructor
  · rintro ⟨entry, ⟨hentry, hname⟩, rfl⟩
    exact ⟨⟨entry, hentry, rfl⟩, hname⟩
  · rintro ⟨⟨entry, hentry, rfl⟩, hname⟩
    exact ⟨entry, ⟨hentry, hname⟩, rfl⟩

/-- Names that operations leave alone are listed in the order in which they were. -/
theorem names_untouched_sublist (directory : Directory) (operations : List FileOperation) :
    (directory.untouched operations).names.Sublist directory.names :=
  List.filter_sublist.map Prod.fst

/-- What comes after an operation that succeeds is done to the directory that it leaves. -/
theorem performAll_cons_of_some {rest : List FileOperation}
    (h : directory.perform operation = some after) :
    directory.performAll (operation :: rest) = after.performAll rest ∧
      directory.touched (operation :: rest) = operation.names ++ after.touched rest := by
  rw [performAll, touched, h]
  exact ⟨rfl, rfl⟩

/-- What comes after an operation that fails is not done. -/
theorem performAll_cons_of_none {rest : List FileOperation} (h : directory.perform operation = none) :
    directory.performAll (operation :: rest) = (false, directory) ∧
      directory.touched (operation :: rest) = [] := by
  rw [performAll, touched, h]
  exact ⟨rfl, rfl⟩

/-- Under a name that operations leave alone the same is found, wherever they fail. -/
theorem find?_performAll (h : name ∉ directory.touched operations) :
    (directory.performAll operations).2.find? name = directory.find? name := by
  induction operations generalizing directory with
  | nil => rfl
  | cons operation rest ih =>
    cases hperform : directory.perform operation with
    | none => rw [(performAll_cons_of_none hperform).1]
    | some after =>
      rw [(performAll_cons_of_some hperform).2, List.mem_append, not_or] at h
      rw [(performAll_cons_of_some hperform).1, ih h.2, (of_perform hperform).1,
        FileOperation.effect_of_notMem h.1]

/-- Operations touch no other names than theirs. -/
theorem exists_of_mem_touched (h : name ∈ directory.touched operations) :
    ∃ operation ∈ operations, name ∈ operation.names := by
  induction operations generalizing directory with
  | nil => cases h
  | cons operation rest ih =>
    cases hperform : directory.perform operation with
    | none =>
      rw [(performAll_cons_of_none hperform).2] at h
      cases h
    | some after =>
      rw [(performAll_cons_of_some hperform).2] at h
      rcases List.mem_append.mp h with hfirst | hrest
      · exact ⟨operation, List.mem_cons_self, hfirst⟩
      · obtain ⟨other, hother, hname⟩ := ih hrest
        exact ⟨other, List.mem_cons_of_mem _ hother, hname⟩

/-- Of operations that are performed one after the other, the later ones touch something if the earlier
ones succeed. -/
theorem touched_append (directory : Directory) (first second : List FileOperation) :
    directory.touched (first ++ second) = directory.touched first ++
      if (directory.performAll first).1 then (directory.performAll first).2.touched second
      else [] := by
  induction first generalizing directory with
  | nil => rfl
  | cons operation rest ih =>
    rw [List.cons_append]
    cases hperform : directory.perform operation with
    | none =>
      rw [(performAll_cons_of_none hperform).2, (performAll_cons_of_none hperform).2,
        (performAll_cons_of_none hperform).1]
      rfl
    | some after =>
      rw [(performAll_cons_of_some hperform).2, (performAll_cons_of_some hperform).2,
        (performAll_cons_of_some hperform).1, ih, List.append_assoc]

/-- Removing files takes away the first of the names, and all if nothing fails. -/
theorem touched_remove (directory : Directory) (gone : List String) :
    directory.touched (gone.map .remove) <+: gone ∧
      ((directory.performAll (gone.map .remove)).1 = true →
        directory.touched (gone.map .remove) = gone) := by
  induction gone generalizing directory with
  | nil => exact ⟨List.prefix_rfl, fun _ => rfl⟩
  | cons first rest ih =>
    rw [List.map_cons]
    cases hperform : directory.perform (.remove first) with
    | none =>
      rw [(performAll_cons_of_none hperform).1, (performAll_cons_of_none hperform).2]
      exact ⟨List.nil_prefix, nofun⟩
    | some after =>
      obtain ⟨hfirst, hall⟩ := ih after
      rw [(performAll_cons_of_some hperform).1, (performAll_cons_of_some hperform).2]
      exact ⟨List.cons_prefix_cons.mpr ⟨rfl, hfirst⟩, fun h => congrArg (first :: ·) (hall h)⟩

/-- Nothing is found under a name that was removed. -/
theorem find?_performAll_remove {gone : List String}
    (h : name ∈ directory.touched (gone.map .remove)) :
    (directory.performAll (gone.map .remove)).2.find? name = none := by
  induction gone generalizing directory with
  | nil => cases h
  | cons first rest ih =>
    rw [List.map_cons] at h ⊢
    cases hperform : directory.perform (.remove first) with
    | none =>
      rw [(performAll_cons_of_none hperform).2] at h
      cases h
    | some after =>
      rw [(performAll_cons_of_some hperform).2] at h
      rw [(performAll_cons_of_some hperform).1]
      by_cases hrest : name ∈ after.touched (rest.map .remove)
      · exact ih hrest
      · have hfirst : name = first :=
          List.mem_singleton.mp ((List.mem_append.mp h).resolve_right hrest)
        rw [find?_performAll hrest, (of_perform hperform).1, hfirst]
        exact Function.update_self _ _ _

end Directory

/-- What an interruption leaves of a sequence of operations: the first of them, and of the one that
was going on, if it was filling a file, a file with the first bytes. -/
inductive FileOperation.Cut : List FileOperation → List FileOperation → Prop
  | nothing (operations : List FileOperation) : Cut operations []
  | filling (name : String) (bytes : List UInt8) (count : ℕ) (rest : List FileOperation) :
    Cut (.fill name bytes :: rest) [.fill name (bytes.take count)]
  | goOn {rest done : List FileOperation} (operation : FileOperation) (h : Cut rest done) :
    Cut (operation :: rest) (operation :: done)

/-- A sequence of removals is cut between two of them. -/
theorem FileOperation.Cut.exists_prefix {gone : List String} {done : List FileOperation}
    (h : Cut (gone.map .remove) done) : ∃ names, names <+: gone ∧ done = names.map .remove := by
  induction gone generalizing done with
  | nil =>
    cases h with
    | nothing => exact ⟨[], List.nil_prefix, rfl⟩
  | cons first rest ih =>
    cases h with
    | nothing => exact ⟨[], List.nil_prefix, rfl⟩
    | goOn _ hrest =>
      obtain ⟨names, hnames, rfl⟩ := ih hrest
      exact ⟨first :: names, List.cons_prefix_cons.mpr ⟨rfl, hnames⟩, rfl⟩

/-- A sequence is cut in its first part or in its second one. -/
theorem FileOperation.Cut.append_cases {first second done : List FileOperation}
    (h : Cut (first ++ second) done) :
    Cut first done ∨ ∃ more, Cut second more ∧ done = first ++ more := by
  induction first generalizing done with
  | nil => exact Or.inr ⟨done, h, rfl⟩
  | cons operation rest ih =>
    cases h with
    | nothing => exact Or.inl (.nothing _)
    | filling name bytes count _ => exact Or.inl (.filling name bytes count rest)
    | goOn _ hrest =>
      rcases ih hrest with hfirst | ⟨more, hmore, rfl⟩
      · exact Or.inl (.goOn operation hfirst)
      · exact Or.inr ⟨more, hmore, rfl⟩

end Formulary
