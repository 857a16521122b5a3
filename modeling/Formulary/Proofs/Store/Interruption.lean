import Formulary.Proofs.Store.Listing
import Formulary.Proofs.Store.WordFile

/-!
# Interrupted writes

Writing words is a sequence of operations on a directory: the words are put in place under their
final name, and then the stored files of other record counts are removed, those with the fewest
records first. The sequence may end anywhere, and a file that is being filled may have any number of
its bytes by then.

Until the words are in place, nothing has changed under the name of any stored file, so the file
that was read before is read. From then on, the file that is read is the new one or one that is
still to be removed. The latter has more records than all that are gone, or as many and is listed
behind them, so it is the one that was read before.

Of how a directory is listed no more is asked than that the entries that were left alone stay in
order, but for one case. The file that is replaced may have as many records as another stored file,
because a count can be written in more than one way. If it was listed behind that file, it has to
stay behind it. If the file system lists it in front, a file is read that was not read before.
-/

namespace Formulary.WordFiles

variable {slots records : ℕ} {before directory after seen : Directory} {words : Array UInt64}
  {bytes : List UInt8} {gone : List String} {target : String} {done : List FileOperation}

/-- The operations of a write, given how the directory is listed when the words are in place. -/
def writing (slots : ℕ) (words : Array UInt64) (records : ℕ) (listed : Directory) :
    List FileOperation :=
  placing slots words records ++
    match stored slots listed with
    | .error _ => []
    | .ok found => clearing slots records found

/-- Operations spare the stored files if they touch none of their names. -/
def Spares (slots : ℕ) (directory : Directory) (operations : List FileOperation) : Prop :=
  ∀ name count, recordsIn slots name = some count → name ∉ directory.touched operations

/-- The stored files of another directory, without those under some names, and one with new bytes. -/
structure Replaces (slots : ℕ) (before after : Directory) (target : String) (bytes : List UInt8)
    (gone : List String) : Prop where
  ne_blocked : before ≠ .blocked ∧ after ≠ .blocked
  nodup : before.names.Nodup → after.names.Nodup
  find?_target : after.find? target = some (.file bytes)
  find?_eq : ∀ name records, recordsIn slots name = some records → name ≠ target →
    after.find? name = if name ∈ gone then none else before.find? name

/-! ### Putting words in place -/

/-- No stored file has the name of a file that is being filled. -/
theorem ne_stagingName {name : String} {count : ℕ} (hname : recordsIn slots name = some count)
    (records : ℕ) : name ≠ stagingName slots records := by
  rintro rfl
  rw [recordsIn_stagingName] at hname
  cases hname

/-- Operations on the file that is being filled spare the stored files. -/
theorem spares_of_names (records : ℕ) {operations : List FileOperation}
    (h : ∀ operation ∈ operations, ∀ name ∈ operation.names, name = stagingName slots records)
    (directory : Directory) : Spares slots directory operations := by
  intro name count hname htouched
  obtain ⟨operation, hoperation, hmem⟩ := Directory.exists_of_mem_touched htouched
  exact ne_stagingName hname records (h operation hoperation name hmem)

/-- If operations fail, nothing else is touched after them. -/
theorem Spares.append {operations : List FileOperation} (h : Spares slots directory operations)
    (hfails : (directory.performAll operations).1 = false) (more : List FileOperation) :
    Spares slots directory (operations ++ more) := by
  intro name count hname
  rw [Directory.touched_append, hfails, if_neg Bool.false_ne_true, List.append_nil]
  exact h name count hname

/-- Putting words in place touches no stored file of another name. -/
theorem notMem_touched_placing {name : String} {count : ℕ}
    (hname : recordsIn slots name = some count) (hne : name ≠ fileName slots records)
    (directory : Directory) (words : Array UInt64) :
    name ∉ directory.touched (placing slots words records) := by
  intro htouched
  obtain ⟨operation, hoperation, hmem⟩ := Directory.exists_of_mem_touched htouched
  have hstaging := ne_stagingName hname records
  simp only [placing, List.mem_cons, List.not_mem_nil, or_false] at hoperation
  rcases hoperation with rfl | rfl | rfl
  · cases hmem
  · exact hstaging (List.mem_singleton.mp hmem)
  · rcases List.mem_cons.mp hmem with hmem | hmem
    · exact hstaging hmem
    · exact hne (List.mem_singleton.mp hmem)

/-- The operations that fill the file under its staging name. -/
def filling (slots records : ℕ) (bytes : List UInt8) : List FileOperation :=
  [.makeDirectory, .fill (stagingName slots records) bytes]

/-- Filling the temporary file spares the stored files. -/
theorem filling_spares (slots records : ℕ) (bytes : List UInt8) (directory : Directory) :
    Spares slots directory (filling slots records bytes) :=
  spares_of_names records (by simp [filling, FileOperation.names]) directory

/-- A file that was filled has its bytes. -/
theorem find?_stagingName (h : (directory.performAll (filling slots records bytes)).1 = true) :
    (directory.performAll (filling slots records bytes)).2.find? (stagingName slots records) =
      some (.file bytes) := by
  unfold filling at h ⊢
  cases hmade : directory.perform .makeDirectory with
  | none =>
    rw [(Directory.performAll_cons_of_none hmade).1] at h
    cases h
  | some made =>
    rw [(Directory.performAll_cons_of_some hmade).1] at h ⊢
    cases hfilled : made.perform (.fill (stagingName slots records) bytes) with
    | none =>
      rw [(Directory.performAll_cons_of_none hfilled).1] at h
      cases h
    | some filled =>
      rw [(Directory.performAll_cons_of_some hfilled).1]
      exact (congrFun (Directory.of_perform hfilled).1 _).trans (Function.update_self _ _ _)

/-- To put words in place is to fill a file and to rename it. -/
theorem placing_eq (slots : ℕ) (words : Array UInt64) (records : ℕ) :
    placing slots words records = filling slots records (words.toList.flatMap wordBytes) ++
      [.rename (stagingName slots records) (fileName slots records)] :=
  rfl

/-- If the file that was filled cannot be renamed, the stored files are spared. -/
theorem placing_spares_of_perform_none
    (hfilled : (directory.performAll
      (filling slots records (words.toList.flatMap wordBytes))).1 = true)
    (hperform : (directory.performAll
      (filling slots records (words.toList.flatMap wordBytes))).2.perform
        (.rename (stagingName slots records) (fileName slots records)) = none) :
    Spares slots directory (placing slots words records) := by
  intro name count hname
  rw [placing_eq, Directory.touched_append, if_pos hfilled,
    (Directory.performAll_cons_of_none hperform).2, List.append_nil]
  exact filling_spares slots records _ directory name count hname

/-- If it is renamed, it takes the place of the stored file of its name, and all others stay. -/
theorem placing_replaces_of_perform_some
    (hfilled : (directory.performAll
      (filling slots records (words.toList.flatMap wordBytes))).1 = true)
    (hperform : (directory.performAll
      (filling slots records (words.toList.flatMap wordBytes))).2.perform
        (.rename (stagingName slots records) (fileName slots records)) = some after)
    (hafter : directory.performAll (placing slots words records) = (true, after)) :
    Replaces slots directory after (fileName slots records) (words.toList.flatMap wordBytes) [] := by
  obtain ⟨hfind, hopen, -⟩ := Directory.of_perform hperform
  have hend : (directory.performAll (placing slots words records)).2 = after := by rw [hafter]
  refine ⟨⟨?_, hopen⟩, fun hnames => hend ▸ Directory.nodup_performAll hnames _, ?_,
    fun name count hname hother => ?_⟩
  · rw [ne_eq, ← Directory.performAll_eq_blocked_iff (placing slots words records), hend]
    exact hopen
  · rw [hfind, FileOperation.effect, Function.update_self, find?_stagingName hfilled]
  · rw [← hend]
    exact Directory.find?_performAll (notMem_touched_placing hname hother directory words)

/-- If the words cannot be put in place, the stored files are spared. -/
theorem placing_cases (directory : Directory) (slots : ℕ) (words : Array UInt64) (records : ℕ) :
    ((directory.performAll (placing slots words records)).1 = false ∧
      Spares slots directory (placing slots words records)) ∨
    ((directory.performAll (placing slots words records)).1 = true ∧
      Replaces slots directory (directory.performAll (placing slots words records)).2
        (fileName slots records) (words.toList.flatMap wordBytes) []) := by
  have hperforms := directory.performAll_append
    (filling slots records (words.toList.flatMap wordBytes))
    [.rename (stagingName slots records) (fileName slots records)]
  rw [← placing_eq] at hperforms
  cases hfilled :
      (directory.performAll (filling slots records (words.toList.flatMap wordBytes))).1 with
  | false =>
    rw [hperforms, hfilled, placing_eq]
    exact Or.inl ⟨rfl, (filling_spares slots records _ directory).append hfilled _⟩
  | true =>
    rw [hfilled, if_pos rfl] at hperforms
    cases hperform : (directory.performAll
        (filling slots records (words.toList.flatMap wordBytes))).2.perform
          (.rename (stagingName slots records) (fileName slots records)) with
    | none =>
      rw [(Directory.performAll_cons_of_none hperform).1] at hperforms
      exact Or.inl ⟨by rw [hperforms], placing_spares_of_perform_none hfilled hperform⟩
    | some placed =>
      rw [(Directory.performAll_cons_of_some hperform).1, Directory.performAll] at hperforms
      rw [hperforms]
      exact Or.inr ⟨rfl, placing_replaces_of_perform_some hfilled hperform hperforms⟩

/-- If a write ends before the words are in place, the stored files are spared. -/
theorem spares_or_eq_of_cut_placing (directory : Directory)
    (h : FileOperation.Cut (placing slots words records) done) :
    Spares slots directory done ∨ done = placing slots words records := by
  unfold placing at h ⊢
  cases h with
  | nothing => exact Or.inl (spares_of_names records (by simp) directory)
  | goOn _ hfill =>
    cases hfill with
    | nothing => exact Or.inl (spares_of_names records (by simp [FileOperation.names]) directory)
    | filling name bytes count rest =>
      exact Or.inl (spares_of_names records (by simp [FileOperation.names]) directory)
    | goOn _ hrename =>
      cases hrename with
      | nothing => exact Or.inl (spares_of_names records (by simp [FileOperation.names]) directory)
      | goOn _ hnothing =>
        cases hnothing
        exact Or.inr rfl

/-! ### Making way -/

/-- The stored files that make way for a new one, in the order in which they are removed. -/
def stale (slots records : ℕ) (names : List String) : List (String × ℕ) :=
  (sorted slots names).filter fun file => file.1 ≠ fileName slots records

/-- A write places its file first and then removes the stale ones. -/
theorem writing_eq {listed : Directory} (h : listed ≠ .blocked) :
    writing slots words records listed = placing slots words records ++
      ((stale slots records listed.names).map Prod.fst).map .remove := by
  unfold writing
  rw [stored_eq_ok h, List.map_map]
  rfl

/-- Removing stored files after a new one was put in place takes away those that are touched. -/
theorem Replaces.performAll_remove (h : Replaces slots before directory target bytes [])
    {names : List String} (htarget : target ∉ names) :
    Replaces slots before (directory.performAll (names.map .remove)).2 target bytes
      (directory.touched (names.map .remove)) := by
  have hnot : target ∉ directory.touched (names.map .remove) := fun hmem =>
    htarget ((directory.touched_remove names).1.subset hmem)
  refine ⟨⟨h.ne_blocked.1, fun hblocked => ?_⟩,
    fun hnames => Directory.nodup_performAll (h.nodup hnames) _, ?_, fun name count hname hother => ?_⟩
  · exact h.ne_blocked.2 ((Directory.performAll_eq_blocked_iff _).mp hblocked)
  · rw [Directory.find?_performAll hnot, h.find?_target]
  · split
    · next hgone => exact Directory.find?_performAll_remove hgone
    · next hthere =>
      rw [Directory.find?_performAll hthere, h.find?_eq name count hname hother]
      rfl

/-- The final name is not among those of the files that make way. -/
theorem fileName_notMem_stale (slots records : ℕ) (names : List String) :
    fileName slots records ∉ (stale slots records names).map Prod.fst := by
  intro hmem
  obtain ⟨file, hfile, hname⟩ := List.mem_map.mp hmem
  exact absurd hname (of_decide_eq_true (List.mem_filter.mp hfile).2)

/-- The new file is read as the words that were written. -/
theorem wordsIn_fileName {files : WordFiles} {name : String}
    (h : files.directory.find? name = some (.file (words.toList.flatMap wordBytes))) :
    files.wordsIn name = .ok words := by
  obtain ⟨hwhole, hwords⟩ := wordsOfBytes_flatMap words.toList
  unfold wordsIn
  rw [h]
  dsimp only
  rw [if_pos hwhole, hwords]

/-- If the new file is the last of the stored ones, the words in it are read. -/
theorem fst_read_fileName {files : WordFiles} {file : String × ℕ} (hrecords : records < recordBound)
    (hnew : files.directory.find? (fileName files.slots records) =
      some (.file (words.toList.flatMap wordBytes)))
    (hlast : (sorted files.slots files.directory.names).getLast? = some file)
    (hname : file.1 = fileName files.slots records) : files.read.1 = .ok (words, records) := by
  have hopen : files.directory ≠ .blocked := by
    intro hblocked
    rw [hblocked] at hnew
    cases hnew
  obtain ⟨name, count⟩ := file
  obtain rfl : name = fileName files.slots records := hname
  have hcount := (mem_sorted_iff.mp (List.mem_of_getLast? hlast)).2
  rw [recordsIn_fileName files.slots hrecords, Option.some.injEq] at hcount
  rw [fst_read hopen, hlast]
  dsimp only
  rw [wordsIn_fileName hnew, hcount]
  rfl

/-- When a new file is there, there is a last of the stored files. -/
theorem exists_getLast?_sorted {entry : Entry} (hrecords : records < recordBound)
    (hnew : directory.find? (fileName slots records) = some entry) :
    ∃ file, (sorted slots directory.names).getLast? = some file := by
  have hthere : (fileName slots records, records) ∈ sorted slots directory.names :=
    mem_sorted_iff.mpr ⟨Directory.mem_names_iff.mpr ⟨_, hnew⟩, recordsIn_fileName slots hrecords⟩
  exact ⟨_, List.getLast?_eq_some_getLast (List.ne_nil_of_mem hthere)⟩

/-- The last of the stored files is the last of those before if what has as many records and stands
before it now stood before it then, and what is gone since comes before it. -/
theorem getLast?_sorted_of_survives {names names' : List String} {file : String × ℕ}
    (hnames : names.Nodup) (hnames' : names'.Nodup)
    (hlast : (sorted slots names').getLast? = some file) (hfile : file ∈ sorted slots names)
    (hthere : ∀ other ∈ sorted slots names, other.2 = file.2 → Before names' other.1 file.1 →
      Before names other.1 file.1)
    (hgone : ∀ other ∈ sorted slots names, other.1 ∉ names' →
      other.2 < file.2 ∨ other.2 = file.2 ∧ Before names other.1 file.1) :
    (sorted slots names).getLast? = some file := by
  obtain ⟨-, hbehind⟩ := (getLast?_sorted_iff hnames').mp hlast
  refine (getLast?_sorted_iff hnames).mpr ⟨hfile, fun other hother hne => ?_⟩
  by_cases hmem : other.1 ∈ names'
  · have hsorted := mem_sorted_iff.mpr ⟨hmem, (mem_sorted_iff.mp hother).2⟩
    exact (hbehind other hsorted hne).imp_right fun ⟨heq, hbefore⟩ =>
      ⟨heq, hthere other hother heq hbefore⟩
  · exact hgone other hother hmem

/-- The words under a name depend on what is found there. -/
theorem wordsIn_congr {files : WordFiles} {name : String}
    (h : seen.find? name = files.directory.find? name) :
    wordsIn { files with directory := seen } name = files.wordsIn name := by
  unfold wordsIn
  rw [h]
  rfl

section Sparing

variable {files : WordFiles} {file other : String × ℕ}

/-- A stored file that is spared is found as before. -/
theorem Spares.find?_eq (h : Spares files.slots files.directory done)
    (hnames : files.directory.names.Nodup)
    (hseen : Directory.ListedAs (files.directory.untouched done) (files.directory.performAll done).2
      seen) {name : String} {count : ℕ} (hname : recordsIn files.slots name = some count) :
    seen.find? name = files.directory.find? name :=
  (hseen.find?_eq (Directory.nodup_performAll hnames done) name).trans
    (Directory.find?_performAll (h name count hname))

/-- While the stored files are spared, there are the same ones. -/
theorem Spares.mem_sorted_iff (h : Spares files.slots files.directory done)
    (hnames : files.directory.names.Nodup)
    (hseen : Directory.ListedAs (files.directory.untouched done) (files.directory.performAll done).2
      seen) : file ∈ sorted files.slots seen.names ↔
        file ∈ sorted files.slots files.directory.names := by
  rw [WordFiles.mem_sorted_iff, WordFiles.mem_sorted_iff]
  refine and_congr_left fun hname => ?_
  rw [Directory.mem_names_iff, Directory.mem_names_iff, h.find?_eq hnames hseen hname]

/-- While the stored files are spared, they are listed in the same order. -/
theorem Spares.before_names (h : Spares files.slots files.directory done)
    (hseen : Directory.ListedAs (files.directory.untouched done) (files.directory.performAll done).2
      seen) (hfile : file ∈ sorted files.slots files.directory.names)
    (hother : other ∈ sorted files.slots files.directory.names)
    (hbefore : Before seen.names other.1 file.1) : Before files.directory.names other.1 file.1 := by
  obtain ⟨hthere, hcount⟩ := WordFiles.mem_sorted_iff.mp hfile
  obtain ⟨hthere', hcount'⟩ := WordFiles.mem_sorted_iff.mp hother
  exact hseen.before_names_of_untouched hthere' (h _ _ hcount') hthere (h _ _ hcount) hbefore

/-- While the stored files are spared, the last of them is the same. -/
theorem Spares.getLast?_sorted (h : Spares files.slots files.directory done)
    (hnames : files.directory.names.Nodup)
    (hseen : Directory.ListedAs (files.directory.untouched done) (files.directory.performAll done).2
      seen) : (sorted files.slots files.directory.names).getLast? =
        (sorted files.slots seen.names).getLast? := by
  have hnames' : seen.names.Nodup :=
    hseen.names_perm.nodup_iff.mpr (Directory.nodup_performAll hnames done)
  cases hlast : (sorted files.slots seen.names).getLast? with
  | none =>
    refine List.getLast?_eq_none_iff.mpr (List.eq_nil_iff_forall_not_mem.mpr fun file hfile => ?_)
    have hthere := (h.mem_sorted_iff hnames hseen).mpr hfile
    rw [List.getLast?_eq_none_iff.mp hlast] at hthere
    cases hthere
  | some file =>
    have hfile := (h.mem_sorted_iff hnames hseen).mp (List.mem_of_getLast? hlast)
    refine getLast?_sorted_of_survives hnames hnames' hlast hfile
      (fun other hother _ => h.before_names hseen hfile hother) fun other hother hgone => ?_
    have hthere := (h.mem_sorted_iff hnames hseen).mpr hother
    exact absurd (WordFiles.mem_sorted_iff.mp hthere).1 hgone

/-- While the stored files are spared, the same is read. -/
theorem Spares.fst_read (h : Spares files.slots files.directory done)
    (hnames : files.directory.names.Nodup)
    (hseen : Directory.ListedAs (files.directory.untouched done) (files.directory.performAll done).2
      seen) : (read { files with directory := seen }).1 = files.read.1 := by
  have hblocked_iff : seen = .blocked ↔ files.directory = .blocked :=
    hseen.eq_blocked_iff.trans (Directory.performAll_eq_blocked_iff done)
  by_cases hblocked : files.directory = .blocked
  · rw [hblocked_iff.mpr hblocked]
    obtain ⟨path, slots, directory⟩ := files
    cases hblocked
    rfl
  have hopen : seen ≠ .blocked := mt hblocked_iff.mp hblocked
  rw [WordFiles.fst_read hblocked, WordFiles.fst_read hopen, h.getLast?_sorted hnames hseen]
  cases hlast : (sorted files.slots seen.names).getLast? with
  | none => rfl
  | some file =>
    have hname := (WordFiles.mem_sorted_iff.mp (List.mem_of_getLast? hlast)).2
    dsimp only
    rw [wordsIn_congr (h.find?_eq hnames hseen hname)]

end Sparing

/-! ### Reading after an interruption -/

/-- The file of a record count stays behind the stored files with as many records behind which it was
listed before. -/
def StaysBehind (slots records : ℕ) (before seen : Directory) : Prop :=
  ∀ name, recordsIn slots name = some records →
    Before before.names name (fileName slots records) → name ∈ seen.names →
      Before seen.names name (fileName slots records)

/-- A write that came to an end when the words were in place and some of the files that make way were
removed: the directory before, how it was listed with the words in place, and how it is at the end. -/
structure Interrupted (slots records : ℕ) (words : Array UInt64) (before listed : Directory)
    (names : List String) (seen : Directory) : Prop where
  nodup : before.names.Nodup
  placed : (before.performAll (placing slots words records)).1 = true
  listed_as : Directory.ListedAs (before.untouched (placing slots words records))
    (before.performAll (placing slots words records)).2 listed
  removed : names <+: (stale slots records listed.names).map Prod.fst
  seen_as : Directory.ListedAs
    (before.untouched (placing slots words records ++ names.map .remove))
    (before.performAll (placing slots words records ++ names.map .remove)).2 seen
  behind : StaysBehind slots records before seen

/-- The names that are gone when files are removed after words were put in place. -/
def goneFrom (slots records : ℕ) (words : Array UInt64) (before : Directory) (names : List String) :
    List String :=
  (before.performAll (placing slots words records)).2.touched (names.map .remove)

namespace Interrupted

variable {listed : Directory} {names : List String} {file other : String × ℕ}

/-- The words were put in place. -/
theorem replaced (h : Interrupted slots records words before listed names seen) :
    Replaces slots before (before.performAll (placing slots words records)).2
      (fileName slots records) (words.toList.flatMap wordBytes) [] := by
  rcases placing_cases before slots words records with ⟨hfails, -⟩ | ⟨-, hreplaced⟩
  · cases hfails.symm.trans h.placed
  · exact hreplaced

/-- At the end the files that were removed are gone. -/
theorem cleared (h : Interrupted slots records words before listed names seen) :
    Replaces slots before
      (before.performAll (placing slots words records ++ names.map .remove)).2
      (fileName slots records) (words.toList.flatMap wordBytes)
      (goneFrom slots records words before names) := by
  rw [Directory.performAll_append, h.placed, if_pos rfl]
  exact h.replaced.performAll_remove fun hmem =>
    fileName_notMem_stale _ _ _ (h.removed.subset hmem)

/-- The first of the files that make way are gone. -/
theorem gone_prefix (h : Interrupted slots records words before listed names seen) :
    goneFrom slots records words before names <+:
      (stale slots records listed.names).map Prod.fst :=
  (Directory.touched_remove _ names).1.trans h.removed

/-- The directory that a write lists has no name twice. -/
theorem nodup_listed (h : Interrupted slots records words before listed names seen) :
    listed.names.Nodup :=
  h.listed_as.names_perm.nodup_iff.mpr (h.replaced.nodup h.nodup)

/-- The directory that a read lists has no name twice. -/
theorem nodup_seen (h : Interrupted slots records words before listed names seen) :
    seen.names.Nodup :=
  h.seen_as.names_perm.nodup_iff.mpr (h.cleared.nodup h.nodup)

/-- At the end the new file is there. -/
theorem find?_fileName (h : Interrupted slots records words before listed names seen) :
    seen.find? (fileName slots records) = some (.file (words.toList.flatMap wordBytes)) :=
  (h.seen_as.find?_eq (h.cleared.nodup h.nodup) _).trans h.cleared.find?_target

/-- At the end the other stored files are there unless they are gone. -/
theorem find?_eq (h : Interrupted slots records words before listed names seen)
    {name : String} {count : ℕ} (hname : recordsIn slots name = some count)
    (hne : name ≠ fileName slots records) : seen.find? name =
      if name ∈ goneFrom slots records words before names then none else before.find? name :=
  (h.seen_as.find?_eq (h.cleared.nodup h.nodup) name).trans (h.cleared.find?_eq name count hname hne)

/-- A stored file of another name that is not gone was left alone. -/
theorem notMem_touched (h : Interrupted slots records words before listed names seen)
    {name : String} {count : ℕ} (hname : recordsIn slots name = some count)
    (hne : name ≠ fileName slots records)
    (hthere : name ∉ goneFrom slots records words before names) :
    name ∉ before.touched (placing slots words records ++ names.map .remove) := by
  rw [Directory.touched_append, h.placed, if_pos rfl, List.mem_append, not_or]
  exact ⟨notMem_touched_placing hname hne before words, hthere⟩

/-- A stored file of another name is listed as one that makes way. -/
theorem mem_stale (h : Interrupted slots records words before listed names seen)
    (hfile : file ∈ sorted slots before.names) (hne : file.1 ≠ fileName slots records) :
    file ∈ stale slots records listed.names := by
  obtain ⟨hname, hnumber⟩ := mem_sorted_iff.mp hfile
  refine List.mem_filter.mpr ⟨mem_sorted_iff.mpr ⟨?_, hnumber⟩, decide_eq_true hne⟩
  rw [Directory.mem_names_iff, h.listed_as.find?_eq (h.replaced.nodup h.nodup),
    h.replaced.find?_eq _ _ hnumber hne]
  exact Directory.mem_names_iff.mp hname

/-- A stored file that is gone had fewer records than one that is still there, or as many and was
listed before it. -/
theorem lt_or_before (h : Interrupted slots records words before listed names seen)
    (hfile : file ∈ sorted slots before.names) (hne : file.1 ≠ fileName slots records)
    (hother : other ∈ sorted slots before.names) (hne' : other.1 ≠ fileName slots records)
    (hgone : other.1 ∈ goneFrom slots records words before names)
    (hthere : file.1 ∉ goneFrom slots records words before names) :
    other.2 < file.2 ∨ other.2 = file.2 ∧ Before before.names other.1 file.1 := by
  have hstale := h.mem_stale hfile hne
  have hfiles := (List.mem_filter.mp hstale).1
  have hothers := (List.mem_filter.mp (h.mem_stale hother hne')).1
  have hremoved : Before ((stale slots records listed.names).map Prod.fst) other.1 file.1 := by
    obtain ⟨rest, hrest⟩ := h.gone_prefix
    have hmem : file.1 ∈ goneFrom slots records words before names ++ rest :=
      hrest ▸ List.mem_map_of_mem hstale
    rw [← hrest]
    exact Before.of_append hgone ((List.mem_append.mp hmem).resolve_left hthere)
  have hordered := hremoved.mono (List.filter_sublist.map Prod.fst)
  have hdistinct : other ≠ file := fun heq => hthere (heq ▸ hgone)
  have hsorted : Before (sorted slots listed.names) other file := by
    refine (Before.total hothers hfiles hdistinct).resolve_right fun hback => ?_
    exact (hback.map Prod.fst).asymm (nodup_map_sorted h.nodup_listed) hordered
  obtain ⟨hname, hcount⟩ := mem_sorted_iff.mp hfile
  obtain ⟨hname', hcount'⟩ := mem_sorted_iff.mp hother
  have hbefore := h.listed_as.before_names_of_untouched
    hname' (notMem_touched_placing hcount' hne' before words)
    hname (notMem_touched_placing hcount hne before words)
  exact ((before_sorted_iff h.nodup_listed hfiles hothers hdistinct).mp hsorted).imp_right
    (And.imp_right hbefore)

/-- A stored file that is listed before one with as many records that is still there was so before the
write. For the file that was replaced this holds because it stays behind. -/
theorem before_of_before_seen (h : Interrupted slots records words before listed names seen)
    (hrecords : records < recordBound) (hfile : file ∈ sorted slots before.names)
    (hne : file.1 ≠ fileName slots records)
    (hthere : file.1 ∉ goneFrom slots records words before names)
    (hother : other ∈ sorted slots before.names) (hcount : other.2 = file.2)
    (hbefore : Before seen.names other.1 file.1) : Before before.names other.1 file.1 := by
  obtain ⟨hname, hnumber⟩ := mem_sorted_iff.mp hfile
  obtain ⟨hname', hnumber'⟩ := mem_sorted_iff.mp hother
  by_cases hne' : other.1 = fileName slots records
  · rw [hne'] at hname' hnumber' hbefore ⊢
    rw [recordsIn_fileName slots hrecords, hcount] at hnumber'
    have htie : recordsIn slots file.1 = some records := hnumber.trans hnumber'.symm
    refine (Before.total hname' hname (Ne.symm hne)).resolve_right fun hback => ?_
    have hlisted : file.1 ∈ seen.names := hbefore.subset (by simp)
    exact (h.behind file.1 htie hback hlisted).asymm h.nodup_seen hbefore
  · have hthere' : other.1 ∉ goneFrom slots records words before names := by
      intro hgone
      have hlisted : other.1 ∈ seen.names := hbefore.subset (by simp)
      obtain ⟨entry, hentry⟩ := Directory.mem_names_iff.mp hlisted
      rw [h.find?_eq hnumber' hne', if_pos hgone] at hentry
      cases hentry
    exact h.seen_as.before_names_of_untouched hname' (h.notMem_touched hnumber' hne' hthere')
      hname (h.notMem_touched hnumber hne hthere) hbefore

/-- If the last of the stored files is not the new one, it is as before and was the last before. -/
theorem getLast?_sorted (h : Interrupted slots records words before listed names seen)
    (hrecords : records < recordBound) (hlast : (sorted slots seen.names).getLast? = some file)
    (hne : file.1 ≠ fileName slots records) :
    seen.find? file.1 = before.find? file.1 ∧ (sorted slots before.names).getLast? = some file := by
  obtain ⟨hname, hnumber⟩ := mem_sorted_iff.mp (List.mem_of_getLast? hlast)
  obtain ⟨entry, hentry⟩ := Directory.mem_names_iff.mp hname
  have hthere : file.1 ∉ goneFrom slots records words before names := by
    intro hgone
    rw [h.find?_eq hnumber hne, if_pos hgone] at hentry
    cases hentry
  have hsame : seen.find? file.1 = before.find? file.1 := by
    rw [h.find?_eq hnumber hne, if_neg hthere]
  have hfile : file ∈ sorted slots before.names :=
    mem_sorted_iff.mpr ⟨Directory.mem_names_iff.mpr ⟨entry, hsame ▸ hentry⟩, hnumber⟩
  refine ⟨hsame, getLast?_sorted_of_survives h.nodup h.nodup_seen hlast hfile
    (fun other hother hcount => h.before_of_before_seen hrecords hfile hne hthere hother hcount)
    fun other hother hmissing => ?_⟩
  obtain ⟨hname', hnumber'⟩ := mem_sorted_iff.mp hother
  have hne' : other.1 ≠ fileName slots records := fun heq =>
    hmissing (Directory.mem_names_iff.mpr ⟨_, heq ▸ h.find?_fileName⟩)
  have hgone : other.1 ∈ goneFrom slots records words before names := by
    by_contra hnot
    have hstays := h.find?_eq hnumber' hne'
    rw [if_neg hnot] at hstays
    exact hmissing (Directory.mem_names_iff.mpr (hstays ▸ Directory.mem_names_iff.mp hname'))
  exact h.lt_or_before hfile hne hother hne' hgone hthere

/-- When the words are in place, they are read or what was read before is, however many of the files
that make way are gone. -/
theorem fst_read {files : WordFiles} (hrecords : records < recordBound)
    (h : Interrupted files.slots records words files.directory listed names seen) :
    (read { files with directory := seen }).1 = files.read.1 ∨
      (read { files with directory := seen }).1 = .ok (words, records) := by
  obtain ⟨file, hlast⟩ := exists_getLast?_sorted hrecords h.find?_fileName
  by_cases hnew : file.1 = fileName files.slots records
  · exact Or.inr (fst_read_fileName hrecords h.find?_fileName hlast hnew)
  · left
    obtain ⟨hsame, hlast'⟩ := h.getLast?_sorted hrecords hlast hnew
    rw [WordFiles.fst_read fun heq => h.cleared.ne_blocked.2 (h.seen_as.eq_blocked_iff.mp heq),
      WordFiles.fst_read h.replaced.ne_blocked.1, hlast, hlast']
    dsimp only
    rw [wordsIn_congr hsame]

end Interrupted

/-- A write performs its operations up to the first that fails. -/
theorem writeInto_eq (slots : ℕ) (directory : Directory) (words : Array UInt64) (records : ℕ) :
    let placed := (directory.performAll (placing slots words records)).2
    let done := directory.performAll (writing slots words records placed)
    writeInto slots directory words records =
      (if done.1 then .ok () else .error .inputOutput, done.2) := by
  intro placed done
  have hdone : done = directory.performAll (writing slots words records placed) := rfl
  rcases placing_cases directory slots words records with ⟨hfails, -⟩ | ⟨hplaced, hreplaces⟩
  · rw [writing, Directory.performAll_append, hfails] at hdone
    have hpair : directory.performAll (placing slots words records) = (false, placed) :=
      Prod.ext hfails rfl
    rw [hdone, writeInto, hpair]
    rfl
  · have hpair : directory.performAll (placing slots words records) = (true, placed) :=
      Prod.ext hplaced rfl
    rw [writing, Directory.performAll_append, hplaced, stored_eq_ok hreplaces.ne_blocked.2] at hdone
    rw [hdone, writeInto, hpair]
    dsimp only
    rw [stored_eq_ok hreplaces.ne_blocked.2, if_pos rfl]
    dsimp only
    split
    · next hclearing =>
      rw [hclearing]
      rfl
    · next hclearing =>
      rw [hclearing]
      rfl

/-- A write that succeeds leaves the new file and no other stored file. -/
theorem of_writeInto_eq_ok (h : writeInto slots directory words records = (.ok (), after)) :
    after.find? (fileName slots records) = some (.file (words.toList.flatMap wordBytes)) ∧
      ∀ name count, recordsIn slots name = some count → name ≠ fileName slots records →
        after.find? name = none := by
  rw [writeInto_eq] at h
  obtain ⟨hdone, rfl⟩ := Prod.mk.inj h
  rcases placing_cases directory slots words records with ⟨hfails, -⟩ | ⟨hplaced, hreplaced⟩
  · rw [writing, Directory.performAll_append, hfails] at hdone
    cases hdone
  rw [writing_eq hreplaced.ne_blocked.2, Directory.performAll_append, if_pos hplaced] at hdone ⊢
  generalize (directory.performAll (placing slots words records)).2 = placed at hdone hreplaced
  have hcleared := hreplaced.performAll_remove (fileName_notMem_stale slots records placed.names)
  refine ⟨hcleared.find?_target, fun name count hname hne => ?_⟩
  have hgone := (placed.touched_remove ((stale slots records placed.names).map Prod.fst)).2 (by
    by_contra hfails
    rw [if_neg hfails] at hdone
    cases hdone)
  rw [hcleared.find?_eq name count hname hne, hgone]
  split
  · rfl
  · next hnot =>
    -- whatever is stored when the words are in place makes way
    rw [Option.eq_none_iff_forall_ne_some]
    intro entry hentry
    have hthere : name ∈ placed.names := Directory.mem_names_iff.mpr
      ⟨entry, (hreplaced.find?_eq name count hname hne).trans hentry⟩
    have hstale : (name, count) ∈ stale slots records placed.names :=
      List.mem_filter.mpr ⟨mem_sorted_iff.mpr ⟨hthere, hname⟩, decide_eq_true hne⟩
    exact hnot (List.mem_map_of_mem hstale)

/-- After a write that succeeds, the words are read that were written. -/
theorem read_of_write {files written : WordFiles} (hrecords : records < recordBound)
    (h : files.write words records = (.ok (), written)) : written.read.1 = .ok (words, records) := by
  rcases hinto : writeInto files.slots files.directory words records with ⟨outcome, directory⟩
  rw [write, hinto] at h
  cases h
  obtain ⟨hnew, hothers⟩ := of_writeInto_eq_ok hinto
  obtain ⟨file, hlast⟩ := exists_getLast?_sorted hrecords hnew
  refine fst_read_fileName hrecords hnew hlast ?_
  by_contra hne
  obtain ⟨hname, hnumber⟩ := mem_sorted_iff.mp (List.mem_of_getLast? hlast)
  obtain ⟨entry, hentry⟩ := Directory.mem_names_iff.mp hname
  rw [hothers file.1 file.2 hnumber hne] at hentry
  cases hentry

/-- Wherever a write is interrupted or fails, what is read afterwards is what was read before or the
words that were to be written. No name is listed twice in a directory, and a record count fits a machine
word. When the write lists the directory and when it is read, the entries that the operations so far have
left alone may be listed in any order that keeps theirs, and the file that is replaced stays behind the
stored files with as many records behind which it was listed. -/
theorem read_of_interrupted {files : WordFiles} (hnames : files.directory.names.Nodup)
    (hrecords : records < recordBound) (words : Array UInt64) :
    let placed := (files.directory.performAll (placing files.slots words records)).2
    (files.write words records).2 = { files with
      directory := (files.directory.performAll (writing files.slots words records placed)).2 } ∧
    ∀ listed, Directory.ListedAs
        (files.directory.untouched (placing files.slots words records)) placed listed →
      ∀ done, FileOperation.Cut (writing files.slots words records listed) done →
        ∀ seen, Directory.ListedAs (files.directory.untouched done)
            (files.directory.performAll done).2 seen →
          StaysBehind files.slots records files.directory seen →
            (read { files with directory := seen }).1 = files.read.1 ∨
              (read { files with directory := seen }).1 = .ok (words, records) := by
  intro placed
  refine ⟨?_, fun listed hlisted done hcut seen hseen hbehind => ?_⟩
  · rw [write, writeInto_eq]
  rcases placing_cases files.directory files.slots words records with ⟨hfails, hspares⟩ |
    ⟨hplaced, hreplaced⟩
  · -- if the words cannot be put in place, no stored file is touched
    have hend : Spares files.slots files.directory done := by
      rcases hcut.append_cases with hplacing | ⟨more, -, rfl⟩
      · rcases spares_or_eq_of_cut_placing files.directory hplacing with hspared | rfl
        · exact hspared
        · exact hspares
      · exact hspares.append hfails more
    exact Or.inl (hend.fst_read hnames hseen)
  · rw [writing_eq fun heq => hreplaced.ne_blocked.2 (hlisted.eq_blocked_iff.mp heq)] at hcut
    rcases hcut.append_cases with hplacing | ⟨more, hmore, rfl⟩
    · rcases spares_or_eq_of_cut_placing files.directory hplacing with hspared | rfl
      · exact Or.inl (hspared.fst_read hnames hseen)
      · -- the words are in place, and nothing is removed yet
        rw [← List.append_nil (placing files.slots words records)] at hseen
        have hinterrupted : Interrupted files.slots records words files.directory listed [] seen :=
          ⟨hnames, hplaced, hlisted, List.nil_prefix, hseen, hbehind⟩
        exact hinterrupted.fst_read hrecords
    · obtain ⟨names, hfirst, rfl⟩ := hmore.exists_prefix
      have hinterrupted : Interrupted files.slots records words files.directory listed names seen :=
        ⟨hnames, hplaced, hlisted, hfirst, hseen, hbehind⟩
      exact hinterrupted.fst_read hrecords

/-- A write of one record replaces the second of two files with one record. It ends when the words are in
place, and the new file stays behind the other one. -/
theorem read_of_interrupted_staysBehind :
    let files : WordFiles := ⟨"sets", 2, .present [("expressions-2-01.words", .file (wordBytes 3)),
      ("expressions-2-1.words", .file (wordBytes 5))]⟩
    let seen : Directory := .present [("expressions-2-01.words", .file (wordBytes 3)),
      ("expressions-2-1.words", .file (wordBytes 7))]
    StaysBehind 2 1 files.directory seen ∧
      ((read { files with directory := seen }).1 = files.read.1 ∨
        (read { files with directory := seen }).1 = .ok (#[7], 1)) := by
  intro files seen
  have hplaced : (files.directory.performAll (placing 2 #[7] 1)).2 = seen := by decide +kernel
  have hseen : Directory.ListedAs (files.directory.untouched (placing 2 #[7] 1))
      (files.directory.performAll (placing 2 #[7] 1)).2 seen := by
    rw [hplaced]
    exact .present (List.Perm.refl _) (by decide +kernel)
  have hbehind : StaysBehind 2 1 files.directory seen := fun name _ hbefore _ => hbefore
  have hnames : files.directory.names.Nodup := by decide +kernel
  obtain ⟨-, hread⟩ := read_of_interrupted hnames (by decide : 1 < recordBound) #[7]
  have hcut : FileOperation.Cut (writing 2 #[7] 1 seen) (placing 2 #[7] 1) :=
    .goOn _ (.goOn _ (.goOn _ (.nothing _)))
  exact ⟨hbehind, hread seen hseen _ hcut seen hseen hbehind⟩

/-- If the file system lists the new file in front of the other one, as one does that lists the newest
name first, the other one is read, which is neither what was read before nor what was to be written. -/
theorem read_of_interrupted_listedInFront :
    let files : WordFiles := ⟨"sets", 2, .present [("expressions-2-01.words", .file (wordBytes 3)),
      ("expressions-2-1.words", .file (wordBytes 5))]⟩
    let seen : Directory := .present [("expressions-2-1.words", .file (wordBytes 7)),
      ("expressions-2-01.words", .file (wordBytes 3))]
    files.directory.names.Nodup ∧
      Directory.ListedAs (files.directory.untouched (placing 2 #[7] 1))
        (files.directory.performAll (placing 2 #[7] 1)).2 seen ∧
      FileOperation.Cut (writing 2 #[7] 1 seen) (placing 2 #[7] 1) ∧
      files.read.1 = .ok (#[5], 1) ∧ (read { files with directory := seen }).1 = .ok (#[3], 1) := by
  intro files seen
  have hplaced : (files.directory.performAll (placing 2 #[7] 1)).2 =
      .present [("expressions-2-01.words", .file (wordBytes 3)),
        ("expressions-2-1.words", .file (wordBytes 7))] := by
    decide +kernel
  refine ⟨by decide +kernel, ?_, .goOn _ (.goOn _ (.goOn _ (.nothing _))), ?_, ?_⟩
  · rw [hplaced]
    exact .present (List.Perm.swap _ _ _) (by decide +kernel)
  · dsimp only [read, stored, files]
    rw [List.mergeSort_of_pairwise (by decide +kernel)]
    decide +kernel
  · dsimp only [read, stored, seen, files]
    rw [List.mergeSort_of_pairwise (by decide +kernel)]
    decide +kernel

end Formulary.WordFiles
