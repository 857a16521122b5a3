import Formulary.Proofs.Store.Interruption

/-!
# What a write leaves alone

Writing words over some number of slots concerns the names of stored files over that number of slots and
the name of the file that is filled, and no other. All other entries stay as they are, whether the write
succeeds or fails. The stored files over other numbers of slots are among them, because the digits in a
name end with a dash and so belong to one number only.

What is read depends on the stored files over the slots of the reader, on the order in which these are
listed and on their bytes. So after a write a reader over other slots reads what it would have read
before it. A reader over the same slots finds, after a write that succeeds, a single file.
-/

namespace Formulary.WordFiles

variable {files : WordFiles} {slots other records : ℕ} {words : Array UInt64}
  {before directory after seen : Directory} {name : String}

/-- A name that a write has nothing to do with: neither that of a stored file over the same slots nor
that of the file that is filled. -/
def IsApart (slots records : ℕ) (name : String) : Prop :=
  recordsIn slots name = none ∧ name ≠ stagingName slots records

instance (slots records : ℕ) : DecidablePred (IsApart slots records) :=
  fun _ => inferInstanceAs (Decidable (_ ∧ _))

/-- The entries that a write has nothing to do with, in the order in which they are listed. -/
def apart (slots records : ℕ) (directory : Directory) : Directory :=
  .present (directory.entries.filter fun entry => IsApart slots records entry.1)

/-- The names apart from a write are those of the directory that a write does not go to. -/
theorem names_apart (slots records : ℕ) (directory : Directory) :
    (apart slots records directory).names =
      directory.names.filter fun name => IsApart slots records name := by
  unfold apart Directory.names
  rw [List.filter_map]
  rfl

/-- What is found under a name that a write has nothing to do with is found among the entries apart. -/
theorem find?_apart (h : IsApart slots records name) (directory : Directory) :
    (apart slots records directory).find? name = directory.find? name :=
  Directory.lookup_filter (IsApart slots records) h directory.entries

/-- A write over some slots has nothing to do with stored files over others. -/
theorem isApart_of_recordsIn {count : ℕ} (hname : recordsIn other name = some count)
    (hne : other ≠ slots) (records : ℕ) : IsApart slots records name := by
  refine ⟨Option.eq_none_iff_forall_ne_some.mpr fun number hnumber => ?_, ?_⟩
  · exact hne (slots_eq_of_recordsIn hname hnumber)
  · rintro rfl
    rw [recordsIn_stagingName] at hname
    cases hname

/-- Names that are not those of stored files do not count. -/
theorem counted_filter (kept : String → Prop) [DecidablePred kept]
    (h : ∀ name count, recordsIn slots name = some count → kept name) (names : List String) :
    counted slots (names.filter fun name => kept name) = counted slots names := by
  unfold counted
  rw [List.filterMap_filter]
  refine List.filterMap_congr fun name _ => ?_
  by_cases hkept : kept name
  · simp [hkept]
  · have hnone : recordsIn slots name = none :=
      Option.eq_none_iff_forall_ne_some.mpr fun count hcount => hkept (h name count hcount)
    simp [hnone]

/-! ### Entries that are not concerned -/

/-- A write performs its operations. -/
theorem directory_write (files : WordFiles) (words : Array UInt64) (records : ℕ) :
    (files.write words records).2.directory =
      (files.directory.performAll (writing files.slots words records
        (files.directory.performAll (placing files.slots words records)).2)).2 := by
  rw [write, writeInto_eq]

/-- A write does not list a name twice if none was listed twice before. -/
theorem nodup_write (h : files.directory.names.Nodup) (words : Array UInt64) (records : ℕ) :
    (files.write words records).2.directory.names.Nodup := by
  rw [directory_write]
  exact Directory.nodup_performAll h _

/-- A write leaves a directory that can be listed just where there was one. -/
theorem write_eq_blocked_iff (files : WordFiles) (words : Array UInt64) (records : ℕ) :
    (files.write words records).2.directory = .blocked ↔ files.directory = .blocked := by
  rw [directory_write]
  exact Directory.performAll_eq_blocked_iff _

/-- A file of records over the same slots is not apart from a write. -/
theorem not_isApart_of_recordsIn {count : ℕ} (hname : recordsIn slots name = some count)
    (records : ℕ) : ¬ IsApart slots records name := by
  intro h
  rw [h.1] at hname
  cases hname

/-- Putting words in place concerns the name of the file that is filled and the final name. -/
theorem not_isApart_of_mem_placing (hrecords : records < recordBound) :
    ∀ operation ∈ placing slots words records, ∀ name ∈ operation.names,
      ¬ IsApart slots records name := by
  have hstaging : ¬ IsApart slots records (stagingName slots records) := fun h => h.2 rfl
  have hfinal := not_isApart_of_recordsIn (recordsIn_fileName slots hrecords) records
  simpa [placing, FileOperation.names] using ⟨hstaging, hfinal⟩

/-- The operations of a write concern no name that the write has nothing to do with. -/
theorem not_isApart_of_mem_writing (hrecords : records < recordBound) (listed : Directory) :
    ∀ operation ∈ writing slots words records listed, ∀ name ∈ operation.names,
      ¬ IsApart slots records name := by
  have hplacing : ∀ operation ∈ placing slots words records, ∀ name ∈ operation.names,
      ¬ IsApart slots records name := not_isApart_of_mem_placing hrecords
  by_cases hlisted : listed = .blocked
  · subst hlisted
    simpa [writing, stored] using hplacing
  rw [writing_eq hlisted]
  refine List.forall_mem_append.mpr ⟨hplacing, fun operation hremoved => ?_⟩
  obtain ⟨name, hname, rfl⟩ := List.mem_map.mp hremoved
  obtain ⟨file, hfile, rfl⟩ := List.mem_map.mp hname
  have hcount := (mem_sorted_iff.mp (List.mem_filter.mp hfile).1).2
  exact List.forall_mem_singleton.mpr (not_isApart_of_recordsIn hcount records)

/-- A write leaves all entries that it has nothing to do with, whether it succeeds or fails. -/
theorem apart_write (files : WordFiles) (hrecords : records < recordBound) (words : Array UInt64) :
    apart files.slots records (files.write words records).2.directory =
      apart files.slots records files.directory := by
  rw [directory_write, apart,
    Directory.filter_entries_performAll (not_isApart_of_mem_writing hrecords _)]
  rfl

/-- If the entries apart stay and are listed in the order in which they were, their names are the
same. -/
theorem names_apart_of_listedAs (h : Directory.ListedAs (apart slots records before) after seen)
    (hafter : apart slots records after = apart slots records before) :
    (apart slots records seen).names = (apart slots records before).names := by
  have hperm : (apart slots records seen).names.Perm (apart slots records before).names := by
    rw [← hafter, names_apart, names_apart]
    exact h.names_perm.filter _
  have hlisted : seen.names.filter (· ∈ (apart slots records before).names) =
      (apart slots records seen).names := by
    rw [names_apart slots records seen]
    refine List.filter_congr fun name hname => ?_
    rw [decide_eq_decide, ← hperm.mem_iff, names_apart, List.mem_filter, decide_eq_true_iff]
    exact and_iff_right hname
  exact (hlisted ▸ h.names_sublist).eq_of_length hperm.length_eq

/-- If the entries apart stay, the same is found under their names however they are listed. -/
theorem find?_of_listedAs (h : Directory.ListedAs (apart slots records before) after seen)
    (hafter : apart slots records after = apart slots records before)
    (hnames : before.names.Nodup) (hname : IsApart slots records name) :
    seen.find? name = before.find? name := by
  have hnodup : (apart slots records after).names.Nodup := by
    rw [hafter, names_apart]
    exact hnames.filter _
  rw [← find?_apart hname seen, ← find?_apart hname before, ← hafter]
  exact Directory.lookup_eq_of_perm hnodup (h.entries_perm.filter _) name

/-! ### Readers over other slots and over the same ones -/

/-- A reader over other slots looks only at what a write has nothing to do with. -/
theorem read_congr (files : WordFiles) (hne : files.slots ≠ slots)
    (hblocked : seen = .blocked ↔ files.directory = .blocked)
    (hnames : (apart slots records seen).names = (apart slots records files.directory).names)
    (hfind : ∀ name, IsApart slots records name → seen.find? name = files.directory.find? name) :
    read { files with directory := seen } = files.read := by
  by_cases hopen : files.directory = .blocked
  · rw [hblocked.mpr hopen, ← hopen]
  have hkept (name : String) (count : ℕ) (hname : recordsIn files.slots name = some count) :
      IsApart slots records name := isApart_of_recordsIn hname hne records
  have hsorted : sorted files.slots seen.names = sorted files.slots files.directory.names := by
    rw [names_apart, names_apart] at hnames
    unfold sorted
    rw [← counted_filter _ hkept seen.names, hnames, counted_filter _ hkept]
  unfold read
  dsimp only
  rw [stored_eq_ok (mt hblocked.mp hopen), stored_eq_ok hopen, hsorted]
  dsimp only
  cases hlast : (sorted files.slots files.directory.names).getLast? with
  | none => rfl
  | some file =>
    have hname := (mem_sorted_iff.mp (List.mem_of_getLast? hlast)).2
    dsimp only
    rw [wordsIn_congr (hfind file.1 (hkept file.1 file.2 hname))]
    rfl

/-- If a file is the only stored one, its words are read, and nothing is worth a warning. -/
theorem read_of_only (files : WordFiles) (hrecords : records < recordBound)
    (h : files.directory.entries.filter (fun entry => (recordsIn files.slots entry.1).isSome) =
      [(fileName files.slots records, .file (words.toList.flatMap wordBytes))]) :
    files.read = (.ok (words, records), []) := by
  have hcount := recordsIn_fileName files.slots hrecords
  have hfind : files.directory.find? (fileName files.slots records) =
      some (.file (words.toList.flatMap wordBytes)) := by
    have hkept := Option.isSome_of_eq_some hcount
    have hlookup := Directory.lookup_filter (fun name => (recordsIn files.slots name).isSome = true)
      hkept files.directory.entries
    simp only [Bool.decide_eq_true, h, List.lookup_cons_self] at hlookup
    exact hlookup.symm
  have hnames : files.directory.names.filter (fun name => (recordsIn files.slots name).isSome) =
      [fileName files.slots records] := by
    have hmap := congrArg (List.map Prod.fst) h
    rw [List.map_singleton] at hmap
    rw [← hmap, Directory.names, List.filter_map]
    rfl
  have hsorted : sorted files.slots files.directory.names =
      [(fileName files.slots records, records)] := by
    have hkept (name : String) (count : ℕ) (hname : recordsIn files.slots name = some count) :
        (recordsIn files.slots name).isSome = true :=
      Option.isSome_of_eq_some hname
    have hcounted := counted_filter (fun name => (recordsIn files.slots name).isSome = true) hkept
      files.directory.names
    simp only [Bool.decide_eq_true, hnames] at hcounted
    rw [sorted, ← hcounted]
    simp [counted, hcount]
  have hopen : files.directory ≠ .blocked := by
    intro hblocked
    rw [hblocked] at hfind
    cases hfind
  unfold read
  rw [stored_eq_ok hopen, hsorted]
  dsimp only [List.getLast?_singleton]
  rw [wordsIn_fileName hfind]
  rfl

/-- After a write that succeeds, exactly one entry is a stored file over the same slots. -/
theorem filter_recordsIn_write (hnames : files.directory.names.Nodup)
    (h : (files.write words records).1 = .ok ()) (hrecords : records < recordBound) :
    (files.write words records).2.directory.entries.filter
        (fun entry => (recordsIn files.slots entry.1).isSome) =
      [(fileName files.slots records, .file (words.toList.flatMap wordBytes))] := by
  have hnodup := nodup_write hnames words records
  obtain ⟨hnew, hothers⟩ := of_writeInto_eq_ok (Prod.ext h rfl :
    writeInto files.slots files.directory words records =
      (.ok (), (files.write words records).2.directory))
  refine List.perm_singleton.mp ((List.perm_ext_iff_of_nodup (hnodup.of_map.filter _)
    (List.nodup_singleton _)).mpr fun entry => ?_)
  rw [List.mem_filter, List.mem_singleton, Option.isSome_iff_exists]
  constructor
  · rintro ⟨hentry, count, hcount⟩
    have hfound := Directory.lookup_eq_some hnodup hentry
    by_cases hname : entry.1 = fileName files.slots records
    · rw [hname] at hfound
      exact Prod.ext hname (Option.some.inj (hfound.symm.trans hnew))
    · exact absurd (hfound.symm.trans (hothers entry.1 count hcount hname)) nofun
  · rintro rfl
    exact ⟨Directory.mem_of_lookup_eq_some hnew, records, recordsIn_fileName files.slots hrecords⟩

/-- A write leaves every entry that is neither a stored file over the same slots nor the file that is
filled. If it succeeds, exactly one entry is such a stored file, and the words are read that were
written. A reader over any other slots reads what it read before, whether it succeeds or fails. No name is
listed twice in a directory, a record count fits a machine word, and after the write the directory may be
listed in any order that keeps the order of the entries left. -/
theorem write_frame (hnames : files.directory.names.Nodup) (hrecords : records < recordBound)
    (words : Array UInt64) :
    let written := (files.write words records).2.directory
    (∀ name, IsApart files.slots records name → written.find? name = files.directory.find? name) ∧
    ((files.write words records).1 = .ok () →
      written.entries.filter (fun entry => (recordsIn files.slots entry.1).isSome) =
        [(fileName files.slots records, .file (words.toList.flatMap wordBytes))]) ∧
    ∀ seen, Directory.ListedAs (apart files.slots records files.directory) written seen →
      ((files.write words records).1 = .ok () →
        read { files with directory := seen } = (.ok (words, records), [])) ∧
      ∀ slots ≠ files.slots,
        read { files with slots := slots, directory := seen } = read { files with slots := slots } := by
  intro written
  have hapart := apart_write files hrecords words
  have honly (h : (files.write words records).1 = .ok ()) := filter_recordsIn_write hnames h hrecords
  refine ⟨fun name hname => ?_, honly, fun seen hseen => ⟨fun h => ?_, fun slots hne => ?_⟩⟩
  · rw [← find?_apart hname, hapart, find?_apart hname]
  · have hperm := hseen.entries_perm.filter fun entry => (recordsIn files.slots entry.1).isSome
    rw [honly h] at hperm
    exact read_of_only { files with directory := seen } hrecords (List.perm_singleton.mp hperm)
  · have hblocked : seen = .blocked ↔ files.directory = .blocked :=
      hseen.eq_blocked_iff.trans (write_eq_blocked_iff files words records)
    exact read_congr { files with slots := slots } hne hblocked
      (names_apart_of_listedAs hseen hapart) fun name => find?_of_listedAs hseen hapart hnames

/-- Words over one slot are written where there are words over twelve, a folder, a file that was being
filled, and two files over one slot whose counts have zeros or a plus in front. The new file happens to be
listed first. -/
theorem write_frame_oneSlot :
    let files : WordFiles := ⟨"sets", 1, .present [("expressions-12-1.words", .file (wordBytes 5)),
      ("expressions-1-+2.words", .file [1, 2, 3]), ("expressions-1-007.words", .file []),
      ("notes", .folder), ("expressions-1-9.tmp", .file [9])]⟩
    let seen : Directory := .present [("expressions-1-9.words", .file (wordBytes 7)),
      ("expressions-12-1.words", .file (wordBytes 5)), ("notes", .folder)]
    (files.write #[7] 9).1 = .ok () ∧
      read { files with directory := seen } = (.ok (#[7], 9), []) ∧
      read { files with slots := 12, directory := seen } = read { files with slots := 12 } := by
  intro files seen
  have hnames : files.directory.names.Nodup := by decide +kernel
  have hplaced : files.directory.performAll (placing 1 #[7] 9) = (true,
      .present [("expressions-12-1.words", .file (wordBytes 5)),
        ("expressions-1-+2.words", .file [1, 2, 3]), ("expressions-1-007.words", .file []),
        ("notes", .folder), ("expressions-1-9.words", .file (wordBytes 7))]) := by
    decide +kernel
  have hwritten : files.write #[7] 9 = (.ok (), ⟨"sets", 1,
      .present [("expressions-12-1.words", .file (wordBytes 5)), ("notes", .folder),
        ("expressions-1-9.words", .file (wordBytes 7))]⟩) := by
    rw [write, writeInto, hplaced]
    dsimp only [stored]
    rw [List.mergeSort_of_pairwise (by decide +kernel)]
    decide +kernel
  have hok : (files.write #[7] 9).1 = .ok () := by rw [hwritten]
  have hseen : Directory.ListedAs (apart 1 9 files.directory) (files.write #[7] 9).2.directory seen := by
    rw [hwritten]
    exact .present (by decide +kernel) (by decide +kernel)
  obtain ⟨-, -, hread⟩ := write_frame hnames (by decide : 9 < recordBound) #[7]
  obtain ⟨hsame, hothers⟩ := hread seen hseen
  exact ⟨hok, hsame hok, hothers 12 (by decide)⟩

end Formulary.WordFiles
