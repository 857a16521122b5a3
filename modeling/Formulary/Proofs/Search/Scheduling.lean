import Mathlib.Data.List.Perm.Subperm
import Mathlib.Data.List.Nodup
import Formulary.Search.Query

/-!
# Searches by any number of workers

While a search runs, every solution at a position that was taken up is in the hands of a worker or
filed, until there are enough solutions; from then on some are left out. What a worker holds it files
in one of the steps that are left, so nothing is held in the end. Hence the solutions of a search in
any course are solutions at positions of the index, each at most once, and there are as many as are
wanted or as many as there are.

This needs no order of the steps. What it needs of a schedule is that positions are taken up once and
filed later.
-/

namespace Formulary.Search

/-- What a probe finds at a position, if it does not fail there. -/
def foundBy (probe : ℕ → Except SearchError (Option Solution)) (position : ℕ) : Option Solution :=
  (probe position).toOption.join

/-- The solutions that workers hold and those that they have filed. -/
def Progress.held (progress : Progress) : List Solution :=
  progress.inHand.map Prod.snd ++ progress.filed

section Running

variable {probe : ℕ → Except SearchError (Option Solution)} {limit position : ℕ}
  {progress : Progress} {taken others : List ℕ} {steps rest : List Step} {solution : Solution}

/-- What is known of a search when some positions were taken up and some steps are left. -/
structure Progress.Tracks (probe : ℕ → Except SearchError (Option Solution)) (limit : ℕ)
    (taken : List ℕ) (rest : List Step) (progress : Progress) : Prop where
  full_iff : progress.full = true ↔ progress.filed.length = limit
  length_le : progress.filed.length ≤ limit
  hands_nodup : (progress.inHand.map Prod.fst).Nodup
  hands_taken : ∀ entry ∈ progress.inHand, entry.1 ∈ taken
  awaited : ∀ entry ∈ progress.inHand, Step.file entry.1 ∈ rest
  held_subperm : progress.held.Subperm (taken.filterMap (foundBy probe))
  held_perm : progress.full = false → progress.held.Perm (taken.filterMap (foundBy probe))

/-- At the beginning no position was taken up, and there are no solutions. -/
theorem Progress.start_tracks (probe : ℕ → Except SearchError (Option Solution)) (limit : ℕ)
    (steps : List Step) : (Progress.start limit).Tracks probe limit [] steps where
  full_iff := beq_iff_eq.trans eq_comm
  length_le := Nat.zero_le limit
  hands_nodup := List.nodup_nil
  hands_taken := by simp [Progress.start]
  awaited := by simp [Progress.start]
  held_subperm := List.nil_subperm
  held_perm := fun _ => List.Perm.refl []

/-- It does not matter in which order positions were taken up. -/
theorem Progress.Tracks.perm (h : progress.Tracks probe limit taken rest)
    (hperm : taken.Perm others) : progress.Tracks probe limit others rest where
  full_iff := h.full_iff
  length_le := h.length_le
  hands_nodup := h.hands_nodup
  hands_taken := fun entry hentry => hperm.mem_iff.mp (h.hands_taken entry hentry)
  awaited := h.awaited
  held_subperm := (hperm.filterMap _).subperm_left.mp h.held_subperm
  held_perm := fun hfull => (h.held_perm hfull).trans (hperm.filterMap _)

/-- A step that takes up a position files nothing. -/
theorem Step.file_mem_of_ne_take {other : ℕ} (h : Step.file other ∈ Step.take position :: rest) :
    Step.file other ∈ rest := by
  simpa using h

/-- A worker that takes up a position when there are enough solutions leaves what is there out. -/
theorem Progress.Tracks.take_of_full (h : progress.Tracks probe limit taken (.take position :: rest))
    (hfull : progress.full = true) : progress.Tracks probe limit (position :: taken) rest where
  full_iff := h.full_iff
  length_le := h.length_le
  hands_nodup := h.hands_nodup
  hands_taken := fun entry hentry => List.mem_cons_of_mem _ (h.hands_taken entry hentry)
  awaited := fun entry hentry => Step.file_mem_of_ne_take (h.awaited entry hentry)
  held_subperm := h.held_subperm.trans
    ((List.sublist_cons_self position taken).filterMap _).subperm
  held_perm := fun hopen => absurd (hfull.symm.trans hopen) (by decide)

/-- Where nothing is found, nothing changes. -/
theorem Progress.Tracks.take_of_none (h : progress.Tracks probe limit taken (.take position :: rest))
    (hprobe : probe position = .ok none) : progress.Tracks probe limit (position :: taken) rest := by
  have hfound : foundBy probe position = none := by rw [foundBy, hprobe]; rfl
  have hsame : (position :: taken).filterMap (foundBy probe) = taken.filterMap (foundBy probe) :=
    List.filterMap_cons_none hfound
  exact {
    full_iff := h.full_iff
    length_le := h.length_le
    hands_nodup := h.hands_nodup
    hands_taken := fun entry hentry => List.mem_cons_of_mem _ (h.hands_taken entry hentry)
    awaited := fun entry hentry => Step.file_mem_of_ne_take (h.awaited entry hentry)
    held_subperm := hsame ▸ h.held_subperm
    held_perm := fun hopen => hsame ▸ h.held_perm hopen }

/-- What is found is held by the worker, who files it later. -/
theorem Progress.Tracks.take_of_some (h : progress.Tracks probe limit taken (.take position :: rest))
    (hprobe : probe position = .ok (some solution)) (hnew : position ∉ taken)
    (hlater : Step.file position ∈ rest) :
    Progress.Tracks probe limit (position :: taken) rest
      { progress with inHand := (position, solution) :: progress.inHand } := by
  have hfound : foundBy probe position = some solution := by rw [foundBy, hprobe]; rfl
  have hmore : (position :: taken).filterMap (foundBy probe) =
      solution :: taken.filterMap (foundBy probe) := List.filterMap_cons_some hfound
  exact {
    full_iff := h.full_iff
    length_le := h.length_le
    hands_nodup := by
      refine List.nodup_cons.mpr ⟨fun hmem => ?_, h.hands_nodup⟩
      obtain ⟨entry, hentry, rfl⟩ := List.mem_map.mp hmem
      exact hnew (h.hands_taken entry hentry)
    hands_taken := List.forall_mem_cons.mpr ⟨List.mem_cons_self,
      fun entry hentry => List.mem_cons_of_mem _ (h.hands_taken entry hentry)⟩
    awaited := List.forall_mem_cons.mpr ⟨hlater,
      fun entry hentry => Step.file_mem_of_ne_take (h.awaited entry hentry)⟩
    held_subperm := hmore ▸ (List.subperm_cons solution).mpr h.held_subperm
    held_perm := fun hopen => hmore ▸ (h.held_perm hopen).cons solution }

/-- Taking up a position fails with what is met there, or the search goes on. -/
theorem Progress.Tracks.take_cases (h : progress.Tracks probe limit taken (.take position :: rest))
    (hnew : position ∉ taken) (hlater : Step.file position ∈ rest) :
    (∃ error, probe position = .error error ∧ progress.take probe position = .error error) ∨
      ∃ next, progress.take probe position = .ok next ∧
        next.Tracks probe limit (position :: taken) rest := by
  cases hfull : progress.full with
  | true => exact Or.inr ⟨progress, by rw [Progress.take, if_pos hfull], h.take_of_full hfull⟩
  | false =>
    have hopen : ¬ progress.full = true := Bool.eq_false_iff.mp hfull
    rcases hprobe : probe position with error | _ | solution
    · exact Or.inl ⟨error, rfl, by rw [Progress.take, if_neg hopen, hprobe]⟩
    · exact Or.inr ⟨progress, by rw [Progress.take, if_neg hopen, hprobe], h.take_of_none hprobe⟩
    · exact Or.inr ⟨_, by rw [Progress.take, if_neg hopen, hprobe],
        h.take_of_some hprobe hnew hlater⟩

/-- What is held from a position stands apart from all else that is held. -/
theorem perm_cons_filter {inHand : List (ℕ × Solution)} (hnodup : (inHand.map Prod.fst).Nodup)
    (hlookup : inHand.lookup position = some solution) :
    inHand.Perm ((position, solution) :: inHand.filter (·.1 != position)) := by
  obtain ⟨before, after, rfl, -⟩ := List.lookup_eq_some_iff.mp hlookup
  rw [List.map_append, List.map_cons, List.nodup_middle, List.nodup_cons, ← List.map_append] at hnodup
  have hkept : (before ++ after).filter (·.1 != position) = before ++ after := by
    refine List.filter_eq_self.mpr fun entry hentry => bne_iff_ne.mpr fun heq => ?_
    exact hnodup.1 (List.mem_map.mpr ⟨entry, hentry, heq⟩)
  have hfilter : (before ++ (position, solution) :: after).filter (·.1 != position) =
      before ++ after := by
    rw [← hkept, List.filter_append, List.filter_append, List.filter_cons_of_neg (by simp)]
  rw [hfilter]
  exact List.perm_middle

/-- What workers hold from other positions is filed in one of the steps after this one. -/
theorem Progress.Tracks.awaited_others
    (h : progress.Tracks probe limit taken (.file position :: rest)) :
    ∀ entry ∈ progress.inHand.filter (·.1 != position), Step.file entry.1 ∈ rest := by
  intro entry hentry
  obtain ⟨hmem, hne⟩ := List.mem_filter.mp hentry
  exact (List.mem_cons.mp (h.awaited entry hmem)).resolve_left
    fun heq => bne_iff_ne.mp hne (Step.file.inj heq)

/-- What is held is what was found at a position and all else that is held. -/
theorem Progress.Tracks.held_perm_cons (h : progress.Tracks probe limit taken steps)
    (hlookup : progress.inHand.lookup position = some solution) :
    progress.held.Perm (solution ::
      ((progress.inHand.filter (·.1 != position)).map Prod.snd ++ progress.filed)) :=
  ((perm_cons_filter h.hands_nodup hlookup).map Prod.snd).append_right progress.filed

/-- Below the limit what was held from a position is filed, so all that was held is still held. -/
theorem Progress.Tracks.file_of_lt
    (h : progress.Tracks probe limit taken (.file position :: rest))
    (hlookup : progress.inHand.lookup position = some solution)
    (hlt : progress.filed.length < limit) :
    (progress.file limit position).Tracks probe limit taken rest := by
  have hopen : progress.full = false :=
    Bool.eq_false_iff.mpr fun hfull => Nat.ne_of_lt hlt (h.full_iff.mp hfull)
  have hsublist := List.filter_sublist (l := progress.inHand) (p := (·.1 != position))
  have hmoved : ((progress.inHand.filter (·.1 != position)).map Prod.snd ++
      (progress.filed ++ [solution])).Perm progress.held := by
    rw [← List.append_assoc]
    exact (List.perm_append_singleton solution _).trans (h.held_perm_cons hlookup).symm
  simp only [Progress.file, hlookup, if_pos hlt, hopen, Bool.false_or]
  exact {
    full_iff := by simp only [decide_eq_true_eq, List.length_append, List.length_singleton]; omega
    length_le := by simp only [List.length_append, List.length_singleton]; omega
    hands_nodup := h.hands_nodup.sublist (hsublist.map Prod.fst)
    hands_taken := fun entry hentry => h.hands_taken entry (hsublist.subset hentry)
    awaited := h.awaited_others
    held_subperm := hmoved.subperm.trans h.held_subperm
    held_perm := fun _ => hmoved.trans (h.held_perm hopen) }

/-- At the limit what was held from a position is left out. -/
theorem Progress.Tracks.file_of_le
    (h : progress.Tracks probe limit taken (.file position :: rest))
    (hlookup : progress.inHand.lookup position = some solution)
    (hle : limit ≤ progress.filed.length) :
    (progress.file limit position).Tracks probe limit taken rest := by
  have hlimit : progress.filed.length = limit := Nat.le_antisymm h.length_le hle
  have hsublist := List.filter_sublist (l := progress.inHand) (p := (·.1 != position))
  simp only [Progress.file, hlookup, if_neg (Nat.not_lt.mpr hle), h.full_iff.mpr hlimit,
    Bool.true_or]
  exact {
    full_iff := by simp [hlimit]
    length_le := h.length_le
    hands_nodup := h.hands_nodup.sublist (hsublist.map Prod.fst)
    hands_taken := fun entry hentry => h.hands_taken entry (hsublist.subset hentry)
    awaited := h.awaited_others
    held_subperm := ((List.sublist_cons_self solution _).subperm.trans
      (h.held_perm_cons hlookup).symm.subperm).trans h.held_subperm
    held_perm := by simp }

/-- Filing keeps what is known, whether or not something is held from the position. -/
theorem Progress.Tracks.file (h : progress.Tracks probe limit taken (.file position :: rest)) :
    (progress.file limit position).Tracks probe limit taken rest := by
  cases hlookup : progress.inHand.lookup position with
  | none =>
    have hother : ∀ entry ∈ progress.inHand, position ≠ entry.1 := fun entry hentry =>
      bne_iff_ne.mp (List.lookup_eq_none_iff.mp hlookup entry hentry)
    rw [Progress.file, hlookup]
    exact { h with
      awaited := fun entry hentry =>
        (List.mem_cons.mp (h.awaited entry hentry)).resolve_left
          fun heq => hother entry hentry (Step.file.inj heq).symm }
  | some solution =>
    rcases Nat.lt_or_ge progress.filed.length limit with hlt | hge
    · exact h.file_of_lt hlookup hlt
    · exact h.file_of_le hlookup hge

/-- The steps that are left end the search with an error that some position gives, or with all
positions taken up. -/
theorem Progress.Tracks.foldlM_cases (h : progress.Tracks probe limit taken steps)
    (hfiled : Filed steps) (hnodup : (takenBy steps ++ taken).Nodup) :
    (∃ position ∈ takenBy steps, ∃ error, probe position = .error error ∧
      steps.foldlM (Progress.step probe limit) progress = .error error) ∨
    ∃ last, steps.foldlM (Progress.step probe limit) progress = .ok last ∧
      last.Tracks probe limit (takenBy steps ++ taken) [] := by
  induction steps generalizing taken progress with
  | nil => exact Or.inr ⟨progress, rfl, h⟩
  | cons step rest ih =>
    cases step with
    | take position =>
      obtain ⟨hlater, hrest⟩ := hfiled
      have hmiddle : (takenBy (.take position :: rest) ++ taken).Perm
          (takenBy rest ++ position :: taken) := List.perm_middle.symm
      have hnew : position ∉ taken := fun hmem =>
        (List.nodup_cons.mp hnodup).1 (List.mem_append_right _ hmem)
      rcases h.take_cases hnew hlater with ⟨error, hprobe, htake⟩ | ⟨next, htake, hnext⟩
      · refine Or.inl ⟨position, List.mem_cons_self, error, hprobe, ?_⟩
        rw [List.foldlM_cons, Progress.step, htake]
        rfl
      · rcases ih hnext hrest (hmiddle.nodup_iff.mp hnodup) with
          ⟨failing, hmem, error, hprobe, hrun⟩ | ⟨last, hrun, hlast⟩
        · refine Or.inl ⟨failing, List.mem_cons_of_mem _ hmem, error, hprobe, ?_⟩
          rw [List.foldlM_cons, Progress.step, htake]
          exact hrun
        · refine Or.inr ⟨last, ?_, hlast.perm hmiddle.symm⟩
          rw [List.foldlM_cons, Progress.step, htake]
          exact hrun
    | file position => exact ih h.file hfiled hnodup

/-- When no step is left, what is filed are solutions at positions that were taken up, as many as are
wanted or as there are. -/
theorem Progress.Tracks.filed_of_end (h : progress.Tracks probe limit taken []) :
    progress.filed.Subperm (taken.filterMap (foundBy probe)) ∧
      progress.filed.length = min limit (taken.filterMap (foundBy probe)).length := by
  have hempty : progress.inHand = [] :=
    List.eq_nil_iff_forall_not_mem.mpr fun entry hentry => nomatch h.awaited entry hentry
  have hheld : progress.held = progress.filed := by
    rw [Progress.held, hempty]
    rfl
  have hsubperm := hheld ▸ h.held_subperm
  refine ⟨hsubperm, ?_⟩
  cases hfull : progress.full with
  | true =>
    rw [← h.full_iff.mp hfull]
    exact (Nat.min_eq_left hsubperm.length_le).symm
  | false =>
    rw [← (h.held_perm hfull).length_eq, hheld]
    exact (Nat.min_eq_right h.length_le).symm

/-- A search in any course fails with what some position gives, or it files solutions at positions of
the index, each at most once, and as many as are wanted or as there are. -/
theorem Schedule.run_cases {length : ℕ} (schedule : Schedule length)
    (probe : ℕ → Except SearchError (Option Solution)) (limit : ℕ) :
    (∃ position < length, ∃ error, probe position = .error error ∧
      schedule.steps.foldlM (Progress.step probe limit) (.start limit) = .error error) ∨
    ∃ last, schedule.steps.foldlM (Progress.step probe limit) (.start limit) = .ok last ∧
      last.filed.Subperm ((List.range length).filterMap (foundBy probe)) ∧
      last.filed.length = min limit ((List.range length).filterMap (foundBy probe)).length := by
  have hstart := Progress.start_tracks probe limit schedule.steps
  have hnodup : (takenBy schedule.steps ++ []).Nodup := by
    rw [List.append_nil, schedule.taken.nodup_iff]
    exact List.nodup_range
  rcases hstart.foldlM_cases schedule.filed hnodup with
    ⟨position, hmem, error, hprobe, hrun⟩ | ⟨last, hrun, hlast⟩
  · exact Or.inl ⟨position, List.mem_range.mp (schedule.taken.mem_iff.mp hmem), error, hprobe, hrun⟩
  · have hperm : (takenBy schedule.steps ++ []).Perm (List.range length) :=
      (List.append_nil _).symm ▸ schedule.taken
    exact Or.inr ⟨last, hrun, (hlast.perm hperm).filed_of_end⟩

end Running

/-- Sorting gives the one list of the same solutions whose positions increase. -/
theorem sortByPosition_eq {solutions sorted : List Solution} (hperm : solutions.Perm sorted)
    (hsorted : sorted.Pairwise fun first second => first.position < second.position) :
    sortByPosition solutions = sorted := by
  have hinj : ∀ a ∈ sorted, ∀ b ∈ sorted, a.position = b.position → a = b :=
    List.inj_on_of_nodup_map ((hsorted.imp Nat.ne_of_lt).map _ fun _ _ => id)
  have hle : (sortByPosition solutions).Pairwise fun first second =>
      first.position ≤ second.position := by
    have hsort := @List.pairwise_mergeSort Solution
      (fun first second => decide (first.position ≤ second.position))
      (fun a b c hab hbc => by
        rw [decide_eq_true_eq] at hab hbc ⊢
        exact Nat.le_trans hab hbc)
      (fun a b => by simpa using Nat.le_total a.position b.position) solutions
    exact hsort.imp of_decide_eq_true
  have hmerge : (sortByPosition solutions).Perm sorted := (List.mergeSort_perm _ _).trans hperm
  exact hmerge.eq_of_pairwise
    (fun a b ha hb hab hba => hinj a (hmerge.mem_iff.mp ha) b hb (Nat.le_antisymm hab hba)) hle
    (hsorted.imp Nat.le_of_lt)

/-- Some of the solutions in a sorted list, when sorted, are a part of that list. -/
theorem sortByPosition_sublist {solutions all : List Solution} (hsubperm : solutions.Subperm all)
    (hall : all.Pairwise fun first second => first.position < second.position) :
    (sortByPosition solutions).Sublist all := by
  obtain ⟨sorted, hperm, hsublist⟩ := hsubperm
  rw [sortByPosition_eq hperm.symm (hall.sublist hsublist)]
  exact hsublist

end Formulary.Search
