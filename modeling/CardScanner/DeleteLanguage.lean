import CardScanner.LanguageInstall

/-!
# Deleting a language

`OcrLanguageDataStore.deleteLanguage` deletes the files of a language one by
one, each of which may fail, and marks the language as not installed as soon as
one of them is gone.  The store, however, takes a language for installed as
long as one file is left.  The two agree unless some deletions succeed and some
fail (`flagAgrees_iff`).

A code without a dot is the part of a file's name before its first dot, so no
two such codes share a file and the deletion stays with its own language
(`deleteLanguage_other`).
-/

namespace CardScanner

/-! ## The deletion -/

/-- `setUninstalled`: the language is not installed, and its size is 0. -/
def OcrLanguage.setUninstalled (language : OcrLanguage) : OcrLanguage :=
  { language with installStatus := ⟨false, 0⟩ }

/-- The names of the files `getAllFilesFor` finds. -/
def languageFileNames (ocrLang : List Char) : TrainingDataDir → List FileName
  | .folder files => (files.entries.filter fun e => isLanguageFileFor e.1 e.2 ocrLang).map (·.1)
  | _ => []

/-- A folder without one of its entries. -/
def TrainingDataDir.erase (tessDir : TrainingDataDir) (fileName : FileName) : TrainingDataDir :=
  match tessDir with
  | .folder entries => .folder (entries.erase fileName)
  | tessDir => tessDir

/-- The loop of `deleteLanguage`: the folder, `success` and
`atLeastOneDeleted`. -/
structure Deletion where
  tessDir : TrainingDataDir
  success : Bool
  atLeastOneDeleted : Bool

/-- The body of the loop; `canDelete` tells which files the system deletes. -/
def deleteFile (canDelete : FileName → Bool) (s : Deletion) (file : FileName) : Deletion :=
  let deleted := canDelete file
  { tessDir := if deleted then s.tessDir.erase file else s.tessDir
    success := s.success && deleted
    atLeastOneDeleted := s.atLeastOneDeleted || deleted }

/-- What `deleteLanguage` leaves, and its result. -/
structure Deleted where
  language : OcrLanguage
  tessDir : TrainingDataDir
  result : Bool

/-- `deleteLanguage`: the flag is cleared if a file was deleted or none was
there; whether all went well is a matter of its own. -/
def deleteLanguage (canDelete : FileName → Bool) (language : OcrLanguage)
    (tessDir : TrainingDataDir) : Deleted :=
  let languageFiles := languageFileNames language.languageCode tessDir
  if languageFiles.length = 0 then ⟨language.setUninstalled, tessDir, false⟩
  else
    let s := languageFiles.foldl (deleteFile canDelete) ⟨tessDir, true, false⟩
    ⟨if s.atLeastOneDeleted then language.setUninstalled else language, s.tessDir, s.success⟩

/-! ## The loop -/

theorem lookup_erase (tessDir : TrainingDataDir) (file name : FileName) :
    (tessDir.erase file).lookup name = if name = file then none else tessDir.lookup name := by
  cases tessDir with
  | absent => simp [TrainingDataDir.erase, TrainingDataDir.lookup]
  | file => simp [TrainingDataDir.erase, TrainingDataDir.lookup]
  | folder entries =>
      rw [TrainingDataDir.erase, TrainingDataDir.lookup]
      split_ifs with hname
      · rw [hname, AList.lookup_erase]
      · exact AList.lookup_erase_ne hname

/-- The loop removes the files it can delete and records whether it could. -/
theorem foldl_deleteFile (canDelete : FileName → Bool) (files : List FileName) (s : Deletion) :
    let s' := files.foldl (deleteFile canDelete) s
    (∀ name, s'.tessDir.lookup name =
      if name ∈ files ∧ canDelete name = true then none else s.tessDir.lookup name) ∧
    s'.success = (s.success && files.all canDelete) ∧
    s'.atLeastOneDeleted = (s.atLeastOneDeleted || files.any canDelete) := by
  induction files generalizing s with
  | nil => simp
  | cons file files ih =>
      obtain ⟨hlookup, hsuccess, hdeleted⟩ := ih (deleteFile canDelete s file)
      refine ⟨fun name => ?_, ?_, ?_⟩
      · rw [List.foldl_cons, hlookup]
        by_cases hname : name = file
        · subst hname
          cases hcan : canDelete name <;> simp [deleteFile, hcan, lookup_erase]
        · have hkept : (deleteFile canDelete s file).tessDir.lookup name =
              s.tessDir.lookup name := by
            cases hcan : canDelete file <;> simp [deleteFile, hcan, lookup_erase, hname]
          simp [hkept, hname]
      · rw [List.foldl_cons, hsuccess, List.all_cons, ← Bool.and_assoc]
        rfl
      · rw [List.foldl_cons, hdeleted, List.any_cons, ← Bool.or_assoc]
        rfl

/-! ## The files of a language -/

/-- The files of a language are the regular files whose names start so. -/
theorem mem_languageFileNames {ocrLang : List Char} {tessDir : TrainingDataDir}
    {name : FileName} : name ∈ languageFileNames ocrLang tessDir ↔
      name.startsWith ocrLang = true ∧ ∃ content, tessDir.lookup name = some (.file content) := by
  cases tessDir with
  | absent => simp [languageFileNames, TrainingDataDir.lookup]
  | file => simp [languageFileNames, TrainingDataDir.lookup]
  | folder entries =>
      rw [languageFileNames, List.mem_map]
      constructor
      · intro hfound
        obtain ⟨⟨file, entry⟩, hmem, hname⟩ := hfound
        subst hname
        obtain ⟨hentry, hfile⟩ := List.mem_filter.mp hmem
        rw [isLanguageFileFor, Bool.and_eq_true] at hfile
        cases entry with
        | file content => exact ⟨hfile.1, content, AList.mem_lookup_iff.mpr hentry⟩
        | folder => exact absurd hfile.2 Bool.false_ne_true
      · intro hfound
        obtain ⟨hstarts, content, hlookup⟩ := hfound
        have hfile : isLanguageFileFor name (.file content) ocrLang = true := by
          rw [isLanguageFileFor, hstarts]
          rfl
        exact ⟨⟨name, .file content⟩,
          List.mem_filter.mpr ⟨AList.mem_lookup_iff.mp hlookup, hfile⟩, rfl⟩

/-- A language is installed iff it has files. -/
theorem isInstalled_iff_languageFileNames (ocrLang : List Char) (tessDir : TrainingDataDir) :
    (isLanguageInstalled ocrLang tessDir).isInstalled = true ↔
      languageFileNames ocrLang tessDir ≠ [] := by
  rw [isInstalled_iff, Ne, List.eq_nil_iff_forall_not_mem]
  push Not
  simp only [mem_languageFileNames, exists_and_left]

/-- A code without a dot is all of the name before its first dot. -/
theorem eq_takeWhile_of_startsWith {fileName : FileName} {ocrLang : List Char}
    (hdot : '.' ∉ ocrLang) (h : fileName.startsWith ocrLang = true) :
    ocrLang = fileName.name.takeWhile (· != '.') := by
  rw [FileName.startsWith, List.isPrefixOf_iff_prefix] at h
  obtain ⟨rest, hrest⟩ := h
  have hcode : ∀ c ∈ ocrLang, (c != '.') = true := by
    intro c hc
    rw [bne_iff_ne]
    exact fun heq => hdot (heq ▸ hc)
  rw [← hrest, List.append_assoc, List.takeWhile_append_of_pos hcode]
  simp

/-! ## What a deletion leaves -/

/-- What is found under a name after the deletion. -/
theorem lookup_deleteLanguage (canDelete : FileName → Bool) (language : OcrLanguage)
    (tessDir : TrainingDataDir) (name : FileName) :
    (deleteLanguage canDelete language tessDir).tessDir.lookup name =
      if name ∈ languageFileNames language.languageCode tessDir ∧ canDelete name = true then none
      else tessDir.lookup name := by
  have hloop := (foldl_deleteFile canDelete (languageFileNames language.languageCode tessDir)
    ⟨tessDir, true, false⟩).1 name
  unfold deleteLanguage
  by_cases hnone : languageFileNames language.languageCode tessDir = []
  · simp [hnone]
  · simpa [hnone] using hloop

/-- The language is marked as not installed when it has no files or one of them
is deleted, and left as it is otherwise. -/
theorem language_deleteLanguage (canDelete : FileName → Bool) (language : OcrLanguage)
    (tessDir : TrainingDataDir) :
    (deleteLanguage canDelete language tessDir).language =
      if languageFileNames language.languageCode tessDir = [] ∨
          ∃ file ∈ languageFileNames language.languageCode tessDir, canDelete file = true then
        language.setUninstalled
      else language := by
  have hdeleted := (foldl_deleteFile canDelete (languageFileNames language.languageCode tessDir)
    ⟨tessDir, true, false⟩).2.2
  rw [Bool.false_or] at hdeleted
  unfold deleteLanguage
  simp only [List.length_eq_zero_iff, hdeleted, List.any_eq_true]
  by_cases hnone : languageFileNames language.languageCode tessDir = []
  · simp [hnone]
  · simp [hnone]

/-- The files left are those that could not be deleted. -/
theorem mem_languageFileNames_deleteLanguage {canDelete : FileName → Bool}
    {language : OcrLanguage} {tessDir : TrainingDataDir} {name : FileName} :
    name ∈ languageFileNames language.languageCode
        (deleteLanguage canDelete language tessDir).tessDir ↔
      name ∈ languageFileNames language.languageCode tessDir ∧ canDelete name = false := by
  rw [mem_languageFileNames, lookup_deleteLanguage]
  split_ifs with hgone
  · simp [hgone.2]
  · rw [← mem_languageFileNames]
    exact ⟨fun hmem => ⟨hmem, Bool.eq_false_iff.mpr fun hcan => hgone ⟨hmem, hcan⟩⟩, And.left⟩

/-- The files of other languages stay, as long as no code has a dot. -/
theorem deleteLanguage_other {canDelete : FileName → Bool} {language : OcrLanguage}
    {tessDir : TrainingDataDir} (hdot : '.' ∉ language.languageCode) {other : List Char}
    (hother : '.' ∉ other) (hne : other ≠ language.languageCode) {name : FileName}
    (hname : name.startsWith other = true) :
    (deleteLanguage canDelete language tessDir).tessDir.lookup name = tessDir.lookup name := by
  rw [lookup_deleteLanguage, if_neg]
  intro ⟨hmem, _⟩
  have hown := eq_takeWhile_of_startsWith hdot (mem_languageFileNames.mp hmem).1
  exact hne ((eq_takeWhile_of_startsWith hother hname).trans hown.symm)

/-! ## The flag -/

/-- The language's flag is what the store computes. -/
def FlagAgrees (language : OcrLanguage) (tessDir : TrainingDataDir) : Prop :=
  language.installStatus.isInstalled =
    (isLanguageInstalled language.languageCode tessDir).isInstalled

/-- Some file of the language is deleted and some is not. -/
def PartlyDeleted (canDelete : FileName → Bool) (language : OcrLanguage)
    (tessDir : TrainingDataDir) : Prop :=
  (∃ file ∈ languageFileNames language.languageCode tessDir, canDelete file = true) ∧
  ∃ file ∈ languageFileNames language.languageCode tessDir, canDelete file = false

/-- The flag agrees with the store after a deletion unless it was partial.  A
language marked as not installed is marked rightly if no file is left; where
nothing was deleted, all its files are. -/
theorem flagAgrees_iff {canDelete : FileName → Bool} {language : OcrLanguage}
    {tessDir : TrainingDataDir} (hbefore : FlagAgrees language tessDir) :
    FlagAgrees (deleteLanguage canDelete language tessDir).language
        (deleteLanguage canDelete language tessDir).tessDir ↔
      ¬ PartlyDeleted canDelete language tessDir := by
  have hcode : (deleteLanguage canDelete language tessDir).language.languageCode =
      language.languageCode := by
    rw [language_deleteLanguage]
    split_ifs <;> rfl
  have hleft : (isLanguageInstalled language.languageCode
      (deleteLanguage canDelete language tessDir).tessDir).isInstalled = true ↔
        ∃ file ∈ languageFileNames language.languageCode tessDir, canDelete file = false := by
    rw [isInstalled_iff_languageFileNames, Ne, List.eq_nil_iff_forall_not_mem]
    push Not
    simp only [mem_languageFileNames_deleteLanguage]
  unfold FlagAgrees PartlyDeleted
  rw [hcode, Bool.eq_iff_iff, hleft, language_deleteLanguage]
  split_ifs with hmarked
  · rcases hmarked with hnone | hdeleted
    · simp [hnone, OcrLanguage.setUninstalled]
    · simp [hdeleted, OcrLanguage.setUninstalled]
  · push Not at hmarked
    obtain ⟨hsome, hkept⟩ := hmarked
    obtain ⟨file, hfile⟩ := List.exists_mem_of_ne_nil _ hsome
    have hinstalled := (isInstalled_iff_languageFileNames _ tessDir).mpr hsome
    rw [FlagAgrees, hinstalled] at hbefore
    refine iff_of_true (iff_of_true hbefore ⟨file, hfile, ?_⟩) fun h => ?_
    · exact Bool.eq_false_iff.mpr (hkept file hfile)
    · obtain ⟨⟨deleted, hmem, hcan⟩, _⟩ := h
      exact hkept deleted hmem hcan

/-- A deletion leaves the flag in agreement with the store and the files of
other languages where they are. -/
structure DeletesCleanly (canDelete : FileName → Bool) (language : OcrLanguage)
    (tessDir : TrainingDataDir) : Prop where
  flag : FlagAgrees (deleteLanguage canDelete language tessDir).language
    (deleteLanguage canDelete language tessDir).tessDir
  others : ∀ other, '.' ∉ other → other ≠ language.languageCode →
    ∀ name : FileName, name.startsWith other = true →
      (deleteLanguage canDelete language tessDir).tessDir.lookup name = tessDir.lookup name

/-- **When a deletion is clean.**  Exactly when it is not partial: the files
of other languages stay in any case, so it is the flag that decides. -/
theorem deletesCleanly_iff {canDelete : FileName → Bool} {language : OcrLanguage}
    {tessDir : TrainingDataDir} (hdot : '.' ∉ language.languageCode)
    (hbefore : FlagAgrees language tessDir) :
    DeletesCleanly canDelete language tessDir ↔ ¬ PartlyDeleted canDelete language tessDir := by
  rw [← flagAgrees_iff hbefore]
  exact ⟨DeletesCleanly.flag, fun hflag => ⟨hflag, fun _ hother hne _ hname =>
    deleteLanguage_other hdot hother hne hname⟩⟩

/-- English, installed. -/
def installedEnglish : OcrLanguage where
  downloading := false
  downloadId := 0
  languageCode := ['e', 'n', 'g']
  displayText := ['E', 'n', 'g', 'l', 'i', 's', 'h']
  installStatus := ⟨true, 0⟩

/-- The name of a second file of English. -/
def engCube : FileName where
  name := ['e', 'n', 'g', '.', 'c', 'u', 'b', 'e']
  noSlash := by decide

/-- A folder with the two files. -/
def englishFiles : TrainingDataDir :=
  .folder ((AList.insert engTraineddata (.file []) ∅).insert engCube (.file []))

/-- When both files go, nothing of English is left. -/
theorem deletesCleanly_english :
    FlagAgrees installedEnglish englishFiles ∧
      DeletesCleanly (fun _ => true) installedEnglish englishFiles := by
  have hbefore : FlagAgrees installedEnglish englishFiles := by
    unfold FlagAgrees
    decide
  refine ⟨hbefore, (deletesCleanly_iff (by decide) hbefore).mpr fun h => ?_⟩
  obtain ⟨_, file, _, hkept⟩ := h
  cases hkept

/-- When only one of them goes, English is marked as not installed although it
still is. -/
theorem not_deletesCleanly :
    ¬ ∀ (canDelete : FileName → Bool) (language : OcrLanguage) (tessDir : TrainingDataDir),
      '.' ∉ language.languageCode → FlagAgrees language tessDir →
        DeletesCleanly canDelete language tessDir := by
  intro h
  have hclean := h (· == engCube) installedEnglish englishFiles (by decide) (by
    unfold FlagAgrees
    decide)
  have hflag := hclean.flag
  unfold FlagAgrees at hflag
  exact absurd hflag (by decide)

end CardScanner
