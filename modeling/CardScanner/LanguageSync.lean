import CardScanner.KeyedTable
import CardScanner.LanguageInstall
import CardScanner.Machine

/-!
# Bringing the language table up to date

`LoadListLanguageTask` computes the available languages from a resource and the
training directory and writes each of them to the table: an update of three
columns if there is a row with its code, an insert of a whole row otherwise.

What one language does to the table is told by the lookups (`lookup_syncLanguage`),
and what the loop does follows by induction: behind it every available code has
its row, with the status computed from the directory, the columns about
downloads are as they were, and no other row has been touched.
-/

namespace CardScanner

/-! ## The statements -/

/-- The table `ocr_language`, with `l_code` as its primary key. -/
abbrev LanguageTable := KeyedTable OcrLanguage.languageCode

/-- `checkLanguageCodeIsExists`: some row has the code. -/
def checkLanguageCodeIsExists (table : LanguageTable) (code : List Char) : Bool :=
  (table.lookup code).isSome

/-- The columns `updateOCRLanguage` writes. -/
def OcrLanguage.setColumns (model row : OcrLanguage) : OcrLanguage :=
  { row with displayText := model.displayText, installStatus := model.installStatus }

/-- Writing the columns of an update leaves the code, which is the row's key. -/
@[simp] theorem OcrLanguage.setColumns_languageCode (model row : OcrLanguage) :
    (model.setColumns row).languageCode = row.languageCode := rfl

/-- `updateOCRLanguage`: the row of the code gets the columns of the model. -/
def updateOCRLanguage (table : LanguageTable) (model : OcrLanguage) : LanguageTable :=
  table.update model.languageCode model.setColumns model.setColumns_languageCode

/-- `addOCRLanguage`; an insert that violates the primary key is logged and
otherwise ignored. -/
def addOCRLanguage (table : LanguageTable) (model : OcrLanguage) : LanguageTable :=
  table.insert model

/-! ## The task -/

/-- `OcrLanguage(String, String, boolean, long)` on an entry of the resource:
the code stands before the first space.  Without a space, `substring` throws. -/
def availableOcrLanguage (tessDir : TrainingDataDir) (value : List Char) : Option OcrLanguage :=
  (value.idxOf? ' ').map fun firstSpace =>
    { downloading := false
      downloadId := 0
      languageCode := value.take firstSpace
      displayText := value.drop (firstSpace + 1)
      installStatus := isLanguageInstalled (value.take firstSpace) tessDir }

/-- `getAvailableOcrLanguages`, from the entries of `R.array.ocr_languages`. -/
def getAvailableOcrLanguages (languageValues : List (List Char)) (tessDir : TrainingDataDir) :
    Option (List OcrLanguage) :=
  languageValues.mapM (availableOcrLanguage tessDir)

/-- The body of the loop of `LoadListLanguageTask`. -/
def syncLanguage (table : LanguageTable) (lang : OcrLanguage) : LanguageTable :=
  if checkLanguageCodeIsExists table lang.languageCode then updateOCRLanguage table lang
  else addOCRLanguage table lang

/-- `LoadListLanguageTask.doInBackground` up to the end of its loop. -/
def loadListLanguage (languageValues : List (List Char)) (tessDir : TrainingDataDir)
    (table : LanguageTable) : Option LanguageTable :=
  (getAvailableOcrLanguages languageValues tessDir).map (·.foldl syncLanguage table)

/-! ## One language -/

/-- A language's row is brought up to date, or added; no other row changes. -/
theorem lookup_syncLanguage (table : LanguageTable) (lang : OcrLanguage) (code : List Char) :
    (syncLanguage table lang).lookup code =
      if lang.languageCode = code then
        some (((table.lookup code).map lang.setColumns).getD lang)
      else table.lookup code := by
  unfold syncLanguage checkLanguageCodeIsExists
  cases hrow : table.lookup lang.languageCode with
  | none =>
      rw [if_neg (by simp), addOCRLanguage, KeyedTable.lookup_insert]
      split_ifs with hcode
      · rw [← hcode, hrow]
        rfl
      · rfl
  | some row =>
      rw [if_pos (by simp), updateOCRLanguage, KeyedTable.lookup_update]
      split_ifs with hcode
      · rw [← hcode, hrow]
        rfl
      · rfl

/-! ## The loop -/

/-- What the table has under a code when the languages were written to it. -/
structure SyncedAt (languages : List OcrLanguage) (tessDir : TrainingDataDir)
    (before after : LanguageTable) (code : List Char) : Prop where
  /-- an available code has a row with the computed status -/
  available : code ∈ languages.map OcrLanguage.languageCode → ∃ row, after.lookup code = some row ∧
    row.installStatus = isLanguageInstalled code tessDir
  /-- a row keeps what it says about downloads -/
  downloads : ∀ old row, before.lookup code = some old → after.lookup code = some row →
    row.downloading = old.downloading ∧ row.downloadId = old.downloadId
  /-- the row of another code is the same -/
  other : code ∉ languages.map OcrLanguage.languageCode → after.lookup code = before.lookup code

/-- A language that says of itself what the directory says is synchronised by
one step, whatever the table was. -/
theorem syncLanguage_syncedAt {lang : OcrLanguage} {tessDir : TrainingDataDir}
    (hlang : lang.installStatus = isLanguageInstalled lang.languageCode tessDir)
    (table : LanguageTable) (code : List Char) :
    SyncedAt [lang] tessDir table (syncLanguage table lang) code where
  available hcode := by
    have heq : lang.languageCode = code := (List.mem_singleton.mp hcode).symm
    refine ⟨_, by rw [lookup_syncLanguage, if_pos heq], ?_⟩
    rw [← heq]
    cases table.lookup lang.languageCode with
    | none => exact hlang
    | some row => exact hlang
  downloads old row hold hrow := by
    rw [lookup_syncLanguage, hold] at hrow
    split_ifs at hrow with heq
    · rw [← Option.some.inj hrow]
      exact ⟨rfl, rfl⟩
    · rw [← Option.some.inj hrow]
      exact ⟨rfl, rfl⟩
  other hcode := by
    rw [lookup_syncLanguage, if_neg]
    exact fun heq => hcode (List.mem_singleton.mpr heq.symm)

/-- **The loop synchronises every code**, by induction on the languages still
to be written.  What is written now stays, unless a later language has the
same code. -/
theorem foldl_syncLanguage_syncedAt {languages : List OcrLanguage} {tessDir : TrainingDataDir}
    (hall : ∀ lang ∈ languages,
      lang.installStatus = isLanguageInstalled lang.languageCode tessDir)
    (table : LanguageTable) (code : List Char) :
    SyncedAt languages tessDir table (languages.foldl syncLanguage table) code := by
  induction languages generalizing table with
  | nil =>
      constructor
      · exact fun hcode => absurd hcode List.not_mem_nil
      · intro old row hold hrow
        cases hold.symm.trans hrow
        exact ⟨rfl, rfl⟩
      · exact fun _ => rfl
  | cons lang languages ih =>
      have hfirst := syncLanguage_syncedAt (hall lang List.mem_cons_self) table code
      have hrest := ih (fun l hl => hall l (List.mem_cons_of_mem lang hl)) (syncLanguage table lang)
      rw [List.foldl_cons]
      constructor
      · intro hcode
        rw [List.map_cons, List.mem_cons] at hcode
        by_cases hlater : code ∈ languages.map OcrLanguage.languageCode
        · exact hrest.available hlater
        · rw [hrest.other hlater]
          exact hfirst.available (List.mem_singleton.mpr (hcode.resolve_right hlater))
      · intro old row hold hrow
        obtain ⟨mid, hmid⟩ : ∃ mid, (syncLanguage table lang).lookup code = some mid := by
          rw [lookup_syncLanguage, hold]
          split_ifs
          · exact ⟨_, rfl⟩
          · exact ⟨_, rfl⟩
        obtain ⟨hdownloading, hid⟩ := hrest.downloads mid row hmid hrow
        obtain ⟨hdownloading', hid'⟩ := hfirst.downloads old mid hold hmid
        exact ⟨hdownloading.trans hdownloading', hid.trans hid'⟩
      · intro hcode
        rw [List.map_cons, List.mem_cons, not_or] at hcode
        rw [hrest.other hcode.2]
        exact hfirst.other fun hmem => hcode.1 (List.mem_singleton.mp hmem)

/-! ## The table -/

/-- An entry of the resource is read iff it has a space. -/
theorem isSome_availableOcrLanguage (tessDir : TrainingDataDir) (value : List Char) :
    (availableOcrLanguage tessDir value).isSome = true ↔ ' ' ∈ value := by
  rw [availableOcrLanguage, Option.isSome_map, List.isSome_idxOf?]

/-- An available language has the status of the directory. -/
theorem status_of_available {tessDir : TrainingDataDir} {value : List Char} {lang : OcrLanguage}
    (h : availableOcrLanguage tessDir value = some lang) :
    lang.installStatus = isLanguageInstalled lang.languageCode tessDir := by
  obtain ⟨firstSpace, _, rfl⟩ := Option.map_eq_some_iff.mp h
  rfl

/-- The code of an entry of the resource: what stands before its first space. -/
def resourceCode (value : List Char) : List Char := value.takeWhile (· != ' ')

/-- An available language has the code of its entry. -/
theorem code_of_available {tessDir : TrainingDataDir} {value : List Char} {lang : OcrLanguage}
    (h : availableOcrLanguage tessDir value = some lang) :
    lang.languageCode = resourceCode value := by
  obtain ⟨firstSpace, hfirst, rfl⟩ := Option.map_eq_some_iff.mp h
  have hindex : value.findIdx (· == ' ') = firstSpace :=
    (List.findIdx?_eq_some_iff_findIdx_eq.mp hfirst).2
  unfold resourceCode
  rw [List.takeWhile_eq_take_findIdx_not]
  simp only [bne, Bool.not_not]
  rw [hindex]

/-- The table agrees with the directory on the available codes, and is as it
was elsewhere. -/
structure Synchronized (codes : List (List Char)) (tessDir : TrainingDataDir)
    (before after : LanguageTable) : Prop where
  /-- exactly one row for each available code -/
  oneRow : ∀ code ∈ codes, ∃! row, row ∈ after.rows ∧ row.languageCode = code
  /-- its flag and size are those of the file system -/
  computed : ∀ row ∈ after.rows, row.languageCode ∈ codes →
    row.installStatus = isLanguageInstalled row.languageCode tessDir
  /-- a row that was there keeps its columns about downloads -/
  downloads : ∀ old ∈ before.rows, ∀ row ∈ after.rows, row.languageCode = old.languageCode →
    row.downloading = old.downloading ∧ row.downloadId = old.downloadId
  /-- the rows of other codes are the same -/
  others : ∀ row, row.languageCode ∉ codes → (row ∈ after.rows ↔ row ∈ before.rows)

/-- What holds under every code holds of the table, as rows are told apart by
their codes. -/
theorem synchronized_of_syncedAt {languages : List OcrLanguage} {tessDir : TrainingDataDir}
    {before after : LanguageTable} (h : ∀ code, SyncedAt languages tessDir before after code) :
    Synchronized (languages.map OcrLanguage.languageCode) tessDir before after where
  oneRow code hcode := by
    obtain ⟨row, hrow, _⟩ := (h code).available hcode
    refine ⟨row, KeyedTable.lookup_eq_some hrow, fun other hother => ?_⟩
    have hfound := KeyedTable.mem_rows_iff.mp hother.1
    rw [hother.2, hrow] at hfound
    exact (Option.some.inj hfound).symm
  computed row hrow hcode := by
    obtain ⟨found, hfound, hstatus⟩ := (h row.languageCode).available hcode
    rw [KeyedTable.mem_rows_iff, hfound] at hrow
    rw [← Option.some.inj hrow]
    rw [← Option.some.inj hrow] at hstatus
    exact hstatus
  downloads old hold row hrow hcode := by
    rw [KeyedTable.mem_rows_iff] at hold hrow
    rw [hcode] at hrow
    exact (h old.languageCode).downloads old row hold hrow
  others row hcode := by
    rw [KeyedTable.mem_rows_iff, KeyedTable.mem_rows_iff, (h row.languageCode).other hcode]

/-- The entries of `R.array.ocr_languages`. -/
def ocrLanguages : List (List Char) :=
  ["eng English".toList, "tha Thai".toList, "kor Korean".toList, "fra French".toList,
    "jpn Japanese".toList, "chi_sim Chinese (Simplified)".toList,
    "chi_tra Chinese (Traditional)".toList, "vie Vietnamese".toList]

/-- **The task synchronises the table**, whatever table and directory it
starts from, for any resource whose entries have a space.  The available codes
are those of the entries, in their order. -/
theorem loadListLanguage_synchronized {languageValues : List (List Char)}
    (hspace : ∀ value ∈ languageValues, ' ' ∈ value) (tessDir : TrainingDataDir)
    (table : LanguageTable) :
    ∃ languages after, getAvailableOcrLanguages languageValues tessDir = some languages ∧
      languages.map OcrLanguage.languageCode = languageValues.map resourceCode ∧
      loadListLanguage languageValues tessDir table = some after ∧
      Synchronized (languageValues.map resourceCode) tessDir table after := by
  have hvalues : ∀ value ∈ languageValues, ∃ lang, availableOcrLanguage tessDir value = some lang ∧
      lang.installStatus = isLanguageInstalled lang.languageCode tessDir := by
    intro value hvalue
    obtain ⟨lang, hlang⟩ := Option.isSome_iff_exists.mp
      ((isSome_availableOcrLanguage tessDir value).mpr (hspace value hvalue))
    exact ⟨lang, hlang, status_of_available hlang⟩
  obtain ⟨languages, havailable, hstatus⟩ := Machine.exists_mapM_iff.mpr hvalues
  have hcodes : languages.map OcrLanguage.languageCode = languageValues.map resourceCode :=
    Machine.map_of_mapM (fun _ _ => code_of_available) havailable
  refine ⟨languages, _, havailable, hcodes, congrArg (Option.map _) havailable, ?_⟩
  rw [← hcodes]
  apply synchronized_of_syncedAt
  exact foldl_syncLanguage_syncedAt hstatus table

/-- The resource of the application, with a row that is being downloaded, one
of a code that is not available, and a folder that has a file of the former. -/
theorem loadListLanguage_ocrLanguages :
    ∃ languages after, getAvailableOcrLanguages ocrLanguages
        (.folder (AList.insert engTraineddata (.file []) ∅)) = some languages ∧
      languages.map OcrLanguage.languageCode = ocrLanguages.map resourceCode ∧
      loadListLanguage ocrLanguages (.folder (AList.insert engTraineddata (.file []) ∅))
        ⟨[⟨true, 5, "eng".toList, "English".toList, ⟨false, 0⟩⟩,
          ⟨false, 0, "ara".toList, "Arabic".toList, ⟨true, 1⟩⟩], by decide⟩ = some after ∧
      Synchronized (ocrLanguages.map resourceCode)
        (.folder (AList.insert engTraineddata (.file []) ∅))
        ⟨[⟨true, 5, "eng".toList, "English".toList, ⟨false, 0⟩⟩,
          ⟨false, 0, "ara".toList, "Arabic".toList, ⟨true, 1⟩⟩], by decide⟩ after :=
  loadListLanguage_synchronized (by decide) _ _

end CardScanner
