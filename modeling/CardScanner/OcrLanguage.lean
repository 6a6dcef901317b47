import Mathlib.Data.List.Basic

/-!
# The language table

`OcrLanguage` objects, and what `DatabaseHandler` does to the table
`ocr_language` that keeps one row for each of them.  A row holds every field of
the object, so rows are objects.
-/

namespace CardScanner

/-- `InstallStatus`: whether files of the language are there, and how large
they are together. -/
structure InstallStatus where
  isInstalled : Bool
  installedSize : Int
  deriving DecidableEq, Repr

/-- `OcrLanguage`, both the screen's object and a row of the table. -/
structure OcrLanguage where
  downloading : Bool
  downloadId : Int
  languageCode : List Char
  displayText : List Char
  installStatus : InstallStatus
  deriving DecidableEq, Repr

/-- `setDownloadId` and `setDownloading`. -/
def OcrLanguage.setDownload (language : OcrLanguage) (downloading : Bool) (downloadId : Int) :
    OcrLanguage :=
  { language with downloading := downloading, downloadId := downloadId }

/-- Neither downloading nor naming a download. -/
def OcrLanguage.Cleared (language : OcrLanguage) : Prop :=
  language.downloading = false ∧ language.downloadId = 0

instance (language : OcrLanguage) : Decidable language.Cleared :=
  inferInstanceAs (Decidable (_ ∧ _))

/-- `updateOCRLanguageFull`: every row with the object's code gets all its
fields. -/
def updateOCRLanguageFull (table : List OcrLanguage) (model : OcrLanguage) : List OcrLanguage :=
  table.map fun row => if row.languageCode = model.languageCode then model else row

/-- `getOCRLanguageByCode`: the first row with the code, if there is one. -/
def getOCRLanguageByCode (table : List OcrLanguage) (code : List Char) : Option OcrLanguage :=
  table.find? fun row => row.languageCode = code

/-- The update writes the row of its code, if there is one, and leaves the
others. -/
theorem mem_updateOCRLanguageFull {table : List OcrLanguage} {model row : OcrLanguage}
    (h : row ∈ updateOCRLanguageFull table model) :
    (row = model ∧ ∃ old ∈ table, old.languageCode = model.languageCode) ∨
      (row ∈ table ∧ row.languageCode ≠ model.languageCode) := by
  unfold updateOCRLanguageFull at h
  obtain ⟨old, hold, hrow⟩ := List.mem_map.mp h
  by_cases hcode : old.languageCode = model.languageCode
  · rw [if_pos hcode] at hrow
    exact Or.inl ⟨hrow.symm, old, hold, hcode⟩
  · rw [if_neg hcode] at hrow
    exact Or.inr ⟨hrow ▸ hold, hrow ▸ hcode⟩

/-- The row that is found has the code. -/
theorem getOCRLanguageByCode_eq_some {table : List OcrLanguage} {code : List Char}
    {row : OcrLanguage} (h : getOCRLanguageByCode table code = some row) :
    row ∈ table ∧ row.languageCode = code := by
  unfold getOCRLanguageByCode at h
  exact ⟨List.mem_of_find?_eq_some h, by simpa using List.find?_some h⟩

/-- If none is found, no row has it. -/
theorem getOCRLanguageByCode_eq_none {table : List OcrLanguage} {code : List Char}
    (h : getOCRLanguageByCode table code = none) :
    ∀ row ∈ table, row.languageCode ≠ code := by
  unfold getOCRLanguageByCode at h
  intro row hrow
  simpa using List.find?_eq_none.mp h row hrow

end CardScanner
