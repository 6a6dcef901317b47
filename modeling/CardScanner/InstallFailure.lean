import CardScanner.JavaText
import CardScanner.OcrLanguage

/-!
# Telling the screen that a language failed

Two components report a failure by a broadcast: the receiver of the download
manager's completion broadcast, when the download has failed, and the install
service.  The screen's receiver looks for the entry whose display text is the
extra `EXTRA_OCR_LANGUAGE_DISPLAY` and marks it as not downloading.

Neither sender says what the receiver reads.  The first puts the download's
title there, which is the display text behind a fixed opening and so longer
than it; the second puts the language code under another key, and the receiver
compares with `null`.  So the entry of the language that failed is never the
one found (`not_shown_of_failure`): its mark has to be right before.
-/

namespace CardScanner

/-! ## Intents -/

/-- The value of an extra; a string may be `null`. -/
inductive Extra where
  | string (value : Option (List Char))
  | int (value : ℤ)
  deriving DecidableEq, Repr

/-- `Intent`: the action and the extras, the one put last first. -/
structure Intent where
  action : String
  extras : List (String × Extra)
  deriving DecidableEq, Repr

namespace Intent

/-- `putExtra`: the value comes under its key, in place of an older one. -/
def putExtra (intent : Intent) (key : String) (value : Extra) : Intent :=
  { intent with extras := (key, value) :: intent.extras }

/-- `getStringExtra`: `null` when there is none of this type. -/
def getStringExtra (intent : Intent) (key : String) : Option (List Char) :=
  match intent.extras.lookup key with
  | some (.string value) => value
  | _ => none

/-- `getIntExtra`: the default if there is no such extra, or if it is no
`int`. -/
def getIntExtra (intent : Intent) (key : String) (defaultValue : ℤ) : ℤ :=
  match intent.extras.lookup key with
  | some (.int value) => value
  | _ => defaultValue

end Intent

/-! Constants of `OCRLanguageInstallService` and `DownloadManager`. -/

/-- The two broadcasts of the service, the names of their extras, and the
codes for how a download has ended. -/
def actionInstallCompleted : String :=
  "com.ldz.fpt.businesscardscannerandroid.ACTION_OCR_LANGUAGE_INSTALLED"
def actionInstallFailed : String :=
  "com.ldz.fpt.businesscardscannerandroid.ACTION_INSTALL_FAILED"
def extraOcrLanguage : String := "ocr_language"
def extraOcrLanguageDisplay : String := "ocr_language_display"
def extraStatus : String := "status"
def statusSuccessful : ℤ := 8
def statusFailed : ℤ := 16

/-! ## The senders -/

/-- The title `startDownload` gives its request. -/
def requestTitle (language : OcrLanguage) : List Char :=
  ['D', 'o', 'w', 'n', 'l', 'o', 'a', 'd', 'i', 'n', 'g', ' ', 'l', 'a', 'n', 'g', 'u', 'a', 'g',
    'e', ':', ' '] ++ language.displayText

/-- What the completion receiver reads from the download manager. -/
structure DownloadRow where
  status : ℤ
  title : List Char
  uri : List Char
  deriving DecidableEq, Repr

/-- What it does then. -/
inductive Reaction where
  | startService (downloadId : ℤ) (fileName : List Char)
  | sendBroadcast (intent : Intent)
  | nothing
  deriving DecidableEq, Repr

/-- The broadcast of its failure branch. -/
def downloadFailed (row : DownloadRow) : Intent :=
  ((Intent.mk actionInstallFailed []).putExtra extraStatus (.int row.status)).putExtra
    extraOcrLanguageDisplay (.string (some row.title))

/-- `DownloadBroadCastReceiver.onReceive`, from the row found for the
download. -/
def onReceive (downloadId : ℤ) : Option DownloadRow → Reaction
  | none => .nothing
  | some row =>
    if row.status = statusSuccessful then .startService downloadId row.uri
    else if row.status = statusFailed then .sendBroadcast (downloadFailed row)
    else .nothing

/-- `".traineddata"` -/
def traineddata : List Char := ['.', 't', 'r', 'a', 'i', 'n', 'e', 'd', 'd', 'a', 't', 'a']

/-- `".cube"` -/
def cube : List Char := ['.', 'c', 'u', 'b', 'e']

/-- `".tesseract_cube.nn"` -/
def tesseractCube : List Char :=
  ['.', 't', 'e', 's', 's', 'e', 'r', 'a', 'c', 't', '_', 'c', 'u', 'b', 'e', '.', 'n', 'n']

/-- `extractLanguageNameFromUri`, from the last path segment. -/
def extractLanguageNameFromUri (lastPathSegment : List Char) : Option (List Char) :=
  match indexOf traineddata lastPathSegment with
  | some index => some (lastPathSegment.take index)
  | none =>
    match indexOf cube lastPathSegment with
    | some index => some (lastPathSegment.take index)
    | none =>
      match indexOf tesseractCube lastPathSegment with
      | some index => some (lastPathSegment.take index)
      | none => none

/-- `notifyError`; the language name may be `null`. -/
def notifyError (lang : Option (List Char)) : Intent :=
  ((Intent.mk actionInstallFailed []).putExtra extraOcrLanguage (.string lang)).putExtra
    extraStatus (.int statusFailed)

/-- The last path segment of `getDownloadUri`. -/
def downloadFileName (language : OcrLanguage) : List Char :=
  language.languageCode ++ traineddata

/-- Where the failure happened. -/
inductive FailedComponent where
  | downloadManager
  | installService
  deriving DecidableEq, Repr

/-- The broadcast about a language that failed: the download manager has kept
the title given at `enqueue`, the service takes the name from the file's. -/
def failureBroadcast (language : OcrLanguage) : FailedComponent → Intent
  | .downloadManager =>
    downloadFailed ⟨statusFailed, requestTitle language, downloadFileName language⟩
  | .installService => notifyError (extractLanguageNameFromUri (downloadFileName language))

/-- Of a language's download the completion receiver broadcasts this failure,
exactly when the download has failed. -/
theorem onReceive_eq_failureBroadcast_iff (language : OcrLanguage) (downloadId status : ℤ) :
    onReceive downloadId (some ⟨status, requestTitle language, downloadFileName language⟩) =
        .sendBroadcast (failureBroadcast language .downloadManager) ↔
      status = statusFailed := by
  constructor
  · intro hsent
    simp only [onReceive] at hsent
    split_ifs at hsent with hsuccess hfailed
    exact hfailed
  · intro hfailed
    subst hfailed
    rfl

/-! ## The screen -/

section Screen

variable (toUpperCase toLowerCase : Char → Char) (isLanguageInstalled : List Char → InstallStatus)

/-- `updateLanguage`, but for the toast. -/
def updateLanguage (language : OcrLanguage) (status : ℤ) : OcrLanguage :=
  if status = statusSuccessful then
    let installStatus := isLanguageInstalled language.languageCode
    if installStatus.isInstalled then
      { language with installStatus := installStatus, downloading := false }
    else { language with installStatus := installStatus }
  else { language with downloading := false }

/-- The loop of `updateLanguageList` and `updateLanguageListByDisplayValue`:
the first entry whose text matches is updated. -/
def updateFirst (text : OcrLanguage → List Char) (value : Option (List Char)) (status : ℤ) :
    List OcrLanguage → List OcrLanguage
  | [] => []
  | language :: rest =>
    if equalsIgnoreCase toUpperCase toLowerCase (text language) value then
      updateLanguage isLanguageInstalled language status :: rest
    else language :: updateFirst text value status rest

/-- `updateLanguageListByDisplayValue`: the first entry that is shown under
this name, letter case aside. -/
def updateLanguageListByDisplayValue (displayValue : Option (List Char)) (status : ℤ)
    (languages : List OcrLanguage) : List OcrLanguage :=
  updateFirst toUpperCase toLowerCase isLanguageInstalled OcrLanguage.displayText displayValue
    status languages

/-- `updateLanguageList`: the first entry with this code, letter case aside. -/
def updateLanguageList (lang : Option (List Char)) (status : ℤ) (languages : List OcrLanguage) :
    List OcrLanguage :=
  updateFirst toUpperCase toLowerCase isLanguageInstalled OcrLanguage.languageCode lang status
    languages

/-- The screen's two receivers, each registered for its action. -/
def receive (languages : List OcrLanguage) (intent : Intent) : List OcrLanguage :=
  if intent.action = actionInstallFailed then
    updateLanguageListByDisplayValue toUpperCase toLowerCase isLanguageInstalled
      (intent.getStringExtra extraOcrLanguageDisplay) (intent.getIntExtra extraStatus (-1))
      languages
  else if intent.action = actionInstallCompleted then
    updateLanguageList toUpperCase toLowerCase isLanguageInstalled
      (intent.getStringExtra extraOcrLanguage) (intent.getIntExtra extraStatus (-1)) languages
  else languages

end Screen

/-! ## What a failure changes -/

section Changes

variable (toUpperCase toLowerCase : Char → Char) (isLanguageInstalled : List Char → InstallStatus)

/-- A failure changes nothing in the list exactly when the entry found is not
downloading. -/
theorem updateFirst_failed_iff (text : OcrLanguage → List Char) (value : Option (List Char))
    (languages : List OcrLanguage) :
    updateFirst toUpperCase toLowerCase isLanguageInstalled text value statusFailed languages =
        languages ↔
      ∀ shown, languages.find? (fun language =>
          equalsIgnoreCase toUpperCase toLowerCase (text language) value) = some shown →
        shown.downloading = false := by
  induction languages with
  | nil => simp [updateFirst]
  | cons language rest ih =>
      cases hmatch : equalsIgnoreCase toUpperCase toLowerCase (text language) value with
      | true =>
        simp only [updateFirst, List.find?_cons, hmatch, if_true]
        constructor
        · intro heq shown hshown
          rw [← Option.some.inj hshown, ← (List.cons.inj heq).1]
          rfl
        · intro hall
          have hidle := hall language rfl
          cases language
          subst hidle
          rfl
      | false =>
        simp only [updateFirst, List.find?_cons, hmatch, Bool.false_eq_true, if_false]
        refine Iff.trans ?_ ih
        exact ⟨fun heq => (List.cons.inj heq).2, fun heq => congrArg _ heq⟩

/-- An entry that does not match is left as it is, whatever stands before and
behind it. -/
theorem updateFirst_getElem? (text : OcrLanguage → List Char) (value : Option (List Char))
    (status : ℤ) {language : OcrLanguage}
    (hno : equalsIgnoreCase toUpperCase toLowerCase (text language) value = false)
    (before after : List OcrLanguage) :
    (updateFirst toUpperCase toLowerCase isLanguageInstalled text value status
      (before ++ language :: after))[before.length]? = some language := by
  induction before with
  | nil => simp [updateFirst, hno]
  | cons other rest ih =>
      rw [List.cons_append, updateFirst]
      split_ifs
      · simp
      · simpa using ih

/-- The service's broadcast has no display text. -/
theorem getStringExtra_notifyError (lang : Option (List Char)) :
    (notifyError lang).getStringExtra extraOcrLanguageDisplay = none := rfl

/-- What the receiver reads never is the display text of the language that
failed. -/
theorem not_shown_of_failure (language : OcrLanguage) (component : FailedComponent) :
    equalsIgnoreCase toUpperCase toLowerCase language.displayText
      ((failureBroadcast language component).getStringExtra extraOcrLanguageDisplay) = false := by
  cases component with
  | downloadManager =>
      have htitle : (failureBroadcast language .downloadManager).getStringExtra
          extraOcrLanguageDisplay = some (requestTitle language) := rfl
      rw [htitle, Bool.eq_false_iff]
      intro hsame
      have hlength := length_of_equalsIgnoreCase _ _ hsame
      rw [requestTitle, List.length_append] at hlength
      simp only [List.length_cons] at hlength
      omega
  | installService =>
      have hnull : (failureBroadcast language .installService).getStringExtra
          extraOcrLanguageDisplay = none := getStringExtra_notifyError _
      rw [hnull]
      rfl

/-- For every failure of the service the receiver looks for the language by
the text it is shown with, and gives it the status of a failed download. -/
theorem receive_failure (languages : List OcrLanguage) (language : OcrLanguage)
    (component : FailedComponent) :
    receive toUpperCase toLowerCase isLanguageInstalled languages
        (failureBroadcast language component) =
      updateFirst toUpperCase toLowerCase isLanguageInstalled OcrLanguage.displayText
        ((failureBroadcast language component).getStringExtra extraOcrLanguageDisplay)
        statusFailed languages := by
  cases component with
  | downloadManager => rfl
  | installService =>
      unfold failureBroadcast
      generalize extractLanguageNameFromUri (downloadFileName language) = lang
      rfl

/-- What the receiver looks for: the title after a failed download, nothing
after a failed installation. -/
theorem shown_iff (languages : List OcrLanguage) (language : OcrLanguage)
    (component : FailedComponent) :
    (∀ shown, languages.find? (fun other =>
        equalsIgnoreCase toUpperCase toLowerCase other.displayText
          ((failureBroadcast language component).getStringExtra extraOcrLanguageDisplay)) =
        some shown → shown.downloading = false) ↔
      (component = .downloadManager → ∀ shown, languages.find? (fun other =>
          equalsIgnoreCase toUpperCase toLowerCase other.displayText
            (some (requestTitle language))) = some shown →
        shown.downloading = false) := by
  cases component with
  | downloadManager => exact ⟨fun h _ => h, fun h => h rfl⟩
  | installService =>
      have hnull : (failureBroadcast language .installService).getStringExtra
          extraOcrLanguageDisplay = none := getStringExtra_notifyError _
      rw [hnull]
      constructor
      · intro _ hcomponent
        cases hcomponent
      · intro _ shown hshown
        cases List.find?_some hshown

/-- **When a failure reaches its language.**  The entry of the language that
failed becomes not downloading and the others stay as they are exactly when the
entry was not downloading before and, for a failed download, the entry shown
under the download's title, if there is one, was not either. -/
theorem failure_reaches_iff (language : OcrLanguage) (component : FailedComponent)
    (before after : List OcrLanguage) :
    receive toUpperCase toLowerCase isLanguageInstalled (before ++ language :: after)
        (failureBroadcast language component) =
        before ++ { language with downloading := false } :: after ↔
      language.downloading = false ∧ (component = .downloadManager →
        ∀ shown, (before ++ language :: after).find? (fun other =>
            equalsIgnoreCase toUpperCase toLowerCase other.displayText
              (some (requestTitle language))) = some shown →
          shown.downloading = false) := by
  have hkept := updateFirst_getElem? toUpperCase toLowerCase isLanguageInstalled
    OcrLanguage.displayText _ statusFailed
    (not_shown_of_failure toUpperCase toLowerCase language component) before after
  have hfixed := updateFirst_failed_iff toUpperCase toLowerCase isLanguageInstalled
    OcrLanguage.displayText
    ((failureBroadcast language component).getStringExtra extraOcrLanguageDisplay)
    (before ++ language :: after)
  rw [receive_failure, ← shown_iff, ← hfixed]
  constructor
  · intro hreached
    rw [hreached] at hkept ⊢
    have hentry : { language with downloading := false } = language := by
      simpa using hkept
    exact ⟨congrArg OcrLanguage.downloading hentry.symm, by rw [hentry]⟩
  · intro ⟨hidle, hsame⟩
    rw [hsame]
    cases language
    subst hidle
    rfl

end Changes

/-- Two entries that are told apart by code and by display text. -/
def DistinctIgnoringCase (toUpperCase toLowerCase : Char → Char) (languages : List OcrLanguage) :
    Prop :=
  languages.Pairwise fun a b =>
    equalsIgnoreCase toUpperCase toLowerCase a.languageCode (some b.languageCode) = false ∧
    equalsIgnoreCase toUpperCase toLowerCase a.displayText (some b.displayText) = false

/-- A component's failures reach the right language: in any list of distinct
entries the one that failed, and no other, is marked as not downloading. -/
def FailureReaches (component : FailedComponent) : Prop :=
  ∀ (toUpperCase toLowerCase : Char → Char) (isLanguageInstalled : List Char → InstallStatus)
    (before after : List OcrLanguage) (language : OcrLanguage),
    DistinctIgnoringCase toUpperCase toLowerCase (before ++ language :: after) →
    receive toUpperCase toLowerCase isLanguageInstalled (before ++ language :: after)
        (failureBroadcast language component) =
      before ++ { language with downloading := false } :: after

/-- A language that is being downloaded. -/
def downloadingLanguage : OcrLanguage where
  downloading := true
  downloadId := 1
  languageCode := ['v', 'i', 'e']
  displayText := ['V', 'i', 'e', 't', 'n', 'a', 'm', 'e', 's', 'e']
  installStatus := ⟨false, 0⟩

/-- Alone in the list, it is still shown as downloading after either failure. -/
theorem not_failure_reaches :
    ¬ FailureReaches .downloadManager ∧ ¬ FailureReaches .installService := by
  have hstays : ∀ component, receive Char.toUpper Char.toLower (fun _ => ⟨false, 0⟩)
      [downloadingLanguage] (failureBroadcast downloadingLanguage component) =
        [downloadingLanguage] := by
    intro component
    cases component <;> decide +kernel
  have hdistinct : DistinctIgnoringCase Char.toUpper Char.toLower [downloadingLanguage] :=
    List.pairwise_singleton _ _
  have hmarked : [downloadingLanguage] ≠ [{ downloadingLanguage with downloading := false }] := by
    decide +kernel
  have hnot : ∀ component, ¬ FailureReaches component := by
    intro component h
    exact hmarked ((hstays component).symm.trans
      (h Char.toUpper Char.toLower (fun _ => ⟨false, 0⟩) [] [] downloadingLanguage hdistinct))
  exact ⟨hnot _, hnot _⟩

end CardScanner
