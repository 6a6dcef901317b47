import CardScanner.Machine
import CardScanner.OcrLanguage
import Mathlib.Logic.Function.Basic

/-!
# Downloading a language

Four components write or read a language's row: the download screen
(`startDownload` and the cancel button, each three steps), the system's
download manager, the receiver of its completion broadcast, and the install
service.  A download is known by the id the manager gave it, and at most one
message or service call about it is in flight: the manager broadcasts once, the
receiver turns the broadcast into a service call, the service ends it.

Only two steps clear a row: the last one of a cancellation and the service's
write after an install.  A download that fails, an install that ends in an
`IOException` and one whose language name is not recognised leave the row as it
is.  `StepOk` excludes those steps when something still relies on the download,
and the service's write when `startDownload` of the same download has yet to
write.  In every run of the other steps a row that is not cleared belongs to a
language about which something is still pending (`row_cleared_of_run`).
-/

namespace CardScanner

open Machine

/-! ## The components -/

/-- Where the download manager is with a download. -/
inductive JobStatus where
  | running
  | successful
  | failed
  deriving DecidableEq, Repr

/-- An entry of the download manager. -/
structure Job where
  language : List Char
  status : JobStatus
  deriving DecidableEq, Repr

/-- What is in flight about a download: the completion broadcast, or the
install service at one of its steps. -/
inductive InFlight where
  /-- `ACTION_DOWNLOAD_COMPLETE`, not yet received -/
  | broadcast
  /-- the service before it opens the downloaded file -/
  | installing (langName : List Char)
  /-- the service before it reads the row -/
  | reading (langName : List Char)
  /-- the service before it writes the row -/
  | writing (language : OcrLanguage)
  /-- the service before it removes the download -/
  | removing (langName : List Char)
  deriving DecidableEq, Repr

/-- A half-done call on the screen: `startDownload` after `enqueue` and after
the fields are set, the cancel button after `remove` and after they are. -/
inductive ScreenCall where
  | enqueued (code : List Char) (id : Int)
  | fieldsSet (code : List Char) (id : Int)
  | removed (code : List Char)
  | fieldsCleared (code : List Char)
  deriving DecidableEq, Repr

/-- The language a call is about. -/
def ScreenCall.code : ScreenCall → List Char
  | .enqueued code _ => code
  | .fieldsSet code _ => code
  | .removed code => code
  | .fieldsCleared code => code

/-- The call is `startDownload` of this language with this id. -/
def ScreenCall.Starts (call : ScreenCall) (code : List Char) (id : Int) : Prop :=
  call = .enqueued code id ∨ call = .fieldsSet code id

/-- What the four components share: the screen with its list and receiver, the
table of languages, the download manager's jobs, and the messages that are on
their way. -/
structure DownloadState where
  /-- the table `ocr_language` -/
  table : List OcrLanguage
  /-- the objects shown on the screen -/
  languages : List OcrLanguage
  screen : Option ScreenCall
  /-- the download manager's entries -/
  jobs : Int → Option Job
  nextId : Int
  inFlight : Int → Option InFlight

/-- What one run of the service comes to before it looks for the row: the file
was copied or the directory was not there, or it gave up on the way. -/
inductive InstallOutcome where
  | installed
  | noDirectory
  | ioException
  | notRecognised
  deriving DecidableEq, Repr

/-- What can happen next, in any order: a tap, a step of the manager, a
message that arrives, the end of an installation. -/
inductive DownloadAction where
  | startDownload (code : List Char)
  | cancel (code : List Char)
  | setFields
  | writeRow
  | complete (id : Int)
  | fail (id : Int)
  | receive (id : Int)
  | install (id : Int) (outcome : InstallOutcome)
  | readRow (id : Int)
  | clearRow (id : Int)
  | remove (id : Int)
  deriving DecidableEq, Repr

/-- The object of a language on the screen. -/
def DownloadState.language (s : DownloadState) (code : List Char) : Option OcrLanguage :=
  s.languages.find? fun language => language.languageCode = code

/-- The screen sets the two fields of an object. -/
def DownloadState.setDownload (s : DownloadState) (code : List Char) (downloading : Bool)
    (downloadId : Int) : List OcrLanguage :=
  s.languages.map fun language =>
    if language.languageCode = code then language.setDownload downloading downloadId else language

/-- The manager reaches the end of a running download and broadcasts. -/
def DownloadState.finish (s : DownloadState) (id : Int) (status : JobStatus) :
    Option DownloadState :=
  match s.jobs id with
  | some ⟨code, .running⟩ =>
      some { s with
        jobs := Function.update s.jobs id (some ⟨code, status⟩)
        inFlight := Function.update s.inFlight id (some .broadcast) }
  | _ => none

/-- What is in flight about `id` changes. -/
def DownloadState.send (s : DownloadState) (id : Int) (message : Option InFlight) :
    DownloadState :=
  { s with inFlight := Function.update s.inFlight id message }

/-- One step, if it can be taken.  In the middle of a call the screen goes on
with that call before it begins another. -/
def downloadStep (s : DownloadState) : DownloadAction → Option DownloadState
  | .startDownload code =>
      match s.screen, s.language code with
      | none, some _ =>
          some { s with
            jobs := Function.update s.jobs s.nextId (some ⟨code, .running⟩)
            nextId := s.nextId + 1
            screen := some (.enqueued code s.nextId) }
      | _, _ => none
  | .cancel code =>
      match s.screen, s.language code with
      | none, some language =>
          some { s with
            jobs := Function.update s.jobs language.downloadId none
            screen := some (.removed code) }
      | _, _ => none
  | .setFields =>
      match s.screen with
      | some (.enqueued code id) =>
          some { s with
            languages := s.setDownload code true id
            screen := some (.fieldsSet code id) }
      | some (.removed code) =>
          some { s with
            languages := s.setDownload code false 0
            screen := some (.fieldsCleared code) }
      | _ => none
  | .writeRow =>
      match s.screen with
      | some (.fieldsSet code _) | some (.fieldsCleared code) =>
          (s.language code).map fun language =>
            { s with table := updateOCRLanguageFull s.table language, screen := none }
      | _ => none
  | .complete id => s.finish id .successful
  | .fail id => s.finish id .failed
  | .receive id =>
      match s.inFlight id with
      | some .broadcast =>
          match s.jobs id with
          | some ⟨code, .successful⟩ => some (s.send id (some (.installing code)))
          -- a failed download is only announced to the screen
          | _ => some (s.send id none)
      | _ => none
  | .install id outcome =>
      match s.inFlight id with
      | some (.installing langName) =>
          match outcome with
          | .installed | .noDirectory => some (s.send id (some (.reading langName)))
          | .ioException | .notRecognised => some (s.send id (some (.removing langName)))
      | _ => none
  | .readRow id =>
      match s.inFlight id with
      | some (.reading langName) =>
          match getOCRLanguageByCode s.table langName with
          | some language => some (s.send id (some (.writing (language.setDownload false 0))))
          -- `language` is null: the exception ends the call
          | none => some (s.send id (some (.removing langName)))
      | _ => none
  | .clearRow id =>
      match s.inFlight id with
      | some (.writing language) =>
          some { s with
            table := updateOCRLanguageFull s.table language
            inFlight := Function.update s.inFlight id (some (.removing language.languageCode)) }
      | _ => none
  | .remove id =>
      match s.inFlight id with
      | some (.removing _) =>
          some { s with
            jobs := Function.update s.jobs id none
            inFlight := Function.update s.inFlight id none }
      | _ => none

/-- A step of the whole system. -/
def DownloadStep (s : DownloadState) (a : DownloadAction) (t : DownloadState) : Prop :=
  downloadStep s a = some t

/-- Nothing has been downloaded yet. -/
structure Fresh (s : DownloadState) : Prop where
  table : ∀ row ∈ s.table, row.Cleared
  languages : ∀ language ∈ s.languages, language.Cleared
  screen : s.screen = none
  jobs : ∀ id, s.jobs id = none
  nextId : 0 < s.nextId
  inFlight : ∀ id, s.inFlight id = none

/-! ## What is pending -/

/-- What the service is doing about a language. -/
def InFlight.langName : InFlight → Option (List Char)
  | .broadcast => none
  | .installing langName => some langName
  | .reading langName => some langName
  | .writing language => some language.languageCode
  | .removing langName => some langName

/-- A step or a message about the language is pending, or a download of it is
running. -/
def Pending (s : DownloadState) (code : List Char) : Prop :=
  (∃ call, s.screen = some call ∧ call.code = code) ∨
  (∃ id job, s.jobs id = some job ∧ job.language = code ∧
    (job.status = .running ∨ s.inFlight id = some .broadcast)) ∨
  ∃ id message, s.inFlight id = some message ∧ message.langName = some code

/-- What a step that can be taken does, and what it has found.  Branches that
do the same to the state are one constructor. -/
inductive StepCase (s : DownloadState) : DownloadAction → DownloadState → Prop
  | startDownload {code : List Char} (hscreen : s.screen = none) :
      StepCase s (.startDownload code) { s with
        jobs := Function.update s.jobs s.nextId (some ⟨code, .running⟩)
        nextId := s.nextId + 1
        screen := some (.enqueued code s.nextId) }
  | cancel {code : List Char} {language : OcrLanguage} (hscreen : s.screen = none)
      (hlanguage : s.language code = some language) :
      StepCase s (.cancel code) { s with
        jobs := Function.update s.jobs language.downloadId none
        screen := some (.removed code) }
  | setFields {code : List Char} {id : Int} (hscreen : s.screen = some (.enqueued code id)) :
      StepCase s .setFields { s with
        languages := s.setDownload code true id
        screen := some (.fieldsSet code id) }
  | clearFields {code : List Char} (hscreen : s.screen = some (.removed code)) :
      StepCase s .setFields { s with
        languages := s.setDownload code false 0
        screen := some (.fieldsCleared code) }
  | writeRow {call : ScreenCall} {language : OcrLanguage} (hscreen : s.screen = some call)
      (hcall : (∃ id, call = .fieldsSet call.code id) ∨ call = .fieldsCleared call.code)
      (hlanguage : s.language call.code = some language) :
      StepCase s .writeRow
        { s with table := updateOCRLanguageFull s.table language, screen := none }
  | finish {a : DownloadAction} {id : Int} {code : List Char} {status : JobStatus}
      (hjob : s.jobs id = some ⟨code, .running⟩) (hstatus : status ≠ .running) :
      StepCase s a { s with
        jobs := Function.update s.jobs id (some ⟨code, status⟩)
        inFlight := Function.update s.inFlight id (some .broadcast) }
  | receive {id : Int} {code : List Char} (hmessage : s.inFlight id = some .broadcast)
      (hjob : s.jobs id = some ⟨code, .successful⟩) :
      StepCase s (.receive id) (s.send id (some (.installing code)))
  | receiveOther {id : Int} (hmessage : s.inFlight id = some .broadcast)
      (hjob : ∀ code, s.jobs id ≠ some ⟨code, .successful⟩) :
      StepCase s (.receive id) (s.send id none)
  | install {id : Int} {outcome : InstallOutcome} {langName : List Char}
      (hmessage : s.inFlight id = some (.installing langName)) :
      StepCase s (.install id outcome) (s.send id (some (.reading langName)))
  | giveUp {id : Int} {outcome : InstallOutcome} {langName : List Char}
      (hmessage : s.inFlight id = some (.installing langName))
      (houtcome : outcome = .ioException ∨ outcome = .notRecognised) :
      StepCase s (.install id outcome) (s.send id (some (.removing langName)))
  | readRow {id : Int} {langName : List Char} {language : OcrLanguage}
      (hmessage : s.inFlight id = some (.reading langName))
      (hrow : getOCRLanguageByCode s.table langName = some language) :
      StepCase s (.readRow id) (s.send id (some (.writing (language.setDownload false 0))))
  | rowMissing {id : Int} {langName : List Char}
      (hmessage : s.inFlight id = some (.reading langName))
      (hrow : getOCRLanguageByCode s.table langName = none) :
      StepCase s (.readRow id) (s.send id (some (.removing langName)))
  | clearRow {id : Int} {language : OcrLanguage}
      (hmessage : s.inFlight id = some (.writing language)) :
      StepCase s (.clearRow id) { s with
        table := updateOCRLanguageFull s.table language
        inFlight := Function.update s.inFlight id (some (.removing language.languageCode)) }
  | remove {id : Int} {langName : List Char}
      (hmessage : s.inFlight id = some (.removing langName)) :
      StepCase s (.remove id) { s with
        jobs := Function.update s.jobs id none
        inFlight := Function.update s.inFlight id none }

theorem finish_cases {s t : DownloadState} {a : DownloadAction} {id : Int} {status : JobStatus}
    (hstatus : status ≠ .running) (h : s.finish id status = some t) : StepCase s a t := by
  unfold DownloadState.finish at h
  split at h
  · rename_i code hjob
    cases h
    exact .finish hjob hstatus
  · cases h

/-- Every step is one of the cases.  This is the only place where
`downloadStep` is gone through; all invariants are derived from the cases. -/
theorem downloadStep_cases {s t : DownloadState} {a : DownloadAction}
    (h : downloadStep s a = some t) : StepCase s a t := by
  cases a with
  | startDownload code =>
      simp only [downloadStep] at h
      split at h
      · rename_i hscreen _
        cases h
        exact .startDownload hscreen
      · cases h
  | cancel code =>
      simp only [downloadStep] at h
      split at h
      · rename_i hscreen hlanguage
        cases h
        exact .cancel hscreen hlanguage
      · cases h
  | setFields =>
      simp only [downloadStep] at h
      split at h
      · rename_i hscreen
        cases h
        exact .setFields hscreen
      · rename_i hscreen
        cases h
        exact .clearFields hscreen
      · cases h
  | writeRow =>
      simp only [downloadStep] at h
      split at h
      · rename_i code id hscreen
        obtain ⟨language, hlanguage, ht⟩ := Option.map_eq_some_iff.mp h
        cases ht
        exact .writeRow hscreen (Or.inl ⟨id, rfl⟩) hlanguage
      · rename_i code hscreen
        obtain ⟨language, hlanguage, ht⟩ := Option.map_eq_some_iff.mp h
        cases ht
        exact .writeRow hscreen (Or.inr rfl) hlanguage
      · cases h
  | complete id => exact finish_cases (by decide) h
  | fail id => exact finish_cases (by decide) h
  | receive id =>
      simp only [downloadStep] at h
      split at h
      · rename_i hmessage
        split at h
        · rename_i hjob
          cases h
          exact .receive hmessage hjob
        · rename_i hjob
          cases h
          exact .receiveOther hmessage hjob
      · cases h
  | install id outcome =>
      simp only [downloadStep] at h
      split at h
      · rename_i hmessage
        cases outcome with
        | installed =>
            cases h
            exact .install hmessage
        | noDirectory =>
            cases h
            exact .install hmessage
        | ioException =>
            cases h
            exact .giveUp hmessage (Or.inl rfl)
        | notRecognised =>
            cases h
            exact .giveUp hmessage (Or.inr rfl)
      · cases h
  | readRow id =>
      simp only [downloadStep] at h
      split at h
      · rename_i hmessage
        split at h
        · rename_i hrow
          cases h
          exact .readRow hmessage hrow
        · rename_i hrow
          cases h
          exact .rowMissing hmessage hrow
      · cases h
  | clearRow id =>
      simp only [downloadStep] at h
      split at h
      · rename_i hmessage
        cases h
        exact .clearRow hmessage
      · cases h
  | remove id =>
      simp only [downloadStep] at h
      split at h
      · rename_i hmessage
        cases h
        exact .remove hmessage
      · cases h

/-! ## Bookkeeping -/

/-- Facts about ids that hold whatever happens: who may hold which, and that
new ones are greater. -/
structure Orderly (s : DownloadState) : Prop where
  /-- A running download is not announced yet. -/
  running : ∀ id job, s.jobs id = some job → job.status = .running → s.inFlight id = none
  /-- An object's id names a download of its language. -/
  owned : ∀ language ∈ s.languages, ∀ job, s.jobs language.downloadId = some job →
    job.language = language.languageCode
  jobIds : ∀ id, s.nextId ≤ id ∨ id ≤ 0 → s.jobs id = none ∧ s.inFlight id = none
  nextId : 0 < s.nextId
  languageIds : ∀ language ∈ s.languages, language.downloadId < s.nextId
  screenIds : ∀ call code id, s.screen = some call → call.Starts code id →
    id < s.nextId ∧ ∀ job, s.jobs id = some job → job.language = code
  fieldsSet : ∀ code id, s.screen = some (.fieldsSet code id) →
    ∀ language ∈ s.languages, language.languageCode = code → language.downloadId = id
  fieldsCleared : ∀ code, s.screen = some (.fieldsCleared code) →
    ∀ language ∈ s.languages, language.languageCode = code → language.Cleared
  writing : ∀ id language, s.inFlight id = some (.writing language) → language.Cleared

/-- A row that is found by its code is in the table, under that code. -/
theorem mem_of_language {s : DownloadState} {code : List Char} {language : OcrLanguage}
    (h : s.language code = some language) :
    language ∈ s.languages ∧ language.languageCode = code := by
  unfold DownloadState.language at h
  exact ⟨List.mem_of_find?_eq_some h, by simpa using List.find?_some h⟩

/-- The update of a row writes its two columns, and leaves the rows of other
codes. -/
theorem mem_setDownload {s : DownloadState} {code : List Char} {downloading : Bool}
    {downloadId : Int} {language : OcrLanguage}
    (h : language ∈ s.setDownload code downloading downloadId) :
    (language.languageCode = code ∧ language.downloading = downloading ∧
        language.downloadId = downloadId) ∨
      (language ∈ s.languages ∧ language.languageCode ≠ code) := by
  unfold DownloadState.setDownload at h
  obtain ⟨old, hold, hlanguage⟩ := List.mem_map.mp h
  by_cases hcode : old.languageCode = code
  · rw [if_pos hcode] at hlanguage
    subst hlanguage
    exact Or.inl ⟨hcode, rfl, rfl⟩
  · rw [if_neg hcode] at hlanguage
    subst hlanguage
    exact Or.inr ⟨hold, hcode⟩

/-- What a download's entry and message become when another id is concerned. -/
theorem update_eq_some {β : Type} {f : Int → Option β} {id id' : Int} {o : Option β} {b : β}
    (h : Function.update f id o id' = some b) : (id' = id ∧ o = some b) ∨ f id' = some b := by
  by_cases hid : id' = id
  · subst hid
    rw [Function.update_self] at h
    exact Or.inl ⟨rfl, h⟩
  · rw [Function.update_of_ne hid] at h
    exact Or.inr h

/-- A message about a download that is in the manager's hands no more. -/
theorem Orderly.send {s : DownloadState} (h : Orderly s) {id : Int} {message : InFlight}
    (hmessage : s.inFlight id = some message) {next : Option InFlight}
    (hnext : ∀ language, next = some (.writing language) → language.Cleared) :
    Orderly (s.send id next) where
  running := by
    intro id' job hjob hrunning
    have hnone := h.running id' job hjob hrunning
    have hne : id' ≠ id := by
      rintro rfl
      rw [hmessage] at hnone
      cases hnone
    change Function.update s.inFlight id next id' = none
    rw [Function.update_of_ne hne, hnone]
  owned := h.owned
  nextId := h.nextId
  jobIds := by
    intro id' hid
    have hne : id' ≠ id := by
      rintro rfl
      rw [(h.jobIds id' hid).2] at hmessage
      cases hmessage
    change _ ∧ Function.update s.inFlight id next id' = none
    rw [Function.update_of_ne hne]
    exact h.jobIds id' hid
  languageIds := h.languageIds
  screenIds := h.screenIds
  fieldsSet := h.fieldsSet
  fieldsCleared := h.fieldsCleared
  writing := by
    intro id' language hwriting
    rcases update_eq_some hwriting with ⟨_, hlanguage⟩ | hold
    · exact hnext language hlanguage
    · exact h.writing id' language hold

/-- Entries may disappear from the manager's list: what is said of entries is
said of those that are there. -/
theorem Orderly.forget {s : DownloadState} (h : Orderly s) (id : Int) :
    Orderly { s with jobs := Function.update s.jobs id none } where
  running := by
    intro id' job hjob hrunning
    rcases update_eq_some hjob with ⟨_, hnone⟩ | hold
    · cases hnone
    · exact h.running id' job hold hrunning
  owned := by
    intro language hlanguage job hjob
    rcases update_eq_some hjob with ⟨_, hnone⟩ | hold
    · cases hnone
    · exact h.owned language hlanguage job hold
  nextId := h.nextId
  jobIds := by
    intro id' hid
    refine ⟨?_, (h.jobIds id' hid).2⟩
    by_cases hne : id' = id
    · subst hne
      exact Function.update_self ..
    · change Function.update s.jobs id none id' = none
      rw [Function.update_of_ne hne]
      exact (h.jobIds id' hid).1
  languageIds := h.languageIds
  screenIds := by
    intro call code id' hscreen hstarts
    obtain ⟨hlt, hlanguage⟩ := h.screenIds call code id' hscreen hstarts
    refine ⟨hlt, ?_⟩
    intro job hjob
    rcases update_eq_some hjob with ⟨_, hnone⟩ | hold
    · cases hnone
    · exact hlanguage job hold
  fieldsSet := h.fieldsSet
  fieldsCleared := h.fieldsCleared
  writing := h.writing

/-- A finished call leaves no obligation: what is said of the screen is said
of the call that it is in. -/
theorem Orderly.idle {s : DownloadState} (h : Orderly s) (table : List OcrLanguage) :
    Orderly { s with table := table, screen := none } where
  running := h.running
  owned := h.owned
  jobIds := h.jobIds
  nextId := h.nextId
  languageIds := h.languageIds
  screenIds := by
    intro call code id hscreen
    cases hscreen
  fieldsSet := by
    intro code id hscreen
    cases hscreen
  fieldsCleared := by
    intro code hscreen
    cases hscreen
  writing := h.writing

/-- A new download has an id of its own, which no language and no other entry
has. -/
theorem Orderly.startDownload {s : DownloadState} (h : Orderly s) (code : List Char) :
    Orderly { s with
      jobs := Function.update s.jobs s.nextId (some ⟨code, .running⟩)
      nextId := s.nextId + 1
      screen := some (.enqueued code s.nextId) } where
  running := by
    intro id job hjob hrunning
    rcases update_eq_some hjob with ⟨rfl, _⟩ | hold
    · exact (h.jobIds _ (Or.inl (le_refl _))).2
    · exact h.running id job hold hrunning
  owned := by
    intro language hlanguage job hjob
    have hlt := h.languageIds language hlanguage
    rcases update_eq_some hjob with ⟨hid, _⟩ | hold
    · omega
    · exact h.owned language hlanguage job hold
  jobIds := by
    intro id hid
    have hpos := h.nextId
    change s.nextId + 1 ≤ id ∨ id ≤ 0 at hid
    have hne : id ≠ s.nextId := by omega
    have hold := h.jobIds id (by omega)
    refine ⟨?_, hold.2⟩
    change Function.update s.jobs s.nextId _ id = none
    rw [Function.update_of_ne hne]
    exact hold.1
  nextId := by
    have hpos := h.nextId
    change 0 < s.nextId + 1
    omega
  languageIds := by
    intro language hlanguage
    have hlt := h.languageIds language hlanguage
    change language.downloadId < s.nextId + 1
    omega
  screenIds := by
    intro call code' id hscreen hstarts
    change some (ScreenCall.enqueued code s.nextId) = some call at hscreen
    cases hscreen
    rcases hstarts with hstarts | hstarts
    · cases hstarts
      refine ⟨by change s.nextId < s.nextId + 1; omega, ?_⟩
      intro job hjob
      change Function.update s.jobs s.nextId _ s.nextId = some job at hjob
      rw [Function.update_self] at hjob
      cases hjob
      rfl
    · cases hstarts
  fieldsSet := by
    intro code' id hscreen
    cases hscreen
  fieldsCleared := by
    intro code' hscreen
    cases hscreen
  writing := h.writing

/-- `startDownload` sets the fields of the language to the id that it has been
given. -/
theorem Orderly.setFields {s : DownloadState} (h : Orderly s) {code : List Char} {id : Int}
    (hscreen : s.screen = some (.enqueued code id)) :
    Orderly { s with
      languages := s.setDownload code true id
      screen := some (.fieldsSet code id) } where
  running := h.running
  owned := by
    intro language hlanguage job hjob
    have hids := (h.screenIds _ code id hscreen (Or.inl rfl)).2
    rcases mem_setDownload hlanguage with ⟨hcode, _, hid⟩ | ⟨hold, _⟩
    · rw [hcode]
      exact hids job (hid ▸ hjob)
    · exact h.owned language hold job hjob
  jobIds := h.jobIds
  nextId := h.nextId
  languageIds := by
    intro language hlanguage
    have hlt := (h.screenIds _ code id hscreen (Or.inl rfl)).1
    rcases mem_setDownload hlanguage with ⟨_, _, hid⟩ | ⟨hold, _⟩
    · rw [hid]
      exact hlt
    · exact h.languageIds language hold
  screenIds := by
    intro call code' id' hcall hstarts
    change some (ScreenCall.fieldsSet code id) = some call at hcall
    cases hcall
    rcases hstarts with hstarts | hstarts
    · cases hstarts
    · cases hstarts
      exact h.screenIds _ code id hscreen (Or.inl rfl)
  fieldsSet := by
    intro code' id' hcall language hlanguage hcode'
    change some (ScreenCall.fieldsSet code id) = _ at hcall
    cases hcall
    rcases mem_setDownload hlanguage with ⟨_, _, hid⟩ | ⟨_, hne⟩
    · exact hid
    · exact absurd hcode' hne
  fieldsCleared := by
    intro code' hcall
    cases hcall
  writing := h.writing

/-- The cancel button clears them.  The id 0 that it leaves is no entry's. -/
theorem Orderly.clearFields {s : DownloadState} (h : Orderly s) (code : List Char) :
    Orderly { s with
      languages := s.setDownload code false 0
      screen := some (.fieldsCleared code) } where
  running := h.running
  owned := by
    intro language hlanguage job hjob
    rcases mem_setDownload hlanguage with ⟨_, _, hid⟩ | ⟨hold, _⟩
    · change s.jobs language.downloadId = some job at hjob
      rw [hid, (h.jobIds 0 (Or.inr (le_refl _))).1] at hjob
      cases hjob
    · exact h.owned language hold job hjob
  jobIds := h.jobIds
  nextId := h.nextId
  languageIds := by
    intro language hlanguage
    rcases mem_setDownload hlanguage with ⟨_, _, hid⟩ | ⟨hold, _⟩
    · rw [hid]
      exact h.nextId
    · exact h.languageIds language hold
  screenIds := by
    intro call code' id hcall hstarts
    change some (ScreenCall.fieldsCleared code) = some call at hcall
    cases hcall
    rcases hstarts with hstarts | hstarts <;> cases hstarts
  fieldsSet := by
    intro code' id hcall
    cases hcall
  fieldsCleared := by
    intro code' hcall language hlanguage hcode'
    change some (ScreenCall.fieldsCleared code) = _ at hcall
    cases hcall
    rcases mem_setDownload hlanguage with ⟨_, hfalse, hid⟩ | ⟨_, hne⟩
    · exact ⟨hfalse, hid⟩
    · exact absurd hcode' hne
  writing := h.writing

/-- The manager announces a finished download, which was running and so had
not been announced before. -/
theorem Orderly.finish {s : DownloadState} (h : Orderly s) {id : Int} {code : List Char}
    {status : JobStatus} (hjob : s.jobs id = some ⟨code, .running⟩) (hstatus : status ≠ .running) :
    Orderly { s with
      jobs := Function.update s.jobs id (some ⟨code, status⟩)
      inFlight := Function.update s.inFlight id (some .broadcast) } where
  running := by
    intro id' job hjob' hrunning
    by_cases hne : id' = id
    · subst hne
      change Function.update s.jobs id' _ id' = some job at hjob'
      rw [Function.update_self] at hjob'
      cases hjob'
      exact absurd hrunning hstatus
    · change Function.update s.jobs id _ id' = some job at hjob'
      change Function.update s.inFlight id _ id' = none
      rw [Function.update_of_ne hne] at hjob' ⊢
      exact h.running id' job hjob' hrunning
  owned := by
    intro language hlanguage job hjob'
    rcases update_eq_some hjob' with ⟨hid, hnew⟩ | hold
    · cases hnew
      exact h.owned language hlanguage ⟨code, .running⟩ (hid ▸ hjob)
    · exact h.owned language hlanguage job hold
  nextId := h.nextId
  jobIds := by
    intro id' hid
    have hold := h.jobIds id' hid
    have hne : id' ≠ id := by
      rintro rfl
      rw [hjob] at hold
      cases hold.1
    change Function.update s.jobs id _ id' = none ∧ Function.update s.inFlight id _ id' = none
    rw [Function.update_of_ne hne, Function.update_of_ne hne]
    exact hold
  languageIds := h.languageIds
  screenIds := by
    intro call code' id' hscreen hstarts
    obtain ⟨hlt, hlanguage⟩ := h.screenIds call code' id' hscreen hstarts
    refine ⟨hlt, ?_⟩
    intro job hjob'
    rcases update_eq_some hjob' with ⟨hid, hnew⟩ | hold
    · cases hnew
      exact hlanguage ⟨code, .running⟩ (hid ▸ hjob)
    · exact hlanguage job hold
  fieldsSet := h.fieldsSet
  fieldsCleared := h.fieldsCleared
  writing := by
    intro id' language hwriting
    rcases update_eq_some hwriting with ⟨_, hnew⟩ | hold
    · cases hnew
    · exact h.writing id' language hold

/-- The cancel button removes a download, and leaves the fields to the next
step of its call. -/
theorem Orderly.cancel {s : DownloadState} (h : Orderly s) (code : List Char) (id : Int) :
    Orderly { s with
      jobs := Function.update s.jobs id none
      screen := some (.removed code) } where
  running := (h.forget id).running
  owned := (h.forget id).owned
  nextId := h.nextId
  jobIds := (h.forget id).jobIds
  languageIds := h.languageIds
  screenIds := by
    intro call code' id' hcall hstarts
    change some (ScreenCall.removed code) = some call at hcall
    cases hcall
    rcases hstarts with hstarts | hstarts <;> cases hstarts
  fieldsSet := by
    intro code' id' hcall
    cases hcall
  fieldsCleared := by
    intro code' hcall
    cases hcall
  writing := h.writing

/-- Bookkeeping survives every step, by the lemma about each case.  A service
that has read a row is about to write it cleared. -/
theorem Orderly.step {s t : DownloadState} {a : DownloadAction} (h : Orderly s)
    (hcase : StepCase s a t) : Orderly t := by
  have hother : ∀ message : Option InFlight, (∀ language, message ≠ some (.writing language)) →
      ∀ language, message = some (.writing language) → language.Cleared :=
    fun message hne language heq => absurd heq (hne language)
  cases hcase with
  | startDownload hscreen => exact h.startDownload _
  | cancel hscreen hlanguage => exact h.cancel _ _
  | setFields hscreen => exact h.setFields hscreen
  | clearFields hscreen => exact h.clearFields _
  | writeRow hscreen hcall hlanguage => exact h.idle _
  | finish hjob hstatus => exact h.finish hjob hstatus
  | receive hmessage hjob => exact h.send hmessage (hother _ (by simp))
  | receiveOther hmessage hjob => exact h.send hmessage (hother _ (by simp))
  | install hmessage => exact h.send hmessage (hother _ (by simp))
  | giveUp hmessage houtcome => exact h.send hmessage (hother _ (by simp))
  | readRow hmessage hrow =>
      refine h.send hmessage ?_
      intro language hlanguage
      cases hlanguage
      exact ⟨rfl, rfl⟩
  | rowMissing hmessage hrow => exact h.send hmessage (hother _ (by simp))
  | @clearRow id language hmessage =>
      have hsend := h.send hmessage (hother (some (.removing language.languageCode)) (by simp))
      exact { hsend with }
  | remove hmessage => exact (h.send hmessage (hother none (by simp))).forget _

/-! ## The rows -/

/-- The language for which the service may still clear the row. -/
def InFlight.clears : InFlight → Option (List Char)
  | .installing langName => some langName
  | .reading langName => some langName
  | .writing language => some language.languageCode
  | _ => none

/-- The download is running or announced, or the service is to clear the row. -/
def Tended (s : DownloadState) (id : Int) (code : List Char) : Prop :=
  (∃ job, s.jobs id = some job ∧ job.language = code ∧
    (job.status = .running ∨ s.inFlight id = some .broadcast)) ∨
  ∃ message, s.inFlight id = some message ∧ message.clears = some code

/-- Something about the language depends on how the download ends: a
`startDownload` that has not written its row yet, or a row that no call on the
screen is about to write. -/
def Relies (s : DownloadState) (id : Int) (code : List Char) : Prop :=
  (∃ call, s.screen = some call ∧ call.Starts code id) ∨
  ((∃ row ∈ s.table, row.languageCode = code ∧ ¬ row.Cleared ∧ row.downloadId = id) ∧
    ∀ call, s.screen = some call → call.code ≠ code)

/-- Every row that is not cleared is about to be written by the screen or names
a download that is tended to; so does every half-done `startDownload`. -/
structure Answered (s : DownloadState) : Prop where
  rows : ∀ row ∈ s.table, ¬ row.Cleared →
    (∃ call, s.screen = some call ∧ call.code = row.languageCode) ∨
      Tended s row.downloadId row.languageCode
  starts : ∀ call code id, s.screen = some call → call.Starts code id →
    (∃ row ∈ s.table, row.languageCode = code) → Tended s id code

/-- When a step may be taken: no download that something relies on fails or is
given up, and the service does not clear a row that `startDownload` of the same
download is still to write. -/
def StepOk (s : DownloadState) : DownloadAction → Prop
  | .receive id => ∀ job, s.jobs id = some job → job.status = .failed → ¬ Relies s id job.language
  | .install id outcome => outcome = .ioException ∨ outcome = .notRecognised →
      ∀ langName, s.inFlight id = some (.installing langName) → ¬ Relies s id langName
  | .clearRow id => ∀ language, s.inFlight id = some (.writing language) →
      ∀ call, s.screen = some call → ¬ call.Starts language.languageCode id
  | _ => True

/-- A step that writes no row and finishes no call has only to keep the
downloads that are relied on tended to. -/
theorem Answered.handover {s t : DownloadState} (h : Answered s) (htable : t.table = s.table)
    (hscreen : t.screen = s.screen)
    (hkeep : ∀ id code, Relies s id code → (∃ row ∈ s.table, row.languageCode = code) →
      Tended s id code → Tended t id code) : Answered t where
  rows := by
    intro row hrow hcleared
    rw [htable] at hrow
    rw [hscreen]
    by_cases hcall : ∃ call, s.screen = some call ∧ call.code = row.languageCode
    · exact Or.inl hcall
    · rcases h.rows row hrow hcleared with hold | hold
      · exact absurd hold hcall
      · simp only [not_exists, not_and] at hcall
        exact Or.inr (hkeep _ _ (Or.inr ⟨⟨row, hrow, rfl, hcleared, rfl⟩, hcall⟩)
          ⟨row, hrow, rfl⟩ hold)
  starts := by
    intro call code id hcall hstarts hrow
    rw [hscreen] at hcall
    rw [htable] at hrow
    have hstarted := h.starts call code id hcall hstarts hrow
    exact hkeep id code (Or.inl ⟨call, hcall, hstarts⟩) hrow hstarted

/-- What a message says about the download it is about: it is still to be
looked up, or its receiver is about to clear the row. -/
theorem Orderly.tended_cases {s : DownloadState} (h : Orderly s) {id : Int} {code : List Char}
    {message : InFlight} (hmessage : s.inFlight id = some message) (htended : Tended s id code) :
    (message = .broadcast ∧ ∃ job, s.jobs id = some job ∧ job.language = code ∧
      job.status ≠ .running) ∨ message.clears = some code := by
  rcases htended with ⟨job, hjob, hlanguage, hstatus⟩ | ⟨message', hmessage', hclears⟩
  · have hstopped : job.status ≠ .running := by
      intro hrunning
      rw [h.running id job hjob hrunning] at hmessage
      cases hmessage
    rcases hstatus with hrunning | hbroadcast
    · exact absurd hrunning hstopped
    · rw [hmessage] at hbroadcast
      cases hbroadcast
      exact Or.inl ⟨rfl, job, hjob, hlanguage, hstopped⟩
  · rw [hmessage] at hmessage'
    cases hmessage'
    exact Or.inr hclears

/-- A download stays tended to while neither its job nor its message changes. -/
theorem Tended.of_eq {s t : DownloadState} {id : Int} {code : List Char} (h : Tended s id code)
    (hjobs : t.jobs id = s.jobs id) (hinFlight : t.inFlight id = s.inFlight id) :
    Tended t id code := by
  unfold Tended
  rw [hjobs, hinFlight]
  exact h

/-- A message may change what is tended to only for its own download. -/
theorem Tended.send {s : DownloadState} {id id' : Int} {code : List Char}
    {message : Option InFlight} (h : Tended s id' code)
    (hself : id' = id → Tended (s.send id message) id' code) :
    Tended (s.send id message) id' code := by
  by_cases hid : id' = id
  · exact hself hid
  · exact h.of_eq rfl (Function.update_of_ne hid _ _)

theorem tended_of_clears {s : DownloadState} {id : Int} {code : List Char} {message : InFlight}
    (hclears : message.clears = some code) : Tended (s.send id (some message)) id code :=
  Or.inr ⟨message, Function.update_self .., hclears⟩

/-- The service goes on: it will still clear the row. -/
theorem Answered.proceed {s : DownloadState} (h : Answered s) {id : Int} {next : InFlight}
    (hnext : ∀ code, Tended s id code → next.clears = some code) :
    Answered (s.send id (some next)) := by
  refine h.handover rfl rfl ?_
  intro id' code _ _ htended
  refine htended.send ?_
  rintro rfl
  exact tended_of_clears (hnext code htended)

/-- The service or the receiver stops: nothing relied on the download. -/
theorem Answered.stop {s : DownloadState} (h : Answered s) {id : Int} {next : Option InFlight}
    (hnext : ∀ code, (∃ row ∈ s.table, row.languageCode = code) → Tended s id code →
      ¬ Relies s id code) :
    Answered (s.send id next) := by
  refine h.handover rfl rfl ?_
  intro id' code hrelies hrow htended
  refine htended.send ?_
  rintro rfl
  exact absurd hrelies (hnext code hrow htended)

/-- The screen has written the row of the language it was busy with: it is
cleared, or names a download that is tended to. -/
theorem Answered.writeRow {s : DownloadState} (h : Answered s) (horderly : Orderly s)
    {call : ScreenCall} {language : OcrLanguage} (hscreen : s.screen = some call)
    (hcall : (∃ id, call = .fieldsSet call.code id) ∨ call = .fieldsCleared call.code)
    (hlanguage : s.language call.code = some language) :
    Answered { s with table := updateOCRLanguageFull s.table language, screen := none } where
  rows := by
    intro row hrow hcleared
    right
    change Tended s row.downloadId row.languageCode
    obtain ⟨hmem, hcode⟩ := mem_of_language hlanguage
    rcases mem_updateOCRLanguageFull hrow with ⟨rfl, old, hold, holdCode⟩ | ⟨hold, hne⟩
    · rcases hcall with ⟨id, hset⟩ | hset
      · have hid := horderly.fieldsSet _ _ (hset ▸ hscreen) row hmem hcode
        rw [hid, hcode]
        exact h.starts call _ id hscreen (Or.inr hset) ⟨old, hold, holdCode.trans hcode⟩
      · exact absurd (horderly.fieldsCleared _ (hset ▸ hscreen) row hmem hcode) hcleared
    · rcases h.rows row hold hcleared with ⟨call', hcall', hsame⟩ | htended
      · rw [hscreen] at hcall'
        cases hcall'
        exact absurd (hsame.symm.trans hcode.symm) hne
      · exact htended
  starts := by
    intro call' code id hcall'
    cases hcall'

/-- `startDownload` enqueues a download that is running, and will finish.
Rows that were tended before still are. -/
theorem Answered.startDownload {s : DownloadState} (h : Answered s) (horderly : Orderly s)
    (hscreen : s.screen = none) (code : List Char) :
    Answered { s with
      jobs := Function.update s.jobs s.nextId (some ⟨code, .running⟩)
      nextId := s.nextId + 1
      screen := some (.enqueued code s.nextId) } where
  rows := by
    intro row hrow hcleared
    right
    rcases h.rows row hrow hcleared with ⟨call, hcall, _⟩ | htended
    · rw [hscreen] at hcall
      cases hcall
    · have hfresh := horderly.jobIds s.nextId (Or.inl (le_refl _))
      have hne : row.downloadId ≠ s.nextId := by
        intro hid
        rw [hid] at htended
        rcases htended with ⟨job, hjob, _⟩ | ⟨message, hmessage, _⟩
        · rw [hfresh.1] at hjob
          cases hjob
        · rw [hfresh.2] at hmessage
          cases hmessage
      exact htended.of_eq (Function.update_of_ne hne _ _) rfl
  starts := by
    intro call code' id hcall hstarts _
    change some (ScreenCall.enqueued code s.nextId) = some call at hcall
    cases hcall
    rcases hstarts with hstarts | hstarts
    · cases hstarts
      exact Or.inl ⟨⟨code, .running⟩, Function.update_self .., rfl, Or.inl rfl⟩
    · cases hstarts

/-- The cancel button removes a download of the language it is about. -/
theorem Answered.cancel {s : DownloadState} (h : Answered s) (horderly : Orderly s)
    (hscreen : s.screen = none) {code : List Char} {language : OcrLanguage}
    (hlanguage : s.language code = some language) :
    Answered { s with
      jobs := Function.update s.jobs language.downloadId none
      screen := some (.removed code) } where
  rows := by
    intro row hrow hcleared
    rcases h.rows row hrow hcleared with ⟨call, hcall, _⟩ | htended
    · rw [hscreen] at hcall
      cases hcall
    · rcases htended with ⟨job, hjob, hsame, hstatus⟩ | hservice
      · by_cases hid : row.downloadId = language.downloadId
        · left
          obtain ⟨hmem, hcode⟩ := mem_of_language hlanguage
          have howned := horderly.owned language hmem job (hid ▸ hjob)
          exact ⟨_, rfl, (hcode.symm.trans howned.symm).trans hsame⟩
        · right
          left
          refine ⟨job, ?_, hsame, hstatus⟩
          change Function.update s.jobs language.downloadId none row.downloadId = some job
          rw [Function.update_of_ne hid]
          exact hjob
      · exact Or.inr (Or.inr hservice)
  starts := by
    intro call code' id hcall hstarts
    change some (ScreenCall.removed code) = some call at hcall
    cases hcall
    rcases hstarts with hstarts | hstarts <;> cases hstarts

/-- The screen sets fields; its call stays about the same language, whose row
it is going to write. -/
theorem Answered.setFields {s : DownloadState} (h : Answered s) {call call' : ScreenCall}
    (hscreen : s.screen = some call) (hcode : call'.code = call.code)
    (hstarts : ∀ code id, call'.Starts code id → call.Starts code id)
    (languages : List OcrLanguage) :
    Answered { s with languages := languages, screen := some call' } where
  rows := by
    intro row hrow hcleared
    rcases h.rows row hrow hcleared with ⟨old, hold, hsame⟩ | htended
    · rw [hscreen] at hold
      cases hold
      exact Or.inl ⟨call', rfl, hcode.trans hsame⟩
    · exact Or.inr htended
  starts := by
    intro new code id hnew hnewStarts hrow
    change some call' = some new at hnew
    cases hnew
    exact h.starts call code id hscreen (hstarts code id hnewStarts) hrow

/-- A finished download is announced.  Who waited for it to finish now waits
for the announcement. -/
theorem Answered.finish {s : DownloadState} (h : Answered s) (horderly : Orderly s) {id : Int}
    {code : List Char} (hjob : s.jobs id = some ⟨code, .running⟩) (status : JobStatus) :
    Answered { s with
      jobs := Function.update s.jobs id (some ⟨code, status⟩)
      inFlight := Function.update s.inFlight id (some .broadcast) } := by
  refine h.handover rfl rfl ?_
  intro id' code' _ _ htended
  by_cases hid : id' = id
  · subst hid
    have hquiet := horderly.running id' _ hjob rfl
    rcases htended with ⟨job, hold, hlanguage, _⟩ | ⟨message, hmessage, _⟩
    · rw [hjob] at hold
      cases hold
      exact Or.inl ⟨⟨code, status⟩, Function.update_self .., hlanguage,
        Or.inr (Function.update_self ..)⟩
    · rw [hquiet] at hmessage
      cases hmessage
  · exact htended.of_eq (Function.update_of_ne hid _ _) (Function.update_of_ne hid _ _)

/-- The service clears every row of the language.  Its own download is tended
to for that language only, so the others still are. -/
theorem Answered.clearRow {s : DownloadState} (h : Answered s) (horderly : Orderly s) {id : Int}
    {language : OcrLanguage} (hmessage : s.inFlight id = some (.writing language))
    (hok : ∀ call, s.screen = some call → ¬ call.Starts language.languageCode id) :
    Answered { s with
      table := updateOCRLanguageFull s.table language
      inFlight := Function.update s.inFlight id (some (.removing language.languageCode)) } := by
  have hown : ∀ code, Tended s id code → code = language.languageCode := by
    intro code htended
    rcases horderly.tended_cases hmessage htended with ⟨hbroadcast, _⟩ | hclears
    · cases hbroadcast
    · exact (Option.some.inj hclears).symm
  have hothers : ∀ id' code, Tended s id' code → (id' = id → code ≠ language.languageCode) →
      Tended (s.send id (some (.removing language.languageCode))) id' code := by
    intro id' code htended hne
    refine htended.send ?_
    rintro rfl
    exact absurd (hown code htended) (hne rfl)
  constructor
  · intro row hrow hcleared
    rcases mem_updateOCRLanguageFull hrow with ⟨rfl, _⟩ | ⟨hold, hne⟩
    · exact absurd (horderly.writing id row hmessage) hcleared
    · rcases h.rows row hold hcleared with hcall | htended
      · exact Or.inl hcall
      · exact Or.inr (hothers _ _ htended fun _ => hne)
  · intro call code id' hcall hstarts hrow
    have hold : ∃ row ∈ s.table, row.languageCode = code := by
      obtain ⟨row, hmem, hcode⟩ := hrow
      rcases mem_updateOCRLanguageFull hmem with ⟨rfl, old, hold, hsame⟩ | ⟨hold, _⟩
      · exact ⟨old, hold, hsame.trans hcode⟩
      · exact ⟨row, hold, hcode⟩
    refine hothers _ _ (h.starts call code id' hcall hstarts hold) ?_
    rintro rfl rfl
    exact hok call hcall hstarts

/-- The service removes its download last, when the row has been written and
nothing waits for it any more. -/
theorem Answered.remove {s : DownloadState} (h : Answered s) (horderly : Orderly s) {id : Int}
    {langName : List Char} (hmessage : s.inFlight id = some (.removing langName)) :
    Answered { s with
      jobs := Function.update s.jobs id none
      inFlight := Function.update s.inFlight id none } := by
  refine h.handover rfl rfl ?_
  intro id' code _ _ htended
  have hne : id' ≠ id := by
    rintro rfl
    rcases horderly.tended_cases hmessage htended with ⟨hbroadcast, _⟩ | hclears
    · cases hbroadcast
    · cases hclears
  exact htended.of_eq (Function.update_of_ne hne _ _) (Function.update_of_ne hne _ _)

/-- **One step.**  Under `StepOk` every uncleared row stays answered for: by
the screen, by a job or a message on its way, or by the service that is about
to clear it.  One case for each kind of step. -/
theorem Answered.step {s t : DownloadState} {a : DownloadAction} (h : Answered s)
    (horderly : Orderly s) (hcase : StepCase s a t) (hok : StepOk s a) : Answered t := by
  cases hcase with
  | startDownload hscreen => exact h.startDownload horderly hscreen _
  | cancel hscreen hlanguage => exact h.cancel horderly hscreen hlanguage
  | @setFields code id hscreen =>
      have hcode : (ScreenCall.fieldsSet code id).code = (ScreenCall.enqueued code id).code := rfl
      refine h.setFields hscreen hcode ?_ _
      intro code' id' hstarts
      rcases hstarts with hstarts | hstarts <;> cases hstarts
      exact Or.inl rfl
  | @clearFields code hscreen =>
      have hcode : (ScreenCall.fieldsCleared code).code = (ScreenCall.removed code).code := rfl
      refine h.setFields hscreen hcode ?_ _
      intro code' id' hstarts
      rcases hstarts with hstarts | hstarts <;> cases hstarts
  | writeRow hscreen hcall hlanguage => exact h.writeRow horderly hscreen hcall hlanguage
  | finish hjob hstatus => exact h.finish horderly hjob _
  | @receive id code hmessage hjob =>
      refine h.proceed ?_
      intro code' htended
      rcases horderly.tended_cases hmessage htended with ⟨_, job, hjob', hlanguage, _⟩ | hclears
      · rw [hjob] at hjob'
        cases hjob'
        exact congrArg some hlanguage
      · cases hclears
  | @receiveOther id hmessage hjob =>
      refine h.stop ?_
      intro code _ htended
      rcases horderly.tended_cases hmessage htended with
        ⟨_, ⟨language, status⟩, hjob', hlanguage, hstatus⟩ | hclears
      · have hfailed : status = .failed := by
          cases status with
          | running => exact absurd rfl hstatus
          | successful => exact absurd hjob' (hjob language)
          | failed => rfl
        exact hlanguage ▸ hok _ hjob' hfailed
      · cases hclears
  | install hmessage =>
      refine h.proceed ?_
      intro code htended
      rcases horderly.tended_cases hmessage htended with ⟨hbroadcast, _⟩ | hclears
      · cases hbroadcast
      · exact hclears
  | giveUp hmessage houtcome =>
      refine h.stop ?_
      intro code _ htended
      rcases horderly.tended_cases hmessage htended with ⟨hbroadcast, _⟩ | hclears
      · cases hbroadcast
      · have hcode := Option.some.inj hclears
        exact hcode ▸ hok houtcome _ hmessage
  | @readRow id langName language hmessage hrow =>
      refine h.proceed ?_
      intro code htended
      rcases horderly.tended_cases hmessage htended with ⟨hbroadcast, _⟩ | hclears
      · cases hbroadcast
      · have hcode := (getOCRLanguageByCode_eq_some hrow).2
        exact (congrArg some hcode).trans hclears
  | rowMissing hmessage hrow =>
      refine h.stop ?_
      intro code hexists htended
      obtain ⟨row, hmem, hcode⟩ := hexists
      rcases horderly.tended_cases hmessage htended with ⟨hbroadcast, _⟩ | hclears
      · cases hbroadcast
      · have hname := Option.some.inj hclears
        exact absurd (hcode.trans hname.symm) (getOCRLanguageByCode_eq_none hrow row hmem)
  | clearRow hmessage => exact h.clearRow horderly hmessage (hok _ hmessage)
  | remove hmessage => exact h.remove horderly hmessage

/-! ## Runs -/

/-- A fresh start is orderly: there is nothing that could be out of order. -/
theorem Fresh.orderly {s : DownloadState} (h : Fresh s) : Orderly s where
  running := fun id _ _ _ => h.inFlight id
  owned := by
    intro language _ job hjob
    rw [h.jobs] at hjob
    cases hjob
  jobIds := fun id _ => ⟨h.jobs id, h.inFlight id⟩
  nextId := h.nextId
  languageIds := by
    intro language hlanguage
    rw [(h.languages language hlanguage).2]
    exact h.nextId
  screenIds := by
    intro call code id hcall
    rw [h.screen] at hcall
    cases hcall
  fieldsSet := by
    intro code id hcall
    rw [h.screen] at hcall
    cases hcall
  fieldsCleared := by
    intro code hcall
    rw [h.screen] at hcall
    cases hcall
  writing := by
    intro id language hwriting
    rw [h.inFlight] at hwriting
    cases hwriting

theorem Fresh.answered {s : DownloadState} (h : Fresh s) : Answered s where
  rows := fun row hrow hcleared => absurd (h.table row hrow) hcleared
  starts := by
    intro call code id hcall
    rw [h.screen] at hcall
    cases hcall

/-- What is tended to is pending. -/
theorem Tended.pending {s : DownloadState} {id : Int} {code : List Char} (h : Tended s id code) :
    Pending s code := by
  rcases h with ⟨job, hjob, hlanguage, hstatus⟩ | ⟨message, hmessage, hclears⟩
  · exact Or.inr (Or.inl ⟨id, job, hjob, hlanguage, hstatus⟩)
  · refine Or.inr (Or.inr ⟨id, message, hmessage, ?_⟩)
    cases message with
    | broadcast => cases hclears
    | installing langName => exact hclears
    | reading langName => exact hclears
    | writing language => exact hclears
    | removing langName => cases hclears

/-- **No row is stuck.**  In every run of allowed steps, in any order, the row
of a language about which nothing is pending is cleared: it is answered for in
every state of the run, and there is nothing left that could answer for it. -/
theorem row_cleared_of_run {s t : DownloadState} (hfresh : Fresh s)
    (hrun : Relation.ReflTransGen (GuardedStep DownloadStep StepOk) s t) {code : List Char}
    (hquiet : ¬ Pending t code) :
    ∀ row ∈ t.table, row.languageCode = code → row.downloading = false ∧ row.downloadId = 0 := by
  have hinv : Orderly t ∧ Answered t := by
    refine invariant_of_steps (P := fun u => Orderly u ∧ Answered u) ?_ hrun
      ⟨hfresh.orderly, hfresh.answered⟩
    intro u v ⟨horderly, hanswered⟩ ⟨a, hok, hstep⟩
    have hcase := downloadStep_cases hstep
    exact ⟨horderly.step hcase, hanswered.step horderly hcase hok⟩
  intro row hrow hcode
  by_contra hcleared
  rcases hinv.2.rows row hrow hcleared with ⟨call, hcall, hsame⟩ | htended
  · exact hquiet (Or.inl ⟨call, hcall, hsame.trans hcode⟩)
  · exact hquiet (hcode ▸ htended.pending)

/-! A screen with one language and at most one download. -/

def vietnamese : OcrLanguage where
  downloading := false
  downloadId := 0
  languageCode := ['v', 'i', 'e']
  displayText := ['V', 'i', 'e', 't', 'n', 'a', 'm', 'e', 's', 'e']
  installStatus := ⟨false, 0⟩

def oneDownload (nextId : Int) (row language : OcrLanguage) (screen : Option ScreenCall)
    (job : Option Job) (message : Option InFlight) : DownloadState where
  table := [row]
  languages := [language]
  screen := screen
  jobs := fun id => if id = 1 then job else none
  nextId := nextId
  inFlight := fun id => if id = 1 then message else none

def freshScreen : DownloadState := oneDownload 1 vietnamese vietnamese none none none

theorem fresh_freshScreen : Fresh freshScreen where
  table := by decide
  languages := by decide
  screen := rfl
  jobs := fun id => ite_self none
  nextId := by decide
  inFlight := fun id => ite_self none

/-- With one download, a change of the table at its id is another table of
one. -/
theorem update_one {β : Type} (o o' : Option β) :
    Function.update (fun id : Int => if id = 1 then o else none) 1 o' =
      fun id => if id = 1 then o' else none := by
  funext id
  by_cases hid : id = 1
  · subst hid
    simp
  · rw [Function.update_of_ne hid]
    simp [hid]

/-- With no call, no message and no running download nothing is pending. -/
theorem not_pending_oneDownload {nextId : Int} {row language : OcrLanguage} {job : Option Job}
    (hjob : ∀ j, job = some j → j.status ≠ .running) (code : List Char) :
    ¬ Pending (oneDownload nextId row language none job none) code := by
  rintro (⟨call, hcall, _⟩ | ⟨id, j, hj, _, hstatus⟩ | ⟨id, message, hmessage, _⟩)
  · cases hcall
  · simp only [oneDownload] at hj hstatus
    split_ifs at hj hstatus with hid
    · rcases hstatus with hrunning | hbroadcast
      · exact hjob j hj hrunning
      · cases hbroadcast
  · simp [oneDownload] at hmessage

/-- The row and the object while the download is known. -/
def vietnameseLoading : OcrLanguage := vietnamese.setDownload true 1

/-- `startDownload`, up to its last step: the download is enqueued, the
object's fields are set, and its row is written. -/
theorem started_oneDownload :
    Relation.ReflTransGen (GuardedStep DownloadStep StepOk) freshScreen
      (oneDownload 2 vietnameseLoading vietnameseLoading none
        (some ⟨['v', 'i', 'e'], .running⟩) none) := by
  have henqueue : GuardedStep DownloadStep StepOk freshScreen
      (oneDownload 2 vietnamese vietnamese (some (.enqueued ['v', 'i', 'e'] 1))
        (some ⟨['v', 'i', 'e'], .running⟩) none) := by
    refine ⟨.startDownload ['v', 'i', 'e'], trivial, ?_⟩
    change some _ = some _
    simp only [freshScreen, oneDownload, update_one]
    rfl
  have hset : GuardedStep DownloadStep StepOk
      (oneDownload 2 vietnamese vietnamese (some (.enqueued ['v', 'i', 'e'] 1))
        (some ⟨['v', 'i', 'e'], .running⟩) none)
      (oneDownload 2 vietnamese vietnameseLoading (some (.fieldsSet ['v', 'i', 'e'] 1))
        (some ⟨['v', 'i', 'e'], .running⟩) none) :=
    ⟨.setFields, trivial, rfl⟩
  have hwrite : GuardedStep DownloadStep StepOk
      (oneDownload 2 vietnamese vietnameseLoading (some (.fieldsSet ['v', 'i', 'e'] 1))
        (some ⟨['v', 'i', 'e'], .running⟩) none)
      (oneDownload 2 vietnameseLoading vietnameseLoading none
        (some ⟨['v', 'i', 'e'], .running⟩) none) :=
    ⟨.writeRow, trivial, rfl⟩
  exact ((Relation.ReflTransGen.single henqueue).tail hset).tail hwrite

/-- The installed download of one language: it is completed, announced and
installed, and the row is cleared. -/
theorem row_cleared_of_run_installed :
    Relation.ReflTransGen (GuardedStep DownloadStep StepOk) freshScreen
      (oneDownload 2 vietnamese vietnameseLoading none none none) ∧
    ∀ row ∈ (oneDownload 2 vietnamese vietnameseLoading none none none).table,
      row.languageCode = ['v', 'i', 'e'] → row.downloading = false ∧ row.downloadId = 0 := by
  let loading := oneDownload 2 vietnameseLoading vietnameseLoading none
  have hcomplete : GuardedStep DownloadStep StepOk
      (loading (some ⟨['v', 'i', 'e'], .running⟩) none)
      (loading (some ⟨['v', 'i', 'e'], .successful⟩) (some .broadcast)) := by
    refine ⟨.complete 1, trivial, ?_⟩
    change some _ = some _
    simp only [loading, oneDownload, update_one]
  have hreceive : GuardedStep DownloadStep StepOk
      (loading (some ⟨['v', 'i', 'e'], .successful⟩) (some .broadcast))
      (loading (some ⟨['v', 'i', 'e'], .successful⟩) (some (.installing ['v', 'i', 'e']))) := by
    refine ⟨.receive 1, ?_, ?_⟩
    · intro job hjob hfailed
      cases hjob
      cases hfailed
    · change some _ = some _
      simp only [loading, oneDownload, DownloadState.send, update_one]
  have hinstall : GuardedStep DownloadStep StepOk
      (loading (some ⟨['v', 'i', 'e'], .successful⟩) (some (.installing ['v', 'i', 'e'])))
      (loading (some ⟨['v', 'i', 'e'], .successful⟩) (some (.reading ['v', 'i', 'e']))) := by
    refine ⟨.install 1 .installed, ?_, ?_⟩
    · rintro (houtcome | houtcome) <;> cases houtcome
    · change some _ = some _
      simp only [loading, oneDownload, DownloadState.send, update_one]
  have hread : GuardedStep DownloadStep StepOk
      (loading (some ⟨['v', 'i', 'e'], .successful⟩) (some (.reading ['v', 'i', 'e'])))
      (loading (some ⟨['v', 'i', 'e'], .successful⟩) (some (.writing vietnamese))) := by
    refine ⟨.readRow 1, trivial, ?_⟩
    change some _ = some _
    simp only [loading, oneDownload, DownloadState.send, update_one]
    rfl
  have hclear : GuardedStep DownloadStep StepOk
      (loading (some ⟨['v', 'i', 'e'], .successful⟩) (some (.writing vietnamese)))
      (oneDownload 2 vietnamese vietnameseLoading none
        (some ⟨['v', 'i', 'e'], .successful⟩) (some (.removing ['v', 'i', 'e']))) := by
    refine ⟨.clearRow 1, ?_, ?_⟩
    · intro language _ call hcall
      cases hcall
    · change some _ = some _
      simp only [loading, oneDownload, update_one]
      rfl
  have hremove : GuardedStep DownloadStep StepOk
      (oneDownload 2 vietnamese vietnameseLoading none
        (some ⟨['v', 'i', 'e'], .successful⟩) (some (.removing ['v', 'i', 'e'])))
      (oneDownload 2 vietnamese vietnameseLoading none none none) := by
    refine ⟨.remove 1, trivial, ?_⟩
    change some _ = some _
    simp only [oneDownload, update_one]
  have hrun := ((((((started_oneDownload.tail hcomplete).tail hreceive).tail hinstall).tail
    hread).tail hclear).tail hremove)
  exact ⟨hrun, row_cleared_of_run fresh_freshScreen hrun (not_pending_oneDownload (by simp) _)⟩

/-- A download that fails leaves its row as `startDownload` wrote it. -/
theorem not_row_cleared : ¬ ∀ s t : DownloadState, Fresh s →
    Relation.ReflTransGen (fun u v => ∃ a, DownloadStep u a v) s t →
    ∀ code, ¬ Pending t code →
    ∀ row ∈ t.table, row.languageCode = code → row.downloading = false ∧ row.downloadId = 0 := by
  intro h
  have hstarted : Relation.ReflTransGen (fun u v => ∃ a, DownloadStep u a v) freshScreen
      (oneDownload 2 vietnameseLoading vietnameseLoading none
        (some ⟨['v', 'i', 'e'], .running⟩) none) :=
    Relation.ReflTransGen.mono (fun u v ⟨a, _, hstep⟩ => ⟨a, hstep⟩) _ _ started_oneDownload
  have hfail : DownloadStep
      (oneDownload 2 vietnameseLoading vietnameseLoading none
        (some ⟨['v', 'i', 'e'], .running⟩) none) (.fail 1)
      (oneDownload 2 vietnameseLoading vietnameseLoading none
        (some ⟨['v', 'i', 'e'], .failed⟩) (some .broadcast)) := by
    change some _ = some _
    simp only [oneDownload, update_one]
  have hreceive : DownloadStep
      (oneDownload 2 vietnameseLoading vietnameseLoading none
        (some ⟨['v', 'i', 'e'], .failed⟩) (some .broadcast)) (.receive 1)
      (oneDownload 2 vietnameseLoading vietnameseLoading none
        (some ⟨['v', 'i', 'e'], .failed⟩) none) := by
    change some _ = some _
    simp only [oneDownload, DownloadState.send, update_one]
  have hstuck := h _ _ fresh_freshScreen ((hstarted.tail ⟨_, hfail⟩).tail ⟨_, hreceive⟩)
    ['v', 'i', 'e'] (not_pending_oneDownload (by simp) _) vietnameseLoading
    (List.mem_singleton_self _) rfl
  cases hstuck.1

end CardScanner
