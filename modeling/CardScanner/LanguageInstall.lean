import CardScanner.InstallFailure
import Mathlib.Data.List.AList

/-!
# Installing a downloaded language

`OCRLanguageInstallService` copies the downloaded file into the folder of the
training data, and `OcrLanguageDataStore` takes a language for installed when
that folder holds a regular file whose name starts with its code and a dot.

The copy is written to the file of that name itself, so the file is there from
the moment it is opened.  All an install does to the folder is then one entry,
holding the bytes that arrived (`OpensOutput.onHandleIntent`), whether or not
the copying came to its end; and what a failed install changes can be read off
it.
-/

namespace CardScanner

/-! ## The folder of the training data -/

/-- A name in a folder. -/
structure FileName where
  name : List Char
  noSlash : '/' ∉ name
  deriving DecidableEq

/-- What a name stands for. -/
inductive FolderEntry where
  | file (content : List UInt8)
  | folder
  deriving DecidableEq, Repr

def FolderEntry.isFile : FolderEntry → Bool
  | .file _ => true
  | .folder => false

/-- `File.length`, which is not looked at for a directory. -/
def FolderEntry.length : FolderEntry → ℕ
  | .file content => content.length
  | .folder => 0

/-- What a folder holds. -/
abbrev Folder := AList fun _ : FileName => FolderEntry

/-- What is found at the path `getTrainingDataDir`. -/
inductive TrainingDataDir where
  | absent
  | file
  | folder (entries : Folder)

namespace TrainingDataDir

/-- The entry of this name in the directory, if there is one. -/
def lookup (tessDir : TrainingDataDir) (fileName : FileName) : Option FolderEntry :=
  match tessDir with
  | .folder entries => entries.lookup fileName
  | _ => none

def isDirectory : TrainingDataDir → Bool
  | .folder _ => true
  | _ => false

end TrainingDataDir

/-! ## The store -/

/-- The part of `isLanguageFileFor` that looks at the name. -/
def FileName.startsWith (fileName : FileName) (ocrLang : List Char) : Bool :=
  (ocrLang ++ ['.']).isPrefixOf fileName.name

/-- `isLanguageFileFor`: a file whose name begins with the code, and so
perhaps one of another language. -/
def isLanguageFileFor (fileName : FileName) (entry : FolderEntry) (ocrLang : List Char) : Bool :=
  fileName.startsWith ocrLang && entry.isFile

/-- `getAllFilesFor`: none when there is no folder. -/
def getAllFilesFor (ocrLang : List Char) : TrainingDataDir → List FolderEntry
  | .folder files => (files.entries.filter fun e => isLanguageFileFor e.1 e.2 ocrLang).map (·.2)
  | _ => []

/-- The sizes of a language's files, added up. -/
def sumFileSizes (languageFiles : List FolderEntry) : ℤ :=
  (languageFiles.map fun entry => (entry.length : ℤ)).sum

/-- `isLanguageInstalled`: some file is there.  Its content is not looked at. -/
def isLanguageInstalled (ocrLang : List Char) (tessDir : TrainingDataDir) : InstallStatus :=
  let languageFiles := getAllFilesFor ocrLang tessDir
  if languageFiles.length = 0 then ⟨false, 0⟩
  else ⟨1 ≤ languageFiles.length, sumFileSizes languageFiles⟩

/-! ## The service -/

/-- The size of the buffer of `copyInputStream`. -/
def bufferSize : ℕ := 4096 * 8

/-- What one `read` puts into the buffer. -/
structure Chunk where
  bytes : List UInt8
  nonempty : bytes ≠ []
  fits : bytes.length ≤ bufferSize

/-- How the copying ends, after the chunks that were copied as a whole: with an
exception of `read`, with one of `write` that has written some bytes of the
chunk, or at the end of the stream, where `close` may fail. -/
inductive CopyEnd where
  | readFails
  | writeFails (chunk : Chunk) (written : ℕ)
  | endOfStream (closes : Bool)

/-- What the system does during an install. -/
structure InstallRun where
  /-- a missing folder can be made -/
  canMakeDirs : Bool
  canOpenDownload : Bool
  canOpenOutput : Bool
  chunks : List Chunk
  copyEnd : CopyEnd

/-- The loop of `copyInputStream`: what is in the file in the end, and whether
everything went well. -/
def copyLoop (copyEnd : CopyEnd) : List Chunk → List UInt8 → List UInt8 × Bool
  | chunk :: chunks, content => copyLoop copyEnd chunks (content ++ chunk.bytes)
  | [], content =>
    match copyEnd with
    | .readFails => (content, false)
    | .writeFails chunk written => (content ++ chunk.bytes.take written, false)
    | .endOfStream closes => (content, closes)

/-- `copyInputStream`; the flag says that there was no exception. -/
def copyInputStream (run : InstallRun) (fileName : FileName) :
    TrainingDataDir → TrainingDataDir × Bool
  | .folder entries =>
    if run.canOpenOutput && entries.lookup fileName != some .folder then
      let (content, copied) := copyLoop run.copyEnd run.chunks []
      (.folder (entries.insert fileName (.file content)), copied)
    else (.folder entries, false)
  | tessDir => (tessDir, false)

/-- `mkdirs`, true when the folder was made. -/
def mkdirs (run : InstallRun) : TrainingDataDir → TrainingDataDir × Bool
  | .absent => if run.canMakeDirs then (.folder ∅, true) else (.absent, false)
  | tessDir => (tessDir, false)

/-- `notifySuccess`: the broadcast names the language, which may be `null`. -/
def notifySuccess (lang : Option (List Char)) : Intent :=
  ((Intent.mk actionInstallCompleted []).putExtra extraOcrLanguage (.string lang)).putExtra
    extraStatus (.int statusSuccessful)

/-- `onHandleIntent` for a download whose address ends in `fileName`: what it
leaves at the path, and its broadcast.  The database is not looked at. -/
def onHandleIntent (run : InstallRun) (fileName : FileName) (tessDir : TrainingDataDir) :
    TrainingDataDir × Intent :=
  let langName := extractLanguageNameFromUri fileName.name
  let (tessDir, made) := mkdirs run tessDir
  if made || tessDir.isDirectory && langName.isSome then
    if run.canOpenDownload then
      let (tessDir, copied) := copyInputStream run fileName tessDir
      (tessDir, if copied then notifySuccess langName else notifyError langName)
    else (tessDir, notifyError langName)
  else (tessDir, notifyError langName)

/-! ## Atomicity -/

/-- The installed languages are the same and every file is unchanged. -/
structure Unchanged (before after : TrainingDataDir) : Prop where
  installed : ∀ ocrLang, (isLanguageInstalled ocrLang after).isInstalled =
    (isLanguageInstalled ocrLang before).isInstalled
  files : ∀ fileName content, before.lookup fileName = some (.file content) →
    after.lookup fileName = some (.file content)

/-- A failed install changes nothing. -/
def InstallAtomic (run : InstallRun) (fileName : FileName) (tessDir : TrainingDataDir) : Prop :=
  (onHandleIntent run fileName tessDir).2.action = actionInstallFailed →
    Unchanged tessDir (onHandleIntent run fileName tessDir).1

/-- The install gets as far as to open the output file. -/
def OpensOutput (run : InstallRun) (fileName : FileName) (tessDir : TrainingDataDir) : Prop :=
  (match tessDir with
    | .absent => run.canMakeDirs = true
    | .file => False
    | .folder _ => (extractLanguageNameFromUri fileName.name).isSome = true) ∧
  run.canOpenDownload = true ∧ run.canOpenOutput = true ∧
  tessDir.lookup fileName ≠ some .folder

/-- The bytes that arrive before the copying ends. -/
def InstallRun.arrived (run : InstallRun) : List UInt8 :=
  run.chunks.flatMap Chunk.bytes ++
    match run.copyEnd with
    | .writeFails chunk written => chunk.bytes.take written
    | _ => []

/-! ## What an install does to the folder -/

/-- The copy loop appends all chunks that arrive, and of one whose writing
fails the first bytes.  How it ends does not depend on what has been copied
before. -/
theorem copyLoop_eq (copyEnd : CopyEnd) (chunks : List Chunk) (content : List UInt8) :
    copyLoop copyEnd chunks content =
      (content ++ (chunks.flatMap Chunk.bytes ++
        match copyEnd with
        | .writeFails chunk written => chunk.bytes.take written
        | _ => []), (copyLoop copyEnd [] []).2) := by
  induction chunks generalizing content with
  | nil => cases copyEnd <;> simp [copyLoop]
  | cons chunk chunks ih =>
      rw [copyLoop, ih, List.flatMap_cons, List.append_assoc, List.append_assoc]

/-- The whole loop, from the empty file. -/
theorem copyLoop_run (run : InstallRun) :
    copyLoop run.copyEnd run.chunks [] = (run.arrived, (copyLoop run.copyEnd [] []).2) := by
  rw [copyLoop_eq, List.nil_append]
  rfl

/-- The output file is opened. -/
theorem copyInputStream_opened {run : InstallRun} {fileName : FileName} {entries : Folder}
    (hopen : run.canOpenOutput = true) (hentry : entries.lookup fileName ≠ some .folder) :
    copyInputStream run fileName (.folder entries) =
      (.folder (entries.insert fileName (.file run.arrived)), (copyLoop run.copyEnd [] []).2) := by
  have htest : (run.canOpenOutput && entries.lookup fileName != some .folder) = true := by
    rw [Bool.and_eq_true, bne_iff_ne]
    exact ⟨hopen, hentry⟩
  simp only [copyInputStream, htest, if_true, copyLoop_run]

/-- It cannot be opened. -/
theorem copyInputStream_refused {run : InstallRun} {fileName : FileName} {entries : Folder}
    (hrefused : ¬ (run.canOpenOutput = true ∧ entries.lookup fileName ≠ some .folder)) :
    copyInputStream run fileName (.folder entries) = (.folder entries, false) := by
  have htest : ¬ (run.canOpenOutput && entries.lookup fileName != some .folder) = true := by
    rw [Bool.and_eq_true, bne_iff_ne]
    exact hrefused
  rw [copyInputStream, if_neg htest]

/-- The service past its first test, in a folder in which it can open the
output. -/
theorem onHandleIntent_opened {run : InstallRun} {fileName : FileName} {entries : Folder}
    {tessDir : TrainingDataDir} {made : Bool} (hmade : mkdirs run tessDir = (.folder entries, made))
    (htest : (made || (extractLanguageNameFromUri fileName.name).isSome) = true)
    (hdownload : run.canOpenDownload = true) (hopen : run.canOpenOutput = true)
    (hentry : entries.lookup fileName ≠ some .folder) :
    onHandleIntent run fileName tessDir =
      (.folder (entries.insert fileName (.file run.arrived)),
        if (copyLoop run.copyEnd [] []).2 then
          notifySuccess (extractLanguageNameFromUri fileName.name)
        else notifyError (extractLanguageNameFromUri fileName.name)) := by
  have hdir : (TrainingDataDir.folder entries).isDirectory = true := rfl
  simp only [onHandleIntent, hmade, hdir, Bool.true_and, htest, if_true, hdownload,
    copyInputStream_opened hopen hentry]

/-- The service past its first test, when it cannot open one of the two files. -/
theorem onHandleIntent_refused {run : InstallRun} {fileName : FileName} {entries : Folder}
    {tessDir : TrainingDataDir} {made : Bool} (hmade : mkdirs run tessDir = (.folder entries, made))
    (hrefused : ¬ (run.canOpenDownload = true ∧ run.canOpenOutput = true ∧
      entries.lookup fileName ≠ some .folder)) :
    onHandleIntent run fileName tessDir =
      (.folder entries, notifyError (extractLanguageNameFromUri fileName.name)) := by
  by_cases hdownload : run.canOpenDownload = true
  · have houtput : copyInputStream run fileName (.folder entries) = (.folder entries, false) :=
      copyInputStream_refused fun hopen => hrefused ⟨hdownload, hopen⟩
    simp [onHandleIntent, hmade, houtput]
  · simp [onHandleIntent, hmade, hdownload]

/-- The output file is opened: it holds what arrived, and nothing else
changes. -/
theorem OpensOutput.onHandleIntent {run : InstallRun} {fileName : FileName}
    {tessDir : TrainingDataDir} (h : OpensOutput run fileName tessDir) :
    (∀ name, (onHandleIntent run fileName tessDir).1.lookup name =
      if name = fileName then some (.file run.arrived) else tessDir.lookup name) ∧
    (onHandleIntent run fileName tessDir).2 =
      if (copyLoop run.copyEnd [] []).2 then
        notifySuccess (extractLanguageNameFromUri fileName.name)
      else notifyError (extractLanguageNameFromUri fileName.name) := by
  obtain ⟨hdir, hdownload, hopen, hentry⟩ := h
  have hlookup : ∀ (entries : Folder) (name : FileName),
      (entries.insert fileName (.file run.arrived)).lookup name =
        if name = fileName then some (.file run.arrived) else entries.lookup name := by
    intro entries name
    split_ifs with hname
    · rw [hname, AList.lookup_insert]
    · exact AList.lookup_insert_ne hname
  cases tessDir with
  | absent =>
      have hmade : mkdirs run .absent = (.folder ∅, true) := if_pos hdir
      rw [onHandleIntent_opened hmade rfl hdownload hopen hentry]
      exact ⟨hlookup ∅, rfl⟩
  | file => exact hdir.elim
  | folder entries =>
      have hmade : mkdirs run (.folder entries) = (.folder entries, false) := rfl
      rw [onHandleIntent_opened hmade hdir hdownload hopen hentry]
      exact ⟨hlookup entries, rfl⟩

/-- Otherwise the install fails and changes nothing: every way out before the
file is open ends with an error. -/
theorem onHandleIntent_of_not_opensOutput {run : InstallRun} {fileName : FileName}
    {tessDir : TrainingDataDir} (h : ¬ OpensOutput run fileName tessDir) :
    (∀ name, (onHandleIntent run fileName tessDir).1.lookup name = tessDir.lookup name) ∧
    (onHandleIntent run fileName tessDir).2 =
      notifyError (extractLanguageNameFromUri fileName.name) := by
  cases tessDir with
  | absent =>
      cases hmake : run.canMakeDirs with
      | false =>
          have hmade : mkdirs run .absent = (.absent, false) := by simp [mkdirs, hmake]
          simp [onHandleIntent, hmade, TrainingDataDir.isDirectory]
      | true =>
          have hmade : mkdirs run .absent = (.folder ∅, true) := by simp [mkdirs, hmake]
          rw [onHandleIntent_refused hmade fun hrest => h ⟨hmake, hrest⟩]
          exact ⟨fun _ => rfl, rfl⟩
  | file => simp [onHandleIntent, mkdirs, TrainingDataDir.isDirectory]
  | folder entries =>
      have hmade : mkdirs run (.folder entries) = (.folder entries, false) := rfl
      cases hlang : (extractLanguageNameFromUri fileName.name).isSome with
      | false => simp [onHandleIntent, hmade, hlang]
      | true =>
          rw [onHandleIntent_refused hmade fun hrest => h ⟨hlang, hrest⟩]
          exact ⟨fun _ => rfl, rfl⟩

/-! ## What counts as installed -/

/-- A language counts as installed as soon as it has a file, whatever is in
it. -/
theorem isInstalled_iff_files (ocrLang : List Char) (tessDir : TrainingDataDir) :
    (isLanguageInstalled ocrLang tessDir).isInstalled = true ↔
      getAllFilesFor ocrLang tessDir ≠ [] := by
  rw [← List.length_pos_iff]
  simp only [isLanguageInstalled]
  split_ifs with hnone
  · simp [hnone]
  · simp [Nat.pos_iff_ne_zero, Nat.one_le_iff_ne_zero]

/-- A language is installed iff the folder holds a file whose name starts so. -/
theorem isInstalled_iff (ocrLang : List Char) (tessDir : TrainingDataDir) :
    (isLanguageInstalled ocrLang tessDir).isInstalled = true ↔
      ∃ fileName content, fileName.startsWith ocrLang = true ∧
        tessDir.lookup fileName = some (.file content) := by
  rw [isInstalled_iff_files]
  cases tessDir with
  | absent => simp [getAllFilesFor, TrainingDataDir.lookup]
  | file => simp [getAllFilesFor, TrainingDataDir.lookup]
  | folder entries =>
      have hmem : getAllFilesFor ocrLang (.folder entries) ≠ [] ↔
          ∃ e ∈ entries.entries, isLanguageFileFor e.1 e.2 ocrLang = true := by
        rw [getAllFilesFor, Ne, List.map_eq_nil_iff, List.filter_eq_nil_iff]
        push Not
        rfl
      rw [hmem]
      constructor
      · rintro ⟨⟨fileName, entry⟩, hentry, hfile⟩
        rw [isLanguageFileFor, Bool.and_eq_true] at hfile
        cases entry with
        | file content => exact ⟨fileName, content, hfile.1, AList.mem_lookup_iff.mpr hentry⟩
        | folder => exact absurd hfile.2 Bool.false_ne_true
      · rintro ⟨fileName, content, hstarts, hlookup⟩
        refine ⟨⟨fileName, .file content⟩, AList.mem_lookup_iff.mp hlookup, ?_⟩
        rw [isLanguageFileFor, hstarts]
        rfl

/-- Which languages are installed depends on what the names stand for only. -/
theorem unchanged_of_lookup {before after : TrainingDataDir}
    (h : ∀ name, after.lookup name = before.lookup name) : Unchanged before after where
  installed ocrLang := by
    rw [Bool.eq_iff_iff, isInstalled_iff, isInstalled_iff]
    simp only [h]
  files fileName content hfile := (h fileName).trans hfile

/-- A file more: nothing changes iff the languages it belongs to had one
before. -/
theorem unchanged_iff_of_new {before after : TrainingDataDir} {fileName : FileName}
    {content : List UInt8} (hnew : before.lookup fileName = none)
    (h : ∀ name, after.lookup name =
      if name = fileName then some (.file content) else before.lookup name) :
    Unchanged before after ↔ ∀ ocrLang, fileName.startsWith ocrLang = true →
      (isLanguageInstalled ocrLang before).isInstalled = true := by
  have hkept : ∀ name old, before.lookup name = some (.file old) →
      after.lookup name = some (.file old) := by
    intro name old hold
    have hne : name ≠ fileName := by
      rintro rfl
      rw [hnew] at hold
      cases hold
    rw [h, if_neg hne]
    exact hold
  constructor
  · intro hsame ocrLang hstarts
    rw [← hsame.installed ocrLang, isInstalled_iff]
    exact ⟨fileName, content, hstarts, by rw [h, if_pos rfl]⟩
  · intro hall
    refine ⟨fun ocrLang => ?_, hkept⟩
    rw [Bool.eq_iff_iff, isInstalled_iff]
    constructor
    · rintro ⟨name, old, hstarts, hold⟩
      rw [h] at hold
      split_ifs at hold with hname
      · exact hall ocrLang (hname ▸ hstarts)
      · exact (isInstalled_iff ocrLang before).mpr ⟨name, old, hstarts, hold⟩
    · intro hinstalled
      obtain ⟨name, old, hstarts, hold⟩ := (isInstalled_iff ocrLang before).mp hinstalled
      exact ⟨name, old, hstarts, hkept name old hold⟩

/-- A file written over: nothing changes iff its content is the same. -/
theorem unchanged_iff_of_old {before after : TrainingDataDir} {fileName : FileName}
    {old content : List UInt8} (hold : before.lookup fileName = some (.file old))
    (h : ∀ name, after.lookup name =
      if name = fileName then some (.file content) else before.lookup name) :
    Unchanged before after ↔ content = old := by
  constructor
  · intro hsame
    have hafter := hsame.files fileName old hold
    rw [h, if_pos rfl] at hafter
    exact FolderEntry.file.inj (Option.some.inj hafter)
  · rintro rfl
    refine unchanged_of_lookup fun name => ?_
    rw [h]
    split_ifs with hname
    · rw [hname, hold]
    · rfl

/-! ## When a failed install changes nothing -/

theorem action_notifyError (lang : Option (List Char)) :
    (notifyError lang).action = actionInstallFailed := rfl

theorem action_notifySuccess (lang : Option (List Char)) :
    (notifySuccess lang).action ≠ actionInstallFailed := by
  change actionInstallCompleted ≠ actionInstallFailed
  decide

/-- Copying succeeds exactly if the stream comes to its end and both streams
can be closed. -/
theorem copyLoop_complete_iff (copyEnd : CopyEnd) :
    (copyLoop copyEnd [] []).2 = true ↔ copyEnd = .endOfStream true := by
  cases copyEnd <;> simp [copyLoop]

/-- The install fails iff the output file is not opened or the copying does not
come to its end. -/
theorem failed_iff (run : InstallRun) (fileName : FileName) (tessDir : TrainingDataDir) :
    (onHandleIntent run fileName tessDir).2.action = actionInstallFailed ↔
      (OpensOutput run fileName tessDir → run.copyEnd ≠ .endOfStream true) := by
  by_cases hopens : OpensOutput run fileName tessDir
  · rw [hopens.onHandleIntent.2, Ne, ← copyLoop_complete_iff]
    split_ifs with hdone
    · exact iff_of_false (action_notifySuccess _) fun hall => hall hopens hdone
    · exact iff_of_true (action_notifyError _) fun _ => hdone
  · rw [(onHandleIntent_of_not_opensOutput hopens).2]
    exact iff_of_true (action_notifyError _) fun h => absurd h hopens

/-- **When a failed install changes nothing.**  Exactly when the output file
is never opened, or the copying comes to its end, or what arrived is what the
file of that name held before, or there was no such file and every language it
counts for was installed before. -/
theorem installAtomic_iff (run : InstallRun) (fileName : FileName) (tessDir : TrainingDataDir) :
    InstallAtomic run fileName tessDir ↔
      (OpensOutput run fileName tessDir → run.copyEnd ≠ .endOfStream true →
        match tessDir.lookup fileName with
        | some (.file content) => run.arrived = content
        | some .folder => True
        | none => ∀ ocrLang, fileName.startsWith ocrLang = true →
            (isLanguageInstalled ocrLang tessDir).isInstalled = true) := by
  unfold InstallAtomic
  rw [failed_iff]
  by_cases hopens : OpensOutput run fileName tessDir
  · have hlookup := hopens.onHandleIntent.1
    have hentry := hopens.2.2.2
    have hunchanged : Unchanged tessDir (onHandleIntent run fileName tessDir).1 ↔
        match tessDir.lookup fileName with
        | some (.file content) => run.arrived = content
        | some .folder => True
        | none => ∀ ocrLang, fileName.startsWith ocrLang = true →
            (isLanguageInstalled ocrLang tessDir).isInstalled = true := by
      cases hold : tessDir.lookup fileName with
      | none => exact unchanged_iff_of_new hold hlookup
      | some entry =>
          cases entry with
          | file content => exact unchanged_iff_of_old hold hlookup
          | folder => exact absurd hold hentry
    rw [hunchanged]
    exact ⟨fun h _ hfails => h fun _ => hfails, fun h hfails => h hopens (hfails hopens)⟩
  · have hsame := unchanged_of_lookup (onHandleIntent_of_not_opensOutput hopens).1
    exact iff_of_true (fun _ => hsame) fun h => absurd h hopens

/-- The name of the file of English. -/
def engTraineddata : FileName where
  name := ['e', 'n', 'g', '.', 't', 'r', 'a', 'i', 'n', 'e', 'd', 'd', 'a', 't', 'a']
  noSlash := by decide

/-- The name of the file of Vietnamese, which the user can download. -/
def vieTraineddata : FileName where
  name := ['v', 'i', 'e', '.', 't', 'r', 'a', 'i', 'n', 'e', 'd', 'd', 'a', 't', 'a']
  noSlash := by decide

/-- The first `read` fails, in a folder that has English only. -/
theorem not_installAtomic :
    ¬ InstallAtomic ⟨true, true, true, [], .readFails⟩ vieTraineddata
      (.folder (AList.insert engTraineddata (.file [7]) ∅)) := by
  intro hatomic
  have hsame := (hatomic (by decide)).installed ['v', 'i', 'e']
  exact absurd hsame (by decide)

/-! ## Truthfulness -/

end CardScanner
