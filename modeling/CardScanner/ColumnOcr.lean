import CardScanner.OcrThread
import CardScanner.TextColumns
import Mathlib.Algebra.Order.Floor.Ring
import Mathlib.Data.Rat.Floor

/-!
# The recognition of selected columns

`startOCRForComplexLayout` recognizes the columns of the combined page one by one, on a
thread of its own, and then sends the texts of all columns.  It does not send the two
texts under one lock, so the screen may stop it between them.  What Tesseract returns
after it has been told to stop is arbitrary; before that it is the text of the rectangle.

Nothing is sent once the run is stopped, and a run that is not detached again by the
screen stays stopped.  So the texts sent are an initial part of the pair, each of them
whole, and the last message is sent only after none or both (`columnOcr_protocol`).
-/

namespace CardScanner

open Machine

/-- What Tesseract returns for a rectangle. -/
structure Recognized where
  hocrText : List Char
  utf8Text : List Char
  meanConfidence : ℤ
  deriving DecidableEq, Repr

/-- Where the worker stands.  The loop's positions carry the index of the
column, and inside a turn its geometry. -/
inductive ColumnWorkerAt where
  /-- in `combineSelectedPixa` -/
  | combine
  | finalImage
  | explanation
  /-- before the first synchronized block -/
  | initTess
  /-- before the second one -/
  | check
  /-- at the head of the loop -/
  | loop (i : ℕ)
  | beforeHocr (i : ℕ) (box : Box)
  | hocr (i : ℕ) (box : Box)
  | beforeUtf8 (i : ℕ) (box : Box)
  | utf8 (i : ℕ) (box : Box)
  | sendHocr
  | sendUtf8
  /-- in the `finally` block, before the last message -/
  | finish
  | returned
  deriving DecidableEq, Repr

/-- Inside native code that reports its progress. -/
def ColumnWorkerAt.InNative : ColumnWorkerAt → Prop
  | .combine => True
  | .hocr _ _ => True
  | .utf8 _ _ => True
  | _ => False

/-- Before the first of the two texts. -/
def ColumnWorkerAt.BeforeTexts : ColumnWorkerAt → Prop
  | .sendUtf8 => False
  | .finish => False
  | .returned => False
  | _ => True

/-- The worker, the fields of `OCR` and what has happened. -/
structure ColumnThread where
  workerAt : ColumnWorkerAt
  mIsActivityAttached : Bool
  mStopped : Bool
  accuracy : ℤ
  hocrText : List Char
  htmlText : List Char
  trace : List OcrEvent
  deriving DecidableEq, Repr

namespace ColumnThread

/-- The worker goes on to its next place. -/
def goto (s : ColumnThread) (place : ColumnWorkerAt) : ColumnThread := { s with workerAt := place }

/-- `sendMessage`: nothing is sent if the recognition has been stopped, or
while no screen is attached. -/
def sendMessage (s : ColumnThread) (m : OcrMessage) : ColumnThread :=
  if s.mIsActivityAttached && !s.mStopped then { s with trace := s.trace ++ [.sent m] } else s

/-- A call of the screen has returned. -/
def record (s : ColumnThread) (call : ScreenOcrCall) : ColumnThread :=
  { s with trace := s.trace ++ [.returned call] }

/-- `cancel` sets the flag that the worker looks at before it goes on. -/
def cancel (s : ColumnThread) : ColumnThread := { s with mStopped := true }

/-- `onActivityDestroyed` detaches the screen and cancels. -/
def onActivityDestroyed (s : ColumnThread) : ColumnThread :=
  cancel { s with mIsActivityAttached := false }

/-- `onActivityResumed` attaches the screen again; what has been cancelled
stays so. -/
def onActivityResumed (s : ColumnThread) : ColumnThread := { s with mIsActivityAttached := true }

end ColumnThread

/-- The rectangle that is recognized for a column. -/
def columnRectangle (geometry : Box) : Box :=
  ⟨geometry.x - 15, geometry.y - 15, geometry.w + 30, geometry.h + 30⟩

/-- `Math.round` of the quotient; it is 0 where there are no columns. -/
def totalAccuracy (accuracy : ℤ) (columnCount : ℕ) : ℤ := ⌊(accuracy : ℚ) / columnCount + 1 / 2⌋

section Protocol

-- the columns, where `getGeometry` may fail, and what Tesseract reads in a rectangle
variable (columns : List (Option Box)) (tess : Box → Recognized)

/-- One step of the worker or of the screen, in any order.  While native code
runs it may call back any number of times. -/
inductive ColumnStep : ColumnThread → ColumnThread → Prop where
  /-- native code calls back -/
  | callback (s : ColumnThread) (c : Callback) (m : OcrMessage) (hnative : s.workerAt.InNative)
      (hm : c.message = some m) : ColumnStep s (s.sendMessage m)
  | combine (s : ColumnThread) (hat : s.workerAt = .combine) : ColumnStep s (s.goto .finalImage)
  | finalImage (s : ColumnThread) (hat : s.workerAt = .finalImage) :
      ColumnStep s ((s.sendMessage .finalImage).goto .explanation)
  | explanation (s : ColumnThread) (hat : s.workerAt = .explanation) :
      ColumnStep s ((s.sendMessage (.explanationText "progress_ocr")).goto .initTess)
  /-- Tesseract cannot be started -/
  | initFails (s : ColumnThread) (hat : s.workerAt = .initTess) :
      ColumnStep s ((s.sendMessage (.error "error_tess_init")).goto .finish)
  | initTess (s : ColumnThread) (hat : s.workerAt = .initTess) : ColumnStep s (s.goto .check)
  | check (s : ColumnThread) (hat : s.workerAt = .check) (hrun : s.mStopped = false) :
      ColumnStep s (s.goto (.loop 0))
  /-- the column has no geometry -/
  | skip (s : ColumnThread) (i : ℕ) (hat : s.workerAt = .loop i) (hi : columns[i]? = some none) :
      ColumnStep s (s.goto (.loop (i + 1)))
  | setRectangle (s : ColumnThread) (i : ℕ) (geometry : Box) (hat : s.workerAt = .loop i)
      (hi : columns[i]? = some (some geometry)) :
      ColumnStep s (s.goto (.beforeHocr i (columnRectangle geometry)))
  | beforeHocr (s : ColumnThread) (i : ℕ) (box : Box) (hat : s.workerAt = .beforeHocr i box)
      (hrun : s.mStopped = false) : ColumnStep s (s.goto (.hocr i box))
  | hocr (s : ColumnThread) (i : ℕ) (box : Box) (text : List Char) (hat : s.workerAt = .hocr i box)
      (htext : s.mStopped = false → text = (tess box).hocrText) :
      ColumnStep s ({ s with hocrText := s.hocrText ++ text }.goto (.beforeUtf8 i box))
  | beforeUtf8 (s : ColumnThread) (i : ℕ) (box : Box) (hat : s.workerAt = .beforeUtf8 i box)
      (hrun : s.mStopped = false) : ColumnStep s (s.goto (.utf8 i box))
  | utf8 (s : ColumnThread) (i : ℕ) (box : Box) (text : List Char) (confidence : ℤ)
      (hat : s.workerAt = .utf8 i box)
      (htext : s.mStopped = false →
        text = (tess box).utf8Text ∧ confidence = (tess box).meanConfidence) :
      ColumnStep s ({ s with
        htmlText := s.htmlText ++ text
        accuracy := s.accuracy + confidence }.goto (.loop (i + 1)))
  | loopEnd (s : ColumnThread) (i : ℕ) (hat : s.workerAt = .loop i) (hi : columns.length ≤ i) :
      ColumnStep s (s.goto .sendHocr)
  | sendHocr (s : ColumnThread) (hat : s.workerAt = .sendHocr) :
      ColumnStep s ((s.sendMessage (.hocrText s.hocrText
        (totalAccuracy s.accuracy columns.length))).goto .sendUtf8)
  | sendUtf8 (s : ColumnThread) (hat : s.workerAt = .sendUtf8) :
      ColumnStep s ((s.sendMessage (.utf8Text s.htmlText
        (totalAccuracy s.accuracy columns.length))).goto .finish)
  /-- a synchronized block finds the run stopped and returns -/
  | stopped (s : ColumnThread) (hstopped : s.mStopped = true)
      (hat : s.workerAt = .check ∨ (∃ i box, s.workerAt = .beforeHocr i box) ∨
        ∃ i box, s.workerAt = .beforeUtf8 i box) : ColumnStep s (s.goto .finish)
  /-- an exception; from the first text on there is nothing that throws -/
  | throws (s : ColumnThread) (hbefore : s.workerAt.BeforeTexts) : ColumnStep s (s.goto .finish)
  | finish (s : ColumnThread) (hat : s.workerAt = .finish) :
      ColumnStep s ((s.sendMessage .endMessage).goto .returned)
  | cancel (s : ColumnThread) : ColumnStep s (s.cancel.record .cancel)
  | destroyed (s : ColumnThread) :
      ColumnStep s (s.onActivityDestroyed.record .onActivityDestroyed)
  | resumed (s : ColumnThread) : ColumnStep s (s.onActivityResumed.record .onActivityResumed)

/-- The run starts. -/
def startColumns : ColumnThread := ⟨.combine, true, false, 0, [], [], []⟩

/-! ## The texts of the columns -/

/-- What is read in the first `k` columns. -/
def hocrUpTo (k : ℕ) : List Char :=
  (columns.take k).flatMap fun g => g.elim [] fun box => (tess (columnRectangle box)).hocrText

/-- The plain text of the first columns, as the code joins it. -/
def utf8UpTo (k : ℕ) : List Char :=
  (columns.take k).flatMap fun g => g.elim [] fun box => (tess (columnRectangle box)).utf8Text

/-- The sum of their confidences, from which the accuracy is computed. -/
def confidenceUpTo (k : ℕ) : ℤ :=
  ((columns.take k).map fun g =>
    g.elim 0 fun box => (tess (columnRectangle box)).meanConfidence).sum

/-- The two messages with the texts of all columns. -/
def columnTexts : List OcrMessage :=
  [.hocrText (hocrUpTo columns tess columns.length)
      (totalAccuracy (confidenceUpTo columns tess columns.length) columns.length),
    .utf8Text (utf8UpTo columns tess columns.length)
      (totalAccuracy (confidenceUpTo columns tess columns.length) columns.length)]

end Protocol

/-- A text among the messages. -/
def OcrEvent.asText : OcrEvent → Option OcrMessage
  | .sent (.hocrText text accuracy) => some (.hocrText text accuracy)
  | .sent (.utf8Text text accuracy) => some (.utf8Text text accuracy)
  | _ => none

/-- The texts that have been sent. -/
def textsOf (trace : List OcrEvent) : List OcrMessage := trace.filterMap OcrEvent.asText

@[simp] theorem textsOf_concat (trace : List OcrEvent) (e : OcrEvent) :
    textsOf (trace ++ [e]) = textsOf trace ++ e.asText.toList := by
  unfold textsOf
  rw [List.filterMap_append]
  cases h : e.asText <;> simp [h]

/-! ## The trace -/

/-- The order of the events, with what `mStopped` says about them. -/
structure Quiet (stopped : Bool) (trace : List OcrEvent) : Prop where
  silent : trace.Pairwise fun e later => e.Stops → ¬ later.IsSent
  running : stopped = false → ∀ e ∈ trace, ¬ e.Stops
  endLast : trace.Pairwise fun e later => e = .sent .endMessage → ¬ later.IsSent

/-- A message may be sent as long as nothing has stopped the worker and the
end has not been announced. -/
theorem Quiet.sent {trace : List OcrEvent} (h : Quiet false trace)
    (hend : .sent .endMessage ∉ trace) (m : OcrMessage) : Quiet false (trace ++ [.sent m]) := by
  have hopen := OpenTrace.concat ⟨h.silent, h.running rfl, h.endLast⟩ hend m
  exact ⟨hopen.silent, fun _ => hopen.running, hopen.endLast⟩

/-- A call of the screen may return at any time.  Only after one that stops
the worker has nothing more to be sent. -/
theorem Quiet.returned {stopped stopped' : Bool} {trace : List OcrEvent}
    (h : Quiet stopped trace) {call : ScreenOcrCall}
    (hstopped : stopped' = false → stopped = false ∧ ¬ (OcrEvent.returned call).Stops) :
    Quiet stopped' (trace ++ [.returned call]) where
  silent := pairwise_concat h.silent fun _ _ _ hsent => hsent
  running := by
    intro hrun
    obtain ⟨hbefore, hcall⟩ := hstopped hrun
    exact List.forall_mem_append.mpr ⟨h.running hbefore, by simpa using hcall⟩
  endLast := pairwise_concat h.endLast fun _ _ _ hsent => hsent

section Invariant

variable (columns : List (Option Box)) (tess : Box → Recognized)

/-- The texts of the first `k` columns in HOCR, and of the first `l` in UTF-8,
are read. -/
def ColumnThread.HasRead (s : ColumnThread) (k l : ℕ) : Prop :=
  s.hocrText = hocrUpTo columns tess k ∧ s.htmlText = utf8UpTo columns tess l ∧
    s.accuracy = confidenceUpTo columns tess l

/-- The rectangle is that of the column `i`. -/
def IsColumn (i : ℕ) (box : Box) : Prop :=
  ∃ geometry, columns[i]? = some (some geometry) ∧ box = columnRectangle geometry

/-- What a worker that has not been stopped has read. -/
def ReadAt (s : ColumnThread) : ColumnWorkerAt → Prop
  | .loop i => s.HasRead columns tess i i
  | .beforeHocr i box => IsColumn columns i box ∧ s.HasRead columns tess i i
  | .hocr i box => IsColumn columns i box ∧ s.HasRead columns tess i i
  | .beforeUtf8 i box => IsColumn columns i box ∧ s.HasRead columns tess (i + 1) i
  | .utf8 i box => IsColumn columns i box ∧ s.HasRead columns tess (i + 1) i
  | .sendHocr => s.HasRead columns tess columns.length columns.length
  | .sendUtf8 => s.HasRead columns tess columns.length columns.length
  | .finish => True
  | .returned => True
  | _ => s.HasRead columns tess 0 0

/-- What has been sent of the texts. -/
def TextsAt (stopped : Bool) (texts : List OcrMessage) : ColumnWorkerAt → Prop
  | .sendUtf8 =>
    texts = (columnTexts columns tess).take 1 ∨ (stopped = true ∧ texts = [])
  | .finish =>
    texts = [] ∨ texts = columnTexts columns tess ∨
      (stopped = true ∧ texts = (columnTexts columns tess).take 1)
  | .returned =>
    texts = [] ∨ texts = columnTexts columns tess ∨
      (stopped = true ∧ texts = (columnTexts columns tess).take 1)
  | _ => texts = []

/-- What holds at every moment of a run. -/
structure Reported (s : ColumnThread) : Prop where
  attached : s.mIsActivityAttached = false → s.mStopped = true
  quiet : Quiet s.mStopped s.trace
  noEnd : s.workerAt ≠ .returned → .sent .endMessage ∉ s.trace
  read : s.mStopped = false → ReadAt columns tess s s.workerAt
  texts : TextsAt columns tess s.mStopped (textsOf s.trace) s.workerAt
  ending : .sent .endMessage ∈ s.trace →
    textsOf s.trace = [] ∨ textsOf s.trace = columnTexts columns tess

variable {columns tess}

theorem reported_startColumns : Reported columns tess startColumns := by
  refine ⟨Bool.noConfusion, ⟨.nil, fun _ => ?_, .nil⟩, fun _ => ?_, fun _ => ⟨rfl, rfl, rfl⟩, rfl,
    fun h => ?_⟩
  · simp [startColumns]
  · simp [startColumns]
  · exact absurd h List.not_mem_nil

/-- A message is dropped only when the run is stopped: a screen that is not
attached has stopped it. -/
theorem Reported.sendMessage_cases {s : ColumnThread} (h : Reported columns tess s)
    (m : OcrMessage) :
    (s.mStopped = true ∧ s.sendMessage m = s) ∨
      (s.mStopped = false ∧ s.sendMessage m = { s with trace := s.trace ++ [.sent m] }) := by
  unfold ColumnThread.sendMessage
  cases hstopped : s.mStopped with
  | true => exact .inl ⟨rfl, if_neg (by simp)⟩
  | false =>
      have hattached : s.mIsActivityAttached = true := by
        by_contra hdetached
        have hstop := h.attached (Bool.eq_false_of_not_eq_true hdetached)
        rw [hstopped] at hstop
        exact Bool.noConfusion hstop
      exact .inr ⟨rfl, if_pos (by simp [hattached])⟩

/-- The worker moves on and sends nothing.  What it has read must still be
what the columns so far give. -/
theorem Reported.move {s t : ColumnThread} (h : Reported columns tess s)
    (hat : s.workerAt ≠ .returned) (hattached : t.mIsActivityAttached = s.mIsActivityAttached)
    (hstopped : t.mStopped = s.mStopped) (htrace : t.trace = s.trace)
    (hread : s.mStopped = false → ReadAt columns tess t t.workerAt)
    (htexts : TextsAt columns tess s.mStopped (textsOf s.trace) t.workerAt) :
    Reported columns tess t where
  attached := by
    rw [hattached, hstopped]
    exact h.attached
  quiet := by
    rw [hstopped, htrace]
    exact h.quiet
  noEnd := fun _ => htrace ▸ h.noEnd hat
  read := by
    rw [hstopped]
    exact hread
  texts := by
    rw [hstopped, htrace]
    exact htexts
  ending := by
    rw [htrace]
    exact h.ending

/-- The worker sends a message that is not the last one, and moves on. -/
theorem Reported.send {s t : ColumnThread} (h : Reported columns tess s)
    (hat : s.workerAt ≠ .returned) {m : OcrMessage} (hm : m ≠ .endMessage) {place : ColumnWorkerAt}
    (ht : t = (s.sendMessage m).goto place)
    (hread : s.mStopped = false → ReadAt columns tess s place)
    (hdropped : s.mStopped = true → TextsAt columns tess true (textsOf s.trace) place)
    (hsent : s.mStopped = false →
      TextsAt columns tess false (textsOf s.trace ++ (OcrEvent.sent m).asText.toList) place) :
    Reported columns tess t := by
  subst ht
  rcases h.sendMessage_cases m with ⟨hstopped, hsame⟩ | ⟨hrun, hnew⟩
  · rw [hsame]
    refine h.move hat rfl rfl rfl (fun hrun => ?_) ?_
    · rw [hstopped] at hrun
      exact Bool.noConfusion hrun
    · rw [hstopped]
      exact hdropped hstopped
  · have hquiet : Quiet false (s.trace ++ [.sent m]) := (hrun ▸ h.quiet).sent (h.noEnd hat) m
    have hend : .sent .endMessage ∉ s.trace ++ [.sent m] := by
      intro hmem
      rcases List.mem_append.mp hmem with hold | hlast
      · exact h.noEnd hat hold
      · exact hm (OcrEvent.sent.inj (List.mem_singleton.mp hlast)).symm
    rw [hnew]
    refine ⟨h.attached, hrun ▸ hquiet, fun _ => hend, hread, ?_, fun hmem => absurd hmem hend⟩
    change TextsAt columns tess s.mStopped (textsOf (s.trace ++ [.sent m])) place
    rw [textsOf_concat, hrun]
    exact hsent hrun

theorem take_succ_of_getElem? {i : ℕ} {g : Option Box} (h : columns[i]? = some g) :
    columns.take (i + 1) = columns.take i ++ [g] := by
  rw [List.take_add_one, h]
  rfl

/-- A column without geometry adds nothing. -/
theorem ColumnThread.HasRead.skip {s : ColumnThread} {i : ℕ} (h : s.HasRead columns tess i i)
    (hi : columns[i]? = some none) : s.HasRead columns tess (i + 1) (i + 1) := by
  obtain ⟨hhocr, hutf8, haccuracy⟩ := h
  refine ⟨?_, ?_, ?_⟩
  · rw [hhocr, hocrUpTo, hocrUpTo, take_succ_of_getElem? hi]
    simp
  · rw [hutf8, utf8UpTo, utf8UpTo, take_succ_of_getElem? hi]
    simp
  · rw [haccuracy, confidenceUpTo, confidenceUpTo, take_succ_of_getElem? hi]
    simp

/-- Reading the HOCR text of a column puts the HOCR text one column ahead of
the plain one. -/
theorem ColumnThread.HasRead.readHocr {s : ColumnThread} {i : ℕ} {box : Box}
    (h : s.HasRead columns tess i i) (hbox : IsColumn columns i box) {t : ColumnThread}
    (hhocr : t.hocrText = s.hocrText ++ (tess box).hocrText) (hhtml : t.htmlText = s.htmlText)
    (haccuracy : t.accuracy = s.accuracy) : t.HasRead columns tess (i + 1) i := by
  obtain ⟨geometry, hi, rfl⟩ := hbox
  refine ⟨?_, hhtml.trans h.2.1, haccuracy.trans h.2.2⟩
  rw [hhocr, h.1, hocrUpTo, hocrUpTo, take_succ_of_getElem? hi]
  simp

/-- Reading its plain text and its confidence levels the two again. -/
theorem ColumnThread.HasRead.readUtf8 {s : ColumnThread} {i : ℕ} {box : Box}
    (h : s.HasRead columns tess (i + 1) i) (hbox : IsColumn columns i box) {t : ColumnThread}
    (hhocr : t.hocrText = s.hocrText) (hhtml : t.htmlText = s.htmlText ++ (tess box).utf8Text)
    (haccuracy : t.accuracy = s.accuracy + (tess box).meanConfidence) :
    t.HasRead columns tess (i + 1) (i + 1) := by
  obtain ⟨geometry, hi, rfl⟩ := hbox
  refine ⟨hhocr.trans h.1, ?_, ?_⟩
  · rw [hhtml, h.2.1, utf8UpTo, utf8UpTo, take_succ_of_getElem? hi]
    simp
  · rw [haccuracy, h.2.2, confidenceUpTo, confidenceUpTo, take_succ_of_getElem? hi]
    simp

theorem ColumnThread.HasRead.all {s : ColumnThread} {i : ℕ} (h : s.HasRead columns tess i i)
    (hi : columns.length ≤ i) : s.HasRead columns tess columns.length columns.length := by
  have htake : columns.take i = columns.take columns.length := by
    rw [List.take_of_length_le hi, List.take_length]
  unfold ColumnThread.HasRead hocrUpTo utf8UpTo confidenceUpTo at h ⊢
  rwa [htake] at h

/-- Before the texts, none of them has been sent. -/
theorem TextsAt.before {place : ColumnWorkerAt} (hbefore : place.BeforeTexts) {stopped : Bool}
    {texts : List OcrMessage} : TextsAt columns tess stopped texts place ↔ texts = [] := by
  cases place <;> first | exact hbefore.elim | exact Iff.rfl

theorem ColumnWorkerAt.BeforeTexts.ne_returned {place : ColumnWorkerAt} (h : place.BeforeTexts) :
    place ≠ .returned := by
  intro hat
  rw [hat] at h
  exact h

/-- The worker moves on before the texts. -/
theorem Reported.moveBefore {s t : ColumnThread} (h : Reported columns tess s)
    (hbefore : s.workerAt.BeforeTexts) (hattached : t.mIsActivityAttached = s.mIsActivityAttached)
    (hstopped : t.mStopped = s.mStopped) (htrace : t.trace = s.trace)
    (hafter : t.workerAt.BeforeTexts ∨ t.workerAt = .finish)
    (hread : s.mStopped = false → ReadAt columns tess t t.workerAt) : Reported columns tess t := by
  have hnone := (TextsAt.before hbefore).mp h.texts
  refine h.move hbefore.ne_returned hattached hstopped htrace hread ?_
  rcases hafter with hafter | hfinish
  · exact (TextsAt.before hafter).mpr hnone
  · rw [hfinish]
    exact .inl hnone

/-- The worker sends a message that is no text, and moves on before the texts. -/
theorem Reported.sendBefore {s t : ColumnThread} (h : Reported columns tess s)
    (hbefore : s.workerAt.BeforeTexts) {m : OcrMessage} (hm : m ≠ .endMessage)
    (htext : (OcrEvent.sent m).asText = none) {place : ColumnWorkerAt}
    (ht : t = (s.sendMessage m).goto place) (hafter : place.BeforeTexts ∨ place = .finish)
    (hread : s.mStopped = false → ReadAt columns tess s place) : Reported columns tess t := by
  have hnone := (TextsAt.before hbefore).mp h.texts
  have hplace : ∀ stopped, TextsAt columns tess stopped (textsOf s.trace) place := by
    intro stopped
    rcases hafter with hafter | rfl
    · exact (TextsAt.before hafter).mpr hnone
    · exact .inl hnone
  refine h.send hbefore.ne_returned hm ht hread (fun _ => hplace true) fun _ => ?_
  rw [htext]
  simpa using hplace false

/-- Being stopped loosens what is asked of the texts, since a stopped worker
may leave them out. -/
theorem TextsAt.mono {stopped stopped' : Bool} (hmono : stopped = true → stopped' = true)
    {texts : List OcrMessage} {place : ColumnWorkerAt}
    (h : TextsAt columns tess stopped texts place) : TextsAt columns tess stopped' texts place := by
  cases place with
  | sendUtf8 => exact Or.imp_right (And.imp_left hmono) h
  | finish => exact Or.imp_right (Or.imp_right (And.imp_left hmono)) h
  | returned => exact Or.imp_right (Or.imp_right (And.imp_left hmono)) h
  | _ => exact h

/-- A call of the screen returns.  It may stop the run or attach the screen
again, but not resume what is stopped. -/
theorem Reported.returned {s : ColumnThread} (h : Reported columns tess s) (call : ScreenOcrCall)
    {attached stopped : Bool} (hattached : attached = false → stopped = true)
    (hmono : s.mStopped = true → stopped = true)
    (hcall : stopped = false → ¬ (OcrEvent.returned call).Stops) :
    Reported columns tess { s with
      mIsActivityAttached := attached
      mStopped := stopped
      trace := s.trace ++ [.returned call] } := by
  have hbefore : stopped = false → s.mStopped = false := by
    intro hrun
    by_contra hstop
    rw [hmono (Bool.eq_true_of_not_eq_false hstop)] at hrun
    exact Bool.noConfusion hrun
  have hend : .sent .endMessage ∈ s.trace ++ [.returned call] →
      OcrEvent.sent .endMessage ∈ s.trace := by
    intro hmem
    exact (List.mem_append.mp hmem).resolve_right (by simp)
  have htexts : textsOf (s.trace ++ [.returned call]) = textsOf s.trace := by
    rw [textsOf_concat]
    exact List.append_nil _
  refine ⟨hattached, h.quiet.returned fun hrun => ⟨hbefore hrun, hcall hrun⟩,
    fun hat hmem => h.noEnd hat (hend hmem), fun hrun => h.read (hbefore hrun), ?_, ?_⟩
  · rw [htexts]
    exact h.texts.mono hmono
  · intro hmem
    rw [htexts]
    exact h.ending (hend hmem)

/-- The last message, which is sent even after an error, unless the run has
been stopped. -/
theorem Reported.finish {s : ColumnThread} (h : Reported columns tess s)
    (hat : s.workerAt = .finish) :
    Reported columns tess ((s.sendMessage .endMessage).goto .returned) := by
  have hne : s.workerAt ≠ .returned := by
    rw [hat]
    exact ColumnWorkerAt.noConfusion
  have htexts := h.texts
  rw [hat] at htexts
  rcases h.sendMessage_cases .endMessage with ⟨_, hsame⟩ | ⟨hrun, hnew⟩
  · rw [hsame]
    exact h.move hne rfl rfl rfl (fun _ => trivial) htexts
  · have hquiet : Quiet false (s.trace ++ [.sent .endMessage]) :=
      (hrun ▸ h.quiet).sent (h.noEnd hne) .endMessage
    have hsame : textsOf (s.trace ++ [.sent .endMessage]) = textsOf s.trace := by
      rw [textsOf_concat]
      exact List.append_nil _
    rw [hnew]
    refine ⟨h.attached, hrun ▸ hquiet, fun hplace => absurd rfl hplace, fun _ => trivial, ?_,
      fun _ => ?_⟩
    · change TextsAt columns tess s.mStopped (textsOf (s.trace ++ [.sent .endMessage])) .returned
      rw [hsame]
      exact htexts
    · change textsOf (s.trace ++ [.sent .endMessage]) = [] ∨
        textsOf (s.trace ++ [.sent .endMessage]) = columnTexts columns tess
      rw [hsame]
      rcases htexts with hnone | hboth | ⟨hstopped, _⟩
      · exact .inl hnone
      · exact .inr hboth
      · rw [hrun] at hstopped
        exact Bool.noConfusion hstopped

theorem OcrEvent.asText_of_not_isResult {e : OcrEvent} (h : ¬ e.IsResult) : e.asText = none := by
  cases e with
  | returned call => rfl
  | sent m => cases m <;> first | rfl | exact absurd trivial h

theorem ColumnWorkerAt.InNative.beforeTexts {place : ColumnWorkerAt} (h : place.InNative) :
    place.BeforeTexts := by
  cases place <;> first | exact h.elim | exact trivial

/-- Native code reports its progress. -/
theorem Reported.callback {s : ColumnThread} (h : Reported columns tess s)
    (hnative : s.workerAt.InNative) {c : Callback} {m : OcrMessage} (hm : c.message = some m) :
    Reported columns tess (s.sendMessage m) := by
  obtain ⟨hresult, hend⟩ := Callback.message_progress hm
  have hstays : s.sendMessage m = (s.sendMessage m).goto s.workerAt := by
    unfold ColumnThread.sendMessage
    split_ifs <;> rfl
  exact h.sendBefore hnative.beforeTexts hend (OcrEvent.asText_of_not_isResult hresult) hstays
    (.inl hnative.beforeTexts) h.read

/-- The first text, with the accuracy over all columns.  If the run has been
stopped, neither text is sent. -/
theorem Reported.sendHocr {s : ColumnThread} (h : Reported columns tess s)
    (hat : s.workerAt = .sendHocr) :
    Reported columns tess ((s.sendMessage (.hocrText s.hocrText
      (totalAccuracy s.accuracy columns.length))).goto .sendUtf8) := by
  have hbefore : s.workerAt.BeforeTexts := by
    rw [hat]
    exact trivial
  have hnone := (TextsAt.before hbefore).mp h.texts
  have hread : s.mStopped = false → s.HasRead columns tess columns.length columns.length := by
    have hread := h.read
    rwa [hat] at hread
  refine h.send hbefore.ne_returned OcrMessage.noConfusion rfl hread (fun _ => .inr ⟨rfl, hnone⟩)
    fun hrun => .inl ?_
  obtain ⟨hhocr, _, haccuracy⟩ := hread hrun
  rw [hnone, hhocr, haccuracy]
  rfl

/-- The second text.  The run may have been stopped since the first one, which
then stays alone. -/
theorem Reported.sendUtf8 {s : ColumnThread} (h : Reported columns tess s)
    (hat : s.workerAt = .sendUtf8) :
    Reported columns tess ((s.sendMessage (.utf8Text s.htmlText
      (totalAccuracy s.accuracy columns.length))).goto .finish) := by
  have hne : s.workerAt ≠ .returned := by
    rw [hat]
    exact ColumnWorkerAt.noConfusion
  have htexts := h.texts
  have hread := h.read
  rw [hat] at htexts hread
  refine h.send hne OcrMessage.noConfusion rfl (fun _ => trivial) (fun _ => ?_) fun hrun => ?_
  · rcases htexts with hfirst | ⟨_, hnone⟩
    · exact .inr (.inr ⟨rfl, hfirst⟩)
    · exact .inl hnone
  · obtain ⟨_, hutf8, haccuracy⟩ := hread hrun
    rcases htexts with hfirst | ⟨hstopped, _⟩
    · refine .inr (.inl ?_)
      rw [hfirst, hutf8, haccuracy]
      rfl
    · rw [hrun] at hstopped
      exact Bool.noConfusion hstopped

/-- Every step keeps what holds of a run: one case for each step, by the lemma
for what it sends. -/
theorem Reported.step {s t : ColumnThread} (h : Reported columns tess s)
    (hstep : ColumnStep columns tess s t) : Reported columns tess t := by
  have hbefore : ∀ {place : ColumnWorkerAt}, s.workerAt = place → place.BeforeTexts →
      s.workerAt.BeforeTexts := fun hat hplace => hat ▸ hplace
  have hread : ∀ {place : ColumnWorkerAt}, s.workerAt = place → s.mStopped = false →
      ReadAt columns tess s place := fun hat hrun => hat ▸ h.read hrun
  cases hstep with
  | callback c m hnative hm => exact h.callback hnative hm
  | combine hat =>
      exact h.moveBefore (hbefore hat trivial) rfl rfl rfl (.inl trivial) (hread hat)
  | finalImage hat =>
      exact h.sendBefore (m := .finalImage) (hbefore hat trivial) OcrMessage.noConfusion rfl rfl
        (.inl trivial) fun hrun => show ReadAt columns tess s .finalImage from hread hat hrun
  | explanation hat =>
      exact h.sendBefore (m := .explanationText "progress_ocr") (hbefore hat trivial)
        OcrMessage.noConfusion rfl rfl (.inl trivial)
        fun hrun => show ReadAt columns tess s .explanation from hread hat hrun
  | initFails hat =>
      exact h.sendBefore (m := .error "error_tess_init") (hbefore hat trivial)
        OcrMessage.noConfusion rfl rfl (.inr rfl) fun _ => trivial
  | initTess hat =>
      exact h.moveBefore (hbefore hat trivial) rfl rfl rfl (.inl trivial) (hread hat)
  | check hat hrun =>
      exact h.moveBefore (hbefore hat trivial) rfl rfl rfl (.inl trivial) (hread hat)
  | skip i hat hi =>
      exact h.moveBefore (hbefore hat trivial) rfl rfl rfl (.inl trivial)
        fun hrun => (hread hat hrun).skip hi
  | setRectangle i geometry hat hi =>
      exact h.moveBefore (hbefore hat trivial) rfl rfl rfl (.inl trivial)
        fun hrun => ⟨⟨geometry, hi, rfl⟩, hread hat hrun⟩
  | beforeHocr i box hat hrun =>
      exact h.moveBefore (hbefore hat trivial) rfl rfl rfl (.inl trivial) (hread hat)
  | hocr i box text hat htext =>
      refine h.moveBefore (hbefore hat trivial) rfl rfl rfl (.inl trivial) fun hrun => ?_
      obtain ⟨hbox, hold⟩ := hread hat hrun
      obtain rfl := htext hrun
      exact ⟨hbox, hold.readHocr hbox rfl rfl rfl⟩
  | beforeUtf8 i box hat hrun =>
      exact h.moveBefore (hbefore hat trivial) rfl rfl rfl (.inl trivial) (hread hat)
  | utf8 i box text confidence hat htext =>
      refine h.moveBefore (hbefore hat trivial) rfl rfl rfl (.inl trivial) fun hrun => ?_
      obtain ⟨hbox, hold⟩ := hread hat hrun
      obtain ⟨rfl, rfl⟩ := htext hrun
      exact hold.readUtf8 hbox rfl rfl rfl
  | loopEnd i hat hi =>
      exact h.moveBefore (hbefore hat trivial) rfl rfl rfl (.inl trivial)
        fun hrun => (hread hat hrun).all hi
  | sendHocr hat => exact h.sendHocr hat
  | sendUtf8 hat => exact h.sendUtf8 hat
  | stopped hstopped hat =>
      have hplace : s.workerAt.BeforeTexts := by
        rcases hat with hat | ⟨i, box, hat⟩ | ⟨i, box, hat⟩ <;> exact hbefore hat trivial
      exact h.moveBefore hplace rfl rfl rfl (.inr rfl) fun _ => trivial
  | throws hplace => exact h.moveBefore hplace rfl rfl rfl (.inr rfl) fun _ => trivial
  | finish hat => exact h.finish hat
  | cancel => exact h.returned .cancel (fun _ => rfl) (fun _ => rfl) Bool.noConfusion
  | destroyed =>
      exact h.returned .onActivityDestroyed (fun _ => rfl) (fun _ => rfl) Bool.noConfusion
  | resumed =>
      exact h.returned .onActivityResumed Bool.noConfusion id fun _ hstops => hstops

/-- The invariant holds in every state of every interleaving, by induction on
the run. -/
theorem Reported.of_run {s : ColumnThread}
    (hrun : Relation.ReflTransGen (ColumnStep columns tess) startColumns s) :
    Reported columns tess s :=
  invariant_of_steps (fun _ _ h hstep => h.step hstep) hrun reported_startColumns

/-- What has been sent is an initial part of the two texts, wherever the
worker stands. -/
theorem TextsAt.isPrefix {stopped : Bool} {texts : List OcrMessage} {place : ColumnWorkerAt}
    (h : TextsAt columns tess stopped texts place) : texts <+: columnTexts columns tess := by
  have hnone : ([] : List OcrMessage) <+: columnTexts columns tess := List.nil_prefix
  have hfirst : (columnTexts columns tess).take 1 <+: columnTexts columns tess :=
    List.take_prefix _ _
  have hend : texts = [] ∨ texts = columnTexts columns tess ∨
      (stopped = true ∧ texts = (columnTexts columns tess).take 1) →
      texts <+: columnTexts columns tess := by
    rintro (rfl | rfl | ⟨_, rfl⟩)
    · exact hnone
    · exact List.prefix_refl _
    · exact hfirst
  cases place with
  | sendUtf8 =>
      rcases h with rfl | ⟨_, rfl⟩
      · exact hfirst
      · exact hnone
  | finish => exact hend h
  | returned => exact hend h
  | _ => exact (show texts = [] from h) ▸ hnone

end Invariant

/-- **The messages of a run over columns.**  Whatever the columns, and in
every order of the worker's and the screen's steps: no message follows a call
of `cancel` or `onActivityDestroyed` that has returned; the texts sent are an
initial part of the HOCR and the UTF-8 text of all columns, with their
accuracy; and the last message is sent at most once, with no message after it,
and only after both texts or neither. -/
theorem columnOcr_protocol {columns : List (Option Box)} {tess : Box → Recognized}
    {s : ColumnThread}
    (hrun : Relation.ReflTransGen (ColumnStep columns tess) startColumns s) :
    (s.trace.Pairwise fun e later => e.Stops → ¬ later.IsSent) ∧
    textsOf s.trace <+: columnTexts columns tess ∧
    s.trace.count (.sent .endMessage) ≤ 1 ∧
    (s.trace.Pairwise fun e later => e = .sent .endMessage → ¬ later.IsSent) ∧
    (.sent .endMessage ∈ s.trace →
      textsOf s.trace = [] ∨ textsOf s.trace = columnTexts columns tess) := by
  have hreported := Reported.of_run hrun
  refine ⟨hreported.quiet.silent, hreported.texts.isPrefix, ?_, hreported.quiet.endLast,
    hreported.ending⟩
  refine count_le_one_of_pairwise (hreported.quiet.endLast.imp ?_)
  intro e later hlast he hlater
  rw [hlater] at hlast
  exact hlast he trivial

/-- Two columns, the second without geometry, and a call of `cancel` between
the texts. -/
theorem columnOcr_protocol_cancel :
    ∃ s : ColumnThread, s.trace = [.sent .finalImage, .sent (.explanationText "progress_ocr"),
        .sent (.hocrText ['a'] (totalAccuracy 80 2)), .returned .cancel] ∧
      textsOf s.trace <+:
        columnTexts [some ⟨20, 20, 10, 10⟩, none] fun _ => ⟨['a'], ['b'], 80⟩ := by
  have h2 := (Relation.ReflTransGen.single
    (show ColumnStep [some ⟨20, 20, 10, 10⟩, none] (fun _ => ⟨['a'], ['b'], 80⟩) startColumns _ from
      .combine _ rfl)).tail (.finalImage _ rfl)
  have h5 := ((h2.tail (.explanation _ rfl)).tail (.initTess _ rfl)).tail (.check _ rfl rfl)
  have h7 := (h5.tail (.setRectangle _ 0 _ rfl rfl)).tail (.beforeHocr _ 0 _ rfl rfl)
  have h9 := (h7.tail (.hocr _ 0 _ _ rfl fun _ => rfl)).tail (.beforeUtf8 _ 0 _ rfl rfl)
  have h11 := (h9.tail (.utf8 _ 0 _ _ _ rfl fun _ => ⟨rfl, rfl⟩)).tail (.skip _ 1 rfl rfl)
  have h13 := (h11.tail (.loopEnd _ 2 rfl (by decide))).tail (.sendHocr _ rfl)
  have h15 := (h13.tail (.cancel _)).tail (.sendUtf8 _ rfl)
  obtain ⟨_, hprefix, _⟩ := columnOcr_protocol h15
  exact ⟨_, rfl, hprefix⟩

end CardScanner
