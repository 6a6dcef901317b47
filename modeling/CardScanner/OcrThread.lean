import CardScanner.Machine
import CardScanner.UnAccent

/-!
# The recognition thread and the screen

`startOCRForSimpleLayout` runs on a thread of its own and reports to the screen
by messages; the screen may cancel it, be destroyed and be resumed at any time.
`sendMessage`, the screen's calls and the blocks that look at `mStopped` are
synchronized, so each of them is one step.  What Tesseract and the image library
return is arbitrary, and so is the place where the worker fails with an
exception.  Calls on `mTess` have no effect on the messages and are left out.

The trace lists the messages sent and the screen's calls that have returned.
Every step extends it at its end, and nothing resets `mStopped`; so no message
follows a call that sets it.  The texts are sent by one step, which the worker
takes at most once, and the last message by one that ends it (`Sound.step`).
-/

namespace CardScanner

open Machine

/-! ## Messages -/

/-- The messages to the screen, with the percentage, the name of the text's
resource, or the text and the accuracy; images and rectangles are left out. -/
inductive OcrMessage where
  | previewImage
  | layoutPix
  | tesseractProgress (percent : ℤ)
  | explanationText (text : String)
  | finalImage
  | error (text : String)
  | hocrText (text : List Char) (accuracy : ℤ)
  | utf8Text (text : List Char) (accuracy : ℤ)
  | endMessage
  deriving DecidableEq, Repr

/-- The screen's calls. -/
inductive ScreenOcrCall where
  | cancel
  | onActivityDestroyed
  | onActivityResumed
  deriving DecidableEq, Repr

/-- What happens in a run: a message is sent, or a call returns. -/
inductive OcrEvent where
  | sent (message : OcrMessage)
  | returned (call : ScreenOcrCall)
  deriving DecidableEq, Repr

/-! ## The worker -/

/-- Where the worker stands.  The loop's positions carry the index that its
counter has. -/
inductive WorkerAt where
  /-- in `nativeOCRBook` -/
  | ocrBook
  | explanation
  | finalImage
  /-- before the first synchronized block -/
  | initTess
  | meanConfidence
  /-- at the head of the loop -/
  | loop (i : ℕ)
  | beforeHocr (i : ℕ)
  | hocr (i : ℕ)
  | beforeHtml (i : ℕ)
  | html (i : ℕ)
  /-- before the last synchronized block -/
  | results
  /-- in the `finally` block, before the last message -/
  | finish
  | returned
  deriving DecidableEq, Repr

/-- The `try` block. -/
def WorkerAt.InTry : WorkerAt → Prop
  | .finish => False
  | .returned => False
  | _ => True

/-- Inside native code that reports its progress. -/
def WorkerAt.InNative : WorkerAt → Prop
  | .ocrBook => True
  | .meanConfidence => True
  | .hocr _ => True
  | .html _ => True
  | _ => False

/-- A call back from native code; an image may turn out not to be writable. -/
inductive Callback where
  | onProgressImage (written : Bool)
  | onProgressText (id : ℤ)
  | onProgressValues (percent : ℤ)
  | onLayoutPix (written : Bool)
  deriving DecidableEq, Repr

/-- The message it sends. -/
def Callback.message : Callback → Option OcrMessage
  | .onProgressImage written => if written then some .previewImage else none
  | .onProgressText id =>
    if id = 0 then some (.explanationText "progress_image_detection")
    else if id = 1 then some (.explanationText "progress_dewarp")
    else if id = 2 then some (.explanationText "progress_ocr")
    else if id = 3 then some (.explanationText "progress_assemble_pix")
    else if id = 4 then some (.explanationText "progress_analyse_layout")
    else none
  | .onProgressValues percent => some (.tesseractProgress percent)
  | .onLayoutPix written => some (if written then .layoutPix else .error "error_title")

/-- The worker, the fields of `OCR` and what has happened. -/
structure OcrThread where
  workerAt : WorkerAt
  mIsActivityAttached : Bool
  mStopped : Bool
  accuracy : ℤ
  hocrText : List Char
  htmlText : List Char
  trace : List OcrEvent
  deriving DecidableEq, Repr

namespace OcrThread

/-- The worker goes on to its next place. -/
def goto (s : OcrThread) (place : WorkerAt) : OcrThread := { s with workerAt := place }

/-- `sendMessage`: nothing is sent if the recognition has been stopped, or
while no screen is attached. -/
def sendMessage (s : OcrThread) (m : OcrMessage) : OcrThread :=
  if s.mIsActivityAttached && !s.mStopped then { s with trace := s.trace ++ [.sent m] } else s

/-- A call of the screen has returned. -/
def record (s : OcrThread) (call : ScreenOcrCall) : OcrThread :=
  { s with trace := s.trace ++ [.returned call] }

/-- `cancel` sets the flag that the worker looks at before it goes on. -/
def cancel (s : OcrThread) : OcrThread := { s with mStopped := true }

/-- `onActivityDestroyed` detaches the screen and cancels. -/
def onActivityDestroyed (s : OcrThread) : OcrThread :=
  cancel { s with mIsActivityAttached := false }

/-- `onActivityResumed` attaches the screen again; what has been cancelled
stays so. -/
def onActivityResumed (s : OcrThread) : OcrThread := { s with mIsActivityAttached := true }

/-- The last synchronized block, when not stopped. -/
def sendResults (s : OcrThread) : OcrThread :=
  let accuracy := if s.accuracy = 95 then 0 else s.accuracy
  (s.sendMessage (.hocrText s.hocrText accuracy)).sendMessage (.utf8Text s.htmlText accuracy)

end OcrThread

/-- One step of the worker or of the screen, in any order.  While native code
runs it may call back any number of times. -/
inductive OcrStep (u : UnicodeData) (listPoints : List ℤ) : OcrThread → OcrThread → Prop where
  /-- native code calls back -/
  | callback (s : OcrThread) (c : Callback) (m : OcrMessage) (hnative : s.workerAt.InNative)
      (hm : c.message = some m) : OcrStep u listPoints s (s.sendMessage m)
  | ocrBook (s : OcrThread) (hat : s.workerAt = .ocrBook) :
      OcrStep u listPoints s (s.goto .explanation)
  | explanation (s : OcrThread) (hat : s.workerAt = .explanation) :
      OcrStep u listPoints s ((s.sendMessage (.explanationText "progress_ocr")).goto .finalImage)
  | finalImage (s : OcrThread) (hat : s.workerAt = .finalImage) :
      OcrStep u listPoints s ((s.sendMessage .finalImage).goto .initTess)
  /-- Tesseract cannot be started -/
  | initFails (s : OcrThread) (hat : s.workerAt = .initTess) (hrun : s.mStopped = false) :
      OcrStep u listPoints s ((s.sendMessage (.error "error_tess_init")).goto .finish)
  | initTess (s : OcrThread) (hat : s.workerAt = .initTess) (hrun : s.mStopped = false) :
      OcrStep u listPoints s (s.goto .meanConfidence)
  | meanConfidence (s : OcrThread) (accuracy : ℤ) (hat : s.workerAt = .meanConfidence) :
      OcrStep u listPoints s ({ s with accuracy := accuracy }.goto (.loop 0))
  /-- the four numbers of the next rectangle are read -/
  | setRectangle (s : OcrThread) (i : ℕ) (hat : s.workerAt = .loop i)
      (hi : i + 3 < listPoints.length) : OcrStep u listPoints s (s.goto (.beforeHocr i))
  | beforeHocr (s : OcrThread) (i : ℕ) (hat : s.workerAt = .beforeHocr i)
      (hrun : s.mStopped = false) : OcrStep u listPoints s (s.goto (.hocr i))
  | hocr (s : OcrThread) (i : ℕ) (text : List Char) (hat : s.workerAt = .hocr i) :
      OcrStep u listPoints s
        ({ s with hocrText := s.hocrText ++ text }.goto (.beforeHtml i))
  | beforeHtml (s : OcrThread) (i : ℕ) (hat : s.workerAt = .beforeHtml i)
      (hrun : s.mStopped = false) : OcrStep u listPoints s (s.goto (.html i))
  | html (s : OcrThread) (i : ℕ) (text : List Char) (hat : s.workerAt = .html i) :
      OcrStep u listPoints s ({ s with htmlText := s.htmlText ++ text }.goto (.loop (i + 4)))
  | loopEnd (s : OcrThread) (i : ℕ) (hat : s.workerAt = .loop i) (hi : listPoints.length ≤ i) :
      OcrStep u listPoints s
        ({ s with htmlText := unAccent u (rawOutput s.htmlText) }.goto .results)
  | results (s : OcrThread) (hat : s.workerAt = .results) (hrun : s.mStopped = false) :
      OcrStep u listPoints s (s.sendResults.goto .finish)
  /-- a synchronized block finds the run stopped and returns -/
  | stopped (s : OcrThread) (hstopped : s.mStopped = true)
      (hat : s.workerAt = .initTess ∨ (∃ i, s.workerAt = .beforeHocr i) ∨
        (∃ i, s.workerAt = .beforeHtml i) ∨ s.workerAt = .results) :
      OcrStep u listPoints s (s.goto .finish)
  /-- an exception, such as an incomplete last rectangle -/
  | throws (s : OcrThread) (htry : s.workerAt.InTry) : OcrStep u listPoints s (s.goto .finish)
  | finish (s : OcrThread) (hat : s.workerAt = .finish) :
      OcrStep u listPoints s ((s.sendMessage .endMessage).goto .returned)
  | cancel (s : OcrThread) : OcrStep u listPoints s (s.cancel.record .cancel)
  | destroyed (s : OcrThread) :
      OcrStep u listPoints s (s.onActivityDestroyed.record .onActivityDestroyed)
  | resumed (s : OcrThread) :
      OcrStep u listPoints s (s.onActivityResumed.record .onActivityResumed)

/-- The run starts. -/
def startOcr : OcrThread := ⟨.ocrBook, true, false, 0, [], [], []⟩

/-! ## The protocol -/

namespace OcrEvent

/-- An event is a message that was sent. -/
def IsSent : OcrEvent → Prop
  | .sent _ => True
  | .returned _ => False

/-- A call after which the screen wants no more messages. -/
def Stops : OcrEvent → Prop
  | .returned .cancel => True
  | .returned .onActivityDestroyed => True
  | _ => False

/-- One of the two texts is sent. -/
def IsResult : OcrEvent → Prop
  | .sent (.hocrText _ _) => True
  | .sent (.utf8Text _ _) => True
  | _ => False

end OcrEvent

/-- No text is sent, or both are, once and one right after the other. -/
def ResultsTogether (trace : List OcrEvent) : Prop :=
  (∀ e ∈ trace, ¬ e.IsResult) ∨ ∃ before after text text' accuracy,
    trace = before ++ .sent (.hocrText text accuracy) :: .sent (.utf8Text text' accuracy) :: after ∧
    (∀ e ∈ before, ¬ e.IsResult) ∧ ∀ e ∈ after, ¬ e.IsResult

theorem ResultsTogether.append {trace : List OcrEvent} (h : ResultsTogether trace) {e : OcrEvent}
    (he : ¬ e.IsResult) : ResultsTogether (trace ++ [e]) := by
  rcases h with hnone | ⟨before, after, text, text', accuracy, rfl, hbefore, hafter⟩
  · refine Or.inl (List.forall_mem_append.mpr ⟨hnone, ?_⟩)
    simpa using he
  · refine Or.inr ⟨before, after ++ [e], text, text', accuracy, by simp, hbefore, ?_⟩
    exact List.forall_mem_append.mpr ⟨hafter, by simpa using he⟩

/-- What holds of the trace at every moment, with what the worker's place and
`mStopped` say about it. -/
structure Sound (s : OcrThread) : Prop where
  silent : s.trace.Pairwise fun e later => e.Stops → ¬ later.IsSent
  running : s.mStopped = false → ∀ e ∈ s.trace, ¬ e.Stops
  endLast : s.trace.Pairwise fun e later => e = .sent .endMessage → ¬ later.IsSent
  noEnd : s.workerAt ≠ .returned → .sent .endMessage ∉ s.trace
  noResults : s.workerAt.InTry → ∀ e ∈ s.trace, ¬ e.IsResult
  results : ResultsTogether s.trace

theorem sound_startOcr : Sound startOcr := by
  constructor <;> simp [startOcr, ResultsTogether]

/-- One more event in a trace in which no earlier one forbids it. -/
theorem pairwise_concat {α : Type*} {R : α → α → Prop} {l : List α} {a : α}
    (h : l.Pairwise R) (ha : ∀ b ∈ l, R b a) : (l ++ [a]).Pairwise R := by
  refine List.pairwise_append.mpr ⟨h, List.pairwise_singleton _ _, ?_⟩
  intro b hb c hc
  rw [List.mem_singleton.mp hc]
  exact ha b hb

/-- A trace in which nothing forbids another message. -/
structure OpenTrace (trace : List OcrEvent) : Prop where
  silent : trace.Pairwise fun e later => e.Stops → ¬ later.IsSent
  running : ∀ e ∈ trace, ¬ e.Stops
  endLast : trace.Pairwise fun e later => e = .sent .endMessage → ¬ later.IsSent

/-- One more message. -/
theorem OpenTrace.concat {trace : List OcrEvent} (h : OpenTrace trace)
    (hend : .sent .endMessage ∉ trace) (m : OcrMessage) : OpenTrace (trace ++ [.sent m]) where
  silent := pairwise_concat h.silent fun e he hstop => absurd hstop (h.running e he)
  running := List.forall_mem_append.mpr ⟨h.running, by simp [OcrEvent.Stops]⟩
  endLast := pairwise_concat h.endLast fun e he heq => absurd (heq ▸ he) hend

variable {s t : OcrThread}

/-- A message is sent while the activity is attached and nothing has stopped
the worker. -/
theorem OcrThread.sendMessage_open (h : (s.mIsActivityAttached && !s.mStopped) = true)
    (m : OcrMessage) : s.sendMessage m = { s with trace := s.trace ++ [.sent m] } := if_pos h

theorem OcrThread.sendMessage_closed (h : ¬ (s.mIsActivityAttached && !s.mStopped) = true)
    (m : OcrMessage) : s.sendMessage m = s := if_neg h

theorem OcrThread.not_stopped (h : (s.mIsActivityAttached && !s.mStopped) = true) :
    s.mStopped = false := by
  rw [Bool.and_eq_true, Bool.not_eq_true'] at h
  exact h.2

theorem Sound.openTrace (h : Sound s) (hrun : s.mStopped = false) : OpenTrace s.trace :=
  ⟨h.silent, h.running hrun, h.endLast⟩

theorem WorkerAt.InTry.ne_returned {place : WorkerAt} (h : place.InTry) : place ≠ .returned := by
  rintro rfl
  exact h

/-- The worker moves on and sends nothing. -/
theorem Sound.move (h : Sound s) (htry : s.workerAt.InTry) (htrace : t.trace = s.trace)
    (hstopped : t.mStopped = s.mStopped) : Sound t where
  silent := htrace ▸ h.silent
  running := by
    rw [htrace, hstopped]
    exact h.running
  endLast := htrace ▸ h.endLast
  noEnd := fun _ => htrace ▸ h.noEnd htry.ne_returned
  noResults := fun _ => htrace ▸ h.noResults htry
  results := htrace ▸ h.results

/-- A message that is neither a text nor the last one may be sent, or dropped,
wherever the worker is. -/
theorem Sound.sendMessage (h : Sound s) (hat : s.workerAt ≠ .returned) {m : OcrMessage}
    (hresult : ¬ (OcrEvent.sent m).IsResult) (hend : m ≠ .endMessage) :
    Sound (s.sendMessage m) := by
  by_cases hsend : (s.mIsActivityAttached && !s.mStopped) = true
  · have hopen := (h.openTrace (OcrThread.not_stopped hsend)).concat (h.noEnd hat) m
    rw [OcrThread.sendMessage_open hsend]
    refine ⟨hopen.silent, fun _ => hopen.running, hopen.endLast, ?_, ?_, h.results.append hresult⟩
    · intro _ hmem
      rcases List.mem_append.mp hmem with hold | hnew
      · exact h.noEnd hat hold
      · exact hend (OcrEvent.sent.inj (List.mem_singleton.mp hnew)).symm
    · intro htry
      exact List.forall_mem_append.mpr ⟨h.noResults htry, by simpa using hresult⟩
  · rw [OcrThread.sendMessage_closed hsend]
    exact h

/-- A call of the screen returns.  If it stops the recognition, nothing may be
sent from then on, and nothing is. -/
theorem Sound.returned (h : Sound s) {call : ScreenOcrCall}
    (htrace : t.trace = s.trace ++ [.returned call]) (hat : t.workerAt = s.workerAt)
    (hstopped : t.mStopped = false → s.mStopped = false ∧ ¬ (OcrEvent.returned call).Stops) :
    Sound t := by
  have hquiet : ¬ (OcrEvent.returned call).IsSent := fun hsent => hsent
  have hresult : ¬ (OcrEvent.returned call).IsResult := fun hresult => hresult
  constructor
  · rw [htrace]
    exact pairwise_concat h.silent fun _ _ _ => hquiet
  · intro hrun
    obtain ⟨hbefore, hcall⟩ := hstopped hrun
    rw [htrace]
    exact List.forall_mem_append.mpr ⟨h.running hbefore, by simpa using hcall⟩
  · rw [htrace]
    exact pairwise_concat h.endLast fun _ _ _ => hquiet
  · intro hplace hmem
    rw [htrace] at hmem
    rcases List.mem_append.mp hmem with hold | hnew
    · exact h.noEnd (hat ▸ hplace) hold
    · cases List.mem_singleton.mp hnew
  · intro htry
    rw [htrace]
    exact List.forall_mem_append.mpr ⟨h.noResults (hat ▸ htry), by simpa using hresult⟩
  · rw [htrace]
    exact h.results.append hresult

/-- What the last synchronized block adds to the trace: nothing, or both
texts. -/
theorem sendResults_trace (s : OcrThread) :
    s.sendResults.mStopped = s.mStopped ∧
    (s.sendResults.trace = s.trace ∨ (s.mStopped = false ∧ ∃ text text' accuracy,
      s.sendResults.trace = s.trace ++
        [.sent (.hocrText text accuracy), .sent (.utf8Text text' accuracy)])) := by
  obtain ⟨accuracy, hresults⟩ : ∃ accuracy, s.sendResults =
      (s.sendMessage (.hocrText s.hocrText accuracy)).sendMessage
        (.utf8Text s.htmlText accuracy) := ⟨_, rfl⟩
  rw [hresults]
  by_cases hsend : (s.mIsActivityAttached && !s.mStopped) = true
  · rw [OcrThread.sendMessage_open hsend (.hocrText s.hocrText accuracy)]
    have hsecond := OcrThread.sendMessage_open
      (s := { s with trace := s.trace ++ [.sent (.hocrText s.hocrText accuracy)] })
      hsend (.utf8Text s.htmlText accuracy)
    rw [hsecond]
    have hrun := OcrThread.not_stopped hsend
    exact ⟨rfl, Or.inr ⟨hrun, s.hocrText, s.htmlText, accuracy, List.append_assoc _ _ _⟩⟩
  · rw [OcrThread.sendMessage_closed hsend, OcrThread.sendMessage_closed hsend]
    exact ⟨rfl, Or.inl rfl⟩

/-- The last synchronized block: it sends both texts, or none if the
recognition has been stopped. -/
theorem Sound.sendResults (h : Sound s) (htry : s.workerAt.InTry) :
    Sound (s.sendResults.goto .finish) := by
  obtain ⟨hstopped, hsame | ⟨hrun, text, text', accuracy, htrace⟩⟩ := sendResults_trace s
  · exact h.move htry hsame hstopped
  · have hend := h.noEnd htry.ne_returned
    have hfirst := (h.openTrace hrun).concat hend (.hocrText text accuracy)
    have hboth := hfirst.concat (by simp [hend]) (.utf8Text text' accuracy)
    have hnew : (s.sendResults.goto .finish).trace =
        (s.trace ++ [.sent (.hocrText text accuracy)]) ++ [.sent (.utf8Text text' accuracy)] := by
      rw [List.append_assoc]
      exact htrace
    rw [← hnew] at hboth
    refine ⟨hboth.silent, fun _ => hboth.running, hboth.endLast, ?_, fun htry => htry.elim, ?_⟩
    · intro _
      rw [hnew]
      simp [hend]
    · exact Or.inr ⟨s.trace, [], text, text', accuracy, htrace, h.noResults htry,
        fun e he => absurd he List.not_mem_nil⟩

/-- The last message. -/
theorem Sound.finish (h : Sound s) (hat : s.workerAt = .finish) :
    Sound ((s.sendMessage .endMessage).goto .returned) := by
  by_cases hsend : (s.mIsActivityAttached && !s.mStopped) = true
  · have hend : .sent .endMessage ∉ s.trace := h.noEnd (by rw [hat]; exact WorkerAt.noConfusion)
    have hopen := (h.openTrace (OcrThread.not_stopped hsend)).concat hend .endMessage
    rw [OcrThread.sendMessage_open hsend]
    exact ⟨hopen.silent, fun _ => hopen.running, hopen.endLast, fun hplace => absurd rfl hplace,
      fun htry => htry.elim, h.results.append fun hresult => hresult⟩
  · rw [OcrThread.sendMessage_closed hsend]
    exact ⟨h.silent, h.running, h.endLast, fun hplace => absurd rfl hplace,
      fun htry => htry.elim, h.results⟩

/-- Native code reports progress and errors only, so none of its messages is a
result or the last one. -/
theorem Callback.message_progress {c : Callback} {m : OcrMessage} (h : c.message = some m) :
    ¬ (OcrEvent.sent m).IsResult ∧ m ≠ .endMessage := by
  cases c with
  | onProgressImage written =>
      cases written with
      | false => cases h
      | true =>
          cases h
          exact ⟨fun hresult => hresult, OcrMessage.noConfusion⟩
  | onProgressText id =>
      have htext : ∃ text, m = .explanationText text := by
        simp only [Callback.message] at h
        split_ifs at h <;> exact ⟨_, (Option.some.inj h).symm⟩
      obtain ⟨text, rfl⟩ := htext
      exact ⟨fun hresult => hresult, OcrMessage.noConfusion⟩
  | onProgressValues percent =>
      cases h
      exact ⟨fun hresult => hresult, OcrMessage.noConfusion⟩
  | onLayoutPix written =>
      cases written with
      | false =>
          cases h
          exact ⟨fun hresult => hresult, OcrMessage.noConfusion⟩
      | true =>
          cases h
          exact ⟨fun hresult => hresult, OcrMessage.noConfusion⟩

theorem WorkerAt.InNative.inTry {place : WorkerAt} (h : place.InNative) : place.InTry := by
  cases place <;> first | exact h.elim | exact trivial

@[simp] theorem OcrThread.sendMessage_workerAt (s : OcrThread) (m : OcrMessage) :
    (s.sendMessage m).workerAt = s.workerAt := by
  unfold OcrThread.sendMessage
  split_ifs <;> rfl

/-- The worker sends a message that is neither a text nor the last one, and
moves on. -/
theorem Sound.sendThenMove (h : Sound s) (htry : s.workerAt.InTry) {m : OcrMessage}
    (hresult : ¬ (OcrEvent.sent m).IsResult) (hend : m ≠ .endMessage) (place : WorkerAt) :
    Sound ((s.sendMessage m).goto place) := by
  have hsent := h.sendMessage htry.ne_returned hresult hend
  exact hsent.move (by rwa [OcrThread.sendMessage_workerAt]) rfl rfl

/-- Every step keeps the trace sound.  Most of them only move the worker, or
send one message that is no result. -/
theorem Sound.step {u : UnicodeData} {listPoints : List ℤ} (h : Sound s)
    (hstep : OcrStep u listPoints s t) : Sound t := by
  have htry : ∀ {place : WorkerAt}, s.workerAt = place → place.InTry → s.workerAt.InTry :=
    fun hat hplace => hat ▸ hplace
  cases hstep with
  | callback c m hnative hm =>
      obtain ⟨hresult, hend⟩ := Callback.message_progress hm
      exact h.sendMessage hnative.inTry.ne_returned hresult hend
  | ocrBook hat => exact h.move (htry hat trivial) rfl rfl
  | explanation hat =>
      exact h.sendThenMove (m := .explanationText "progress_ocr") (htry hat trivial)
        (fun hresult => hresult) OcrMessage.noConfusion _
  | finalImage hat =>
      exact h.sendThenMove (m := .finalImage) (htry hat trivial)
        (fun hresult => hresult) OcrMessage.noConfusion _
  | initFails hat hrun =>
      exact h.sendThenMove (m := .error "error_tess_init") (htry hat trivial)
        (fun hresult => hresult) OcrMessage.noConfusion _
  | initTess hat hrun => exact h.move (htry hat trivial) rfl rfl
  | meanConfidence accuracy hat => exact h.move (htry hat trivial) rfl rfl
  | setRectangle i hat hi => exact h.move (htry hat trivial) rfl rfl
  | beforeHocr i hat hrun => exact h.move (htry hat trivial) rfl rfl
  | hocr i text hat => exact h.move (htry hat trivial) rfl rfl
  | beforeHtml i hat hrun => exact h.move (htry hat trivial) rfl rfl
  | html i text hat => exact h.move (htry hat trivial) rfl rfl
  | loopEnd i hat hi => exact h.move (htry hat trivial) rfl rfl
  | results hat hrun => exact h.sendResults (htry hat trivial)
  | stopped hstopped hat =>
      have hin : s.workerAt.InTry := by
        rcases hat with hat | ⟨i, hat⟩ | ⟨i, hat⟩ | hat <;> exact htry hat trivial
      exact h.move hin rfl rfl
  | throws hin => exact h.move hin rfl rfl
  | finish hat => exact h.finish hat
  | cancel => exact h.returned rfl rfl Bool.noConfusion
  | destroyed => exact h.returned rfl rfl Bool.noConfusion
  | resumed => exact h.returned rfl rfl fun hrun => ⟨hrun, fun hstop => hstop⟩

/-- The invariant holds in every state of every interleaving, by induction on
the run. -/
theorem Sound.of_run {u : UnicodeData} {listPoints : List ℤ}
    (hrun : Relation.ReflTransGen (OcrStep u listPoints) startOcr s) : Sound s :=
  invariant_of_steps (fun _ _ h hstep => h.step hstep) hrun sound_startOcr

theorem ResultsTogether.both {trace : List OcrEvent} (h : ResultsTogether trace) :
    (∃ text accuracy, .sent (.hocrText text accuracy) ∈ trace) ↔
      ∃ text accuracy, .sent (.utf8Text text accuracy) ∈ trace := by
  rcases h with hnone | ⟨before, after, text, text', accuracy, rfl, _, _⟩
  · constructor
    · rintro ⟨text, accuracy, hmem⟩
      exact absurd trivial (hnone _ hmem)
    · rintro ⟨text, accuracy, hmem⟩
      exact absurd trivial (hnone _ hmem)
  · exact ⟨fun _ => ⟨text', accuracy, by simp⟩, fun _ => ⟨text, accuracy, by simp⟩⟩

/-- An event that forbids itself occurs at most once. -/
theorem count_le_one_of_pairwise {l : List OcrEvent} {a : OcrEvent}
    (h : l.Pairwise fun e later => e = a → later ≠ a) : l.count a ≤ 1 := by
  induction l with
  | nil => simp
  | cons b l ih =>
      obtain ⟨hhead, htail⟩ := List.pairwise_cons.mp h
      by_cases hb : b = a
      · have hnone : a ∉ l := fun hmem => hhead a hmem hb rfl
        rw [hb, List.count_cons_self, List.count_eq_zero_of_not_mem hnone]
      · rw [List.count_cons_of_ne hb]
        exact ih htail

/-- **The messages of a run.**  Whatever the rectangles and the texts, and in
every order of the worker's and the screen's steps: no message follows a call
of `cancel` or `onActivityDestroyed` that has returned; the HOCR text is sent
iff the UTF-8 text is, the two then once and one right after the other; and
the last message is sent at most once, with no message after it. -/
theorem ocr_protocol {u : UnicodeData} {listPoints : List ℤ} {s : OcrThread}
    (hrun : Relation.ReflTransGen (OcrStep u listPoints) startOcr s) :
    (s.trace.Pairwise fun e later => e.Stops → ¬ later.IsSent) ∧
    ((∃ text accuracy, .sent (.hocrText text accuracy) ∈ s.trace) ↔
      ∃ text accuracy, .sent (.utf8Text text accuracy) ∈ s.trace) ∧
    ResultsTogether s.trace ∧
    s.trace.count (.sent .endMessage) ≤ 1 ∧
    s.trace.Pairwise fun e later => e = .sent .endMessage → ¬ later.IsSent := by
  have hsound := Sound.of_run hrun
  refine ⟨hsound.silent, hsound.results.both, hsound.results, ?_, hsound.endLast⟩
  refine count_le_one_of_pairwise (hsound.endLast.imp ?_)
  rintro e later hlast he rfl
  exact hlast he trivial

/-- One rectangle, and a call of `cancel` when the run is over. -/
theorem ocr_protocol_rectangle :
    ∃ s : OcrThread, s.trace = [.sent (.explanationText "progress_ocr"), .sent .finalImage,
        .sent (.hocrText ['a'] 0), .sent (.utf8Text (unAccent sampleData (rawOutput ['b'])) 0),
        .sent .endMessage, .returned .cancel] ∧
      (s.trace.Pairwise fun e later => e.Stops → ¬ later.IsSent) ∧
      ResultsTogether s.trace ∧ s.trace.count (.sent .endMessage) ≤ 1 := by
  have h1 := Relation.ReflTransGen.single
    (show OcrStep sampleData [0, 0, 10, 10] startOcr _ from .ocrBook _ rfl)
  have h3 := (h1.tail (.explanation _ rfl)).tail (.finalImage _ rfl)
  have h5 := (h3.tail (.initTess _ rfl rfl)).tail (.meanConfidence _ 95 rfl)
  have h6 := h5.tail (.setRectangle _ 0 rfl (by decide))
  have h8 := (h6.tail (.beforeHocr _ 0 rfl rfl)).tail (.hocr _ 0 ['a'] rfl)
  have h10 := (h8.tail (.beforeHtml _ 0 rfl rfl)).tail (.html _ 0 ['b'] rfl)
  have h12 := (h10.tail (.loopEnd _ 4 rfl (by decide))).tail (.results _ rfl rfl)
  have h14 := (h12.tail (.finish _ rfl)).tail (.cancel _)
  obtain ⟨hsilent, _, htogether, honce, _⟩ := ocr_protocol h14
  exact ⟨_, rfl, hsilent, htogether, honce⟩

end CardScanner
