import CardScanner.ExtractPhone

/-!
# Letters read for digits

`phoneErr` and `phoneVal` pair the letters that recognition confuses with
digits with the digits they stand for.  `isPhoneChar` accepts the letters, so
one in the middle of a number does not end the run.  `phoneVal` is never read:
`tryConvertToPhone` keeps the digits of the run and drops the letter, and with
it the digit.

So a letter in a digit's place costs the run one digit and changes nothing
else: the scan reaches both with the same state, the longest phone text at the
end of what lies before, and leaves both to the same rest.  The numbers stay the
same exactly when the run was too short for a number anyway.
-/

namespace CardScanner

open Runs

/-- The digits the letters of `phoneErr` stand for, position by position. -/
def phoneVal : List Char :=
  ['1', '1', '1', '1', '0', '0', '2', '2', '4', '5', '5', '6', '9']

/-- The letter `e` stands at the place of the digit `d` in the tables. -/
def Confused (e d : Char) : Prop := (e, d) ∈ phoneErr.zip phoneVal

instance (e d : Char) : Decidable (Confused e d) :=
  inferInstanceAs (Decidable ((e, d) ∈ phoneErr.zip phoneVal))

/-- The phone run around a character, with `c` in its place. -/
def runAround (before : List Char) (c : Char) (after : List Char) : List Char :=
  (trimString before).rtakeWhile isPhoneChar ++ trimString [c] ++
    (trimString after).takeWhile isPhoneChar

/-! ## The run around a place -/

/-- A text of phone characters is one run. -/
theorem phonesOf_of_all (hasPlus : Bool) {run : List Char}
    (hrun : ∀ c ∈ run, isPhoneChar c = true) :
    phonesOf hasPlus run = (tryConvertToPhone run hasPlus).toList := by
  have hflush := PhoneScan.flush_eq ⟨run, hasPlus, []⟩ hrun
  rw [List.nil_append] at hflush
  rw [← hflush]
  unfold PhoneScan.flush
  cases hphone : tryConvertToPhone run hasPlus with
  | none => rfl
  | some temp => simp [trim_ne_nil hphone]

/-- The scan holds the phone characters at the end of what it has read. -/
theorem current_foldl_read (text : List Char) :
    (text.foldl PhoneScan.read ⟨[], false, []⟩).current = text.rtakeWhile isPhoneChar := by
  induction text using List.reverseRecOn with
  | nil => rfl
  | append_singleton text c ih =>
      rw [List.foldl_append, List.foldl_cons, List.foldl_nil, List.rtakeWhile_concat, ← ih]
      unfold PhoneScan.read
      split_ifs <;> rfl

/-- Reading phone characters only collects them. -/
theorem foldl_read_of_all (s : PhoneScan) {run : List Char}
    (hrun : ∀ c ∈ run, isPhoneChar c = true) :
    run.foldl PhoneScan.read s = { s with current := s.current ++ run } := by
  induction run generalizing s with
  | nil => simp
  | cons c run ih =>
      have hread : s.read c = { s with current := s.current ++ [c] } :=
        if_pos (hrun c List.mem_cons_self)
      rw [List.foldl_cons, hread, ih _ fun d hd => hrun d (List.mem_cons_of_mem _ hd)]
      simp

/-- A run in front of a text goes on to the text's first character that is no
phone character. -/
theorem phonesOf_run_append (hasPlus : Bool) (run text : List Char) :
    phonesOf hasPlus (run ++ text) =
      phonesOf hasPlus (run ++ text.takeWhile isPhoneChar) ++
        phonesOf hasPlus (text.dropWhile isPhoneChar) := by
  conv_lhs => rw [← List.takeWhile_append_dropWhile (p := isPhoneChar) (l := text)]
  cases hrest : text.dropWhile isPhoneChar with
  | nil => simp
  | cons c rest =>
      have hstop := List.head_dropWhile_not isPhoneChar (l := text) (by simp [hrest])
      have hc : isPhoneChar c = false := by simpa [hrest] using hstop
      rw [← List.append_assoc, phonesOf_append_cons hasPlus hc, phonesOf_cons_of_not hasPlus hc]

/-- The phone characters a text begins with lie before its first `'+'`. -/
theorem takeWhile_isPhoneChar_of_plus (text : List Char) :
    (text.takeWhile (· != '+')).takeWhile isPhoneChar = text.takeWhile isPhoneChar := by
  rw [List.takeWhile_takeWhile]
  congr 1
  funext c
  by_cases hc : c = '+'
  · subst hc
    decide
  · simp [hc]

/-- **The run around a place.**  Of the numbers of a text, those before and
behind the run that `mid` lies in do not depend on `mid`, so two texts that
differ there only are compared by that run. -/
theorem flush_around (t u : List Char) :
    ∃ hasPlus front back, ∀ mid, (∀ c ∈ mid, isPhoneChar c = true) →
      ((t ++ mid ++ u).foldl PhoneScan.read ⟨[], false, []⟩).flush =
        front ++ (tryConvertToPhone
          (t.rtakeWhile isPhoneChar ++ mid ++ u.takeWhile isPhoneChar) hasPlus).toList ++ back := by
  let s := t.foldl PhoneScan.read ⟨[], false, []⟩
  refine ⟨s.hasPlus, s.listPhones,
    phonesOf s.hasPlus ((u.takeWhile (· != '+')).dropWhile isPhoneChar) ++
      phonesOf true (u.dropWhile (· != '+')), ?_⟩
  intro mid hmid
  have hcur : s.current = t.rtakeWhile isPhoneChar := current_foldl_read t
  have hrun : ∀ c ∈ s.current ++ mid, isPhoneChar c = true := by
    intro c hc
    rcases List.mem_append.mp hc with hc | hc
    · rw [hcur] at hc
      exact List.mem_rtakeWhile_imp hc
    · exact hmid c hc
  have hall : ∀ c ∈ s.current ++ mid ++ u.takeWhile isPhoneChar, isPhoneChar c = true := by
    intro c hc
    rcases List.mem_append.mp hc with hc | hc
    · exact hrun c hc
    · exact List.mem_takeWhile_imp hc
  rw [List.foldl_append, List.foldl_append, foldl_read_of_all _ hmid, scan_eq _ _ hrun,
    phonesOf_run_append, takeWhile_isPhoneChar_of_plus, phonesOf_of_all _ hall, ← hcur]
  simp only [List.append_assoc]
  rfl

/-! ## One character -/

theorem trimString_append_cons (before : List Char) (c : Char) (after : List Char) :
    trimString (before ++ c :: after) =
      trimString before ++ trimString [c] ++ trimString after := by
  unfold trimString
  rw [List.map_append, List.map_cons, List.filter_append, ← List.singleton_append,
    List.filter_append, List.append_assoc]
  rfl

/-- What the tables hold: the letter is at most a phone character, the digit is
a digit and stays. -/
theorem Confused.spec {e d : Char} (h : Confused e d) :
    (trimString [e] = [] ∨ trimString [e] = [e]) ∧ isPhoneChar e = true ∧ isDigit e = false ∧
      trimString [d] = [d] ∧ isDigit d = true := by
  have htable : (phoneErr.zip phoneVal).all (fun p =>
      (trimString [p.1] == [] || trimString [p.1] == [p.1]) &&
        isPhoneChar p.1 && !isDigit p.1 && trimString [p.2] == [p.2] &&
        isDigit p.2) = true := by decide
  simpa [and_assoc] using List.all_eq_true.mp htable _ h

/-- One digit less leaves the number as it is exactly when there was none. -/
theorem tryConvertToPhone_eq_iff {run run' : List Char}
    (hlen : (run'.filter isDigit).length = (run.filter isDigit).length + 1) (hasPlus : Bool) :
    tryConvertToPhone run hasPlus = tryConvertToPhone run' hasPlus ↔
      (run'.filter isDigit).length < 8 := by
  constructor
  · intro heq
    by_contra hlong
    have hphone : tryConvertToPhone run' hasPlus = some _ :=
      tryConvertToPhone_eq_some.mpr ⟨by omega, rfl⟩
    rw [← heq] at hphone
    have hlens := congrArg List.length (tryConvertToPhone_eq_some.mp hphone).2
    cases hasPlus <;> simp at hlens <;> omega
  · intro hshort
    have hnone : ∀ r : List Char, (r.filter isDigit).length < 8 →
        tryConvertToPhone r hasPlus = none := by
      intro r hr
      unfold tryConvertToPhone
      exact if_neg (by omega)
    rw [hnone run (by omega), hnone run' hshort]

theorem toList_eq_iff {α : Type} (a b : Option α) : a.toList = b.toList ↔ a = b := by
  cases a <;> cases b <;> simp

/-- **When a confused letter is harmless.**  Replacing a digit by a letter it
is paired with leaves the numbers as they are exactly when the run the digit
lies in has fewer than eight digits. -/
theorem extractPhone_confused_iff (before after : List Char) {e d : Char} (h : Confused e d) :
    extractPhone (before ++ e :: after) = extractPhone (before ++ d :: after) ↔
      ((runAround before d after).filter isDigit).length < 8 := by
  obtain ⟨hletter, hphone, hnot, hkept, hdigit⟩ := h.spec
  have hmidE : ∀ c ∈ trimString [e], isPhoneChar c = true := by
    intro c hc
    rcases hletter with hgone | hstays
    · simp [hgone] at hc
    · rw [hstays, List.mem_singleton] at hc
      rw [hc]
      exact hphone
  have hmidD : ∀ c ∈ trimString [d], isPhoneChar c = true := by
    intro c hc
    rw [hkept, List.mem_singleton] at hc
    simp [hc, isPhoneChar, hdigit]
  have hlen : ((runAround before d after).filter isDigit).length =
      ((runAround before e after).filter isDigit).length + 1 := by
    have hnone : (trimString [e]).filter isDigit = [] := by
      rcases hletter with hgone | hstays
      · rw [hgone]
        rfl
      · simp [hstays, hnot]
    unfold runAround
    simp only [List.filter_append, hnone, hkept, List.length_append]
    simp [hdigit]
    omega
  obtain ⟨hasPlus, front, back, hflush⟩ := flush_around (trimString before) (trimString after)
  rw [extractPhone_eq_scan, extractPhone_eq_scan, trimString_append_cons, trimString_append_cons,
    hflush _ hmidE, hflush _ hmidD, List.append_cancel_right_eq, List.append_cancel_left_eq]
  exact (toList_eq_iff _ _).trans (tryConvertToPhone_eq_iff hlen hasPlus)

/-- An eight-digit number with a letter in it. -/
theorem extractPhone_confused_iff_eight :
    extractPhone (['0'] ++ 'l' :: ['2', '3', '4', '5', '6', '7']) =
        extractPhone (['0'] ++ '1' :: ['2', '3', '4', '5', '6', '7']) ↔
      ((runAround ['0'] '1' ['2', '3', '4', '5', '6', '7']).filter isDigit).length < 8 :=
  extractPhone_confused_iff _ _ (by decide)

/-- The letter costs the number its eighth digit. -/
theorem not_extractPhone_confused : ¬ ∀ (before after : List Char) (e d : Char), Confused e d →
    extractPhone (before ++ e :: after) = extractPhone (before ++ d :: after) := by
  intro h
  have hlost := h ['0'] ['2', '3', '4', '5', '6', '7'] 'l' '1' (by decide)
  exact absurd hlost (by decide)

end CardScanner
