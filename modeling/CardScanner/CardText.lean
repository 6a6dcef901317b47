import CardScanner.Decimal
import CardScanner.ExtractPhone
import Mathlib.Tactic.Ring

/-!
# The text of a card

`ResultActivity` prints every recognised line as `FontSize: n: text` and looks
for phone numbers in the whole text.  A number is a maximal run of phone
characters with at least eight digits (`phoneDigits_eq`), and the colons
and line breaks of the decoration are not phone characters.  So the runs of a
printed line are those of the word `FontSize`, which has no digit, that of the
size, and those of the text: only a size of eight digits is taken for a number.
-/

namespace CardScanner

open Runs Decimal

/-! ## The code -/

/-- `LineModel`, a line of the card as the parser hands it on. -/
structure LineModel where
  fontSize : Int
  text : List Char
  deriving DecidableEq, Repr

/-- `LineModel.toString`: the font size stands in the text that is searched
for numbers later. -/
def LineModel.toString (lm : LineModel) : List Char :=
  ['F', 'o', 'n', 't', 'S', 'i', 'z', 'e', ':', ' '] ++ decimal lm.fontSize ++ [':', ' '] ++
    lm.text ++ ['\n']

/-- `utf8Result` as `bindData` builds it. -/
def cardText (list : List LineModel) : List Char :=
  list.foldl (fun utf8Result lm => utf8Result ++ (lm.toString ++ ['\n'])) []

/-! ## Digit strings -/

/-- A number without its leading `'+'`, if it has one. -/
def dropPlus (phone : List Char) : List Char :=
  if phone.head? = some '+' then phone.tail else phone

/-- The digit strings of the maximal runs of phone characters with at least
eight digits. -/
def digitStrings (text : List Char) : List (List Char) :=
  ((runs isPhoneChar text).map fun run => run.filter isDigit).filter fun digits =>
    8 ≤ digits.length

/-- A character that belongs to no number ends the number before it. -/
theorem digitStrings_append_cons {c : Char} (hc : isPhoneChar c = false) (text rest : List Char) :
    digitStrings (text ++ c :: rest) = digitStrings text ++ digitStrings rest := by
  unfold digitStrings
  rw [runs_append_cons hc, List.map_append, List.filter_append]

/-- A text of phone characters is one run. -/
theorem digitStrings_of_all {text : List Char} (hne : text ≠ [])
    (hall : ∀ c ∈ text, isPhoneChar c = true) :
    digitStrings text =
      if 8 ≤ (text.filter isDigit).length then [text.filter isDigit] else [] := by
  unfold digitStrings
  rw [runs_of_all hne hall]
  split_ifs with hlen <;> simp [hlen]

/-- Without their signs the numbers of a text are its digit strings, whether
or not a sign stands before the text. -/
theorem map_dropPlus_phonesOf (hasPlus : Bool) (text : List Char) :
    (phonesOf hasPlus text).map dropPlus = digitStrings text := by
  have hdigits : ∀ run : List Char, dropPlus (run.filter isDigit) = run.filter isDigit := by
    intro run
    unfold dropPlus
    split_ifs with hhead
    · have hplus := (List.mem_filter.mp (List.mem_of_head? hhead)).2
      exact absurd hplus (by decide)
    · rfl
  unfold phonesOf digitStrings
  induction runs isPhoneChar text with
  | nil => rfl
  | cons run rest ih =>
      by_cases hlen : 7 < (run.filter isDigit).length
      · have hphone : ∃ phone, tryConvertToPhone run hasPlus = some phone ∧
            dropPlus phone = run.filter isDigit := by
          refine ⟨_, tryConvertToPhone_eq_some.mpr ⟨hlen, rfl⟩, ?_⟩
          cases hasPlus
          · exact hdigits run
          · rfl
        obtain ⟨phone, hsome, hdrop⟩ := hphone
        have hkeep : decide (8 ≤ (run.filter isDigit).length) = true := by
          rw [decide_eq_true_eq]
          omega
        simp only [List.filterMap_cons, hsome, List.map_cons]
        rw [List.filter_cons, if_pos hkeep, ih, hdrop]
      · have hnone : tryConvertToPhone run hasPlus = none := by
          rw [Option.eq_none_iff_forall_ne_some]
          intro phone hsome
          exact hlen (tryConvertToPhone_eq_some.mp hsome).1
        have hskip : ¬ decide (8 ≤ (run.filter isDigit).length) = true := by
          rw [decide_eq_true_eq]
          omega
        simp only [List.filterMap_cons, hnone, List.map_cons]
        rw [List.filter_cons, if_neg hskip, ih]

/-- A scan finds the digit strings of its text. -/
theorem map_dropPlus_scan (text : List Char) :
    ((text.foldl PhoneScan.read ⟨[], false, []⟩).flush).map dropPlus = digitStrings text := by
  rw [scan_eq _ _ (by simp), List.nil_append, List.nil_append, List.map_append,
    map_dropPlus_phonesOf, map_dropPlus_phonesOf, ← map_dropPlus_phonesOf true text,
    phonesOf_split, List.map_append, map_dropPlus_phonesOf, map_dropPlus_phonesOf]

/-- The numbers found, without their signs. -/
def phoneDigits (input : List Char) : List (List Char) := (extractPhone input).map dropPlus

/-- They are the digit strings of the trimmed text. -/
theorem phoneDigits_eq (input : List Char) :
    phoneDigits input = digitStrings (trim (trimString input)) := map_dropPlus_scan _

/-- The final trimming takes no digit away, so it may be left out. -/
theorem phoneDigits_eq_trimString (input : List Char) :
    phoneDigits input = digitStrings (trimString input) := by
  unfold phoneDigits
  rw [extractPhone_eq_scan, map_dropPlus_scan]

/-- The digit strings of a trimmed text hold ASCII digits only. -/
theorem ascii_of_mem_phoneDigits {input digits : List Char} (h : digits ∈ phoneDigits input) :
    ∀ c ∈ digits, c.isDigit = true := by
  rw [phoneDigits_eq_trimString] at h
  unfold digitStrings at h
  obtain ⟨run, hrun, rfl⟩ := List.mem_map.mp (List.mem_of_mem_filter h)
  intro c hc
  obtain ⟨hmem, hdigit⟩ := List.mem_filter.mp hc
  have htext := (mem_of_mem_runs hrun c hmem).1
  have hkept := (List.mem_filter.mp htext).2
  simp only [Bool.and_eq_true, decide_eq_true_eq] at hkept
  exact isDigit_ascii hdigit hkept.1

/-! ## Printed lines -/

/-- Trimming goes character by character, so a text may be trimmed in parts. -/
theorem trimString_append (a b : List Char) :
    trimString (a ++ b) = trimString a ++ trimString b := by
  unfold trimString
  rw [List.map_append, List.filter_append]

/-- What a number is written with: digits and a sign, none of which is
trimmed. -/
theorem decimal_char {n : Int} {c : Char} (hc : c ∈ decimal n) :
    isPhoneChar c = true ∧ c.toNat < 122 ∧ c ≠ ' ' ∧ c ≠ '\n' := by
  rcases mem_decimal hc with rfl | hdigit
  · decide
  · have hphone : isPhoneChar c = true := by simp [isPhoneChar, isDigit_of_ascii hdigit]
    have hrange := Char.isDigit_iff_toNat.mp hdigit
    have hother : ∀ d : Char, d.isDigit = false → c ≠ d := by
      intro d hd
      apply ne_of_apply_ne Char.isDigit
      simp [hdigit, hd]
    exact ⟨hphone, lt_of_le_of_lt hrange.2 (by decide), hother ' ' rfl, hother '\n' rfl⟩

theorem trimString_decimal (n : Int) : trimString (decimal n) = decimal n := by
  unfold trimString
  have hmap : (decimal n).map (fun c => if c = '\n' then '/' else c) = decimal n := by
    conv_rhs => rw [← List.map_id (decimal n)]
    refine List.map_congr_left ?_
    intro c hc
    exact if_neg (decimal_char hc).2.2.2
  rw [hmap, List.filter_eq_self]
  intro c hc
  simp [(decimal_char hc).2.1, (decimal_char hc).2.2.1]

/-- A size is taken for a number when it has eight digits. -/
theorem digitStrings_decimal (n : Int) :
    digitStrings (decimal n) =
      if n.natAbs < 10 ^ 7 then [] else [Nat.toDigits 10 n.natAbs] := by
  have hlen := Nat.length_toDigits_le_iff (n := n.natAbs) (k := 7)
    (show 1 < 10 by decide) (by decide)
  rw [digitStrings_of_all (decimal_ne_nil n) fun c hc => (decimal_char hc).1,
    filter_decimal isDigit (by decide) fun c hc => isDigit_of_ascii hc]
  split_ifs with hlong hsmall hsmall
  · omega
  · rfl
  · rfl
  · omega

/-- What is left of a printed line. -/
theorem trimString_line (lm : LineModel) (rest : List Char) :
    trimString (lm.toString ++ ['\n'] ++ rest) =
      ['F', 'o', 'n', 't', 'S', 'i', 'e'] ++ ':' :: (decimal lm.fontSize ++
        ':' :: (trimString lm.text ++ '/' :: '/' :: trimString rest)) := by
  have hword : trimString ['F', 'o', 'n', 't', 'S', 'i', 'z', 'e', ':', ' '] =
      ['F', 'o', 'n', 't', 'S', 'i', 'e', ':'] := by decide
  have hmiddle : trimString [':', ' '] = [':'] := by decide
  have hbreak : trimString ['\n'] = ['/'] := by decide
  unfold LineModel.toString
  simp only [trimString_append, trimString_decimal, hword, hmiddle, hbreak]
  simp only [List.append_assoc, List.cons_append, List.nil_append]

/-- The runs of one printed line: the size's and the text's. -/
theorem digitStrings_line (lm : LineModel) (rest : List Char) :
    digitStrings (trimString (lm.toString ++ ['\n'] ++ rest)) =
      digitStrings (decimal lm.fontSize) ++ phoneDigits lm.text ++
        digitStrings (trimString rest) := by
  have hcolon : isPhoneChar ':' = false := by decide
  have hslash : isPhoneChar '/' = false := by decide
  have hword : digitStrings ['F', 'o', 'n', 't', 'S', 'i', 'e'] = [] := by decide
  rw [trimString_line, digitStrings_append_cons hcolon, hword, List.nil_append,
    digitStrings_append_cons hcolon, digitStrings_append_cons hslash,
    ← List.nil_append ('/' :: trimString rest), digitStrings_append_cons hslash,
    phoneDigits_eq_trimString, List.append_assoc]
  rfl

/-- The runs of a card: those of its lines. -/
theorem digitStrings_cardText (lines : List LineModel) :
    digitStrings (trimString (cardText lines)) =
      lines.flatMap fun lm => digitStrings (decimal lm.fontSize) ++ phoneDigits lm.text := by
  have hflat : cardText lines = lines.flatMap fun lm => lm.toString ++ ['\n'] := by
    unfold cardText
    rw [List.flatMap_eq_foldl]
  rw [hflat]
  clear hflat
  induction lines with
  | nil => rfl
  | cons lm lines ih =>
      rw [List.flatMap_cons, digitStrings_line, ih, List.flatMap_cons]

/-- Inserted pieces leave a concatenation as it was exactly when all are
empty. -/
theorem flatMap_append_eq_iff {α β : Type*} (f g : α → List β) (l : List α) :
    l.flatMap (fun x => f x ++ g x) = l.flatMap g ↔ ∀ x ∈ l, f x = [] := by
  have hlen : (l.flatMap fun x => f x ++ g x).length =
      (l.flatMap f).length + (l.flatMap g).length := by
    induction l with
    | nil => rfl
    | cons x l ih =>
        simp only [List.flatMap_cons, List.length_append, ih]
        ring
  constructor
  · intro heq
    rw [heq] at hlen
    have hnil : l.flatMap f = [] := List.eq_nil_of_length_eq_zero (by omega)
    exact List.flatMap_eq_nil_iff.mp hnil
  · intro hnil
    refine List.flatMap_congr ?_
    intro x hx
    rw [hnil x hx, List.nil_append]

/-- **Numbers of a card.**  The digit strings found in a text are those of its
maximal runs with at least eight digits, all ASCII; and those found in a
printed card are the ones of its texts, line by line, exactly when every size
has fewer than eight digits. -/
theorem phoneDigits_sound_complete_iff (input : List Char) (lines : List LineModel) :
    (phoneDigits input = digitStrings (trim (trimString input)) ∧
      ∀ digits ∈ phoneDigits input, ∀ c ∈ digits, c.isDigit = true) ∧
    (phoneDigits (cardText lines) = lines.flatMap (fun lm => phoneDigits lm.text) ↔
      ∀ lm ∈ lines, lm.fontSize.natAbs < 10 ^ 7) := by
  refine ⟨⟨phoneDigits_eq input, fun digits => ascii_of_mem_phoneDigits⟩, ?_⟩
  rw [phoneDigits_eq_trimString, digitStrings_cardText, flatMap_append_eq_iff]
  refine forall₂_congr fun lm _ => ?_
  rw [digitStrings_decimal]
  by_cases hsmall : lm.fontSize.natAbs < 10 ^ 7
  · rw [if_pos hsmall]
    exact ⟨fun _ => hsmall, fun _ => rfl⟩
  · rw [if_neg hsmall]
    exact ⟨fun hnil => absurd hnil (List.cons_ne_nil _ _), fun hlt => absurd hlt hsmall⟩

/-- A size of eight digits is found as a number. -/
theorem not_phoneDigits_cardText : ¬ ∀ lines : List LineModel,
    (∀ lm ∈ lines, '\n' ∉ lm.text) →
    phoneDigits (cardText lines) = lines.flatMap fun lm => phoneDigits lm.text := by
  intro h
  have hsize := h [⟨12345678, ['a', 'b', 'c', 'd', 'e', 'f']⟩] (by decide)
  exact absurd hsize (by decide)

end CardScanner
