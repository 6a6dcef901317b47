import CardScanner.JavaText
import CardScanner.Runs

/-!
# Finding phone numbers

`StringUtil.extractPhone` scans the trimmed text once and collects the current
run of phone characters; at every other character it turns the run into a
number if it has at least eight digits.  The flag `hasPlus` is set by a `'+'`
and never cleared.  So the numbers are those of the maximal runs
(`extractPhone_eq`): without the sign before the text's first `'+'`, with it
from there on.  A line that holds a `'+'` therefore changes the numbers of the
lines behind it, and `extractPhone_append_iff` says exactly when.

Strings are lists of characters.  Everything from `'z'` on is dropped before
the scan, surrogates included, so code points stand for Java's `char`s.
-/

namespace CardScanner

open Runs

/-! ## The code -/

/-- Letters that recognition confuses with digits. -/
def phoneErr : List Char :=
  ['i', 'I', 'l', 'L', 'o', 'O', 'z', 'Z', 'A', 's', 'S', 'b', 'g']

/-- `isPhoneChar`: digits, what is written between them, and the letters that
are confused with digits. -/
def isPhoneChar (c : Char) : Bool :=
  isDigit c || c == '-' || c == ' ' || c == '(' || c == ')' || c == '.' || phoneErr.contains c

/-- `trimString`: line breaks become slashes; spaces and everything from `'z'`
on are dropped. -/
def trimString (input : List Char) : List Char :=
  (input.map fun c => if c = '\n' then '/' else c).filter fun c => c.toNat < 122 && c != ' '

/-- `tryConvertToPhone`: a run is a number if it has more than seven digits;
all else in it is dropped. -/
def tryConvertToPhone (input : List Char) (hasPlus : Bool) : Option (List Char) :=
  let digits := input.filter isDigit
  if digits.length > 7 then
    if hasPlus then some ('+' :: digits) else some digits
  else none

/-- The locals of `extractPhone`'s loop. -/
structure PhoneScan where
  current : List Char
  hasPlus : Bool
  listPhones : List (List Char)

/-- The run collected so far, added to the list if it is a number. -/
def PhoneScan.flush (s : PhoneScan) : List (List Char) :=
  match tryConvertToPhone s.current s.hasPlus with
  | some temp => if (trim temp).isEmpty then s.listPhones else s.listPhones ++ [temp]
  | none => s.listPhones

/-- The body of the loop. -/
def PhoneScan.read (s : PhoneScan) (c : Char) : PhoneScan :=
  if isPhoneChar c then { s with current := s.current ++ [c] }
  else { current := [], hasPlus := s.hasPlus || c == '+', listPhones := s.flush }

/-- `extractPhone`: one pass over the trimmed text, and the last run is added
behind it. -/
def extractPhone (input : List Char) : List (List Char) :=
  ((trim (trimString input)).foldl PhoneScan.read ⟨[], false, []⟩).flush

/-! ## One run -/

/-- The numbers of the runs of a text, all with or all without the sign. -/
def phonesOf (hasPlus : Bool) (text : List Char) : List (List Char) :=
  (runs isPhoneChar text).filterMap fun run => tryConvertToPhone run hasPlus

@[simp] theorem phonesOf_nil (hasPlus : Bool) : phonesOf hasPlus [] = [] := rfl

/-- A character of no number separates the numbers before it from those
behind. -/
theorem phonesOf_append_cons (hasPlus : Bool) {c : Char} (hc : isPhoneChar c = false)
    (text rest : List Char) :
    phonesOf hasPlus (text ++ c :: rest) = phonesOf hasPlus text ++ phonesOf hasPlus rest := by
  unfold phonesOf
  rw [runs_append_cons hc, List.filterMap_append]

theorem phonesOf_cons_of_not (hasPlus : Bool) {c : Char} (hc : isPhoneChar c = false)
    (text : List Char) : phonesOf hasPlus (c :: text) = phonesOf hasPlus text := by
  simpa using phonesOf_append_cons hasPlus hc [] text

/-- A number is not blank, since it has a digit in it, which trimming leaves. -/
theorem trim_ne_nil {input temp : List Char} {hasPlus : Bool}
    (h : tryConvertToPhone input hasPlus = some temp) : (trim temp).isEmpty = false := by
  have hvisible : ∃ c ∈ temp, ¬ c.toNat ≤ 32 := by
    unfold tryConvertToPhone at h
    simp only at h
    split_ifs at h with hlen hplus
    · simp only [Option.some.injEq] at h
      exact ⟨'+', by simp [← h], by decide⟩
    · simp only [Option.some.injEq] at h
      have hpos : 0 < (input.filter isDigit).length := by omega
      obtain ⟨c, hc⟩ := List.exists_mem_of_length_pos hpos
      have hdigit := toNat_of_isDigit (List.mem_filter.mp hc).2
      exact ⟨c, h ▸ hc, by omega⟩
  obtain ⟨c, hmem, hc⟩ := hvisible
  have hfront : temp.dropWhile (fun c => decide (c.toNat ≤ 32)) ≠ [] := by
    intro hnil
    rw [List.dropWhile_eq_nil_iff] at hnil
    simpa [hc] using hnil c hmem
  have hback : trim temp ≠ [] := by
    intro hnil
    unfold trim at hnil
    rw [List.rdropWhile_eq_nil_iff] at hnil
    have hhead := hnil _ (List.head_mem hfront)
    have hstop := List.head_dropWhile_not (fun c : Char => decide (c.toNat ≤ 32)) hfront
    rw [hhead] at hstop
    cases hstop
  simpa using hback

theorem PhoneScan.flush_eq (s : PhoneScan) (hcur : ∀ c ∈ s.current, isPhoneChar c = true) :
    s.flush = s.listPhones ++ phonesOf s.hasPlus s.current := by
  have hphones : phonesOf s.hasPlus s.current =
      (tryConvertToPhone s.current s.hasPlus).toList := by
    by_cases hnil : s.current = []
    · simp [hnil, tryConvertToPhone]
    · unfold phonesOf
      rw [runs_of_all hnil hcur]
      cases hphone : tryConvertToPhone s.current s.hasPlus <;> simp [hphone]
  rw [hphones]
  unfold PhoneScan.flush
  cases hphone : tryConvertToPhone s.current s.hasPlus with
  | none => simp
  | some temp => simp [trim_ne_nil hphone]

/-! ## The scan -/

theorem isPhoneChar_plus : isPhoneChar '+' = false := by decide

/-- No run crosses the first `'+'`, so the numbers before it and behind it are
found apart. -/
theorem phonesOf_split (hasPlus : Bool) (text : List Char) :
    phonesOf hasPlus text =
      phonesOf hasPlus (text.takeWhile (· != '+')) ++
        phonesOf hasPlus (text.dropWhile (· != '+')) := by
  conv_lhs => rw [← List.takeWhile_append_dropWhile (p := (· != '+')) (l := text)]
  cases hbehind : text.dropWhile (· != '+') with
  | nil => simp
  | cons c rest =>
      have hstop := List.head_dropWhile_not (· != '+') (l := text) (by simp [hbehind])
      have hc : c = '+' := by simpa [hbehind] using hstop
      subst hc
      rw [phonesOf_append_cons hasPlus isPhoneChar_plus,
        phonesOf_cons_of_not hasPlus isPhoneChar_plus]

/-- What a scan adds: the runs before the first `'+'` keep the flag as it is,
the ones from there on have the sign. -/
theorem scan_eq (text : List Char) (s : PhoneScan)
    (hcur : ∀ c ∈ s.current, isPhoneChar c = true) :
    (text.foldl PhoneScan.read s).flush =
      s.listPhones ++ phonesOf s.hasPlus (s.current ++ text.takeWhile (· != '+')) ++
        phonesOf true (text.dropWhile (· != '+')) := by
  induction text generalizing s with
  | nil => simp [s.flush_eq hcur]
  | cons c text ih =>
      by_cases hc : isPhoneChar c = true
      · have hplus : c ≠ '+' := by
          intro heq
          rw [heq, isPhoneChar_plus] at hc
          cases hc
        have hcur' : ∀ d ∈ s.current ++ [c], isPhoneChar d = true := by
          intro d hd
          rcases List.mem_append.mp hd with hd | hd
          · exact hcur d hd
          · rw [List.mem_singleton.mp hd]
            exact hc
        have hread : s.read c = { s with current := s.current ++ [c] } := if_pos hc
        rw [List.foldl_cons, hread, ih _ hcur']
        simp [hplus]
      · have hread : s.read c =
            { current := [], hasPlus := s.hasPlus || c == '+', listPhones := s.flush } :=
          if_neg hc
        rw [Bool.not_eq_true] at hc
        rw [List.foldl_cons, hread, ih _ (by simp), s.flush_eq hcur]
        by_cases hplus : c = '+'
        · subst hplus
          simp [phonesOf_cons_of_not true isPhoneChar_plus, ← phonesOf_split]
        · have hflag : (c == '+') = false := by simpa using hplus
          simp [hplus, hflag, phonesOf_append_cons s.hasPlus hc]

/-- Only a phone character leaves something to be added. -/
theorem flush_read_of_not {c : Char} (hc : isPhoneChar c = false) (s : PhoneScan) :
    (s.read c).flush = s.flush := by
  unfold PhoneScan.read
  simp only [hc, Bool.false_eq_true, if_false]
  rfl

/-- Cutting characters that are not phone characters off the end of a text
changes nothing. -/
theorem flush_foldl_rdropWhile (q : Char → Bool) (s : PhoneScan) (text : List Char)
    (hq : ∀ c ∈ text, q c = true → isPhoneChar c = false) :
    ((text.rdropWhile q).foldl PhoneScan.read s).flush =
      (text.foldl PhoneScan.read s).flush := by
  induction text using List.reverseRecOn with
  | nil => rfl
  | append_singleton text c ih =>
      by_cases hc : q c = true
      · have hnot := hq c (by simp) hc
        rw [List.rdropWhile_concat_pos q text c hc,
          ih fun d hd => hq d (List.mem_append_left _ hd), List.foldl_append, List.foldl_cons,
          List.foldl_nil, flush_read_of_not hnot]
      · rw [List.rdropWhile_concat_neg q text c hc]

/-- Neither does cutting characters off its front that are not `'+'` either. -/
theorem foldl_dropWhile (q : Char → Bool) (text : List Char)
    (hq : ∀ c ∈ text, q c = true → isPhoneChar c = false ∧ c ≠ '+') :
    (text.dropWhile q).foldl PhoneScan.read ⟨[], false, []⟩ =
      text.foldl PhoneScan.read ⟨[], false, []⟩ := by
  induction text with
  | nil => rfl
  | cons c text ih =>
      by_cases hc : q c = true
      · obtain ⟨hnot, hplus⟩ := hq c (by simp) hc
        have hread : PhoneScan.read ⟨[], false, []⟩ c = ⟨[], false, []⟩ := by
          have hflag : (c == '+') = false := by simpa using hplus
          unfold PhoneScan.read
          simp only [hnot, Bool.false_eq_true, if_false, hflag]
          rfl
        rw [List.dropWhile_cons_of_pos hc, List.foldl_cons, hread,
          ih fun d hd => hq d (List.mem_cons_of_mem _ hd)]
      · rw [List.dropWhile_cons_of_neg hc]

theorem toNat_of_isPhoneChar {c : Char} (hc : isPhoneChar c = true) :
    c = ' ' ∨ 32 < c.toNat := by
  unfold isPhoneChar at hc
  simp only [Bool.or_eq_true, beq_iff_eq, List.contains_eq_mem, decide_eq_true_eq] at hc
  rcases hc with (((((hdigit | rfl) | rfl) | rfl) | rfl) | rfl) | hletter
  · have hmin := toNat_of_isDigit hdigit
    omega
  · decide
  · decide
  · decide
  · decide
  · decide
  · have hletters : phoneErr.all (fun d => 32 < d.toNat) = true := rfl
    exact Or.inr (of_decide_eq_true (List.all_eq_true.mp hletters c hletter))

/-- Trimming control characters off changes nothing: they are read as any
character that is no part of a number. -/
theorem extractPhone_eq_scan (input : List Char) :
    extractPhone input = ((trimString input).foldl PhoneScan.read ⟨[], false, []⟩).flush := by
  have hcontrol : ∀ c ∈ trimString input, decide (c.toNat ≤ 32) = true →
      isPhoneChar c = false ∧ c ≠ '+' := by
    intro c hc hle
    have hkept := (List.mem_filter.mp hc).2
    simp only [Bool.and_eq_true, decide_eq_true_eq, bne_iff_ne] at hkept hle
    constructor
    · by_contra hphone
      rw [Bool.not_eq_false] at hphone
      rcases toNat_of_isPhoneChar hphone with hspace | hlarge
      · exact hkept.2 hspace
      · omega
    · rintro rfl
      exact absurd hle (by decide)
  unfold extractPhone trim
  rw [flush_foldl_rdropWhile, foldl_dropWhile _ _ hcontrol]
  intro c hc hle
  exact (hcontrol c ((List.dropWhile_suffix _).subset hc) hle).1

/-- The numbers of a text, the sign from its first `'+'` on. -/
theorem extractPhone_eq (input : List Char) :
    extractPhone input =
      phonesOf false ((trimString input).takeWhile (· != '+')) ++
        phonesOf true ((trimString input).dropWhile (· != '+')) := by
  rw [extractPhone_eq_scan, scan_eq _ _ (by simp)]
  simp

/-! ## Lines -/

theorem trimString_append_newline (a b : List Char) :
    trimString (a ++ '\n' :: b) = trimString a ++ '/' :: trimString b := by
  unfold trimString
  rw [List.map_append, List.map_cons, List.filter_append, List.filter_cons_of_pos (by decide)]
  rfl

/-- A plus sign stays, wherever it stands: it is looked for in the whole text. -/
theorem plus_mem_trimString (a : List Char) : '+' ∈ trimString a ↔ '+' ∈ a := by
  unfold trimString
  rw [List.mem_filter, List.mem_map]
  constructor
  · intro ⟨⟨c, hmem, hc⟩, _⟩
    split_ifs at hc with hline
    · exact absurd hc (by decide)
    · rw [← hc]
      exact hmem
  · intro hmem
    exact ⟨⟨'+', hmem, by decide⟩, by decide⟩

/-- A run is a number if it has at least eight digits; all others of its
characters are dropped. -/
theorem tryConvertToPhone_eq_some {run temp : List Char} {hasPlus : Bool} :
    tryConvertToPhone run hasPlus = some temp ↔
      7 < (run.filter isDigit).length ∧
        temp = if hasPlus then '+' :: run.filter isDigit else run.filter isDigit := by
  unfold tryConvertToPhone
  cases hasPlus <;> simp [eq_comm]

/-- The sign makes no difference exactly to a text without numbers, whose runs
have fewer than eight digits each. -/
theorem phonesOf_true_eq_false_iff (text : List Char) :
    phonesOf true text = phonesOf false text ↔
      ∀ run ∈ runs isPhoneChar text, (run.filter isDigit).length < 8 := by
  constructor
  · intro heq run hrun
    by_contra hlong
    have hphone : '+' :: run.filter isDigit ∈ phonesOf true text :=
      List.mem_filterMap.mpr
        ⟨run, hrun, tryConvertToPhone_eq_some.mpr ⟨by omega, by simp⟩⟩
    rw [heq] at hphone
    obtain ⟨run', _, hrun'⟩ := List.mem_filterMap.mp hphone
    have hdigits := (tryConvertToPhone_eq_some.mp hrun').2
    simp only [Bool.false_eq_true, if_false] at hdigits
    have hplus : '+' ∈ run'.filter isDigit := by simp [← hdigits]
    exact absurd (List.mem_filter.mp hplus).2 (by decide)
  · intro hshort
    have hnone : ∀ hasPlus, phonesOf hasPlus text = [] := by
      intro hasPlus
      unfold phonesOf
      rw [List.filterMap_eq_nil_iff]
      intro run hrun
      have hlen := hshort run hrun
      rw [Option.eq_none_iff_forall_ne_some]
      intro temp hsome
      have hlong := (tryConvertToPhone_eq_some.mp hsome).1
      omega
    rw [hnone, hnone]

/-- **When lines are independent.**  The numbers of two lines are those of the
first followed by those of the second exactly when the first holds no `'+'`,
or the second has no number before a `'+'` of its own.  Both sides share the
numbers of the first line, so it is the signs of the second that are compared. -/
theorem extractPhone_append_iff (a b : List Char) :
    extractPhone (a ++ '\n' :: b) = extractPhone a ++ extractPhone b ↔
      '+' ∉ a ∨ ∀ run ∈ runs isPhoneChar ((trimString b).takeWhile (· != '+')),
        (run.filter isDigit).length < 8 := by
  have hslash : isPhoneChar '/' = false := by decide
  rw [← plus_mem_trimString, ← phonesOf_true_eq_false_iff]
  simp only [extractPhone_eq, trimString_append_newline]
  by_cases hplus : '+' ∈ trimString a
  · obtain ⟨front, rest, ha, hfront⟩ := List.eq_append_cons_of_mem hplus
    have hbefore : ∀ c ∈ front, (c != '+') = true := by
      intro c hc
      rw [bne_iff_ne]
      rintro rfl
      exact hfront hc
    have hmem : '+' ∈ front ++ '+' :: rest := by simp
    have hcut : ∀ k, (front ++ '+' :: k).takeWhile (· != '+') = front := by
      intro k
      rw [List.takeWhile_append_of_pos hbefore]
      simp
    have hrest : ∀ k, (front ++ '+' :: k).dropWhile (· != '+') = '+' :: k := by
      intro k
      rw [List.dropWhile_append_of_pos hbefore]
      simp
    have hjoin : phonesOf true ('+' :: (rest ++ '/' :: trimString b)) =
        phonesOf true ('+' :: rest) ++ (phonesOf true ((trimString b).takeWhile (· != '+')) ++
          phonesOf true ((trimString b).dropWhile (· != '+'))) := by
      rw [← List.cons_append, phonesOf_append_cons true hslash, phonesOf_split true (trimString b)]
    rw [ha, List.append_assoc, List.cons_append, hcut, hrest, hcut, hrest, hjoin]
    simp only [List.append_assoc, List.append_cancel_left_eq, List.append_cancel_right_eq, hmem,
      not_true_eq_false, false_or]
  · have hbefore : ∀ c ∈ trimString a, (c != '+') = true := by
      intro c hc
      rw [bne_iff_ne]
      rintro rfl
      exact hplus hc
    have hall := List.takeWhile_eq_self_iff.mpr hbefore
    have hnil := List.dropWhile_eq_nil_iff.mpr hbefore
    simp [hplus, hall, hnil, List.takeWhile_append_of_pos hbefore,
      List.dropWhile_append_of_pos hbefore, phonesOf_append_cons false hslash]

/-- A `'+'` alone in the first line signs the number of the second. -/
theorem not_extractPhone_append : ¬ ∀ a b : List Char,
    extractPhone (a ++ '\n' :: b) = extractPhone a ++ extractPhone b := by
  intro h
  have hleak := h ['+'] ['0', '1', '2', '3', '4', '5', '6', '7', '8', '9']
  exact absurd hleak (by decide)

end CardScanner
