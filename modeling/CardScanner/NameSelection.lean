import CardScanner.CardText
import CardScanner.JavaText

/-!
# Choosing the name line

`StringUtil.getNameFromRawOutput` looks for the line of a card that holds the
name.  One pass sorts the texts of the usable lines into two lists, those
without small letters (`listExpect`) and the others (`listAvailable`); a text
goes into the second list once for every surname in it.  The first list that is
not empty decides, and in it a text with the title `TS`; when both are empty,
the first short line is taken as it is.

`selectName` states the choice on the lines themselves.  The repeated entries
make no difference to it (`find?_repeated`, `head?_repeated`).

Upper case and the two tests of characters are parameters: they come from
Java's Unicode tables.  So is the list of surnames, a resource.
-/

namespace CardScanner

section Names

variable (toUpperCase : List Char → List Char) (isLetter isUpperCase : Char → Bool)
  (listNames : List (List Char))

/-! ## The code -/

/-- `listNames.contains(word.toUpperCase())`: the word, in capitals, is in the
list of surnames. -/
def isSurname (word : List Char) : Bool := listNames.contains (toUpperCase word)

/-- The two lists. -/
structure NameScan where
  listExpect : List (List Char)
  listAvailable : List (List Char)

/-- The body of the first loop.  Lines all in capitals go to the one list,
others to the other, once for each surname. -/
def NameScan.read (s : NameScan) (model : LineModel) : NameScan :=
  let text := trim model.text
  if contains text [':'] || contains text ['_'] then s
  else
    let listWords := split ' ' text
    let count1 := text.countP isLetter
    let count2 := text.countP fun c => isLetter c && isUpperCase c
    if count1 = count2 ∧ listWords.length ≤ 7 then
      if listWords.any (isSurname toUpperCase listNames) then
        { s with listExpect := s.listExpect ++ [text] }
      else s
    else if listWords.length ≤ 7 then
      { s with
        listAvailable := listWords.foldl (fun listAvailable word =>
          if isSurname toUpperCase listNames word then listAvailable ++ [text]
          else listAvailable) s.listAvailable }
    else s

/-- The loop over one of the lists: the first text with the title, or the
first. -/
def firstTitled (texts : List (List Char)) : Option (List Char) :=
  match texts.find? fun s => contains (toUpperCase s) ['T', 'S'] with
  | some s => some s
  | none => texts.head?

/-- The test of the last loop.  `listWords[0]` is read only when there are more
than seven words. -/
def isFallbackLine (model : LineModel) : Bool :=
  let listWords := split ' ' (trim model.text)
  listWords.length ≤ 7 || charCount (listWords.headD []) ≥ 5

/-- `getNameFromRawOutput`; no result stands for `null`. -/
def getNameFromRawOutput (list : List LineModel) : Option (List Char) :=
  let s := list.foldl (NameScan.read toUpperCase isLetter isUpperCase listNames) ⟨[], []⟩
  if s.listExpect.length ≠ 0 then firstTitled toUpperCase s.listExpect
  else if s.listAvailable.length ≠ 0 then firstTitled toUpperCase s.listAvailable
  else (list.find? isFallbackLine).map LineModel.text

/-! ## The choice -/

/-- A line of at most seven words, one of them a surname, without the
characters of other fields. -/
def isAdmissible (model : LineModel) : Bool :=
  let text := trim model.text
  !contains text [':'] && !contains text ['_'] && (split ' ' text).length ≤ 7 &&
    (split ' ' text).any (isSurname toUpperCase listNames)

/-- Every letter is upper-case. -/
def isAllUpper (model : LineModel) : Bool :=
  (trim model.text).all fun c => !isLetter c || isUpperCase c

/-- The text of the first line with the title, or of the first. -/
def preferred (lines : List LineModel) : Option (List Char) :=
  ((lines.find? fun model => contains (toUpperCase (trim model.text)) ['T', 'S']).or
    lines.head?).map fun model => trim model.text

/-- The line with the name. -/
def selectName (list : List LineModel) : Option (List Char) :=
  let admissible := list.filter (isAdmissible toUpperCase listNames)
  let allUpper := admissible.filter (isAllUpper isLetter isUpperCase)
  if allUpper ≠ [] then preferred toUpperCase allUpper
  else if admissible ≠ [] then preferred toUpperCase admissible
  else (list.find? isFallbackLine).map LineModel.text

/-! ## Repeated entries -/

variable {toUpperCase isLetter isUpperCase listNames}

/-- `texts` holds the texts of `lines` in order, each at least once. -/
inductive Repeats : List LineModel → List (List Char) → Prop where
  | nil : Repeats [] []
  | cons {model : LineModel} {lines : List LineModel} {texts : List (List Char)} (n : Nat)
      (h : Repeats lines texts) :
      Repeats (model :: lines) (List.replicate (n + 1) (trim model.text) ++ texts)

/-- A further line with a further text, repeated as often as the line weighs. -/
theorem Repeats.concat {lines : List LineModel} {texts : List (List Char)}
    (h : Repeats lines texts) (model : LineModel) (n : Nat) :
    Repeats (lines ++ [model]) (texts ++ List.replicate (n + 1) (trim model.text)) := by
  induction h with
  | nil =>
      have hone : Repeats [model] (List.replicate (n + 1) (trim model.text) ++ []) := .cons n .nil
      rw [List.append_nil] at hone
      exact hone
  | cons k _ ih =>
      rw [List.append_assoc]
      exact .cons k ih

/-- The first text of a kind is the text of the first line of that kind, since
repetition changes no order. -/
theorem Repeats.find? {lines : List LineModel} {texts : List (List Char)}
    (h : Repeats lines texts) (p : List Char → Bool) :
    texts.find? p = (lines.find? fun model => p (trim model.text)).map fun model =>
      trim model.text := by
  induction h with
  | nil => rfl
  | @cons model lines texts n _ ih =>
      rw [List.find?_append, ih]
      by_cases hp : p (trim model.text) = true
      · simp [List.replicate_succ, hp]
      · simp [hp]

/-- So the first text is that of the first line. -/
theorem Repeats.head? {lines : List LineModel} {texts : List (List Char)}
    (h : Repeats lines texts) : texts.head? = lines.head?.map fun model => trim model.text := by
  cases h <;> rfl

theorem Repeats.length_eq_zero {lines : List LineModel} {texts : List (List Char)}
    (h : Repeats lines texts) : texts.length = 0 ↔ lines = [] := by
  cases h <;> simp

/-- The choice among repeated texts is the choice among the lines. -/
theorem Repeats.firstTitled {lines : List LineModel} {texts : List (List Char)}
    (h : Repeats lines texts) :
    CardScanner.firstTitled toUpperCase texts = preferred toUpperCase lines := by
  unfold CardScanner.firstTitled preferred
  rw [h.find?, h.head?]
  cases lines.find? fun model => contains (toUpperCase (trim model.text)) ['T', 'S'] <;> rfl

/-! ## The pass -/

/-- All letters are capitals exactly if there are as many capitals as letters. -/
theorem countP_eq_iff {text : List Char} :
    text.countP isLetter = text.countP (fun c => isLetter c && isUpperCase c) ↔
      (text.all fun c => !isLetter c || isUpperCase c) = true := by
  induction text with
  | nil => simp
  | cons c text ih =>
      have hle : text.countP (fun c => isLetter c && isUpperCase c) ≤ text.countP isLetter :=
        List.countP_mono_left fun d _ hd => (Bool.and_eq_true_iff.mp hd).1
      rw [List.all_cons, List.countP_cons, List.countP_cons]
      cases hletter : isLetter c with
      | false => simpa [hletter] using ih
      | true =>
          cases hupper : isUpperCase c with
          | true => simpa [hupper] using ih
          | false =>
              simp only [Bool.and_false, Bool.false_eq_true, if_true, if_false, Bool.not_true,
                Bool.or_false, Bool.false_and, iff_false]
              omega

/-- The inner loop adds the text once for each surname among its words. -/
theorem foldl_surnames (text : List Char) (listWords listAvailable : List (List Char)) :
    listWords.foldl (fun listAvailable word =>
        if isSurname toUpperCase listNames word then listAvailable ++ [text]
        else listAvailable) listAvailable =
      listAvailable ++
        List.replicate (listWords.countP (isSurname toUpperCase listNames)) text := by
  induction listWords generalizing listAvailable with
  | nil => simp
  | cons word listWords ih =>
      rw [List.foldl_cons, ih, List.countP_cons]
      split_ifs with hsurname
      · rw [List.append_assoc, List.singleton_append, ← List.replicate_succ]
      · rfl

/-- A line that is not admissible leaves the lists alone, for whichever reason
it is not. -/
theorem read_of_not_admissible (s : NameScan) {model : LineModel}
    (h : isAdmissible toUpperCase listNames model = false) :
    s.read toUpperCase isLetter isUpperCase listNames model = s := by
  unfold NameScan.read
  simp only [foldl_surnames]
  by_cases hfield : (contains (trim model.text) [':'] || contains (trim model.text) ['_']) = true
  · rw [if_pos hfield]
  · by_cases hlen : (split ' ' (trim model.text)).length ≤ 7
    · have hnone : (split ' ' (trim model.text)).any (isSurname toUpperCase listNames) = false := by
        simp only [Bool.or_eq_true, not_or, Bool.not_eq_true] at hfield
        simpa [isAdmissible, hfield.1, hfield.2, hlen] using h
      have hcount : (split ' ' (trim model.text)).countP (isSurname toUpperCase listNames) = 0 := by
        rw [List.countP_eq_zero]
        simpa using hnone
      simp [hfield, hlen, hnone, hcount]
    · simp [hfield, hlen]

/-- What an admissible line is like: it has none of the marks of a field, at
most seven words, and a surname among them. -/
theorem of_isAdmissible {model : LineModel} (h : isAdmissible toUpperCase listNames model = true) :
    (contains (trim model.text) [':'] || contains (trim model.text) ['_']) = false ∧
      (split ' ' (trim model.text)).length ≤ 7 ∧
      (split ' ' (trim model.text)).any (isSurname toUpperCase listNames) = true := by
  simp only [isAdmissible, Bool.and_eq_true, Bool.not_eq_true', decide_eq_true_eq] at h
  obtain ⟨⟨⟨hcolon, hbar⟩, hlen⟩, hany⟩ := h
  exact ⟨by rw [hcolon, hbar]; rfl, hlen, hany⟩

/-- An admissible line without small letters. -/
theorem read_of_allUpper (s : NameScan) {model : LineModel}
    (h : isAdmissible toUpperCase listNames model = true)
    (hupper : isAllUpper isLetter isUpperCase model = true) :
    s.read toUpperCase isLetter isUpperCase listNames model =
      { s with listExpect := s.listExpect ++ [trim model.text] } := by
  obtain ⟨hfield, hlen, hany⟩ := of_isAdmissible h
  have hcount := countP_eq_iff.mpr hupper
  unfold NameScan.read
  simp only [hfield, Bool.false_eq_true, if_false]
  rw [if_pos ⟨hcount, hlen⟩, if_pos hany]

/-- Any other admissible line is kept as available, once or more often. -/
theorem read_of_not_allUpper (s : NameScan) {model : LineModel}
    (h : isAdmissible toUpperCase listNames model = true)
    (hupper : isAllUpper isLetter isUpperCase model = false) :
    ∃ n, s.read toUpperCase isLetter isUpperCase listNames model =
      { s with
        listAvailable := s.listAvailable ++ List.replicate (n + 1) (trim model.text) } := by
  obtain ⟨hfield, hlen, hany⟩ := of_isAdmissible h
  have hcount : ¬ (trim model.text).countP isLetter =
      (trim model.text).countP fun c => isLetter c && isUpperCase c := by
    intro heq
    exact absurd ((countP_eq_iff.mp heq).symm.trans hupper) (by decide)
  have hpos : 0 < (split ' ' (trim model.text)).countP (isSurname toUpperCase listNames) := by
    rw [List.countP_pos_iff]
    exact List.any_eq_true.mp hany
  obtain ⟨n, hn⟩ := Nat.exists_eq_succ_of_ne_zero hpos.ne'
  refine ⟨n, ?_⟩
  unfold NameScan.read
  simp only [hfield, Bool.false_eq_true, if_false, foldl_surnames]
  rw [if_neg fun h => hcount h.1, if_pos hlen, hn]

variable (toUpperCase isLetter isUpperCase listNames) in
/-- The lists after the pass: the admissible lines, those without small letters
apart from the others. -/
structure Sorted (list : List LineModel) (s : NameScan) : Prop where
  expect : Repeats ((list.filter (isAdmissible toUpperCase listNames)).filter
    (isAllUpper isLetter isUpperCase)) s.listExpect
  available : Repeats ((list.filter (isAdmissible toUpperCase listNames)).filter fun model =>
    !isAllUpper isLetter isUpperCase model) s.listAvailable

theorem Sorted.read {list : List LineModel} {s : NameScan} (model : LineModel)
    (h : Sorted toUpperCase isLetter isUpperCase listNames list s) :
    Sorted toUpperCase isLetter isUpperCase listNames (list ++ [model])
      (s.read toUpperCase isLetter isUpperCase listNames model) := by
  obtain ⟨hexpect, havailable⟩ := h
  cases hadmissible : isAdmissible toUpperCase listNames model with
  | false =>
      rw [read_of_not_admissible s hadmissible]
      constructor
      · simpa [List.filter_append, hadmissible] using hexpect
      · simpa [List.filter_append, hadmissible] using havailable
  | true =>
      cases hupper : isAllUpper isLetter isUpperCase model with
      | true =>
          rw [read_of_allUpper s hadmissible hupper]
          constructor
          · simpa [List.filter_append, hadmissible, hupper] using hexpect.concat model 0
          · simpa [List.filter_append, hadmissible, hupper] using havailable
      | false =>
          obtain ⟨n, hread⟩ := read_of_not_allUpper s hadmissible hupper
          rw [hread]
          constructor
          · simpa [List.filter_append, hadmissible, hupper] using hexpect
          · simpa [List.filter_append, hadmissible, hupper] using havailable.concat model n

/-- After the loop every line is where it belongs, by induction on the lines. -/
theorem sorted_foldl (list : List LineModel) :
    Sorted toUpperCase isLetter isUpperCase listNames list
      (list.foldl (NameScan.read toUpperCase isLetter isUpperCase listNames) ⟨[], []⟩) := by
  induction list using List.reverseRecOn with
  | nil => exact ⟨.nil, .nil⟩
  | append_singleton list model ih =>
      rw [List.foldl_append]
      exact ih.read model

/-! ## The result -/

/-- A name is preferred as soon as there is a line to take one from. -/
theorem preferred_eq_none {lines : List LineModel} :
    preferred toUpperCase lines = none ↔ lines = [] := by
  unfold preferred
  rw [Option.map_eq_none_iff, Option.or_eq_none_iff, List.head?_eq_none_iff]
  constructor
  · exact fun h => h.2
  · rintro rfl
    exact ⟨rfl, rfl⟩

/-- There is no name exactly when no line is admissible and none short. -/
theorem selectName_eq_none {list : List LineModel} :
    selectName toUpperCase isLetter isUpperCase listNames list = none ↔
      ∀ model ∈ list, isAdmissible toUpperCase listNames model = false ∧
        isFallbackLine model = false := by
  unfold selectName
  simp only
  split_ifs with hupper hadmissible
  · rw [preferred_eq_none]
    refine iff_of_false hupper ?_
    intro h
    apply hupper
    rw [List.filter_filter, List.filter_eq_nil_iff]
    intro model hmodel
    simp [(h model hmodel).1]
  · rw [preferred_eq_none]
    refine iff_of_false hadmissible ?_
    intro h
    apply hadmissible
    rw [List.filter_eq_nil_iff]
    intro model hmodel
    simp [(h model hmodel).1]
  · rw [Option.map_eq_none_iff, List.find?_eq_none]
    rw [not_not, List.filter_eq_nil_iff] at hadmissible
    constructor
    · intro h model hmodel
      exact ⟨by simpa using hadmissible model hmodel, by simpa using h model hmodel⟩
    · intro h model hmodel
      simp [(h model hmodel).2]

/-- **The name line.**  The two lists and their loops make the choice that
`selectName` states, and there is no result exactly when no line qualifies.
If no line is all in capitals, the second list holds every admissible one. -/
theorem getNameFromRawOutput_eq (toUpperCase : List Char → List Char)
    (isLetter isUpperCase : Char → Bool) (listNames : List (List Char)) (list : List LineModel) :
    getNameFromRawOutput toUpperCase isLetter isUpperCase listNames list =
        selectName toUpperCase isLetter isUpperCase listNames list ∧
      (getNameFromRawOutput toUpperCase isLetter isUpperCase listNames list = none ↔
        ∀ model ∈ list, isAdmissible toUpperCase listNames model = false ∧
          isFallbackLine model = false) := by
  have heq : getNameFromRawOutput toUpperCase isLetter isUpperCase listNames list =
      selectName toUpperCase isLetter isUpperCase listNames list := by
    have hsorted : Sorted toUpperCase isLetter isUpperCase listNames list _ := sorted_foldl list
    obtain ⟨hexpect, havailable⟩ := hsorted
    unfold getNameFromRawOutput selectName
    simp only [ne_eq, hexpect.length_eq_zero, havailable.length_eq_zero, hexpect.firstTitled,
      havailable.firstTitled]
    by_cases hupper : (list.filter (isAdmissible toUpperCase listNames)).filter
        (isAllUpper isLetter isUpperCase) = []
    · have hall : (list.filter (isAdmissible toUpperCase listNames)).filter
          (fun model => !isAllUpper isLetter isUpperCase model) =
            list.filter (isAdmissible toUpperCase listNames) := by
        rw [List.filter_eq_nil_iff] at hupper
        rw [List.filter_eq_self]
        intro model hmodel
        simpa using hupper model hmodel
      rw [hall]
    · rw [if_pos hupper, if_pos hupper]
  exact ⟨heq, heq ▸ selectName_eq_none⟩

end Names

end CardScanner
