import CardScanner.EmailText
import CardScanner.Regex

/-!
# The e-mail pattern

`extractEmails` collects what the pattern `RE_MAIL` matches in the corrected
text; when nothing matches it falls back to the words with an `'@'`.

A match has exactly one `'@'`, so whether an `'@'` belongs to a match depends on
the pieces of text on both sides of it.

* The piece before it has to end in a local part: a stretch of letters, digits,
  `'_'` and `'.'` that does not end in a dot, possibly with one `'-'` in front.
  The match begins behind the dots the stretch begins with
  (`isLocal_localOf`, `hasLocal_of_suffix`).
* The piece behind it has to begin with labels, each closed by a dot, and two
  letters behind the last dot.  Backtracking settles for the last dot that two
  letters follow and takes up to four of them (`head?_rests_domainPart`).

`find_mail` and `find_miss` say what the search does at the first `'@'`.
-/

namespace CardScanner

open Machine Regex

/-! ## The code -/

/-- `\w`: without flags these are ASCII characters only. -/
def isWordChar (c : Char) : Bool := c.isAlphanum || c == '_'

/-- `[\w\-]`, which the labels of a domain are made of. -/
def isLabelChar (c : Char) : Bool := isWordChar c || c == '-'

/-- `[\.\w]`, which the middle of a local part is made of; it has no hyphen. -/
def isLocalChar (c : Char) : Bool := c == '.' || isWordChar c

/-- `[\w\-]([\.\w])+[\w]+@`: three characters at least, the first of which may
be a hyphen; dots are between the first and the last. -/
def localPart : Pattern Char :=
  .seq (.one isLabelChar) (.seq (.plus (.one isLocalChar))
    (.seq (.plus (.one isWordChar)) (.one (· == '@'))))

/-- `[\w\-]+\.`: a label takes all it can, as the dot is none of its
characters. -/
def labelPart : Pattern Char := .seq (.plus (.one isLabelChar)) (.one (· == '.'))

/-- `([\w\-]+\.)+[A-Za-z]{2,4}`. -/
def domainPart : Pattern Char := .seq (.plus labelPart) (.between 2 2 (.one Char.isAlpha))

/-- `RE_MAIL`: a local part and a domain.  What stands before and behind a
match is not looked at. -/
def reMail : Pattern Char := .seq localPart domainPart

/-- The loop over the matches: each address once. -/
def collectMails (found : List (Found Char)) : List (List Char) :=
  found.foldl (fun listEmails m =>
    if listEmails.contains m.matched then listEmails else listEmails ++ [m.matched]) []

section Fallback

variable (toUpperCase toLowerCase : Char → Char)

/-- The body of the loop over the words, used when nothing matched. -/
def addWord (listWords : List (List Char)) (listEmails : List (List Char)) (i : Nat) :
    Option (List (List Char)) := do
  let temp ← listWords[i]?
  if contains temp ['@'] then
    let temp ←
      (if !contains temp ['c', 'o', 'm'] then
        if i + 1 > listWords.length then do
          let next ← listWords[i + 1]?
          if equalsIgnoreCase toUpperCase toLowerCase next (some ['c', 'o', 'm']) then
            some (temp ++ ['c', 'o', 'm'])
          else some temp
        else some temp
      else some temp)
    some (listEmails ++ [temp])
  else some listEmails

/-- `extractEmails`; no result stands for an index outside an array. -/
def extractEmails (input : List Char) : Option (List (List Char)) := do
  let text ← correctString input
  let listEmails := collectMails (findAll reMail text)
  if listEmails.length = 0 then
    let listWords := split ' ' text
    (List.range listWords.length).foldlM (addWord toUpperCase toLowerCase listWords) []
  else some listEmails

/-- The words are taken as they are: the test for a next word never holds. -/
theorem addWord_eq (listWords listEmails : List (List Char)) {i : Nat} {temp : List Char}
    (hi : listWords[i]? = some temp) :
    addWord toUpperCase toLowerCase listWords listEmails i =
      some (if contains temp ['@'] then listEmails ++ [temp] else listEmails) := by
  have hlen := (List.getElem?_eq_some_iff.mp hi).1
  unfold addWord
  simp only [hi, Option.bind_eq_bind, Option.bind_some]
  by_cases hat : contains temp ['@'] = true
  · rw [if_pos hat, if_pos hat, if_neg (show ¬ i + 1 > listWords.length by omega)]
    simp only [ite_self, Option.bind_some]
  · rw [if_neg hat, if_neg hat]

/-- **The fallback.**  It returns the words with an `'@'`, in their order and
as they are: no index is out of range, and the branch that would complete one
is never taken. -/
theorem foldlM_addWord (listWords : List (List Char)) :
    (List.range listWords.length).foldlM (addWord toUpperCase toLowerCase listWords) [] =
      some (listWords.filter fun temp => contains temp ['@']) := by
  have hstep : ∀ i (listEmails : List (List Char)), i < listWords.length →
      listEmails = (listWords.take i).filter (fun temp => contains temp ['@']) →
      ∃ next, addWord toUpperCase toLowerCase listWords listEmails i = some next ∧
        next = (listWords.take (i + 1)).filter fun temp => contains temp ['@'] := by
    intro i listEmails hi heq
    refine ⟨_, addWord_eq toUpperCase toLowerCase listWords listEmails
      (List.getElem?_eq_getElem hi), ?_⟩
    rw [List.take_succ_eq_append_getElem hi, List.filter_append, ← heq]
    by_cases hat : contains listWords[i] ['@'] = true
    · simp [hat]
    · simp [hat]
  obtain ⟨listEmails, hrun, heq⟩ := foldlM_range_invariant hstep rfl
  rw [List.take_zero, List.filter_nil] at hrun
  rw [hrun, heq, List.take_length]

end Fallback

/-- The list holds what matched, nothing else.  A match that is in it already
is not added again. -/
theorem mem_collectMails {found : List (Found Char)} {mail : List Char} :
    mail ∈ collectMails found ↔ ∃ m ∈ found, m.matched = mail := by
  have hfold : ∀ listEmails : List (List Char),
      mail ∈ found.foldl (fun listEmails m =>
        if listEmails.contains m.matched then listEmails else listEmails ++ [m.matched])
        listEmails ↔ mail ∈ listEmails ∨ ∃ m ∈ found, m.matched = mail := by
    induction found with
    | nil => simp
    | cons m found ih =>
        intro listEmails
        rw [List.foldl_cons, ih]
        split_ifs with hold
        · have hmem : m.matched ∈ listEmails := by simpa using hold
          grind
        · grind
  unfold collectMails
  rw [hfold]
  simp

/-! ## The domain -/

/-- The letters a text begins with. -/
def letters (d : List Char) : Nat := (d.takeWhile Char.isAlpha).length

/-- What stands behind the last dot that closes a label and is followed by two
letters.  `open'` says that the label read has a character. -/
def lastLabel (open' : Bool) : List Char → Option (List Char)
  | [] => none
  | c :: d =>
      if isLabelChar c then lastLabel true d
      else if c = '.' ∧ open' then
        (lastLabel false d).or (if 2 ≤ letters d then some d else none)
      else none

/-- What is left behind the letters a match takes of the last label. -/
def afterLetters (label : List Char) : List Char := label.drop (min 4 (letters label))

theorem lastLabel_run (open' : Bool) {run : List Char} (hrun : ∀ c ∈ run, isLabelChar c = true)
    (d : List Char) : lastLabel open' (run ++ d) = lastLabel (open' || !run.isEmpty) d := by
  induction run generalizing open' with
  | nil => simp
  | cons c run ih =>
      have hc := hrun c List.mem_cons_self
      rw [List.cons_append, lastLabel, if_pos hc, ih true fun x hx =>
        hrun x (List.mem_cons_of_mem _ hx)]
      simp

/-- What stands behind the first label and its dot. -/
def afterLabel (d : List Char) : Option (List Char) :=
  if d.takeWhile isLabelChar = [] then none
  else
    match d.dropWhile isLabelChar with
    | [] => none
    | c :: rest => if c = '.' then some rest else none

/-- A label and its dot take all they can, and there is one way to match them
at most. -/
theorem rests_labelPart (d : List Char) : rests labelPart d = (afterLabel d).toList := by
  have hclass : ∀ c, (c == '.') = true → isLabelChar c = false := by
    intro c hc
    rw [eq_of_beq hc]
    decide
  refine (rests_plus_one_seq_one hclass d).trans ?_
  unfold afterLabel
  split_ifs
  · rfl
  · cases hrest : d.dropWhile isLabelChar with
    | nil => rfl
    | cons c rest =>
        by_cases hdot : c = '.' <;> simp [rests, hdot]

theorem afterLabel_length {d rest : List Char} (h : afterLabel d = some rest) :
    rest.length < d.length := by
  unfold afterLabel at h
  split_ifs at h
  have hle := (List.dropWhile_suffix (l := d) isLabelChar).length_le
  cases hrest : d.dropWhile isLabelChar with
  | nil =>
      rw [hrest] at h
      cases h
  | cons c tail =>
      rw [hrest] at h hle
      simp only at h
      split_ifs at h
      cases h
      exact hle

/-- The last label is looked for label by label: one in the rest is preferred,
as the pattern takes as much as it can. -/
theorem lastLabel_eq (d : List Char) :
    lastLabel false d = (afterLabel d).bind fun rest =>
      (lastLabel false rest).or (if 2 ≤ letters rest then some rest else none) := by
  have hall : ∀ c ∈ d.takeWhile isLabelChar, isLabelChar c = true :=
    fun c hc => List.mem_takeWhile_imp hc
  have hrun := lastLabel_run false hall (d.dropWhile isLabelChar)
  rw [List.takeWhile_append_dropWhile, Bool.false_or] at hrun
  rw [hrun]
  unfold afterLabel
  have hstop : ∀ c rest, d.dropWhile isLabelChar = c :: rest → isLabelChar c ≠ true := by
    intro c rest hrest
    have hhead := List.head_dropWhile_not isLabelChar (l := d) (by simp [hrest])
    simpa [hrest] using hhead
  cases hrest : d.dropWhile isLabelChar with
  | nil => split_ifs <;> rfl
  | cons c rest =>
      have hc := hstop c rest hrest
      by_cases hempty : d.takeWhile isLabelChar = []
      · simp [lastLabel, hc, hempty]
      · have hopen : (!(d.takeWhile isLabelChar).isEmpty) = true := by simp [hempty]
        rw [if_neg hempty, hopen, lastLabel, if_neg hc]
        by_cases hdot : c = '.' <;> simp [hdot]

theorem head?_rests_domainPart_eq (d : List Char) :
    (rests domainPart d).head? = (afterLabel d).bind fun rest =>
      (rests domainPart rest).head?.or
        (if 2 ≤ letters rest then some (afterLetters rest) else none) := by
  change ((rests (.plus labelPart) d).flatMap (rests (.between 2 2 (.one Char.isAlpha)))).head? = _
  rw [rests_plus, rests_labelPart]
  cases hlabel : afterLabel d with
  | none => rfl
  | some rest =>
      have hlen := afterLabel_length hlabel
      have hletters := head?_rests_between_one Char.isAlpha 2 2 rest
      rw [Option.toList_some, List.flatMap_singleton, if_pos hlen, List.flatMap_append,
        List.flatMap_singleton, List.head?_append, hletters]
      rfl

/-- **The domain.**  Backtracking finds the last dot that two letters follow,
and takes as many letters behind it as it may, which is four. -/
theorem head?_rests_domainPart (d : List Char) :
    (rests domainPart d).head? = (lastLabel false d).map afterLetters := by
  induction hn : d.length using Nat.strongRecOn generalizing d with
  | ind n ih =>
      rw [head?_rests_domainPart_eq, lastLabel_eq]
      cases hlabel : afterLabel d with
      | none => rfl
      | some rest =>
          rw [Option.bind_some, Option.bind_some, Option.map_or,
            ih rest.length (hn ▸ afterLabel_length hlabel) rest rfl]
          congr 1
          split_ifs <;> rfl

/-- The last label is a suffix that begins with two letters; it goes on to the
end of the text. -/
theorem of_lastLabel_eq_some {open' : Bool} {d label : List Char}
    (h : lastLabel open' d = some label) : label <:+ d ∧ 2 ≤ letters label := by
  induction d generalizing open' with
  | nil => cases h
  | cons c d ih =>
      rw [lastLabel] at h
      split_ifs at h with hc hdot hletters
      · exact ⟨(ih h).1.trans (List.suffix_cons c d), (ih h).2⟩
      · rcases Option.or_eq_some_iff.mp h with hrest | ⟨_, hhere⟩
        · exact ⟨(ih hrest).1.trans (List.suffix_cons c d), (ih hrest).2⟩
        · cases hhere
          exact ⟨List.suffix_cons c label, hletters⟩
      · rw [Option.or_none] at h
        exact ⟨(ih h).1.trans (List.suffix_cons c d), (ih h).2⟩

theorem letters_append_at (d t : List Char) : letters (d ++ '@' :: t) = letters d := by
  unfold letters
  induction d with
  | nil => rfl
  | cons c d ih =>
      by_cases hc : c.isAlpha = true
      · simp [hc, ih]
      · simp [hc]

/-- An `'@'` ends the domain, so what is behind it does not count. -/
theorem lastLabel_append_at (open' : Bool) (d t : List Char) :
    lastLabel open' (d ++ '@' :: t) = (lastLabel open' d).map (· ++ '@' :: t) := by
  induction d generalizing open' with
  | nil =>
      have hlabel : isLabelChar '@' ≠ true := by decide
      simp [lastLabel, hlabel]
  | cons c d ih =>
      rw [List.cons_append, lastLabel, lastLabel, letters_append_at, ih, ih]
      split_ifs
      · rfl
      · rw [Option.map_or]
        rfl
      · simp
      · rfl

theorem afterLetters_append_at (label t : List Char) :
    afterLetters (label ++ '@' :: t) = afterLetters label ++ '@' :: t := by
  unfold afterLetters
  rw [letters_append_at, List.drop_append_of_le_length]
  have hle : letters label ≤ label.length := (List.takeWhile_prefix _).length_le
  omega

/-! ## The local part -/

/-- What stands before the `'@'` of a match. -/
def IsLocal (v : List Char) : Prop :=
  ∃ c mid, v = c :: mid ∧ isLabelChar c = true ∧ 2 ≤ mid.length ∧
    (∀ x ∈ mid, isLocalChar x = true) ∧ ∀ x, mid.getLast? = some x → isWordChar x = true

theorem isLocalChar_of_word {c : Char} (hc : isWordChar c = true) : isLocalChar c = true := by
  simp [isLocalChar, hc]

/-- The first half of the pattern accepts a local part with its `@`, and
nothing else. -/
theorem accepts_localPart_iff {w : List Char} :
    Accepts localPart w ↔ ∃ v, IsLocal v ∧ w = v ++ ['@'] := by
  unfold localPart
  simp only [accepts_seq_iff, accepts_plus_one_iff, accepts_one_iff]
  constructor
  · rintro ⟨_, _, ⟨c, hc, rfl⟩, ⟨u, _, ⟨hune, hu⟩, ⟨v, _, ⟨hvne, hv⟩, ⟨a, ha, rfl⟩, rfl⟩, rfl⟩, rfl⟩
    rw [eq_of_beq ha]
    refine ⟨c :: (u ++ v), ⟨c, u ++ v, rfl, hc, ?_, ?_, ?_⟩, by simp⟩
    · have hupos := List.length_pos_iff.mpr hune
      have hvpos := List.length_pos_iff.mpr hvne
      rw [List.length_append]
      omega
    · intro x hx
      rcases List.mem_append.mp hx with hx | hx
      · exact hu x hx
      · exact isLocalChar_of_word (hv x hx)
    · intro x hx
      rw [List.getLast?_append_of_ne_nil _ hvne] at hx
      exact hv x (List.mem_of_getLast? hx)
  · rintro ⟨_, ⟨c, mid, rfl, hc, hlen, hmid, hlast⟩, rfl⟩
    have hne : mid ≠ [] := by
      rintro rfl
      simp at hlen
    have hsplit := List.dropLast_append_getLast hne
    refine ⟨[c], mid ++ ['@'], ⟨c, hc, rfl⟩, ⟨mid.dropLast, [mid.getLast hne] ++ ['@'],
      ⟨?_, fun x hx => hmid x (List.dropLast_subset mid hx)⟩,
      ⟨[mid.getLast hne], ['@'], ⟨by simp, ?_⟩, ⟨'@', by decide, rfl⟩, rfl⟩, ?_⟩, rfl⟩
    · intro hnil
      have hshort := congrArg List.length hnil
      rw [List.length_dropLast, List.length_nil] at hshort
      omega
    · intro x hx
      rw [List.mem_singleton.mp hx]
      exact hlast _ (List.getLast?_eq_getLast_of_ne_nil hne)
    · rw [← List.append_assoc, hsplit]

theorem at_notMem_of_isLocal {v : List Char} (hv : IsLocal v) : '@' ∉ v := by
  obtain ⟨c, mid, rfl, hc, _, hmid, _⟩ := hv
  intro hmem
  rcases List.mem_cons.mp hmem with rfl | hmem
  · exact absurd hc (by decide)
  · exact absurd (hmid '@' hmem) (by decide)

/-- Two texts cut at their first `'@'`, the local parts having none: they
agree on both sides. -/
theorem append_at_inj {u v s t : List Char} (hu : '@' ∉ u) (hv : '@' ∉ v)
    (h : u ++ '@' :: s = v ++ '@' :: t) : u = v ∧ s = t := by
  induction u generalizing v with
  | nil =>
      cases v with
      | nil => exact ⟨rfl, (List.cons.inj h).2⟩
      | cons d v =>
          rw [(List.cons.inj h).1] at hv
          exact absurd List.mem_cons_self hv
  | cons c u ih =>
      cases v with
      | nil =>
          rw [← (List.cons.inj h).1] at hu
          exact absurd List.mem_cons_self hu
      | cons d v =>
          obtain ⟨rfl, hrest⟩ := List.cons.inj h
          obtain ⟨rfl, rfl⟩ := ih (fun hm => hu (List.mem_cons_of_mem _ hm))
            (fun hm => hv (List.mem_cons_of_mem _ hm)) hrest
          exact ⟨rfl, rfl⟩

/-- The local part ends at the next `'@'`. -/
theorem mem_rests_localPart {v t r : List Char} (hv : '@' ∉ v) :
    r ∈ rests localPart (v ++ '@' :: t) ↔ IsLocal v ∧ r = t := by
  rw [mem_rests_iff]
  constructor
  · rintro ⟨w, hw, hsplit⟩
    obtain ⟨u, hu, rfl⟩ := accepts_localPart_iff.mp hw
    rw [List.append_assoc] at hsplit
    obtain ⟨rfl, rfl⟩ := append_at_inj hv (at_notMem_of_isLocal hu) hsplit
    exact ⟨hu, rfl⟩
  · rintro ⟨hlocal, rfl⟩
    exact ⟨v ++ ['@'], accepts_localPart_iff.mpr ⟨v, hlocal, rfl⟩, by simp⟩

/-- The pattern matches at a place when a local part and a domain meet at the
next `'@'`. -/
theorem head?_rests_reMail {v : List Char} (hv : '@' ∉ v) (hlocal : IsLocal v) (t : List Char) :
    (rests reMail (v ++ '@' :: t)).head? = (rests domainPart t).head? := by
  have hall : ∀ r ∈ rests localPart (v ++ '@' :: t), r = t :=
    fun r hr => ((mem_rests_localPart hv).mp hr).2
  have hmem : t ∈ rests localPart (v ++ '@' :: t) := (mem_rests_localPart hv).mpr ⟨hlocal, rfl⟩
  obtain ⟨n, hn⟩ : ∃ n, rests localPart (v ++ '@' :: t) = List.replicate (n + 1) t := by
    have hreplicate := List.eq_replicate_of_mem hall
    cases hlen : (rests localPart (v ++ '@' :: t)).length with
    | zero =>
        rw [List.length_eq_zero_iff.mp hlen] at hmem
        cases hmem
    | succ n => exact ⟨n, by rw [← hlen]; exact hreplicate⟩
  change ((rests localPart (v ++ '@' :: t)).flatMap (rests domainPart)).head? = _
  rw [hn, List.replicate_succ, List.flatMap_cons, List.head?_append]
  cases hhead : (rests domainPart t).head? with
  | some r => rfl
  | none =>
      have hnil := List.head?_eq_none_iff.mp hhead
      simp [List.head?_flatMap, hnil]

/-- What stands before an `@` and is no local part begins no match. -/
theorem rests_reMail_of_not_isLocal {v : List Char} (hv : '@' ∉ v) (hlocal : ¬ IsLocal v)
    (t : List Char) : rests reMail (v ++ '@' :: t) = [] := by
  change (rests localPart (v ++ '@' :: t)).flatMap (rests domainPart) = _
  have hnone : rests localPart (v ++ '@' :: t) = [] := by
    rw [List.eq_nil_iff_forall_not_mem]
    intro r hr
    exact hlocal ((mem_rests_localPart hv).mp hr).1
  rw [hnone]
  rfl

/-- Without an `'@'` there is no match. -/
theorem rests_reMail_of_no_at {s : List Char} (hs : '@' ∉ s) : rests reMail s = [] := by
  rw [List.eq_nil_iff_forall_not_mem]
  intro r hr
  obtain ⟨q, hq, _⟩ := List.mem_flatMap.mp hr
  obtain ⟨w, hw, rfl⟩ := exists_of_mem_rests hq
  obtain ⟨v, _, rfl⟩ := accepts_localPart_iff.mp hw
  exact hs (by simp)

/-! ## Where a match begins -/

/-- The end of a piece of local characters, with a `'-'` in front of it. -/
def localStretch (piece : List Char) : List Char :=
  if (piece.rdropWhile isLocalChar).getLast? = some '-' then
    '-' :: piece.rtakeWhile isLocalChar
  else piece.rtakeWhile isLocalChar

/-- The piece without it. -/
def beforeStretch (piece : List Char) : List Char :=
  if (piece.rdropWhile isLocalChar).getLast? = some '-' then
    (piece.rdropWhile isLocalChar).dropLast
  else piece.rdropWhile isLocalChar

/-- The stretch without the dots it begins with. -/
def localOf (piece : List Char) : List Char := (localStretch piece).dropWhile (· == '.')

/-- The piece ends in a local part. -/
def hasLocal (piece : List Char) : Bool :=
  3 ≤ (localOf piece).length && piece.getLast?.all isWordChar

/-- The piece before an `@` is cut where its stretch of local characters
begins. -/
theorem beforeStretch_append (piece : List Char) :
    beforeStretch piece ++ localStretch piece = piece := by
  have hsplit := List.rdropWhile_append_rtakeWhile (p := isLocalChar) (l := piece)
  unfold beforeStretch localStretch
  split_ifs with hdash
  · obtain ⟨front, hfront⟩ := List.getLast?_eq_some_iff.mp hdash
    rw [hfront] at hsplit ⊢
    rw [List.dropLast_concat]
    rw [List.append_assoc] at hsplit
    exact hsplit
  · exact hsplit

/-- A text that ends in local characters keeps them in its stretch. -/
theorem rtakeWhile_append_of_all {p : Char → Bool} (l : List Char) {mid : List Char}
    (hmid : ∀ x ∈ mid, p x = true) :
    (l ++ mid).rtakeWhile p = l.rtakeWhile p ++ mid ∧
      (l ++ mid).rdropWhile p = l.rdropWhile p := by
  induction mid using List.reverseRecOn with
  | nil => simp
  | append_singleton mid c ih =>
      have hc := hmid c (by simp)
      obtain ⟨htake, hdrop⟩ := ih fun x hx => hmid x (List.mem_append_left _ hx)
      rw [← List.append_assoc]
      constructor
      · rw [List.rtakeWhile_concat_pos p _ c hc, htake, List.append_assoc]
      · rw [List.rdropWhile_concat_pos p _ c hc, hdrop]

/-- What begins with another character is not dropped, nor is anything behind
it. -/
theorem suffix_dropWhile {p : Char → Bool} {c : Char} {w l : List Char} (h : c :: w <:+ l)
    (hc : p c = false) : c :: w <:+ l.dropWhile p := by
  induction l with
  | nil => exact absurd (List.suffix_nil.mp h) (List.cons_ne_nil c w)
  | cons d l ih =>
      by_cases hd : p d = true
      · rw [List.dropWhile_cons_of_pos hd]
        rcases List.suffix_cons_iff.mp h with heq | hsuffix
        · obtain ⟨rfl, _⟩ := List.cons.inj heq
          rw [hc] at hd
          cases hd
        · exact ih hsuffix
      · rw [List.dropWhile_cons_of_neg hd]
        exact h

/-- The stretch is the longest at the end of the piece, together with a hyphen
before it. -/
theorem rtakeWhile_suffix_localStretch (piece : List Char) :
    piece.rtakeWhile isLocalChar <:+ localStretch piece := by
  unfold localStretch
  split_ifs
  · exact List.suffix_cons '-' _
  · exact List.suffix_rfl

/-- The stretch reaches back to the beginning of every local part at the end
of the piece, also if that begins with the dash. -/
theorem hasLocal_of_suffix {u v : List Char} (hv : IsLocal v) :
    hasLocal (u ++ v) = true ∧ v <:+ localOf (u ++ v) := by
  obtain ⟨c, mid, rfl, hc, hlen, hmid, hlast⟩ := hv
  have hne : mid ≠ [] := by
    rintro rfl
    simp at hlen
  have hdot : (c == '.') = false := by
    by_contra h
    rw [Bool.not_eq_false] at h
    rw [eq_of_beq h] at hc
    exact absurd hc (by decide)
  have hstretch : c :: mid <:+ localStretch (u ++ c :: mid) := by
    by_cases hword : isWordChar c = true
    · have hall : ∀ x ∈ c :: mid, isLocalChar x = true := by
        intro x hx
        rcases List.mem_cons.mp hx with rfl | hx
        · exact isLocalChar_of_word hword
        · exact hmid x hx
      have htake := (rtakeWhile_append_of_all u hall).1
      exact (htake ▸ List.suffix_append _ _).trans (rtakeWhile_suffix_localStretch _)
    · have hdash : c = '-' := by
        simpa [isLabelChar, hword] using hc
      subst hdash
      obtain ⟨htake, hdrop⟩ := rtakeWhile_append_of_all (u ++ ['-']) hmid
      rw [List.rtakeWhile_concat_neg _ _ _ (by decide), List.nil_append] at htake
      rw [List.rdropWhile_concat_neg _ _ _ (by decide)] at hdrop
      rw [List.append_assoc, List.singleton_append] at htake hdrop
      unfold localStretch
      rw [hdrop, htake, if_pos (by simp)]
  have hsuffix : c :: mid <:+ localOf (u ++ c :: mid) := suffix_dropWhile hstretch hdot
  refine ⟨?_, hsuffix⟩
  have hle := hsuffix.length_le
  rw [List.length_cons] at hle
  have hend : (u ++ c :: mid).getLast? = mid.getLast? := by
    rw [List.append_cons, List.getLast?_append_of_ne_nil _ hne]
  unfold hasLocal
  rw [hend, Bool.and_eq_true, decide_eq_true_eq, Option.all_eq_true]
  exact ⟨by omega, hlast⟩

/-- A match does not begin with a dot: the leading ones have been dropped. -/
theorem ne_dot_of_localOf {piece mid : List Char} {c : Char} (hlocal : localOf piece = c :: mid) :
    c ≠ '.' := by
  rintro rfl
  unfold localOf at hlocal
  have hstop := List.head_dropWhile_not (· == '.') (l := localStretch piece)
    (by simp [hlocal])
  simp [hlocal] at hstop

/-- What ends a stretch is a label's first character, or the '-' in front, and
characters of a local part. -/
theorem chars_of_suffix_localStretch {piece mid : List Char} {c : Char}
    (hsuffix : c :: mid <:+ localStretch piece) (hdot : c ≠ '.') :
    isLabelChar c = true ∧ ∀ x ∈ mid, isLocalChar x = true := by
  have hall : ∀ x ∈ piece.rtakeWhile isLocalChar, isLocalChar x = true :=
    fun x hx => List.mem_rtakeWhile_imp hx
  have hlabel : isLocalChar c = true → isLabelChar c = true := by
    intro hc
    have hword : isWordChar c = true := by simpa [isLocalChar, hdot] using hc
    simp [isLabelChar, hword]
  have hinner : c :: mid <:+ piece.rtakeWhile isLocalChar →
      isLabelChar c = true ∧ ∀ x ∈ mid, isLocalChar x = true := by
    intro h
    exact ⟨hlabel (hall c (h.subset List.mem_cons_self)),
      fun x hx => hall x (h.subset (List.mem_cons_of_mem _ hx))⟩
  unfold localStretch at hsuffix
  split_ifs at hsuffix with hdash
  · rcases List.suffix_cons_iff.mp hsuffix with heq | htail
    · obtain ⟨rfl, rfl⟩ := List.cons.inj heq
      exact ⟨by decide, hall⟩
    · exact hinner htail
  · exact hinner hsuffix

/-- The local part of a piece is one: it is long enough, and ends in a word
character. -/
theorem isLocal_localOf {piece : List Char} (h : hasLocal piece = true) :
    IsLocal (localOf piece) := by
  unfold hasLocal at h
  rw [Bool.and_eq_true, decide_eq_true_eq, Option.all_eq_true] at h
  obtain ⟨hlen, hlast⟩ := h
  cases hlocal : localOf piece with
  | nil => simp [hlocal] at hlen
  | cons c mid =>
      rw [hlocal, List.length_cons] at hlen
      have hne : mid ≠ [] := by
        rintro rfl
        simp at hlen
      have hsuffix : c :: mid <:+ localStretch piece :=
        hlocal ▸ List.dropWhile_suffix _
      obtain ⟨hfirst, hmid⟩ := chars_of_suffix_localStretch hsuffix (ne_dot_of_localOf hlocal)
      have hend : piece.getLast? = mid.getLast? := by
        obtain ⟨front, hfront⟩ := hsuffix
        have hpiece := beforeStretch_append piece
        rw [← hfront, ← List.append_assoc, List.append_cons] at hpiece
        rw [← hpiece, List.getLast?_append_of_ne_nil _ hne]
      rw [hend] at hlast
      exact ⟨c, mid, rfl, hfirst, by omega, hmid, hlast⟩

/-- The piece before its local part. -/
def beforeLocal (piece : List Char) : List Char :=
  beforeStretch piece ++ (localStretch piece).takeWhile (· == '.')

theorem beforeLocal_append (piece : List Char) : beforeLocal piece ++ localOf piece = piece := by
  unfold beforeLocal localOf
  rw [List.append_assoc, List.takeWhile_append_dropWhile, beforeStretch_append]

/-! ## The first match -/

/-- Without a local part before the `'@'` or a domain behind it the search goes
on behind the `'@'`. -/
theorem find_miss {piece t : List Char} (hpiece : '@' ∉ piece)
    (h : hasLocal piece = true → lastLabel false t = none) (before : List Char) :
    find reMail before (piece ++ '@' :: t) = find reMail (before ++ piece ++ ['@']) t := by
  have hskip := find_skip (e := reMail) before (piece ++ ['@']) t ?_
  · rwa [List.append_assoc, List.singleton_append, ← List.append_assoc] at hskip
  · intro u₁ u₂ hsplit hne
    obtain ⟨v, rfl⟩ : ∃ v, u₂ = v ++ ['@'] := by
      refine ⟨u₂.dropLast, ?_⟩
      have hlast := congrArg List.getLast? hsplit
      rw [List.getLast?_concat, List.getLast?_append_of_ne_nil _ hne,
        List.getLast?_eq_getLast_of_ne_nil hne, Option.some.injEq] at hlast
      rw [hlast]
      exact (List.dropLast_append_getLast hne).symm
    rw [← List.append_assoc, List.append_cancel_right_eq] at hsplit
    have hv : '@' ∉ v := fun hm => hpiece (hsplit ▸ List.mem_append_right _ hm)
    rw [List.append_assoc, List.singleton_append]
    by_cases hlocal : IsLocal v
    · have hnone := h (hsplit ▸ (hasLocal_of_suffix hlocal).1)
      have hhead := head?_rests_reMail hv hlocal t
      rw [head?_rests_domainPart, hnone] at hhead
      exact List.head?_eq_none_iff.mp hhead
    · exact rests_reMail_of_not_isLocal hv hlocal t

theorem find_of_no_at {s : List Char} (hs : '@' ∉ s) (before : List Char) :
    find reMail before s = none := by
  have hnone := find_skip (e := reMail) before s [] ?_
  · rw [List.append_nil] at hnone
    rw [hnone, find, rests_reMail_of_no_at List.not_mem_nil]
    rfl
  · intro u₁ u₂ hsplit _
    rw [List.append_nil]
    exact rests_reMail_of_no_at fun hm => hs (hsplit ▸ List.mem_append_right _ hm)

/-- What a match takes of the piece behind its `'@'` ends in a letter. -/
theorem exists_domain {t label : List Char} (h : lastLabel false t = some label) :
    ∃ domain c, t = domain ++ afterLetters label ∧ domain.getLast? = some c ∧
      c.isAlpha = true := by
  obtain ⟨⟨front, hfront⟩, hletters⟩ := of_lastLabel_eq_some h
  have htaken : label.take (min 4 (letters label)) <+: label.takeWhile Char.isAlpha := by
    refine List.prefix_of_prefix_length_le (List.take_prefix _ _) (List.takeWhile_prefix _) ?_
    rw [List.length_take]
    change _ ≤ letters label
    omega
  have hlen : 0 < (label.take (min 4 (letters label))).length := by
    have hle : letters label ≤ label.length := (List.takeWhile_prefix _).length_le
    rw [List.length_take]
    omega
  have hne := List.length_pos_iff.mp hlen
  refine ⟨front ++ label.take (min 4 (letters label)),
    (label.take (min 4 (letters label))).getLast hne, ?_, ?_, ?_⟩
  · unfold afterLetters
    rw [List.append_assoc, List.take_append_drop, hfront]
  · rw [List.getLast?_append_of_ne_nil _ hne, List.getLast?_eq_getLast_of_ne_nil hne]
  · exact List.mem_takeWhile_imp (htaken.subset (List.getLast_mem hne))

/-- With both the match begins at the local part and ends in the last label.
No earlier start matches, as it would make a longer local part. -/
theorem find_mail {piece t label : List Char} (hpiece : '@' ∉ piece)
    (hlocal : hasLocal piece = true) (hlabel : lastLabel false t = some label)
    (before : List Char) :
    ∃ matched c, find reMail before (piece ++ '@' :: t) =
        some ⟨before ++ beforeLocal piece, matched, afterLetters label⟩ ∧
      matched.getLast? = some c ∧ c.isAlpha = true := by
  obtain ⟨domain, c, hdomain, hlast, hc⟩ := exists_domain hlabel
  have hsplit := beforeLocal_append piece
  have hlocalAt : '@' ∉ localOf piece :=
    fun hm => hpiece (hsplit ▸ List.mem_append_right _ hm)
  have hskip := find_skip (e := reMail) before (beforeLocal piece) (localOf piece ++ '@' :: t) ?_
  · refine ⟨localOf piece ++ '@' :: domain, c, ?_, ?_, hc⟩
    · rw [← List.append_assoc, hsplit] at hskip
      rw [hskip]
      have hhead := head?_rests_reMail hlocalAt (isLocal_localOf hlocal) t
      rw [head?_rests_domainPart, hlabel, Option.map_some] at hhead
      have htext : localOf piece ++ '@' :: t =
          localOf piece ++ '@' :: domain ++ afterLetters label := by
        rw [List.append_assoc, List.cons_append, ← hdomain]
      rw [htext] at hhead ⊢
      exact find_hit _ hhead
    · rw [List.getLast?_append_of_ne_nil _ (List.cons_ne_nil _ _), List.getLast?_cons, hlast]
      rfl
  · intro u₁ u₂ hu hne
    have hlonger : ¬ IsLocal (u₂ ++ localOf piece) := by
      intro h
      have hsuffix := (hasLocal_of_suffix (u := u₁) h).2
      rw [← List.append_assoc, ← hu, hsplit] at hsuffix
      have hle := hsuffix.length_le
      have hpos := List.length_pos_iff.mpr hne
      rw [List.length_append] at hle
      omega
    have hat : '@' ∉ u₂ ++ localOf piece := by
      intro hm
      refine hpiece (hsplit ▸ ?_)
      rw [hu, List.append_assoc]
      exact List.mem_append_right _ hm
    rw [← List.append_assoc]
    exact rests_reMail_of_not_isLocal hat hlonger t

theorem proper_reMail : Proper reMail := (proper_seq_one _ _).seq _

end CardScanner
