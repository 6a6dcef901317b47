import CardScanner.EmailPattern
import CardScanner.Runs

/-!
# Addresses that are cut short

The text is cut at its `'@'`s.  Where a local part meets a domain the pattern
matches, and what a match has taken of the piece behind its `'@'` is lost to the
next one.

A match is cut short at its end when more than four letters, or letters and a
digit, stand behind the last dot it can use.  At its beginning it is cut short
when a second `'-'`, or a letter or digit outside the pattern's classes, or the
match before it stands in front of the stretch it begins in.  `Unclipped` goes
through the pieces and excludes just these.
-/

namespace CardScanner

open Regex

section Whole

variable (isLetter : Char → Bool)

/-- A character that an address goes on with to the left. -/
def joins (c : Char) : Bool := isLetter c || isDigit c || c == '_' || c == '-'

/-- The match is not cut short. -/
structure Whole (m : Found Char) : Prop where
  before : ∀ c, m.before.getLast? = some c → joins isLetter c = false
  after : ∀ c, m.after.head? = some c → isLetter c = false ∧ isDigit c = false

/-- The local part at the end of a piece has a free place to begin at: behind
dots, or behind a character that is none of `joins`.  `taken` says that the
front of the piece belongs to the match before. -/
def BeginsFree (taken : Bool) (piece : List Char) : Prop :=
  (localStretch piece).head? = some '.' ∨
    (beforeStretch piece = [] → taken = false) ∧
      ∀ c, (beforeStretch piece).getLast? = some c → joins isLetter c = false

/-- The last label begins with at most four letters, and no letter or digit
follows them. -/
def EndsFree (label : List Char) : Prop :=
  letters label ≤ 4 ∧
    ∀ c, (label.dropWhile Char.isAlpha).head? = some c → isLetter c = false ∧ isDigit c = false

/-- Going through the pieces between the `'@'`s of a text: wherever a local
part meets a domain, both ends are free. -/
def Unclipped : Bool → List Char → List (List Char) → Prop
  | _, _, [] => True
  | taken, piece, next :: pieces =>
      match hasLocal piece, lastLabel false next with
      | true, some label =>
          BeginsFree isLetter taken piece ∧ EndsFree isLetter label ∧
            Unclipped true (afterLetters label) pieces
      | _, _ => Unclipped false next pieces

variable {isLetter}

/-- A piece and the pieces behind it, with the `'@'`s between them. -/
def joinAt (piece : List Char) (pieces : List (List Char)) : List Char :=
  piece ++ pieces.flatMap ('@' :: ·)

/-- The text again, from its pieces: an `@` stands between a piece and the
rest. -/
theorem joinAt_cons (piece next : List Char) (pieces : List (List Char)) :
    joinAt piece (next :: pieces) = piece ++ '@' :: joinAt next pieces := rfl

/-- Labels do not reach past an `@`, so the last one is found in the first
piece. -/
theorem lastLabel_joinAt (next : List Char) (pieces : List (List Char)) :
    lastLabel false (joinAt next pieces) = (lastLabel false next).map (joinAt · pieces) := by
  cases pieces with
  | nil =>
      unfold joinAt
      simp
  | cons p pieces =>
      rw [joinAt_cons, lastLabel_append_at]
      rfl

theorem afterLetters_joinAt (label : List Char) (pieces : List (List Char)) :
    afterLetters (joinAt label pieces) = joinAt (afterLetters label) pieces := by
  cases pieces with
  | nil =>
      unfold joinAt
      simp
  | cons p pieces => exact afterLetters_append_at label (joinAt p pieces)

theorem head?_joinAt {piece : List Char} {pieces : List (List Char)} {c : Char}
    (h : (joinAt piece pieces).head? = some c) :
    piece.head? = some c ∨ piece = [] ∧ c = '@' := by
  cases piece with
  | nil =>
      cases pieces with
      | nil => cases h
      | cons p pieces =>
          cases h
          exact Or.inr ⟨rfl, rfl⟩
  | cons d piece => exact Or.inl h

/-- The end of a match, in terms of its last label: at most four letters at
the front, and neither a letter nor a digit behind them. -/
theorem endsFree_iff (hascii : ∀ c : Char, c.toNat < 128 → isLetter c = c.isAlpha)
    (label : List Char) (pieces : List (List Char)) :
    (∀ c, (joinAt (afterLetters label) pieces).head? = some c →
        isLetter c = false ∧ isDigit c = false) ↔ EndsFree isLetter label := by
  have hsplit := List.takeWhile_append_dropWhile (p := Char.isAlpha) (l := label)
  by_cases hfour : letters label ≤ 4
  · have hafter : afterLetters label = label.dropWhile Char.isAlpha := by
      have hdrop : (label.takeWhile Char.isAlpha ++ label.dropWhile Char.isAlpha).drop
          (label.takeWhile Char.isAlpha).length = label.dropWhile Char.isAlpha := List.drop_left
      rw [hsplit] at hdrop
      unfold afterLetters
      rw [min_eq_right hfour]
      exact hdrop
    rw [hafter]
    constructor
    · intro h
      refine ⟨hfour, fun c hc => h c ?_⟩
      unfold joinAt
      rw [List.head?_append, hc]
      rfl
    · intro ⟨_, h⟩ c hc
      rcases head?_joinAt hc with hhead | ⟨_, rfl⟩
      · exact h c hhead
      · exact ⟨hascii '@' (by decide), by decide⟩
  · have hlong : 4 < (label.takeWhile Char.isAlpha).length := not_le.mp hfour
    have hle : letters label ≤ label.length := (List.takeWhile_prefix _).length_le
    have hget : label[4]? = some ((label.takeWhile Char.isAlpha)[4]) := by
      rw [← List.getElem?_eq_getElem hlong, ← List.getElem?_append_left hlong, hsplit]
    have halpha : ((label.takeWhile Char.isAlpha)[4]).isAlpha = true :=
      List.mem_takeWhile_imp (List.getElem_mem hlong)
    have hhead : (joinAt (afterLetters label) pieces).head? =
        some ((label.takeWhile Char.isAlpha)[4]) := by
      unfold joinAt afterLetters
      rw [min_eq_left (not_le.mp hfour).le, List.head?_append, List.head?_drop, hget]
      rfl
    refine iff_of_false ?_ fun h => hfour h.1
    intro h
    have hletter := (h _ hhead).1
    have hcode := Char.toNat_of_isAlpha halpha
    rw [hascii _ (by omega), halpha] at hletter
    cases hletter

/-- What stands before a piece: the end of a match, or an `'@'`, or nothing. -/
def Context (taken : Bool) (before : List Char) : Prop :=
  if taken then ∃ c, before.getLast? = some c ∧ c.isAlpha = true
  else ∀ c, before.getLast? = some c → c = '@'

/-- An address does not go on to the left with a dot or an `'@'`. -/
theorem joins_of_symbol (hascii : ∀ c : Char, c.toNat < 128 → isLetter c = c.isAlpha) {c : Char}
    (hc : c = '.' ∨ c = '@') : joins isLetter c = false := by
  unfold joins
  rcases hc with rfl | rfl
  · rw [hascii '.' (by decide)]
    decide
  · rw [hascii '@' (by decide)]
    decide

/-- A letter of the pattern is a letter, so one that follows a match cuts it
short. -/
theorem joins_of_isAlpha (hascii : ∀ c : Char, c.toNat < 128 → isLetter c = c.isAlpha) {c : Char}
    (hc : c.isAlpha = true) : joins isLetter c = true := by
  unfold joins
  have hcode := Char.toNat_of_isAlpha hc
  rw [hascii c (by omega), hc]
  rfl

/-- There are no leading dots exactly if the first character is none. -/
theorem takeWhile_dots_eq_nil_iff (l : List Char) :
    l.takeWhile (· == '.') = [] ↔ l.head? ≠ some '.' := by
  cases l with
  | nil => simp
  | cons d rest => by_cases hd : d = '.' <;> simp [hd]

/-- The beginning of a match, in terms of the piece that its local part ends:
dots at the front of the stretch are left out, and behind them it may begin. -/
theorem beginsFree_iff (hascii : ∀ c : Char, c.toNat < 128 → isLetter c = c.isAlpha)
    {taken : Bool} {before : List Char} (hbefore : Context taken before) (piece : List Char) :
    (∀ c, (before ++ beforeLocal piece).getLast? = some c → joins isLetter c = false) ↔
      BeginsFree isLetter taken piece := by
  unfold BeginsFree beforeLocal
  by_cases hdots : (localStretch piece).head? = some '.'
  · refine iff_of_true ?_ (Or.inl hdots)
    intro c hc
    have hne : (localStretch piece).takeWhile (· == '.') ≠ [] :=
      fun h => (takeWhile_dots_eq_nil_iff _).mp h hdots
    rw [← List.append_assoc, List.getLast?_append_of_ne_nil _ hne] at hc
    have hdot := List.mem_takeWhile_imp (List.mem_of_getLast? hc)
    exact joins_of_symbol hascii (Or.inl (by simpa using hdot))
  · rw [(takeWhile_dots_eq_nil_iff _).mpr hdots, List.append_nil, or_iff_right hdots]
    by_cases hempty : beforeStretch piece = []
    · rw [hempty, List.append_nil]
      unfold Context at hbefore
      cases taken with
      | true =>
          obtain ⟨c, hc, halpha⟩ := hbefore
          refine iff_of_false (fun h => ?_) (by simp)
          exact absurd (h c hc) (by simp [joins_of_isAlpha hascii halpha])
      | false =>
          refine iff_of_true (fun c hc => ?_) (by simp)
          exact joins_of_symbol hascii (Or.inr (hbefore c hc))
    · rw [List.getLast?_append_of_ne_nil _ hempty]
      exact (and_iff_right fun h => absurd h hempty).symm

/-- What is found from a place on depends on nothing but the first match:
behind it both searches go on alike. -/
theorem findAllFrom_congr {before before' s s' : List Char}
    (h : find reMail before s = find reMail before' s') :
    findAllFrom reMail (s.length + 1) before s = findAllFrom reMail (s'.length + 1) before' s' := by
  rw [proper_reMail.findAllFrom_eq, proper_reMail.findAllFrom_eq, h]

/-- Behind a match comes what follows its last letter. -/
theorem context_append {before matched : List Char} {c : Char} (hlast : matched.getLast? = some c)
    (halpha : c.isAlpha = true) : Context true (before ++ matched) := by
  have hne : matched ≠ [] := by
    intro hnil
    rw [hnil] at hlast
    cases hlast
  refine ⟨c, ?_, halpha⟩
  rw [List.getLast?_append_of_ne_nil _ hne, hlast]

/-- Nor is there an `'@'` in what a match leaves of its last piece. -/
theorem at_notMem_behind {next label : List Char} {pieces : List (List Char)}
    (hlabel : lastLabel false next = some label) (hrest : ∀ p ∈ next :: pieces, '@' ∉ p) :
    ∀ p ∈ afterLetters label :: pieces, '@' ∉ p := by
  obtain ⟨hnext, hpieces⟩ := List.forall_mem_cons.mp hrest
  rw [List.forall_mem_cons]
  refine ⟨fun hm => ?_, hpieces⟩
  have hsuffix := (of_lastLabel_eq_some hlabel).1
  exact hnext (hsuffix.subset (List.mem_of_mem_drop hm))

/-- **The matches of the pieces.**  All matches in a text that is joined at
its `'@'`s are whole exactly if the pieces are unclipped.  By induction on the
pieces: a match ends in the piece behind its `'@'`, and the search goes on
behind it. -/
theorem whole_joinAt_iff (hascii : ∀ c : Char, c.toNat < 128 → isLetter c = c.isAlpha)
    {taken : Bool} {before piece : List Char} {pieces : List (List Char)}
    (hbefore : Context taken before) (hpieces : ∀ p ∈ piece :: pieces, '@' ∉ p) :
    (∀ m ∈ findAllFrom reMail ((joinAt piece pieces).length + 1) before (joinAt piece pieces),
        Whole isLetter m) ↔ Unclipped isLetter taken piece pieces := by
  induction pieces generalizing taken before piece with
  | nil =>
      have hat : '@' ∉ joinAt piece [] := by simpa [joinAt] using hpieces
      rw [proper_reMail.findAllFrom_eq, find_of_no_at hat]
      simp [Unclipped]
  | cons next pieces ih =>
      have hpiece : '@' ∉ piece := hpieces piece List.mem_cons_self
      have hrest : ∀ p ∈ next :: pieces, '@' ∉ p :=
        fun p hp => hpieces p (List.mem_cons_of_mem _ hp)
      have hlabels := lastLabel_joinAt next pieces
      have hmissed : (hasLocal piece = true → lastLabel false next = none) →
          ((∀ m ∈ findAllFrom reMail ((joinAt piece (next :: pieces)).length + 1) before
              (joinAt piece (next :: pieces)), Whole isLetter m) ↔
            Unclipped isLetter false next pieces) := by
        intro hmiss
        have hfind := find_miss (t := joinAt next pieces) hpiece
          (fun hlocal => by rw [hlabels, hmiss hlocal]; rfl) before
        rw [joinAt_cons, findAllFrom_congr hfind]
        refine ih ?_ hrest
        intro c hc
        rw [List.getLast?_concat, Option.some.injEq] at hc
        exact hc.symm
      unfold Unclipped
      cases hlocal : hasLocal piece with
      | false => exact hmissed fun h => absurd (hlocal.symm.trans h) (by decide)
      | true =>
          cases hlabel : lastLabel false next with
          | none => exact hmissed fun _ => hlabel
          | some label =>
              rw [hlabel, Option.map_some] at hlabels
              obtain ⟨matched, c, hfind, hlast, halpha⟩ := find_mail hpiece hlocal hlabels before
              have hcontext : Context true (before ++ beforeLocal piece ++ matched) :=
                context_append hlast halpha
              have hbehind := ih hcontext (at_notMem_behind hlabel hrest)
              rw [joinAt_cons, proper_reMail.findAllFrom_eq, hfind]
              simp only [List.forall_mem_cons, afterLetters_joinAt]
              rw [hbehind, ← and_assoc]
              refine and_congr_left fun _ => ?_
              rw [← beginsFree_iff hascii hbefore, ← endsFree_iff hascii label pieces]
              exact ⟨fun h => ⟨h.before, h.after⟩, fun h => ⟨h.1, h.2⟩⟩

/-- Joining the pieces is Mathlib's `intercalate`, which undoes `splitOn`. -/
theorem joinAt_eq_intercalate (piece : List Char) (pieces : List (List Char)) :
    joinAt piece pieces = ['@'].intercalate (piece :: pieces) := by
  induction pieces generalizing piece with
  | nil => simp [joinAt]
  | cons next pieces ih =>
      rw [joinAt_cons, ih, List.intercalate_cons_cons, List.append_assoc]
      rfl

/-- The pieces of a text. -/
theorem exists_pieces (text : List Char) :
    ∃ piece pieces, text.splitOn '@' = piece :: pieces ∧ text = joinAt piece pieces ∧
      ∀ p ∈ piece :: pieces, '@' ∉ p := by
  obtain ⟨piece, pieces, hsplit⟩ := List.exists_cons_of_ne_nil (List.splitOn_ne_nil '@' text)
  refine ⟨piece, pieces, hsplit, ?_, ?_⟩
  · rw [joinAt_eq_intercalate, ← hsplit, List.intercalate_splitOn]
  · intro p hp
    rw [← hsplit] at hp
    exact Runs.sep_notMem_of_mem_splitOn hp

variable (isLetter)

/-- `Unclipped` for the pieces of a text. -/
def UnclippedText (text : List Char) : Prop :=
  match text.splitOn '@' with
  | [] => True
  | piece :: pieces => Unclipped isLetter false piece pieces

/-- Where the pattern matches at all, a returned address was matched, and it
was whole wherever it was. -/
def MailsWhole (text : List Char) (mails : List (List Char)) : Prop :=
  findAll reMail text ≠ [] → ∀ mail ∈ mails,
    (∃ m ∈ findAll reMail text, m.matched = mail) ∧
      ∀ m ∈ findAll reMail text, m.matched = mail → Whole isLetter m

/-- The addresses that match are returned, and where there are any, no others. -/
theorem extractEmails_mem (toUpperCase toLowerCase : Char → Char) {input text : List Char}
    (htext : correctString input = some text) :
    ∃ mails, extractEmails toUpperCase toLowerCase input = some mails ∧
      (∀ m ∈ findAll reMail text, m.matched ∈ mails) ∧
      (findAll reMail text ≠ [] → ∀ mail ∈ mails, ∃ m ∈ findAll reMail text, m.matched = mail) := by
  have hmatched : ∀ m ∈ findAll reMail text, m.matched ∈ collectMails (findAll reMail text) :=
    fun m hm => mem_collectMails.mpr ⟨m, hm, rfl⟩
  unfold extractEmails
  simp only [htext, Option.bind_eq_bind, Option.bind_some]
  split_ifs with hnone
  · have hempty : findAll reMail text = [] := by
      rw [List.eq_nil_iff_forall_not_mem]
      intro m hm
      have hmem := hmatched m hm
      rw [List.length_eq_zero_iff.mp hnone] at hmem
      cases hmem
    refine ⟨_, foldlM_addWord toUpperCase toLowerCase _, ?_, fun h => absurd hempty h⟩
    intro m hm
    rw [hempty] at hm
    cases hm
  · exact ⟨_, rfl, hmatched, fun _ mail hmail => mem_collectMails.mp hmail⟩

/-- **When no address is cut short.**  Every match is returned and, where
there are any, nothing else; the returned addresses are whole exactly when the
text is unclipped. -/
theorem mails_whole_iff (hascii : ∀ c : Char, c.toNat < 128 → isLetter c = c.isAlpha)
    (toUpperCase toLowerCase : Char → Char) {input text : List Char}
    (htext : correctString input = some text) :
    (∃ mails, extractEmails toUpperCase toLowerCase input = some mails ∧
        (∀ m ∈ findAll reMail text, m.matched ∈ mails) ∧ MailsWhole isLetter text mails) ↔
      UnclippedText isLetter text := by
  obtain ⟨piece, pieces, hsplit, hjoin, hpieces⟩ := exists_pieces text
  have hwhole : (∀ m ∈ findAll reMail text, Whole isLetter m) ↔
      Unclipped isLetter false piece pieces := by
    rw [hjoin]
    have hnothing : Context false [] := fun c hc => by cases hc
    exact whole_joinAt_iff hascii hnothing hpieces
  unfold UnclippedText
  rw [hsplit]
  simp only
  rw [← hwhole]
  constructor
  · intro ⟨mails, _, hreturned, hmails⟩ m hm
    exact (hmails (List.ne_nil_of_mem hm) m.matched (hreturned m hm)).2 m hm rfl
  · intro hall
    obtain ⟨mails, hreturn, hreturned, honly⟩ := extractEmails_mem toUpperCase toLowerCase htext
    refine ⟨mails, hreturn, hreturned, ?_⟩
    intro hsome mail hmail
    exact ⟨honly hsome mail hmail, fun m hm _ => hall m hm⟩

end Whole

/-- Two addresses in a line, one in brackets and one before a comma. -/
def twoAddresses : List Char :=
  ['E', ':', '(', 'a', 'n', 'n', '@', 'x', '.', 'v', 'n', ')', ' ', 'b', 'o', 'b', '.', 'l', 'e',
    'e', '@', 'y', '-', 'z', '.', 'c', 'o', 'm', ',', ' ', 'f', 'a', 'x']

/-- Both addresses are whole: a bracket, a blank and a comma are beside them. -/
theorem mails_whole_iff_two :
    (∃ mails, extractEmails Char.toUpper Char.toLower twoAddresses = some mails ∧
        (∀ m ∈ findAll reMail twoAddresses, m.matched ∈ mails) ∧
        MailsWhole Char.isAlpha twoAddresses mails) ↔
      UnclippedText Char.isAlpha twoAddresses :=
  mails_whole_iff Char.isAlpha (fun _ _ => rfl) Char.toUpper Char.toLower (by decide)

/-- Of the label `museum` four letters are taken. -/
theorem not_mails_whole : ¬ ∀ isLetter : Char → Bool,
    (∀ c : Char, c.toNat < 128 → isLetter c = c.isAlpha) →
    ∀ (toUpperCase toLowerCase : Char → Char) (input text : List Char),
      correctString input = some text →
      ∃ mails, extractEmails toUpperCase toLowerCase input = some mails ∧
        (∀ m ∈ findAll reMail text, m.matched ∈ mails) ∧ MailsWhole isLetter text mails := by
  intro h
  obtain ⟨mails, _, hreturned, hmails⟩ := h Char.isAlpha (fun _ _ => rfl) Char.toUpper Char.toLower
    ['a', 'n', 'n', '@', 'x', '.', 'm', 'u', 's', 'e', 'u', 'm']
    ['a', 'n', 'n', '@', 'x', '.', 'm', 'u', 's', 'e', 'u', 'm'] (by decide)
  have hfound :
      (⟨[], ['a', 'n', 'n', '@', 'x', '.', 'm', 'u', 's', 'e'], ['u', 'm']⟩ : Found Char) ∈
        findAll reMail ['a', 'n', 'n', '@', 'x', '.', 'm', 'u', 's', 'e', 'u', 'm'] := by
    decide +kernel
  have hcut := (hmails (List.ne_nil_of_mem hfound) _ (hreturned _ hfound)).2 _ hfound rfl
  exact absurd (hcut.after 'u' rfl).1 (by decide)

end CardScanner
