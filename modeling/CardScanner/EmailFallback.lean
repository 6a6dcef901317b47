import CardScanner.EmailPattern
import CardScanner.Runs

/-!
# The words with an at sign

When no address matches, `extractEmails` returns the words of the text that
contain an `'@'`.  What it is meant to return is `mailTokens`: the tokens
between spaces and line breaks that contain an `'@'`, each completed with the
word `com` that recognition has cut off, and each once.

The code differs in three ways.  It splits at spaces only, so a line break stays
inside a word.  It adds `com` only if `i + 1 > listWords.length`, which is
never so.  And only the loop over the matches looks for an address it already
has.  `FallbackClean` names the texts in which none of the three matters.
-/

namespace CardScanner

open Regex Runs

/-! ## What it should return -/

/-- The stretches between spaces and line breaks. -/
def tokens (text : List Char) : List (List Char) := runs (fun c => c != ' ' && c != '\n') text

section Completion

variable (toUpperCase toLowerCase : Char → Char)

/-- The next token is the ending this one lacks. -/
def lacksEnding (token : List Char) (next : Option (List Char)) : Bool :=
  !contains token ['c', 'o', 'm'] &&
    next.any fun word => equalsIgnoreCase toUpperCase toLowerCase word (some ['c', 'o', 'm'])

/-- The tokens with an `'@'`, each with the ending it lacks. -/
def mailTokens : List (List Char) → List (List Char)
  | [] => []
  | token :: rest =>
      if contains token ['@'] then
        (if lacksEnding toUpperCase toLowerCase token rest.head? then token ++ ['c', 'o', 'm']
          else token) :: mailTokens rest
      else mailTokens rest

/-- A text on which the fallback does what it should. -/
structure FallbackClean (text : List Char) : Prop where
  unbroken : ∀ word ∈ text.splitOn ' ', '@' ∈ word → '\n' ∉ word
  complete : ∀ before token next behind, tokens text = before ++ token :: next :: behind →
    '@' ∈ token → lacksEnding toUpperCase toLowerCase token (some next) = false
  distinct : ((tokens text).filter fun token => contains token ['@']).Nodup

end Completion

/-! ## First occurrences -/

section EraseDups

variable {α : Type} [BEq α] [LawfulBEq α]

/-- Dropping what repeats keeps the order, and leaves each element once. -/
theorem eraseDups_spec (l : List α) : l.eraseDups.Sublist l ∧ l.eraseDups.Nodup := by
  induction hn : l.length using Nat.strongRecOn generalizing l with
  | ind n ih =>
      cases l with
      | nil => simp
      | cons a l =>
          have hfilter := List.filter_sublist (p := fun b => !b == a) (l := l)
          have hlen : (l.filter fun b => !b == a).length < n := by
            rw [← hn]
            exact Nat.lt_succ_of_le hfilter.length_le
          obtain ⟨hsub, hnodup⟩ := ih _ hlen _ rfl
          rw [List.eraseDups_cons]
          refine ⟨(hsub.trans hfilter).cons_cons a, List.nodup_cons.mpr ⟨?_, hnodup⟩⟩
          intro hmem
          have hkept := (List.mem_filter.mp (hsub.subset hmem)).2
          simp at hkept

/-- A list without repetitions is kept. -/
theorem eraseDups_of_nodup {l : List α} (hl : l.Nodup) : l.eraseDups = l := by
  induction l with
  | nil => rfl
  | cons a l ih =>
      obtain ⟨ha, hl⟩ := List.nodup_cons.mp hl
      have hfilter : (l.filter fun b => !b == a) = l := by
        rw [List.filter_eq_self]
        intro b hb
        have hne : b ≠ a := fun h => ha (h ▸ hb)
        simpa using hne
      rw [List.eraseDups_cons, hfilter, ih hl]

end EraseDups

/-! ## Words and tokens -/

/-- Empty pieces at the end, which Java's `split` leaves out, make no
difference to the pieces with a sign. -/
theorem split_filter (text : List Char) :
    (split ' ' text).filter (contains · ['@']) = (text.splitOn ' ').filter (contains · ['@']) := by
  have hdrop : ∀ pieces : List (List Char),
      (pieces.rdropWhile (·.isEmpty)).filter (contains · ['@']) =
        pieces.filter (contains · ['@']) := by
    intro pieces
    induction pieces using List.reverseRecOn with
    | nil => rfl
    | append_singleton pieces piece ih =>
        by_cases hempty : piece.isEmpty = true
        · have hnil := List.isEmpty_iff.mp hempty
          rw [List.rdropWhile_concat_pos _ _ _ hempty, ih, List.filter_append, hnil]
          exact (List.append_nil _).symm
        · rw [List.rdropWhile_concat_neg _ _ _ hempty]
  unfold split
  split_ifs with hspace
  · exact hdrop _
  · rw [List.splitOn_eq_singleton hspace]

/-- Words with an `'@'` that hold no line break are the tokens with an `'@'`. -/
theorem tokens_filter {text : List Char}
    (h : ∀ word ∈ text.splitOn ' ', '@' ∈ word → '\n' ∉ word) :
    (text.splitOn ' ').filter (contains · ['@']) = (tokens text).filter (contains · ['@']) := by
  have hword : ∀ word : List Char, ' ' ∉ word → ('@' ∈ word → '\n' ∉ word) →
      [word].filter (contains · ['@']) = (tokens word).filter (contains · ['@']) := by
    intro word hspace hline
    by_cases hat : '@' ∈ word
    · have hall : ∀ c ∈ word, (c != ' ' && c != '\n') = true := by
        intro c hc
        have hne : c ≠ ' ' := fun h => hspace (h ▸ hc)
        have hne' : c ≠ '\n' := fun h => hline hat (h ▸ hc)
        simp [hne, hne']
      unfold tokens
      rw [runs_of_all (List.ne_nil_of_mem hat) hall]
    · have hnone : ∀ token ∈ word :: tokens word, ¬ contains token ['@'] = true := by
        intro token htoken hcontains
        rw [contains_singleton] at hcontains
        rcases List.mem_cons.mp htoken with rfl | htoken
        · exact hat hcontains
        · exact hat (mem_of_mem_runs htoken _ hcontains).1
      rw [List.filter_eq_nil_iff.mpr
          fun token htoken => hnone token (List.mem_cons_of_mem _ htoken),
        List.filter_eq_nil_iff.mpr]
      intro token htoken
      exact hnone token (List.mem_singleton.mp htoken ▸ List.mem_cons_self)
  induction hn : text.length using Nat.strongRecOn generalizing text with
  | ind n ih =>
      by_cases hspace : ' ' ∈ text
      · obtain ⟨u, v, rfl, hu⟩ := List.eq_append_cons_of_mem hspace
        rw [List.splitOn_append_cons_self_of_not_mem hu] at h ⊢
        have hrest := ih v.length (by rw [← hn]; simp; omega)
          (fun word hmem => h word (List.mem_cons_of_mem _ hmem)) rfl
        have htokens : tokens (u ++ ' ' :: v) = tokens u ++ tokens v := runs_append_cons rfl u v
        rw [htokens, List.filter_append, ← hrest, ← hword u hu (h u List.mem_cons_self),
          ← List.filter_append]
        rfl
      · rw [List.splitOn_eq_singleton hspace] at h ⊢
        exact hword text hspace (h text List.mem_cons_self)

section Completion

variable {toUpperCase toLowerCase : Char → Char}

/-- The last token has none behind it, so no ending is missing there. -/
theorem lacksEnding_none (token : List Char) :
    lacksEnding toUpperCase toLowerCase token none = false := Bool.and_false _

/-- Nothing is completed exactly when no token lacks the one behind it. -/
theorem mailTokens_eq_filter_iff (l : List (List Char)) :
    mailTokens toUpperCase toLowerCase l = l.filter (contains · ['@']) ↔
      ∀ before token next behind, l = before ++ token :: next :: behind → '@' ∈ token →
        lacksEnding toUpperCase toLowerCase token (some next) = false := by
  induction l with
  | nil => simp [mailTokens]
  | cons token rest ih =>
      have hfirst : (mailTokens toUpperCase toLowerCase (token :: rest) =
            (token :: rest).filter (contains · ['@'])) ↔
          ('@' ∈ token → lacksEnding toUpperCase toLowerCase token rest.head? = false) ∧
            mailTokens toUpperCase toLowerCase rest = rest.filter (contains · ['@']) := by
        rw [mailTokens, List.filter_cons, ← contains_singleton]
        by_cases hat : contains token ['@'] = true
        · simp [hat]
        · simp [hat]
      rw [hfirst, ih]
      constructor
      · intro ⟨hhere, hrest⟩ before t next behind hsplit hat
        cases before with
        | nil =>
            obtain ⟨rfl, rfl⟩ := List.cons.inj hsplit
            exact hhere hat
        | cons b before => exact hrest before t next behind (List.cons.inj hsplit).2 hat
      · intro h
        refine ⟨?_, fun before t next behind hsplit =>
          h (token :: before) t next behind (congrArg (token :: ·) hsplit)⟩
        intro hat
        cases rest with
        | nil => exact lacksEnding_none token
        | cons next behind => exact h [] token next behind rfl hat

/-- The loop returns one string for each token with an `@`, whatever it does
to it. -/
theorem length_mailTokens (l : List (List Char)) :
    (mailTokens toUpperCase toLowerCase l).length = (l.filter (contains · ['@'])).length := by
  induction l with
  | nil => rfl
  | cons token rest ih =>
      rw [mailTokens, List.filter_cons]
      split_ifs <;> simp [ih]

/-! ## The fallback -/

/-- Without a match the words with an `'@'` are returned. -/
theorem extractEmails_fallback {input text : List Char} (htext : correctString input = some text)
    (hmatch : findAll reMail text = []) :
    extractEmails toUpperCase toLowerCase input =
      some ((text.splitOn ' ').filter (contains · ['@'])) := by
  have hnone : (collectMails []).length = 0 := rfl
  unfold extractEmails
  simp only [htext, hmatch, Option.bind_eq_bind, Option.bind_some]
  rw [if_pos hnone, foldlM_addWord, split_filter]

/-- **When the fallback is right.**  On a text without a match it returns the
completed tokens, each once and none with a space or line break, exactly when
the text is clean. -/
theorem fallback_iff {input text : List Char} (htext : correctString input = some text)
    (hmatch : findAll reMail text = []) :
    (∃ mails, extractEmails toUpperCase toLowerCase input = some mails ∧
        mails = (mailTokens toUpperCase toLowerCase (tokens text)).eraseDups ∧
        ∀ mail ∈ mails, ' ' ∉ mail ∧ '\n' ∉ mail) ↔
      FallbackClean toUpperCase toLowerCase text := by
  rw [extractEmails_fallback htext hmatch]
  constructor
  · intro ⟨mails, hmails, hspec, hlines⟩
    rw [Option.some.injEq] at hmails
    subst hmails
    have hunbroken : ∀ word ∈ text.splitOn ' ', '@' ∈ word → '\n' ∉ word := by
      intro word hword hat
      exact (hlines word (List.mem_filter.mpr ⟨hword, contains_singleton.mpr hat⟩)).2
    rw [tokens_filter hunbroken] at hspec
    obtain ⟨hsub, hnodup⟩ := eraseDups_spec (mailTokens toUpperCase toLowerCase (tokens text))
    rw [← hspec] at hsub hnodup
    have hsame := hsub.eq_of_length (length_mailTokens (tokens text)).symm
    exact ⟨hunbroken, (mailTokens_eq_filter_iff _).mp hsame.symm, hnodup⟩
  · intro hclean
    have hwords := tokens_filter hclean.unbroken
    refine ⟨_, rfl, ?_, ?_⟩
    · rw [hwords, (mailTokens_eq_filter_iff _).mpr hclean.complete,
        eraseDups_of_nodup hclean.distinct]
    · intro mail hmail
      obtain ⟨hword, hat⟩ := List.mem_filter.mp hmail
      exact ⟨sep_notMem_of_mem_splitOn hword,
        hclean.unbroken mail hword (contains_singleton.mp hat)⟩

end Completion

/-- Two words that are no address, with a line break and other words. -/
def twoWords : List Char :=
  ['a', 'n', 'n', '@', 'x', ' ', 'o', 'f', '\n', 'u', 's', ' ', 'b', 'o', 'b', '@', 'y', ' ', 't',
    'e', 'l']

theorem fallback_iff_two :
    (∃ mails, extractEmails Char.toUpper Char.toLower twoWords = some mails ∧
        mails = (mailTokens Char.toUpper Char.toLower (tokens twoWords)).eraseDups ∧
        ∀ mail ∈ mails, ' ' ∉ mail ∧ '\n' ∉ mail) ↔
      FallbackClean Char.toUpper Char.toLower twoWords :=
  fallback_iff (by decide) (by decide +kernel)

/-- A cut-off `com` is not put back. -/
theorem not_fallback : ¬ ∀ (toUpperCase toLowerCase : Char → Char) (input text : List Char),
    correctString input = some text → findAll reMail text = [] →
    ∃ mails, extractEmails toUpperCase toLowerCase input = some mails ∧
      mails = (mailTokens toUpperCase toLowerCase (tokens text)).eraseDups ∧
      ∀ mail ∈ mails, ' ' ∉ mail ∧ '\n' ∉ mail := by
  intro h
  obtain ⟨mails, hreturn, hspec, _⟩ := h Char.toUpper Char.toLower
    ['a', 'n', 'n', '@', 'x', '.', ' ', 'c', 'o', 'm']
    ['a', 'n', 'n', '@', 'x', '.', ' ', 'c', 'o', 'm'] (by decide) (by decide +kernel)
  rw [hspec] at hreturn
  exact absurd hreturn (by decide +kernel)

end CardScanner
