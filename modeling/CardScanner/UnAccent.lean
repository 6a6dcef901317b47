import CardScanner.Normalization
import CardScanner.XmlParser

/-!
# Removing accents from a recognition result

The recognition thread applies `StringUtil.unAccent` to the whole document
before it is parsed: canonical decomposition, then removal of the combining
diacritical marks.  An ASCII character is its own decomposition and no mark, so
it splits the text that accents are removed from (`unAccent_append`).  The
markup therefore stays where it is, and accents are removed from each run of
literal characters by itself (`unAccentPieces`).

What goes wrong is said by `AccentSafe` and `ReturnSafe`: a character can
decompose to markup, a reference is left as it is, and removed marks can bring
the end of a CDATA section or a line end together.  Here it is shown that
nothing goes wrong otherwise (`accentsCommute_of_safe`); that each of these does
go wrong is shown in `AccentsCommute`.
-/

namespace CardScanner

open Decimal Normalization Xml

/-! ## The code -/

/-- The character data that canonical decomposition rests on, with what is
used of it: a decomposition is full, ASCII characters do not decompose and are
not combining, legal characters decompose to legal characters, and nothing else
decomposes to a line end. -/
structure UnicodeData where
  /-- the full canonical decomposition -/
  decomp : Char → List Char
  /-- the canonical combining class -/
  ccc : Char → Nat
  full : ∀ c d : Char, d ∈ decomp c → decomp d = [d]
  ascii : ∀ c : Char, c.toNat < 128 → decomp c = [c] ∧ ccc c = 0
  legal : ∀ c d : Char, isXmlChar c = true → d ∈ decomp c → isXmlChar d = true
  lineEnd : ∀ c d : Char, d ∈ decomp c → d = '\r' ∨ d = '\n' → d = c

/-- `InCombiningDiacriticalMarks`, a block of Unicode that has not all
combining characters in it. -/
def isDiacritical (c : Char) : Bool := 0x300 ≤ c.toNat && c.toNat ≤ 0x36F

/-- The last two replacements, of one character. -/
def replaceStroke (c : Char) : Char := if c = 'Đ' then 'D' else if c = 'đ' then 'd' else c

/-- The three replacements. -/
def dropAccents (s : List Char) : List Char := (s.filter (!isDiacritical ·)).map replaceStroke

/-- `StringUtil.unAccent`: decomposition, and then the replacements. -/
def unAccent (u : UnicodeData) (s : List Char) : List Char := dropAccents (nfd u.ccc u.decomp s)

/-! ## Accents in a text -/

variable {u : UnicodeData}

/-- A character that `unAccent` neither decomposes nor removes nor replaces. -/
structure Kept (u : UnicodeData) (c : Char) : Prop where
  decomp : u.decomp c = [c]
  kept : isDiacritical c = false
  replaced : replaceStroke c = c

/-- A character that `unAccent` leaves as it is and where it is, whatever
stands around it. -/
structure Fixed (u : UnicodeData) (c : Char) : Prop extends Kept u c where
  starter : u.ccc c = 0

/-- Canonical ordering moves no character that is kept past this one: the
combining characters that the texts around it join to it are of no higher class
in front and of no lower class behind. -/
structure InPlace (u : UnicodeData) (before : List Char) (c : Char) (after : List Char) :
    Prop where
  front : 0 < u.ccc c → ∀ d ∈ (before.flatMap u.decomp).rtakeWhile (mark u.ccc),
    isDiacritical d = false → u.ccc d ≤ u.ccc c
  behind : 0 < u.ccc c → ∀ d ∈ (after.flatMap u.decomp).takeWhile (mark u.ccc),
    isDiacritical d = false → u.ccc c ≤ u.ccc d

theorem ne_of_not_ascii {c : Char} (hc : c.toNat < 128) : ∀ d : Char, 128 ≤ d.toNat → c ≠ d := by
  intro d hd
  apply ne_of_apply_ne Char.toNat
  omega

/-- ASCII characters neither decompose nor combine, so markup stays as it is. -/
theorem fixed_of_ascii {c : Char} (hc : c.toNat < 128) : Fixed u c where
  decomp := (u.ascii c hc).1
  starter := (u.ascii c hc).2
  kept := by
    have hlow : ¬ 0x300 ≤ c.toNat := by omega
    simp [isDiacritical, hlow]
  replaced := by
    have hother := ne_of_not_ascii hc
    simp [replaceStroke, hother 'Đ' (by decide), hother 'đ' (by decide)]

/-- Dropping and replacing go character by character. -/
theorem dropAccents_append (a b : List Char) :
    dropAccents (a ++ b) = dropAccents a ++ dropAccents b := by
  simp [dropAccents]

theorem mem_dropAccents {d : Char} {s : List Char} :
    d ∈ dropAccents s ↔ ∃ c ∈ s, isDiacritical c = false ∧ replaceStroke c = d := by
  simp [dropAccents, and_assoc]

/-- **A fixed character splits the text.**  It is a starter that is left as it
is, so neither its neighbours' decompositions nor the ordering of marks goes
across it. -/
theorem unAccent_append {c : Char} (hc : Fixed u c) (a b : List Char) :
    unAccent u (a ++ c :: b) = unAccent u a ++ c :: unAccent u b := by
  unfold unAccent
  rw [nfd_append hc.decomp hc.starter, dropAccents_append]
  congr 1
  simp [dropAccents, hc.kept, hc.replaced]

/-- **So does a kept character that nothing kept moves past.**  Marks that are
dropped may move past it, which is not seen afterwards. -/
theorem unAccent_inPlace {a b : List Char} {c : Char} (hc : Kept u c) (hplace : InPlace u a c b) :
    unAccent u (a ++ c :: b) = unAccent u a ++ c :: unAccent u b := by
  have hsplit := filter_canonicalOrder_append (p := (!isDiacritical ·)) (a := a.flatMap u.decomp)
    (b := b.flatMap u.decomp) (c := c) (by simp [hc.kept])
    (fun hpos d hd hkept => hplace.front hpos d hd (by simpa using hkept))
    (fun hpos d hd hkept => hplace.behind hpos d hd (by simpa using hkept))
  unfold unAccent nfd dropAccents
  rw [List.flatMap_append, List.flatMap_cons, hc.decomp, List.singleton_append, hsplit,
    List.map_append, List.map_cons, hc.replaced]

/-- With more text before it, the stretch of marks at the end of a text gets no
shorter. -/
theorem mem_rtakeWhile_append {p : Char → Bool} {a b : List Char} {d : Char}
    (hd : d ∈ b.rtakeWhile p) : d ∈ (a ++ b).rtakeWhile p := by
  unfold List.rtakeWhile at *
  rw [List.mem_reverse] at *
  rw [List.reverse_append, List.takeWhile_append]
  split_ifs
  · exact List.mem_append_left _ ((List.takeWhile_sublist p).subset hd)
  · exact hd

theorem inPlace_of_starter {a b : List Char} {c : Char} (hc : u.ccc c = 0) : InPlace u a c b where
  front hpos := by omega
  behind hpos := by omega

/-- Less text before the character joins no more to it. -/
theorem InPlace.suffix {a b s : List Char} {c : Char} (hplace : InPlace u (s ++ a) c b) :
    InPlace u a c b where
  front hpos d hd := by
    apply hplace.front hpos d
    rw [List.flatMap_append]
    exact mem_rtakeWhile_append hd
  behind := hplace.behind

/-- A beginning that is not touched may be set aside. -/
theorem unAccent_prefix {w : List Char} (hw : ∀ c ∈ w, Fixed u c) (b : List Char) :
    unAccent u (w ++ b) = w ++ unAccent u b := by
  induction w with
  | nil => rfl
  | cons c w ih =>
      have hfirst := unAccent_append (hw c (by simp)) [] (w ++ b)
      rw [ih fun d hd => hw d (List.mem_cons_of_mem _ hd)] at hfirst
      exact hfirst

theorem unAccent_fixed {w : List Char} (hw : ∀ c ∈ w, Fixed u c) : unAccent u w = w := by
  have hprefix := unAccent_prefix hw []
  rw [List.append_nil] at hprefix
  exact hprefix.trans (List.append_nil w)

/-- What is left of one character. -/
def plain (u : UnicodeData) (c : Char) : List Char := dropAccents (u.decomp c)

/-- A character of the result comes from one character of the text. -/
theorem mem_unAccent {d : Char} {s : List Char} : d ∈ unAccent u s ↔ ∃ c ∈ s, d ∈ plain u c := by
  unfold unAccent plain
  simp only [mem_dropAccents, mem_nfd]
  constructor
  · intro ⟨x, ⟨c, hc, hx⟩, hd⟩
    exact ⟨c, hc, x, hx, hd⟩
  · intro ⟨c, hc, x, hx, hd⟩
    exact ⟨x, ⟨c, hc, hx⟩, hd⟩

/-- `replaceStroke` gives a letter or leaves the character as it is. -/
theorem replaceStroke_cases (c : Char) :
    replaceStroke c = 'D' ∨ replaceStroke c = 'd' ∨ replaceStroke c = c := by
  unfold replaceStroke
  split_ifs
  · exact Or.inl rfl
  · exact Or.inr (Or.inl rfl)
  · exact Or.inr (Or.inr rfl)

/-- Line ends come from line ends only. -/
theorem lineEnd_of_mem_plain {c d : Char} (hd : d ∈ plain u c) (hend : d = '\r' ∨ d = '\n') :
    d = c := by
  obtain ⟨x, hx, _, rfl⟩ := mem_dropAccents.mp hd
  rcases replaceStroke_cases x with hD | hd | hsame
  · rw [hD] at hend
    exact absurd hend (by decide)
  · rw [hd] at hend
    exact absurd hend (by decide)
  · rw [hsame] at hend ⊢
    exact u.lineEnd c x hx hend

theorem mem_of_lineEnd {d : Char} {s : List Char} (hend : d = '\r' ∨ d = '\n')
    (hd : d ∈ unAccent u s) : d ∈ s := by
  obtain ⟨c, hc, hplain⟩ := mem_unAccent.mp hd
  exact lineEnd_of_mem_plain hplain hend ▸ hc

/-! ## Accents in an element's text -/

/-- What becomes of an element's text: references stay, and accents are removed
from each run of literal characters between them.  The first run may have begun
earlier. -/
def unAccentPieces (u : UnicodeData) (run : List Char) : List Piece → List Piece
  | [] => (unAccent u run).map .literal
  | .literal c :: pieces => unAccentPieces u (run ++ [c]) pieces
  | .reference r :: pieces =>
      (unAccent u run).map .literal ++ .reference r :: unAccentPieces u [] pieces

/-- A reference is spelled with ASCII characters, whatever it stands for. -/
theorem fixed_of_mem_body {r : Ref} {c : Char} (hc : c ∈ r.body ++ [';']) : Fixed u c := by
  apply fixed_of_ascii
  rcases List.mem_append.mp hc with hbody | hend
  · have hchar := mem_body r.decodes c hbody
    simp only [isBodyChar, Bool.and_eq_true, decide_eq_true_eq] at hchar
    exact hchar.1.1
  · rw [List.mem_singleton.mp hend]
    decide

/-- Removing accents in the document: references are ASCII, and so are left
where they are. -/
theorem render_unAccentPieces (run : List Char) (pieces : List Piece) :
    (unAccentPieces u run pieces).flatMap Piece.render =
      unAccent u (run ++ pieces.flatMap Piece.render) := by
  induction pieces generalizing run with
  | nil => simp [unAccentPieces, flatMap_literal]
  | cons piece pieces ih =>
      cases piece with
      | literal c =>
          rw [unAccentPieces, ih, List.append_assoc]
          rfl
      | reference r =>
          have hamp : Fixed u '&' := fixed_of_ascii (by decide)
          have hbody : ∀ c ∈ r.body ++ [';'], Fixed u c := fun c hc => fixed_of_mem_body hc
          rw [unAccentPieces, List.flatMap_append, flatMap_literal, List.flatMap_cons,
            List.flatMap_cons, ih []]
          change unAccent u run ++ ('&' :: (r.body ++ [';']) ++ _) =
            unAccent u (run ++ ('&' :: ((r.body ++ [';']) ++ pieces.flatMap Piece.render)))
          rw [unAccent_append hamp, unAccent_prefix hbody]
          rfl

/-- Every reference of the text denotes a character that `unAccent` would leave
as it is, in the text that is read, and nothing kept would move past it. -/
def RefsKept (u : UnicodeData) (run : List Char) (pieces : List Piece) : Prop :=
  ∀ a r b, pieces = a ++ .reference r :: b →
    Kept u r.value ∧ InPlace u (run ++ a.map Piece.value) r.value (b.map Piece.value)

/-- A literal character joins the text before the references to come. -/
theorem refsKept_literal {run : List Char} {c : Char} {pieces : List Piece} :
    RefsKept u run (.literal c :: pieces) ↔ RefsKept u (run ++ [c]) pieces := by
  constructor
  · intro hrefs a r b heq
    have hplace := hrefs (.literal c :: a) r b (by rw [heq, List.cons_append])
    rwa [List.map_cons, List.append_cons] at hplace
  · intro hrefs a r b heq
    rcases List.cons_eq_append_iff.mp heq with ⟨_, hfirst⟩ | ⟨a', rfl, hrest⟩
    · cases hfirst
    · have hplace := hrefs a' r b hrest
      rwa [List.map_cons, List.append_cons]

theorem refsKept_reference {run : List Char} {r : Ref} {pieces : List Piece} :
    RefsKept u run (.reference r :: pieces) ↔
      (Kept u r.value ∧ InPlace u run r.value (pieces.map Piece.value)) ∧
        RefsKept u (run ++ [r.value]) pieces := by
  constructor
  · intro hrefs
    have hfirst := hrefs [] r pieces rfl
    rw [List.map_nil, List.append_nil] at hfirst
    refine ⟨hfirst, ?_⟩
    intro a r' b heq
    have hplace := hrefs (.reference r :: a) r' b (by rw [heq, List.cons_append])
    rwa [List.map_cons, List.append_cons] at hplace
  · intro ⟨hfirst, hrefs⟩ a r' b heq
    rcases List.cons_eq_append_iff.mp heq with ⟨rfl, hhead⟩ | ⟨a', rfl, hrest⟩
    · cases hhead
      rwa [List.map_nil, List.append_nil]
    · have hplace := hrefs a' r' b hrest
      rwa [List.map_cons, List.append_cons]

theorem refsKept_nil (run : List Char) : RefsKept u run [] := by
  intro a r b heq
  simp at heq

theorem RefsKept.suffix {s run : List Char} {pieces : List Piece}
    (hrefs : RefsKept u (s ++ run) pieces) : RefsKept u run pieces := by
  intro a r b heq
  obtain ⟨hkept, hplace⟩ := hrefs a r b heq
  rw [List.append_assoc] at hplace
  exact ⟨hkept, hplace.suffix⟩

/-- Removing accents in the text that is read, where references are kept as
`RefsKept` has it. -/
theorem value_unAccentPieces {run : List Char} {pieces : List Piece}
    (hrefs : RefsKept u run pieces) :
    (unAccentPieces u run pieces).map Piece.value =
      unAccent u (run ++ pieces.map Piece.value) := by
  induction pieces generalizing run with
  | nil =>
      rw [unAccentPieces, map_literal, List.map_nil, List.append_nil]
  | cons piece pieces ih =>
      cases piece with
      | literal c =>
          rw [unAccentPieces, ih (refsKept_literal.mp hrefs), List.append_assoc]
          rfl
      | reference r =>
          obtain ⟨⟨hkept, hplace⟩, htail⟩ := refsKept_reference.mp hrefs
          have hlater : RefsKept u [] pieces := RefsKept.suffix (by rwa [List.append_nil])
          rw [unAccentPieces, List.map_append, map_literal, List.map_cons, ih hlater,
            List.map_cons]
          exact (unAccent_inPlace hkept hplace).symm

/-- A literal character of the result comes from a literal of the text. -/
theorem literal_mem_unAccentPieces {d : Char} {run : List Char} {pieces : List Piece}
    (hd : .literal d ∈ unAccentPieces u run pieces) :
    ∃ c, (c ∈ run ∨ .literal c ∈ pieces) ∧ d ∈ plain u c := by
  have hrun : ∀ {run : List Char}, Piece.literal d ∈ (unAccent u run).map .literal →
      ∃ c ∈ run, d ∈ plain u c := by
    intro run hmem
    obtain ⟨x, hx, heq⟩ := List.mem_map.mp hmem
    cases heq
    exact mem_unAccent.mp hx
  induction pieces generalizing run with
  | nil =>
      obtain ⟨c, hc, hplain⟩ := hrun hd
      exact ⟨c, Or.inl hc, hplain⟩
  | cons piece pieces ih =>
      cases piece with
      | literal x =>
          obtain ⟨c, hc, hplain⟩ := ih hd
          refine ⟨c, ?_, hplain⟩
          rcases hc with hc | hc
          · rcases List.mem_append.mp hc with hc | hc
            · exact Or.inl hc
            · rw [List.mem_singleton.mp hc]
              exact Or.inr (by simp)
          · exact Or.inr (List.mem_cons_of_mem _ hc)
      | reference r =>
          rcases List.mem_append.mp hd with hfirst | hlater
          · obtain ⟨c, hc, hplain⟩ := hrun hfirst
            exact ⟨c, Or.inl hc, hplain⟩
          · rcases List.mem_cons.mp hlater with heq | hlater
            · cases heq
            · obtain ⟨c, hc, hplain⟩ := ih hlater
              rcases hc with hc | hc
              · cases hc
              · exact ⟨c, Or.inr (List.mem_cons_of_mem _ hc), hplain⟩

/-! ### The end of a CDATA section -/

/-- Each character without its accents. -/
def plainPiece (u : UnicodeData) : Piece → List Piece
  | .literal c => (plain u c).map .literal
  | .reference r => [.reference r]

theorem dropAccents_cons_kept {c : Char} (hc : isDiacritical c = false) (s : List Char) :
    dropAccents (c :: s) = replaceStroke c :: dropAccents s := by
  simp [dropAccents, hc]

theorem dropAccents_cons_gone {c : Char} (hc : isDiacritical c = true) (s : List Char) :
    dropAccents (c :: s) = dropAccents s := by
  simp [dropAccents, hc]

/-- A combining character is no part of `]]>`: it is removed, or the brackets
before it do not count. -/
theorem endFree_mark {c : Char} (hc : 0 < u.ccc c) (brackets : Nat) (s : List Char) :
    EndFree brackets ((dropAccents (c :: s)).map .literal) ↔
      EndFree (if isDiacritical c then brackets else 0) ((dropAccents s).map .literal) := by
  have hother : ∀ d : Char, d.toNat < 128 → c ≠ d := by
    intro d hd
    apply ne_of_apply_ne u.ccc
    rw [(u.ascii d hd).2]
    omega
  have hne : replaceStroke c ≠ ']' ∧ replaceStroke c ≠ '>' := by
    rcases replaceStroke_cases c with heq | heq | heq
    · rw [heq]
      decide
    · rw [heq]
      decide
    · rw [heq]
      exact ⟨hother ']' (by decide), hother '>' (by decide)⟩
  cases hkept : isDiacritical c with
  | true =>
      rw [dropAccents_cons_gone hkept]
      exact Iff.rfl
  | false =>
      rw [dropAccents_cons_kept hkept]
      simp [EndFree, nextBrackets, hne.1, hne.2]

/-- Canonical ordering moves combining characters only, and no character of
`]]>` is one. -/
theorem endFree_canonicalOrder (s : List Char) (brackets : Nat) :
    EndFree brackets ((dropAccents (canonicalOrder u.ccc s)).map .literal) ↔
      EndFree brackets ((dropAccents s).map .literal) := by
  revert brackets
  apply canonicalOrder_rel (R := fun s t => ∀ brackets,
    EndFree brackets ((dropAccents s).map .literal) ↔
      EndFree brackets ((dropAccents t).map .literal))
  · intro s brackets
    exact Iff.rfl
  · intro s t v hst htv brackets
    exact (hst brackets).trans (htv brackets)
  · intro c s t hst brackets
    cases hc : isDiacritical c with
    | true =>
        rw [dropAccents_cons_gone hc, dropAccents_cons_gone hc]
        exact hst brackets
    | false =>
        rw [dropAccents_cons_kept hc, dropAccents_cons_kept hc]
        exact and_congr_right fun _ => hst _
  · intro c d s hd hcd brackets
    have hc : 0 < u.ccc c := hd.trans hcd
    rw [endFree_mark hd, endFree_mark hc, endFree_mark hc, endFree_mark hd]
    cases isDiacritical c with
    | true => exact Iff.rfl
    | false => cases isDiacritical d <;> exact Iff.rfl

/-- `]]>` is found in the result exactly if it is found character by
character. -/
theorem endFree_unAccentPieces (run : List Char) (pieces : List Piece) (brackets : Nat) :
    EndFree brackets (unAccentPieces u run pieces) ↔
      EndFree brackets ((run.map Piece.literal ++ pieces).flatMap (plainPiece u)) := by
  have hrun : ∀ run : List Char, (run.map Piece.literal).flatMap (plainPiece u) =
      (dropAccents (run.flatMap u.decomp)).map .literal := by
    intro run
    induction run with
    | nil => rfl
    | cons c run ih =>
        rw [List.map_cons, List.flatMap_cons, List.flatMap_cons, ih, dropAccents_append,
          List.map_append]
        rfl
  induction pieces generalizing run brackets with
  | nil =>
      rw [List.append_nil, hrun]
      exact endFree_canonicalOrder _ _
  | cons piece pieces ih =>
      cases piece with
      | literal c =>
          refine (ih (run ++ [c]) brackets).trans ?_
          rw [List.map_append, List.append_assoc]
          exact Iff.rfl
      | reference r =>
          rw [unAccentPieces, List.flatMap_append, hrun]
          change _ ↔ EndFree brackets (_ ++ .reference r :: pieces.flatMap (plainPiece u))
          rw [endFree_append_reference, endFree_append_reference]
          exact and_congr (endFree_canonicalOrder _ _) (ih [] 0)

/-- `unAccent` can be applied to this text as it stands in a document: no
character of it decomposes to markup, its references denote characters that
are left as they are and where they are, and without accents it has no `]]>`
in it. -/
structure AccentSafe (u : UnicodeData) (pieces : List Piece) : Prop where
  literal : ∀ c, .literal c ∈ pieces → '<' ∉ u.decomp c ∧ '&' ∉ u.decomp c
  reference : RefsKept u [] pieces
  cdata : ¬ cdataEnd <:+: pieces.flatMap (plainPiece u)

/-- Markup comes from a decomposition with the same markup in it. -/
theorem markup_of_mem_plain {c d : Char} (hd : d ∈ plain u c) (hmarkup : d = '<' ∨ d = '&') :
    d ∈ u.decomp c := by
  obtain ⟨x, hx, _, rfl⟩ := mem_dropAccents.mp hd
  rcases replaceStroke_cases x with hD | hd | hsame
  · rw [hD] at hmarkup
    exact absurd hmarkup (by decide)
  · rw [hd] at hmarkup
    exact absurd hmarkup (by decide)
  · rwa [hsame]

/-- What is left of a literal are literals, if it is no markup: legal
characters, and no carriage return. -/
theorem isLiteral_of_mem_plain {c d : Char} (hc : isLiteral c = true) (hd : d ∈ plain u c)
    (hlt : d ≠ '<') (hamp : d ≠ '&') : isLiteral d = true := by
  simp only [isLiteral, Bool.and_eq_true, bne_iff_ne] at hc
  obtain ⟨⟨⟨hxml, _⟩, _⟩, hreturn⟩ := hc
  have hreturn' : d ≠ '\r' := fun heq => hreturn (lineEnd_of_mem_plain hd (Or.inl heq) ▸ heq)
  obtain ⟨x, hx, _, rfl⟩ := mem_dropAccents.mp hd
  have hlegal : isXmlChar (replaceStroke x) = true := by
    rcases replaceStroke_cases x with hD | hd | hsame
    · rw [hD]
      decide
    · rw [hd]
      decide
    · rw [hsame]
      exact u.legal c x hxml hx
  simp [isLiteral, hlegal, hlt, hamp, hreturn']

/-- A text stays an element's text. -/
theorem AccentSafe.wellFormed {pieces : List Piece} (hsafe : AccentSafe u pieces)
    (htext : WellFormed pieces) : WellFormed (unAccentPieces u [] pieces) where
  literal := by
    intro d hd
    obtain ⟨c, hc, hplain⟩ := literal_mem_unAccentPieces hd
    rcases hc with hc | hc
    · cases hc
    · obtain ⟨hlt, hamp⟩ := hsafe.literal c hc
      exact isLiteral_of_mem_plain (htext.literal c hc) hplain
        (fun heq => hlt (heq ▸ markup_of_mem_plain hplain (Or.inl heq)))
        (fun heq => hamp (heq ▸ markup_of_mem_plain hplain (Or.inr heq)))
  endFree := (endFree_unAccentPieces [] pieces 0).mpr (endFree_of_no_cdataEnd hsafe.cdata)

/-! ## Accents in a document -/

/-- A line after `unAccent`. -/
def OcrLine.unAccent (u : UnicodeData) (line : OcrLine) : OcrLine :=
  { line with text := unAccentPieces u [] line.text }

theorem fixed_of_all {w : List Char} (hw : w.all (fun c => c.toNat < 128) = true) :
    ∀ c ∈ w, Fixed u c := by
  intro c hc
  have hascii := List.all_eq_true.mp hw c hc
  exact fixed_of_ascii (by simpa using hascii)

theorem fixed_decimal (n : Int) : ∀ c ∈ decimal n, Fixed u c := by
  intro c hc
  apply fixed_of_ascii
  rcases mem_decimal hc with rfl | hdigit
  · decide
  · have hrange := Char.isDigit_iff_toNat.mp hdigit
    change 48 ≤ c.toNat ∧ c.toNat ≤ 57 at hrange
    omega

/-- One line, and what follows it.  Its tags and its font size stay, and its
text loses its accents. -/
theorem unAccent_line (line : OcrLine) (rest : List Char) :
    unAccent u (line.render ++ rest) = (line.unAccent u).render ++ unAccent u rest := by
  have hopen : ∀ c ∈ startTag itemName ++ (startTag elementFontSize ++ decimal line.fontSize ++
      endTag elementFontSize ++ startTag elementText), Fixed u c := by
    intro c hc
    simp only [List.mem_append] at hc
    rcases hc with hc | ((hc | hc) | hc) | hc
    · exact fixed_of_all rfl c hc
    · exact fixed_of_all rfl c hc
    · exact fixed_decimal _ c hc
    · exact fixed_of_all rfl c hc
    · exact fixed_of_all rfl c hc
  have hclose : ∀ c ∈ (endTag elementText ++ endTag itemName).tail, Fixed u c := fixed_of_all rfl
  have hlt : Fixed u '<' := fixed_of_ascii (by decide)
  have htext := render_unAccentPieces (u := u) [] line.text
  rw [List.nil_append] at htext
  have hsplit : ∀ text : List Char, startTag itemName ++ (startTag elementFontSize ++
      decimal line.fontSize ++ endTag elementFontSize ++ (startTag elementText ++ text ++
        endTag elementText)) ++ endTag itemName ++ rest =
      (startTag itemName ++ (startTag elementFontSize ++ decimal line.fontSize ++
        endTag elementFontSize ++ startTag elementText)) ++
        (text ++ '<' :: ((endTag elementText ++ endTag itemName).tail ++ rest)) := by
    intro text
    simp [endTag]
  unfold OcrLine.render OcrLine.unAccent
  rw [hsplit, unAccent_prefix hopen, unAccent_append hlt, unAccent_prefix hclose, ← htext]
  simp [endTag]

/-- Line by line: the tags are left as they are and separate the texts. -/
theorem unAccent_lines (lines : List OcrLine) (rest : List Char) :
    unAccent u (lines.flatMap OcrLine.render ++ rest) =
      (lines.map (OcrLine.unAccent u)).flatMap OcrLine.render ++ unAccent u rest := by
  induction lines with
  | nil => rfl
  | cons line lines ih =>
      rw [List.flatMap_cons, List.append_assoc, unAccent_line, ih, List.map_cons,
        List.flatMap_cons, List.append_assoc]

/-- The markup stays, and accents are removed line by line. -/
theorem unAccent_rawOutput (lines : List OcrLine) :
    unAccent u (rawOutput (lines.flatMap OcrLine.render)) =
      rawOutput ((lines.map (OcrLine.unAccent u)).flatMap OcrLine.render) := by
  have hopen : ∀ c ∈ startTag rawOutputName, Fixed u c := fixed_of_all rfl
  have hclose : ∀ c ∈ endTag rawOutputName, Fixed u c := fixed_of_all rfl
  unfold rawOutput
  rw [List.append_assoc, unAccent_prefix hopen, unAccent_lines, unAccent_fixed hclose,
    List.append_assoc]

/-! ### Line ends -/

/-- Removed marks bring no carriage return and line feed together. -/
def ReturnSafe (u : UnicodeData) (document : List Char) : Prop :=
  ∀ a marks b, document = a ++ '\r' :: (marks ++ '\n' :: b) →
    (∀ c ∈ marks, plain u c = []) → marks = []

/-- A line feed comes first in the result only if it was first, or if only
removed marks stood before it. -/
theorem head_unAccent {s : List Char} (h : (unAccent u s).head? = some '\n') :
    ∃ marks b, s = marks ++ '\n' :: b ∧ ∀ c ∈ marks, plain u c = [] := by
  have hmem : '\n' ∈ s := by
    apply mem_of_lineEnd (u := u) (Or.inr rfl)
    exact List.mem_of_mem_head? h
  obtain ⟨marks, b, rfl, hfirst⟩ := List.eq_append_cons_of_mem hmem
  refine ⟨marks, b, rfl, ?_⟩
  rw [unAccent_append (fixed_of_ascii (by decide))] at h
  have hgone : unAccent u marks = [] := by
    cases hmarks : unAccent u marks with
    | nil => rfl
    | cons x rest =>
        rw [hmarks] at h
        cases h
        have hx : '\n' ∈ unAccent u marks := by
          rw [hmarks]
          exact List.mem_cons_self ..
        exact absurd (mem_of_lineEnd (Or.inr rfl) hx) hfirst
  intro c hc
  rw [List.eq_nil_iff_forall_not_mem]
  intro d hd
  have hkept : d ∈ unAccent u marks := mem_unAccent.mpr ⟨c, hc, hd⟩
  rw [hgone] at hkept
  cases hkept

/-- Reading line ends and removing accents commute.  The induction follows
`lineEnds`: behind a line end it goes on, and a carriage return alone is the
case that `ReturnSafe` is about. -/
theorem lineEnds_unAccent {document : List Char} (hreturn : ReturnSafe u document) :
    lineEnds (unAccent u document) = unAccent u (lineEnds document) := by
  induction hlength : document.length using Nat.strongRecOn generalizing document with
  | ind n ih =>
      by_cases hmem : '\r' ∈ document
      · obtain ⟨a, b, rfl, ha⟩ := List.eq_append_cons_of_mem hmem
        have hkept : '\r' ∉ unAccent u a := fun h => ha (mem_of_lineEnd (Or.inl rfl) h)
        have hcr : Fixed u '\r' := fixed_of_ascii (by decide)
        have hlf : Fixed u '\n' := fixed_of_ascii (by decide)
        have hlater : ∀ p b', a ++ '\r' :: b = p ++ b' → b'.length < n →
            lineEnds (unAccent u b') = unAccent u (lineEnds b') := by
          intro p b' hsplit hlt
          refine ih b'.length hlt ?_ rfl
          intro a' marks b'' heq
          exact hreturn (p ++ a') marks b'' (by rw [hsplit, heq, List.append_assoc])
        rw [unAccent_append hcr, lineEnds_append hkept, lineEnds_append ha]
        by_cases hhead : b.head? = some '\n'
        · obtain ⟨b', rfl⟩ := List.head?_eq_some_iff.mp hhead
          have hrest := hlater (a ++ ['\r', '\n']) b' (by simp) (by simp at hlength; omega)
          have hfeed := unAccent_append hlf [] b'
          rw [List.nil_append] at hfeed
          rw [hfeed, lineEnds_return_feed, unAccent_append hlf, ← hrest]
          exact congrArg (unAccent u a ++ ·) (lineEnds_return_feed _)
        · have hhead' : (unAccent u b).head? ≠ some '\n' := by
            intro h
            obtain ⟨marks, b', rfl, hmarks⟩ := head_unAccent h
            rw [hreturn a marks b' rfl hmarks] at hhead
            exact hhead rfl
          have hrest := hlater (a ++ ['\r']) b (by simp) (by simp at hlength; omega)
          rw [lineEnds_return hhead, lineEnds_return hhead', unAccent_append hlf, hrest]
      · have hkept : '\r' ∉ unAccent u document := fun h => hmem (mem_of_lineEnd (Or.inl rfl) h)
        rw [lineEnds_of_no_return hmem, lineEnds_of_no_return hkept]

/-! ## Reading the document -/

/-- A well-formed recognition result, as it stands before line ends are read. -/
structure OcrDocument where
  document : List Char
  lines : List OcrLine
  wellFormed : ∀ line ∈ lines, WellFormed line.text
  ends : lineEnds document = rawOutput (lines.flatMap OcrLine.render)

/-- Accents may be removed before the document is parsed: it stays well-formed,
its lines stay in number, order and font size, and the text of each is the text
without its accents. -/
def OcrDocument.AccentsCommute (u : UnicodeData) (d : OcrDocument) : Prop :=
  ∃ before after, getDomElement d.document = some before ∧
    getDomElement (unAccent u d.document) = some after ∧
    (elementsByTagName itemName after).map (fun element =>
        (getValue element elementFontSize, getValue element elementText)) =
      (elementsByTagName itemName before).map fun element =>
        (getValue element elementFontSize, unAccent u (getValue element elementText))

/-- With line ends read first, the document is the lines' markup, which is
left as it is, around texts that stay texts (`AccentSafe.wellFormed`) and are
read as what they were, without accents (`value_unAccentPieces`). -/
theorem accentsCommute_of_safe (u : UnicodeData) (d : OcrDocument)
    (hsafe : ∀ line ∈ d.lines, AccentSafe u line.text) (hreturn : ReturnSafe u d.document) :
    d.AccentsCommute u := by
  have hends : lineEnds (unAccent u d.document) =
      rawOutput ((d.lines.map (OcrLine.unAccent u)).flatMap OcrLine.render) := by
    rw [lineEnds_unAccent hreturn, d.ends, unAccent_rawOutput]
  have htext : ∀ line ∈ d.lines.map (OcrLine.unAccent u), WellFormed line.text := by
    intro line hline
    obtain ⟨l, hl, rfl⟩ := List.mem_map.mp hline
    exact (hsafe l hl).wellFormed (d.wellFormed l hl)
  refine ⟨_, _, parse_rawOutput d.wellFormed d.ends, parse_rawOutput htext hends, ?_⟩
  rw [elementsByTagName_rawOutput, elementsByTagName_rawOutput, List.map_map, List.map_map,
    List.map_map]
  apply List.map_congr_left
  intro line hline
  have hvalue := value_unAccentPieces (hsafe line hline).reference
  simp only [Function.comp_apply, getValue_fontSize, getValue_text]
  exact congrArg (Prod.mk (decimal line.fontSize)) hvalue

/-- The data of a few characters: a less-than sign with a stroke, a letter with
two accents, and the combining characters of these and of Hebrew. -/
def sampleData : UnicodeData where
  decomp c := if c = '≮' then ['<', '\u0338'] else if c = 'ễ' then ['e', '\u0302', '\u0303']
    else [c]
  ccc c := if c = '\u0338' then 1 else if c = '\u0302' ∨ c = '\u0303' then 230
    else if c = '\u0591' then 220 else 0
  full := by
    intro c d hd
    split_ifs at hd
    · rcases List.mem_pair.mp hd with rfl | rfl
      · rfl
      · rfl
    · simp only [List.mem_cons, List.not_mem_nil, or_false] at hd
      rcases hd with rfl | rfl | rfl
      · rfl
      · rfl
      · rfl
    · rw [List.mem_singleton.mp hd, if_neg ‹_›, if_neg ‹_›]
  ascii := by
    intro c hc
    have hne := ne_of_not_ascii hc
    simp [hne '≮' (by decide), hne 'ễ' (by decide), hne '\u0338' (by decide),
      hne '\u0302' (by decide), hne '\u0303' (by decide), hne '\u0591' (by decide)]
  legal := by
    intro c d hc hd
    have hsign : ['<', '\u0338'].all isXmlChar = true := rfl
    have hletter : ['e', '\u0302', '\u0303'].all isXmlChar = true := rfl
    split_ifs at hd
    · exact List.all_eq_true.mp hsign d hd
    · exact List.all_eq_true.mp hletter d hd
    · rwa [List.mem_singleton.mp hd]
  lineEnd := by
    intro c d hd hend
    split_ifs at hd
    · rcases hend with rfl | rfl
      · exact absurd hd (by decide)
      · exact absurd hd (by decide)
    · rcases hend with rfl | rfl
      · exact absurd hd (by decide)
      · exact absurd hd (by decide)
    · exact List.mem_singleton.mp hd

end CardScanner
