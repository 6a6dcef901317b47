import CardScanner.XmlParser
import CardScanner.XmlTexts

/-!
# Texts that bring markup into a result

A result is put together from lines whose texts may have markup in them.  If it
is a document and each line is found in it with the text that is awaited, no
text has markup in it (`lines_clean`) -- even though what one text leaves open
may be closed by a later one.

The texts that are awaited are counted by their length.  A line is normal if its
text is without markup and begins where the machine reads text; it adds one text
to the tree, its own.  Suppose all lines that await more than `m` characters are
normal.  Then another line that awaits `m` adds none of that length: its text is
too short for one, having lost a character to the markup.  So one text of `m`
characters or more is missing in the end (`count_lines`).
-/

namespace CardScanner

open Decimal Xml

/-! ## The parts of a line -/

/-- What stands before the text of a line. -/
def beforeText (fontSize : Int) : List Char :=
  startTag itemName ++ (startTag elementFontSize ++ decimal fontSize ++ endTag elementFontSize) ++
    startTag elementText

/-- What stands behind it. -/
def behindText : List Char := endTag elementText ++ endTag itemName

theorem render_eq (line : OcrLine) :
    line.render = beforeText line.fontSize ++ (line.text.flatMap Piece.render ++ behindText) := by
  simp [OcrLine.render, beforeText, behindText]

variable {e : OpenElement} {rest : List OpenElement} {root : Nodes} {brackets : Nat}

/-- A start tag in an element. -/
theorem feedAll_startTag_inside {name : List Char} (hname : isName name = true) :
    feedAll (inside e rest [] root brackets) (startTag name) =
      some (inside ⟨name, .nil⟩ (e :: rest) [] root 0) := by
  rw [feedAll_startTag hname (feed_lt [] brackets) rfl]
  simp [State.openTag, State.beginMarkup, inside, addNodes, textNode]

/-- In the text of a line. -/
def opened (e : OpenElement) (rest : List OpenElement) (root : Nodes) (fontSize : Int) : State :=
  inside ⟨elementText, .nil⟩
    (⟨itemName, .element elementFontSize (textNode (decimal fontSize)) .nil⟩ :: e :: rest) [] root 0

theorem feedAll_beforeText (fontSize : Int) :
    feedAll (inside e rest [] root brackets) (beforeText fontSize) =
      some (opened e rest root fontSize) := by
  have hread := Reads.textElement (show isName elementFontSize = true by decide)
    (wellFormed_decimal fontSize)
  rw [flatMap_literal, map_literal] at hread
  obtain ⟨n, hsize⟩ := hread ⟨itemName, .nil⟩ (e :: rest) root 0
  unfold beforeText
  rw [List.append_assoc, feedAll_append_of_eq (feedAll_startTag_inside (by decide)),
    feedAll_append_of_eq hsize, feedAll_startTag_inside (by decide)]
  rfl

/-- The end tag of the innermost element, in another one. -/
theorem feedAll_endTag_inside {t : OpenElement} {text name : List Char} {s' : State}
    (hname : isName name = true)
    (h : feedAll (inside t (e :: rest) text root brackets) (endTag name) = some s') :
    t.name = name ∧
      s' = inside (e.add (.element name (t.add (textNode text)).children .nil)) rest [] root 0 := by
  rw [feedAll_endTag hname (feed_lt text brackets)] at h
  unfold State.closeTag State.beginMarkup inside at h
  simp only [addNodes] at h
  split_ifs at h with heq
  exact ⟨heq, (Option.some.inj h).symm⟩

/-- Behind the root element. -/
def ended (name : List Char) (children : Nodes) : State :=
  ⟨[], [], .element name children .nil, .outside⟩

/-- The end tag of the root element. -/
theorem feedAll_endTag_last {t : OpenElement} {text name : List Char} {s' : State}
    (hname : isName name = true)
    (h : feedAll (inside t [] text root brackets) (endTag name) = some s') :
    t.name = name ∧ s' = ended name (t.add (textNode text)).children := by
  rw [feedAll_endTag hname (feed_lt text brackets)] at h
  unfold State.closeTag State.beginMarkup inside at h
  simp only [addNodes] at h
  split_ifs at h with heq
  exact ⟨heq, (Option.some.inj h).symm⟩

/-- Behind the root element nothing can end. -/
theorem feedAll_endTag_ended {name children tag} (htag : isName tag = true) :
    feedAll (ended name children) (endTag tag) = none := feedAll_endTag htag rfl

/-- Nor can a line begin. -/
theorem feedAll_render_ended (name : List Char) (children : Nodes) (line : OcrLine) :
    feedAll (ended name children) line.render = none := by
  rw [render_eq]
  rfl

/-- The end tags of a line end the two innermost elements, whatever these are;
if the second was the root element, the document ends there. -/
theorem feedAll_behindText {t : OpenElement} {stack : List OpenElement} {text : List Char}
    {s' : State} (h : feedAll (inside t stack text root brackets) behindText = some s') :
    (∃ l children, stack = [l] ∧ s' = ended itemName children) ∨
      ∃ l e rest, stack = l :: e :: rest ∧ t.name = elementText ∧ l.name = itemName ∧
        s' = inside (e.add (.element itemName
          (l.add (.element elementText (t.add (textNode text)).children .nil)).children .nil))
          rest [] root 0 := by
  unfold behindText at h
  rw [feedAll_append] at h
  obtain ⟨u, hu, hrest⟩ := Option.bind_eq_some_iff.mp h
  cases stack with
  | nil =>
      obtain ⟨-, rfl⟩ := feedAll_endTag_last (by decide) hu
      rw [feedAll_endTag_ended (by decide)] at hrest
      cases hrest
  | cons l stack =>
      obtain ⟨htext, rfl⟩ := feedAll_endTag_inside (by decide) hu
      cases stack with
      | nil =>
          obtain ⟨-, rfl⟩ := feedAll_endTag_last (by decide) hrest
          exact .inl ⟨_, _, rfl, rfl⟩
      | cons e rest =>
          obtain ⟨hline, rfl⟩ := feedAll_endTag_inside (by decide) hrest
          exact .inr ⟨l, e, rest, rfl, htext, hline, by simp [OpenElement.add, textNode]⟩

/-! ## Markup that is left open -/

theorem isCalm_digit {c : Char} (hc : c.isDigit = true) : isCalm c = true := by
  have hrange := Char.isDigit_iff_toNat.mp hc
  change 48 ≤ c.toNat ∧ c.toNat ≤ 57 at hrange
  have hxml : isXmlChar c = true := isXmlChar_of_range (by omega)
  have hne : ∀ d : Char, d.toNat < 48 ∨ 57 < d.toNat → c ≠ d := by
    intro d hd
    apply ne_of_apply_ne Char.toNat
    omega
  simp [isCalm, hxml, hne ']' (by decide), hne '?' (by decide), hne '-' (by decide)]

/-- A number has one hyphen at most, which ends no comment. -/
theorem feedAll_calm_decimal {s : State} (hs : s.mode.calm = true) (n : Int) :
    feedAll s (decimal n) = some s := by
  have hdigits : ∀ c ∈ Nat.toDigits 10 n.natAbs, isCalm c = true :=
    fun c hc => isCalm_digit (Nat.isDigit_of_mem_toDigits (by decide) (by decide) hc)
  unfold decimal
  split_ifs with hneg
  · obtain ⟨d, ds, hfirst⟩ := List.exists_cons_of_ne_nil
      (Nat.toDigits_ne_nil (n := n.natAbs) (b := 10))
    rw [hfirst, List.forall_mem_cons] at hdigits
    rw [hfirst]
    change feedAll s (['-', d] ++ ds) = some s
    rw [feedAll_append_of_eq (feedAll_calm_hyphen hs hdigits.1)]
    exact feedAll_calm hs hdigits.2
  · exact feedAll_calm hs hdigits

/-- Inside a comment, a processing instruction or a CDATA section the tags of a
line are passed over. -/
theorem feedAll_calm_beforeText {s : State} (hs : s.mode.calm = true) (fontSize : Int) :
    feedAll s (beforeText fontSize) = some s := by
  have htag : ∀ w : List Char, w.all isCalm = true → feedAll s w = some s :=
    fun w hw => feedAll_calm hs (List.all_eq_true.mp hw)
  unfold beforeText
  rw [List.append_assoc, feedAll_append_of_eq (htag _ rfl), List.append_assoc,
    List.append_assoc, feedAll_append_of_eq (htag _ rfl),
    feedAll_append_of_eq (feedAll_calm_decimal hs fontSize),
    feedAll_append_of_eq (htag _ rfl), htag _ rfl]

/-- If a text leaves the machine in markup, the end tags behind it are passed
over; all else is no document in the end. -/
theorem feedAll_behindText_markup {s s' : State} (hs : Tidy s) (htextual : s.mode.textual = false)
    (h : feedAll s behindText = some s') (hlive : Live s') :
    s'.mode.calm = true ∧ feed s '<' = some s' := by
  have houtside : s.mode ≠ .outside := by
    intro hmode
    have hbegin : feed s '<' = some s.beginMarkup := by
      have hxml : ¬ (!isXmlChar '<') = true := by decide
      unfold feed
      rw [if_neg hxml, hmode]
      rfl
    have hnone : feedAll s (endTag elementText) = none := by
      rw [feedAll_endTag (by decide) hbegin]
      unfold State.closeTag State.beginMarkup
      rw [hs.outside hmode]
      rfl
    rw [behindText, feedAll_append, hnone] at h
    cases h
  change feedAll s ('<' :: behindText.tail) = some s' at h
  rw [feedAll_cons] at h
  obtain ⟨t, ht, hrest⟩ := Option.bind_eq_some_iff.mp h
  have httidy := hs.step (feed_step ht)
  rcases feed_lt_markup hs htextual houtside ht with hhopeless | hcalm
  · exact absurd hhopeless ((hlive.before hrest).not_hopeless httidy)
  · rw [feedAll_calm hcalm (List.all_eq_true.mp rfl)] at hrest
    cases hrest
    exact ⟨hcalm, ht⟩

/-! ## Between lines -/

/-- The machine is in an element in which a line's first text has been found
already, or in the root element. -/
def Served (e : OpenElement) (rest : List OpenElement) : Prop :=
  elementsByTagName elementText e.children ≠ [] ∨ rest = [] ∧ e.name ≠ itemName

/-- Where the machine is between two lines. -/
inductive Between (s : State) : Prop where
  /-- a line begins, and is served -/
  | ready (e : OpenElement) (rest : List OpenElement) (root : Nodes) (brackets : Nat)
      (hserved : Served e rest) (hstate : s = inside e rest [] root brackets)
  /-- a line is passed over -/
  | calm (hcalm : s.mode.calm = true)
  | ended (name : List Char) (children : Nodes) (hstate : s = ended name children)

variable {ok : Char → Bool} {m : Nat}

/-- The elements with a text of that length. -/
def countLong (ok : Char → Bool) (m : Nat) (s : State) : Nat :=
  countTexts itemName elementText (long ok m) s.tree

theorem served_add (e : OpenElement) (rest : List OpenElement) (before text : Nodes) :
    Served (e.add (.element itemName (before.append (.element elementText text .nil)) .nil))
      rest := by
  refine .inl ?_
  simp [OpenElement.add, elementsByTagName_append, elementsByTagName]

/-- Behind a text that was begun in an element, its end tags have been read. -/
theorem between_behindText {s s' : State} (hm : 0 < m) (hs : Tidy s)
    (h : feedAll s behindText = some s') (hlive : Live s') :
    Between s' ∧ countLong ok m s' ≤ countLong ok m s := by
  have hnil : long ok m [] = false := long_nil hm
  by_cases htextual : s.mode.textual = true
  · cases hmode : s.mode with
    | content brackets =>
        obtain ⟨t, stack, hstack⟩ := List.exists_cons_of_ne_nil (hs.inElement htextual)
        have hinside : s = inside t stack s.text s.root brackets := by
          rw [inside, ← hstack, ← hmode]
        have hcount : countLong ok m s' ≤ countLong ok m s := by
          have hend := h
          rw [behindText, feedAll_append] at hend
          obtain ⟨u, hu, hrest⟩ := Option.bind_eq_some_iff.mp hend
          have hfirst : countLong ok m u ≤ countLong ok m s ∧ feed u '<' = some u.beginMarkup :=
            count_endTag hnil hs (by decide) (hinside ▸ feed_lt _ _) hu
          exact le_trans (count_endTag hnil (hs.feedAll hu) (by decide) hfirst.2 hrest).1 hfirst.1
        rw [hinside] at h
        refine ⟨?_, hcount⟩
        rcases feedAll_behindText h with ⟨-, children, -, rfl⟩ | ⟨l, e, rest, -, -, -, rfl⟩
        · exact .ended itemName children rfl
        · exact .ready _ _ _ _ (served_add e rest l.children _) rfl
    | reference body =>
        change feedAll s ('<' :: behindText.tail) = some s' at h
        exact absurd hlive (not_live_in_reference hs hmode (.inl rfl) h)
    | _ => exact absurd htextual (by rw [hmode]; exact Bool.false_ne_true)
  · rw [Bool.not_eq_true] at htextual
    obtain ⟨hcalm, hlt⟩ := feedAll_behindText_markup hs htextual h hlive
    have hstep := feed_step hlt
    exact ⟨.calm hcalm, count_step hnil hs hstep
      (.inl ((hs.text_step htextual hstep).trans (hs.noText htextual).symm))⟩

/-! ## Lines -/

/-- A line, and the text it is awaited to be read with. -/
structure Awaited where
  line : OcrLine
  value : List Char

/-- No literal character of the text is markup. -/
def Clean (pieces : List Piece) : Prop :=
  ∀ c, .literal c ∈ pieces → c ≠ '<' ∧ c ≠ '&'

/-- The text weighs no more than the one that is awaited, and less if it has
markup in it. -/
structure Awaited.Fits (a : Awaited) (ok : Char → Bool) : Prop where
  all : a.value.all ok = true
  le : (a.line.text.map (Piece.weight ok)).sum ≤ a.value.length
  lt : ¬ Clean a.line.text → (a.line.text.map (Piece.weight ok)).sum < a.value.length

/-- A line that is begun adds no long text yet, as its own text is still
empty. -/
theorem count_opened (hm : 0 < m) (e : OpenElement) (rest : List OpenElement) (root : Nodes)
    (brackets : Nat) (fontSize : Int) :
    countLong ok m (opened e rest root fontSize) ≤
      countLong ok m (inside e rest [] root brackets) := by
  have hnil : long ok m [] = false := long_nil hm
  have hsize := elementsByTagName_textNode
  have hadds : Adds itemName elementText (long ok m) 0 .nil (.element itemName
      (.element elementFontSize (textNode (decimal fontSize))
        (.element elementText .nil .nil)) .nil) := by
    have hitem : elementFontSize ≠ itemName ∧ elementText ≠ itemName := by decide
    have htext : elementFontSize ≠ elementText := by decide
    refine ⟨?_, ?_, id⟩
    · simp [countTexts, elementsByTagName, hsize, hitem, htext, textOf, firstText, hnil]
    · simp [textOf, elementsByTagName, hsize, htext, firstText, hnil,
        show itemName ≠ elementText by decide]
  have hcount := ((hadds.unwind (e :: rest)).append_left root).count
  exact hcount

/-- A line that awaits too short a text, or is not normal, adds no long text. -/
theorem count_line {a : Awaited} {s s' : State} (hm : 0 < m) (hs : Tidy s) (hbetween : Between s)
    (hfits : a.Fits ok) (hle : a.value.length ≤ m)
    (hnormal : a.value.length = m → ¬ (Clean a.line.text ∧ s.mode.textual = true))
    (h : feedAll s a.line.render = some s') (hlive : Live s') :
    Between s' ∧ countLong ok m s' ≤ countLong ok m s := by
  cases hbetween with
  | ready e rest root brackets hserved hstate =>
      rw [hstate, render_eq, feedAll_append_of_eq (feedAll_beforeText _), feedAll_append] at h
      obtain ⟨u, hu, hclose⟩ := Option.bind_eq_some_iff.mp h
      have hopened : Tidy (opened e rest root a.line.fontSize) :=
        hs.feedAll (hstate ▸ feedAll_beforeText _)
      have hweight : (a.line.text.map (Piece.weight ok)).sum < m := by
        by_cases hclean : Clean a.line.text
        · have hne : a.value.length ≠ m := fun heq => hnormal heq ⟨hclean, hstate ▸ rfl⟩
          have hfit := hfits.le
          omega
        · exact (hfits.lt hclean).trans_le hle
      have hlight : Light ok 0 0 (opened e rest root a.line.fontSize) := fun _ _ => le_rfl
      have hpieces : countLong ok m u ≤ countLong ok m (opened e rest root a.line.fontSize) :=
        (count_pieces hm (by decide) hopened hlight (by omega) hu (hlive.before hclose)).2
      obtain ⟨hend, hcount⟩ := between_behindText hm (hopened.feedAll hu) hclose hlive
      refine ⟨hend, le_trans (le_trans hcount hpieces) ?_⟩
      rw [hstate]
      exact count_opened hm e rest root brackets a.line.fontSize
  | calm hcalm =>
      rw [render_eq, feedAll_append_of_eq (feedAll_calm_beforeText hcalm _), feedAll_append] at h
      obtain ⟨u, hu, hclose⟩ := Option.bind_eq_some_iff.mp h
      have htextual := Mode.textual_of_calm hcalm
      have hfit := hfits.le
      have hlight : Light ok 1 0 s := fun hbad => absurd hbad (by simp [htextual])
      have hpieces : countLong ok m u ≤ countLong ok m s :=
        (count_pieces hm le_rfl hs hlight (by omega) hu (hlive.before hclose)).2
      obtain ⟨hend, hcount⟩ := between_behindText hm (hs.feedAll hu) hclose hlive
      exact ⟨hend, le_trans hcount hpieces⟩
  | ended name children hstate =>
      rw [hstate, feedAll_render_ended] at h
      cases h

/-- Text without markup is read as text, if it can be read, and has no `]]>`
in it. -/
theorem feedAll_clean {pieces : List Piece} (hclean : Clean pieces) {text : List Char} {s' : State}
    (h : feedAll (inside e rest text root brackets) (pieces.flatMap Piece.render) = some s') :
    EndFree brackets pieces ∧
      ∃ brackets', s' = inside e rest (text ++ pieces.map Piece.value) root brackets' := by
  induction pieces generalizing text brackets with
  | nil =>
      cases h
      exact ⟨trivial, brackets, by simp⟩
  | cons piece pieces ih =>
      have htail : Clean pieces := fun c hc => hclean c (List.mem_cons_of_mem _ hc)
      rw [List.flatMap_cons, feedAll_append] at h
      obtain ⟨u, hu, hrest⟩ := Option.bind_eq_some_iff.mp h
      cases piece with
      | literal c =>
          obtain ⟨hlt, hamp⟩ := hclean c (by simp)
          change feedAll _ [c] = some u at hu
          rw [feedAll_cons] at hu
          obtain ⟨u', hu', heq⟩ := Option.bind_eq_some_iff.mp hu
          cases heq
          have hxml : ¬ (!isXmlChar c) = true := fun hbad => by simp [feed, hbad] at hu'
          unfold feed inside at hu'
          rw [if_neg hxml] at hu'
          simp only at hu'
          rw [if_neg hlt, if_neg hamp] at hu'
          split_ifs at hu' with hend
          cases hu'
          obtain ⟨hfree, brackets', hread⟩ := ih htail hrest
          exact ⟨⟨hend, hfree⟩, brackets', by rw [hread]; simp [Piece.value]⟩
      | reference r =>
          rw [feedAll_reference] at hu
          cases hu
          obtain ⟨hfree, brackets', hread⟩ := ih htail hrest
          exact ⟨hfree, brackets', by rw [hread]; simp [Piece.value]⟩

/-- A text without markup weighs as much as it is long, if all of it is of the
kind. -/
theorem sum_weight_of_clean {pieces : List Piece} (hclean : Clean pieces)
    (hok : (pieces.map Piece.value).all ok = true) :
    (pieces.map (Piece.weight ok)).sum = (pieces.map Piece.value).length := by
  induction pieces with
  | nil => rfl
  | cons piece pieces ih =>
      rw [List.map_cons, List.all_cons, Bool.and_eq_true] at hok
      have htail := ih (fun c hc => hclean c (List.mem_cons_of_mem _ hc)) hok.2
      have hone : piece.weight ok = 1 := by
        cases piece with
        | literal c =>
            obtain ⟨hlt, hamp⟩ := hclean c (by simp)
            exact if_neg (not_or_intro hlt hamp)
        | reference r => exact if_pos hok.1
      rw [List.map_cons, List.sum_cons, List.map_cons, List.length_cons, htail, hone,
        Nat.add_comm]

/-- A served element gets a line: only the text of that line is new, since the
element's own text stays what it was. -/
theorem count_withLine (hserved : Served e rest) (children root : Nodes)
    (brackets brackets' : Nat) :
    countLong ok m (inside (e.add (.element itemName children .nil)) rest [] root brackets') ≤
      countLong ok m (inside e rest [] root brackets) +
        countTexts itemName elementText (long ok m) (.element itemName children .nil) := by
  have htree : ∀ (e : OpenElement) (brackets : Nat), (inside e rest [] root brackets).tree =
      root.append (unwind rest (.element e.name e.children .nil)) := by
    intro e brackets
    rw [tree_of_noText rfl]
    simp [inside, unwind]
  unfold countLong
  rw [htree, htree]
  rcases hserved with htext | ⟨rfl, hname⟩
  · have hadds : Adds itemName elementText (long ok m)
        (countTexts itemName elementText (long ok m) (.element itemName children .nil))
        e.children (e.children.append (.element itemName children .nil)) := by
      refine ⟨(countTexts_append _ _).le, ?_, ?_⟩
      · rw [textOf_append, if_neg htext]
        exact id
      · rw [firstText_append]
        cases firstText e.children <;> exact id
    exact (((hadds.element e.name).unwind rest).append_left root).count
  · simp [unwind, countTexts_append, countTexts_element, hname, OpenElement.add, Nat.add_assoc]

/-- What is counted here is what the application reads. -/
theorem textOf_eq_getValue (tag : List Char) (item : Nodes) :
    textOf tag item = getValue item tag := by
  unfold textOf getValue
  cases (elementsByTagName tag item).head? <;> rfl

/-- The text of a line counts only if it is awaited to be that long, being no
longer than that. -/
theorem countTexts_line {a : Awaited} (hfits : a.Fits ok) (hclean : Clean a.line.text) :
    countTexts itemName elementText (long ok m) (.element itemName a.line.children .nil) ≤
      if m ≤ a.value.length then 1 else 0 := by
  have hnone : countTexts itemName elementText (long ok m) a.line.children = 0 := by
    have hitem : elementFontSize ≠ itemName ∧ elementText ≠ itemName := by decide
    simp [countTexts, OcrLine.children, elementsByTagName, hitem, elementsByTagName_textNode]
  have htext : textOf elementText a.line.children = a.line.text.map Piece.value :=
    (textOf_eq_getValue _ _).trans (getValue_text a.line)
  rw [countTexts_element, hnone, htext]
  have hlength : long ok m (a.line.text.map Piece.value) = true → m ≤ a.value.length := by
    intro hlong
    simp only [long, Bool.and_eq_true, decide_eq_true_eq] at hlong
    have hfit := hfits.le
    rw [sum_weight_of_clean hclean hlong.2] at hfit
    omega
  split_ifs with hlong hle
  · exact le_rfl
  · exact absurd (hlength hlong.2) hle
  · exact Nat.zero_le _
  · exact le_rfl

/-- **A normal line.**  It is added to the element it stands in, and counts if
it is awaited to. -/
theorem count_normal {a : Awaited} (hserved : Served e rest) (hfits : a.Fits ok)
    (hclean : Clean a.line.text) {s' : State}
    (h : feedAll (inside e rest [] root brackets) a.line.render = some s') :
    EndFree 0 a.line.text ∧
      (∃ e' rest' brackets', Served e' rest' ∧ s' = inside e' rest' [] root brackets') ∧
      countLong ok m s' ≤ countLong ok m (inside e rest [] root brackets) +
        if m ≤ a.value.length then 1 else 0 := by
  rw [render_eq, feedAll_append_of_eq (feedAll_beforeText _), feedAll_append] at h
  obtain ⟨u, hu, hclose⟩ := Option.bind_eq_some_iff.mp h
  obtain ⟨hfree, brackets', rfl⟩ := feedAll_clean hclean hu
  refine ⟨hfree, ?_⟩
  rcases feedAll_behindText hclose with ⟨l, children, hstack, -⟩ | ⟨l, e', rest', hstack, -, -, rfl⟩
  · cases hstack
  · cases hstack
    refine ⟨⟨_, _, _, served_add _ _ _ _, rfl⟩, ?_⟩
    exact le_trans (count_withLine hserved a.line.children root brackets 0)
      (Nat.add_le_add_left (countTexts_line hfits hclean) _)

/-! ## All lines -/

/-- The lines that await at least so many characters are normal. -/
def AllNormal (m : Nat) : State → List Awaited → Prop
  | _, [] => True
  | s, a :: as => (m ≤ a.value.length → Clean a.line.text ∧ s.mode.textual = true) ∧
      ∀ t, feedAll s a.line.render = some t → AllNormal m t as

theorem allNormal_of_short {as : List Awaited} (hshort : ∀ a ∈ as, a.value.length < m) (s : State) :
    AllNormal m s as := by
  induction as generalizing s with
  | nil => trivial
  | cons a as ih =>
      obtain ⟨ha, htail⟩ := List.forall_mem_cons.mp hshort
      exact ⟨fun hle => absurd hle (by omega), fun t _ => ih htail t⟩

/-- The lines that are awaited to be that long. -/
def awaitedLong (m : Nat) (as : List Awaited) : Nat :=
  as.countP fun a => decide (m ≤ a.value.length)

/-- One of the lines, where it is normal if it awaits a longer text.  It adds
a long text at most if it awaits one, and then only if it is normal. -/
theorem count_awaited {a : Awaited} {s s' : State} (hm : 0 < m) (hs : Tidy s)
    (hbetween : Between s) (hfits : a.Fits ok)
    (hnormal : m + 1 ≤ a.value.length → Clean a.line.text ∧ s.mode.textual = true)
    (h : feedAll s a.line.render = some s') (hlive : Live s') :
    Between s' ∧ countLong ok m s' ≤ countLong ok m s + (if m ≤ a.value.length then 1 else 0) ∧
      (countLong ok m s' = countLong ok m s + (if m ≤ a.value.length then 1 else 0) →
        m ≤ a.value.length → Clean a.line.text ∧ s.mode.textual = true) := by
  by_cases hnot : m ≤ a.value.length → Clean a.line.text ∧ s.mode.textual = true
  · by_cases hle : m ≤ a.value.length
    · obtain ⟨hclean, htextual⟩ := hnot hle
      cases hbetween with
      | ready e rest root brackets hserved hstate =>
          subst hstate
          obtain ⟨-, ⟨e', rest', brackets', hserved', hstate'⟩, hcount⟩ :=
            count_normal hserved hfits hclean h
          exact ⟨.ready e' rest' root brackets' hserved' hstate', hcount, fun _ => hnot⟩
      | calm hcalm => exact absurd htextual (by simp [Mode.textual_of_calm hcalm])
      | ended name children hstate =>
          rw [hstate] at htextual
          cases htextual
    · obtain ⟨hend, hcount⟩ := count_line hm hs hbetween hfits (by omega) (by omega) h hlive
      rw [if_neg hle]
      exact ⟨hend, hcount, fun _ => hnot⟩
  · obtain ⟨hle, hmissed⟩ := Classical.not_imp.mp hnot
    have hlength : ¬ m + 1 ≤ a.value.length := fun hlong => hmissed (hnormal hlong)
    obtain ⟨hend, hcount⟩ := count_line hm hs hbetween hfits (by omega) (fun _ => hmissed) h hlive
    rw [if_pos hle]
    exact ⟨hend, by omega, fun heq => by omega⟩

/-- **A line that is not normal is missed.**  Where all longer ones are normal,
there are no more long texts than lines that await one, and as many only if
these are normal too. -/
theorem count_lines {as : List Awaited} {s s' : State} (hm : 0 < m) (hs : Tidy s)
    (hbetween : Between s) (hfits : ∀ a ∈ as, a.Fits ok) (hnormal : AllNormal (m + 1) s as)
    (h : feedAll s (as.flatMap fun a => a.line.render) = some s') (hlive : Live s') :
    Between s' ∧ countLong ok m s' ≤ countLong ok m s + awaitedLong m as ∧
      (countLong ok m s' = countLong ok m s + awaitedLong m as → AllNormal m s as) := by
  induction as generalizing s with
  | nil =>
      cases h
      exact ⟨hbetween, le_rfl, fun _ => trivial⟩
  | cons a as ih =>
      rw [List.flatMap_cons, feedAll_append] at h
      obtain ⟨t, ht, hrest⟩ := Option.bind_eq_some_iff.mp h
      obtain ⟨hfit, hfits⟩ := List.forall_mem_cons.mp hfits
      obtain ⟨hbetween', hfirst, hthis⟩ :=
        count_awaited hm hs hbetween hfit hnormal.1 ht (hlive.before hrest)
      obtain ⟨hend, hlater, hall⟩ := ih (hs.feedAll ht) hbetween' hfits (hnormal.2 t ht) hrest
      have hcons : awaitedLong m (a :: as) =
          awaitedLong m as + if m ≤ a.value.length then 1 else 0 := by
        simp [awaitedLong, List.countP_cons]
      rw [hcons]
      refine ⟨hend, by omega, fun heq => ⟨hthis (by omega), fun t' ht' => ?_⟩⟩
      obtain rfl : t = t' := Option.some.inj (ht.symm.trans ht')
      exact hall (by omega)

/-- There is a length that no line awaits. -/
theorem exists_bound (as : List Awaited) :
    ∃ bound, 0 < bound ∧ ∀ a ∈ as, a.value.length < bound := by
  induction as with
  | nil => exact ⟨1, by decide, fun a ha => absurd ha List.not_mem_nil⟩
  | cons a as ih =>
      obtain ⟨bound, hpos, hbound⟩ := ih
      refine ⟨a.value.length + bound, by omega, List.forall_mem_cons.mpr ⟨by omega, ?_⟩⟩
      exact fun b hb => (hbound b hb).trans_le (Nat.le_add_left _ _)

/-- If for every length there are as many texts as lines that await one, all
lines that await a text are normal.  By induction downwards from a length that
none awaits. -/
theorem all_normal {as : List Awaited} {s s' : State} (hs : Tidy s) (hbetween : Between s)
    (hfits : ∀ a ∈ as, a.Fits ok) (h : feedAll s (as.flatMap fun a => a.line.render) = some s')
    (hlive : Live s') (hcount : ∀ m, 0 < m →
      countLong ok m s + awaitedLong m as ≤ countLong ok m s') : AllNormal 1 s as := by
  obtain ⟨bound, -, hbound⟩ := exists_bound as
  have hdown : ∀ k m, bound ≤ m + k → 0 < m → AllNormal m s as := by
    intro k
    induction k with
    | zero => exact fun m hle _ => allNormal_of_short (fun a ha => (hbound a ha).trans_le hle) s
    | succ k ih =>
        intro m hle hm
        have hlonger := ih (m + 1) (by omega) (by omega)
        obtain ⟨-, hmost, hall⟩ := count_lines hm hs hbetween hfits hlonger h hlive
        exact hall (le_antisymm hmost (hcount m hm))
  exact hdown bound 1 (by omega) (by decide)

/-- Lines that are all normal are read one after the other, each in the
element that the last one left. -/
theorem clean_of_normal {as : List Awaited} {s' : State} (hserved : Served e rest)
    (hfits : ∀ a ∈ as, a.Fits ok) (hnormal : AllNormal 1 (inside e rest [] root brackets) as)
    (h : feedAll (inside e rest [] root brackets) (as.flatMap fun a => a.line.render) = some s') :
    ∀ a ∈ as, Clean a.line.text ∧ EndFree 0 a.line.text := by
  induction as generalizing e rest brackets with
  | nil => exact fun a ha => absurd ha List.not_mem_nil
  | cons a as ih =>
      rw [List.flatMap_cons, feedAll_append] at h
      obtain ⟨t, ht, hrest⟩ := Option.bind_eq_some_iff.mp h
      obtain ⟨hfit, hfits⟩ := List.forall_mem_cons.mp hfits
      have hclean : Clean a.line.text := by
        by_contra hmarkup
        have hlt := hfit.lt hmarkup
        exact hmarkup (hnormal.1 (by omega)).1
      have hlater := hnormal.2 t ht
      obtain ⟨hfree, ⟨e', rest', brackets', hserved', rfl⟩, -⟩ :=
        count_normal (m := 1) hserved hfit hclean ht
      exact List.forall_mem_cons.mpr ⟨⟨hclean, hfree⟩, ih hserved' hfits hlater hrest⟩

/-- Between the lines the root element can end, which adds no text. -/
theorem count_rootEnd {s s' : State} {tree : Nodes} (hm : 0 < m) (hs : Tidy s)
    (hbetween : Between s) (h : feedAll s (endTag rawOutputName) = some s')
    (hresult : s'.result = some tree) :
    countTexts itemName elementText (long ok m) tree ≤ countLong ok m s := by
  have hnil : long ok m [] = false := long_nil hm
  have hbegin : feed s '<' = some s.beginMarkup := by
    cases hbetween with
    | ready e rest root brackets hserved hstate =>
        rw [hstate]
        rfl
    | calm hcalm =>
        rw [feedAll_calm hcalm (List.all_eq_true.mp rfl)] at h
        cases h
        unfold State.result at hresult
        split_ifs at hresult with hend
        rw [hend.1] at hcalm
        cases hcalm
    | ended name children hstate =>
        rw [hstate]
        rfl
  have hcount : countLong ok m s' ≤ countLong ok m s :=
    (count_endTag hnil hs (by decide) hbegin h).1
  have htree : s'.tree = tree := by
    unfold State.result at hresult
    split_ifs at hresult with hend
    have htidy := hs.feedAll h
    rw [tree_of_noText (htidy.noText (by rw [hend.1]; rfl)), htidy.outside hend.1]
    simpa [unwind] using hresult
  rwa [countLong, htree] at hcount

/-- **Texts that are read in their own lines have no markup in them.** -/
theorem lines_clean {as : List Awaited} {document : List Char} {tree : Nodes}
    (hfits : ∀ a ∈ as, a.Fits ok)
    (hends : lineEnds document = rawOutput (as.flatMap fun a => a.line.render))
    (hparse : parse document = some tree)
    (hvalues : (elementsByTagName itemName tree).map (textOf elementText) =
      as.map Awaited.value) :
    ∀ a ∈ as, Clean a.line.text ∧ EndFree 0 a.line.text := by
  have hstart : feedAll start (startTag rawOutputName) =
      some (inside ⟨rawOutputName, .nil⟩ [] [] .nil 0) := rfl
  unfold parse at hparse
  rw [hends, rawOutput, List.append_assoc, feedAll_append_of_eq hstart] at hparse
  obtain ⟨s', hread, hresult⟩ := Option.bind_eq_some_iff.mp hparse
  rw [feedAll_append] at hread
  obtain ⟨s, hlines, hend⟩ := Option.bind_eq_some_iff.mp hread
  have htidy : Tidy (inside ⟨rawOutputName, .nil⟩ [] [] .nil 0) := tidy_start.feedAll hstart
  have hserved : Served ⟨rawOutputName, .nil⟩ [] := .inr ⟨rfl, by decide⟩
  have hbetween : Between (inside ⟨rawOutputName, .nil⟩ [] [] .nil 0) :=
    .ready _ _ _ _ hserved rfl
  have hlive : Live s := ⟨_, s', hend, by simp [hresult]⟩
  refine clean_of_normal hserved hfits ?_ hlines
  refine all_normal htidy hbetween hfits hlines hlive fun m hm => ?_
  obtain ⟨bound, hpos, hbound⟩ := exists_bound as
  have hbetween' : Between s := (count_lines hpos htidy hbetween hfits
    (allNormal_of_short (fun a ha => (hbound a ha).trans (Nat.lt_succ_self _)) _) hlines hlive).1
  have hnone : countLong ok m (inside ⟨rawOutputName, .nil⟩ [] [] .nil 0) = 0 := rfl
  have hall : awaitedLong m as = countTexts itemName elementText (long ok m) tree := by
    have hcount := congrArg (List.countP (long ok m)) hvalues
    rw [List.countP_map, List.countP_map] at hcount
    refine Eq.trans (List.countP_congr fun a ha => ?_) hcount.symm
    simp [long, (hfits a ha).all]
  rw [hnone, Nat.zero_add, hall]
  exact count_rootEnd hm (htidy.feedAll hlines) hbetween' hend hresult

end CardScanner
