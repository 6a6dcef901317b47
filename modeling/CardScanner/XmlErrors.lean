import CardScanner.Machine
import CardScanner.XmlParser

/-!
# Results that are no documents

`getDomElement` catches what the document builder throws and returns `null`;
`getListLineFromXml` uses its result without a test.  So a text the builder
cannot parse -- the empty one, or what recognition left of a broken result --
ends in an exception.  A missing child or a font size that is no number does
not: the first reads as an empty text, the second as zero.

Here the builder is a parameter; `getListLineFromXml_eq` says that
`getListLineFromXml` of the module before is the case of a particular one.
-/

namespace CardScanner

open Machine Xml

/-! ## The code -/

/-- `javax.xml.parsers.DocumentBuilder`: the document a text is parsed to; none
stands for an exception of the parser. -/
structure DocumentBuilder where
  parse : List Char → Option Nodes

/-- `getDomElement`; no document stands for `null`. -/
def DocumentBuilder.getDomElement (db : DocumentBuilder) (xml : List Char) : Option Nodes :=
  db.parse xml

/-- The body of the loop over the elements. -/
def readElement (nl : List Nodes) (lineModels : List LineModel) (i : Nat) :
    Option (List LineModel) := do
  let element ← nl[i]?
  -- an exception of `parseInt` leaves the zero
  let fontSize := (parseInt (getValue element elementFontSize)).getD 0
  let text := getValue element elementText
  if fontSize > 10 ∧ charCount (text.filter (· != ' ')) > 5 then
    some (lineModels ++ [⟨fontSize, text⟩])
  else some lineModels

/-- `getListLineFromXml`; no result stands for an exception, here that of a
method call on `null` or of an index outside the list. -/
def DocumentBuilder.getListLineFromXml (db : DocumentBuilder) :
    Option (List Char) → Option (List LineModel)
  | none => some []
  | some xml => do
      let doc ← db.getDomElement xml
      let nl := elementsByTagName itemName doc
      (List.range nl.length).foldlM (readElement nl) []

/-! ## What it should return -/

/-- The element has a font size above ten and more than five characters of text
other than spaces. -/
def isCardLine (element : Nodes) : Bool :=
  ((parseInt (getValue element elementFontSize)).any fun fontSize => 10 < fontSize) &&
    5 < charCount ((getValue element elementText).filter (· != ' '))

/-- The line an element holds. -/
def lineModelOf (element : Nodes) : LineModel :=
  ⟨(parseInt (getValue element elementFontSize)).getD 0, getValue element elementText⟩

/-- The lines of a document in document order; none for no document. -/
def cardLines : Option Nodes → List LineModel
  | none => []
  | some doc => ((elementsByTagName itemName doc).filter isCardLine).map lineModelOf

/-! ## The loop -/

/-- A turn of the loop appends the line of its element, if that is one of the
card's. -/
theorem readElement_eq {nl : List Nodes} {i : Nat} (hi : i < nl.length)
    (lineModels : List LineModel) :
    readElement nl lineModels i =
      some (if isCardLine nl[i] then lineModels ++ [lineModelOf nl[i]] else lineModels) := by
  unfold readElement isCardLine lineModelOf
  rw [List.getElem?_eq_getElem hi]
  simp only [Option.bind_eq_bind, Option.bind_some]
  cases parseInt (getValue nl[i] elementFontSize) with
  | none => simp
  | some fontSize =>
      simp only [Option.getD_some, Option.any_some, Bool.and_eq_true, decide_eq_true_eq, gt_iff_lt]
      split_ifs <;> rfl

/-- Every element that holds a line is added once, in the order of the
elements. -/
theorem foldlM_readElement (nl : List Nodes) :
    (List.range nl.length).foldlM (readElement nl) [] =
      some ((nl.filter isCardLine).map lineModelOf) := by
  have hstep : ∀ i (lineModels : List LineModel), i < nl.length →
      lineModels = ((nl.take i).filter isCardLine).map lineModelOf →
      ∃ next, readElement nl lineModels i = some next ∧
        next = ((nl.take (i + 1)).filter isCardLine).map lineModelOf := by
    intro i lineModels hi heq
    refine ⟨_, readElement_eq hi lineModels, ?_⟩
    rw [List.take_succ_eq_append_getElem hi, List.filter_append, List.map_append, ← heq]
    by_cases hline : isCardLine nl[i] = true
    · simp [hline]
    · simp [hline]
  obtain ⟨lineModels, hrun, heq⟩ := foldlM_range_invariant hstep rfl
  rw [List.take_zero, List.filter_nil, List.map_nil] at hrun
  rw [hrun, heq, List.take_length]

/-- For a document that is given, all depends on what the builder makes of it. -/
theorem DocumentBuilder.getListLineFromXml_some (db : DocumentBuilder) (xml : List Char) :
    db.getListLineFromXml (some xml) =
      (db.parse xml).map fun doc => cardLines (some doc) := by
  change ((db.parse xml).bind fun doc =>
    (List.range (elementsByTagName itemName doc).length).foldlM
      (readElement (elementsByTagName itemName doc)) []) = _
  cases db.parse xml with
  | none => rfl
  | some doc => exact foldlM_readElement _

/-- The loop keeps what `toLineModel` keeps, if the builder is the parser
modelled here. -/
theorem getListLineFromXml_eq (xml : List Char) :
    getListLineFromXml xml = DocumentBuilder.getListLineFromXml ⟨parse⟩ (some xml) := by
  have hline : ∀ element, toLineModel element =
      if isCardLine element then some (lineModelOf element) else none := by
    intro element
    unfold toLineModel isCardLine lineModelOf
    cases parseInt (getValue element elementFontSize) with
    | none => simp
    | some fontSize =>
        simp only [Option.getD_some, Option.any_some, Bool.and_eq_true, decide_eq_true_eq,
          gt_iff_lt]
  rw [DocumentBuilder.getListLineFromXml_some]
  unfold getListLineFromXml getDomElement
  congr 1
  funext doc
  change (elementsByTagName itemName doc).filterMap toLineModel =
    ((elementsByTagName itemName doc).filter isCardLine).map lineModelOf
  rw [← List.filterMap_eq_map, List.filterMap_filter]
  congr 1
  funext element
  exact hline element

/-- **When reading returns.**  The lines of the text, or none if it is no
document, are returned exactly when the builder can parse the text.  Where it
cannot there is no document, which is not tested before its elements are asked
for. -/
theorem getListLineFromXml_returns_iff (db : DocumentBuilder) (xml : List Char) :
    (∃ lines, db.getListLineFromXml (some xml) = some lines ∧ lines = cardLines (db.parse xml)) ↔
      (db.parse xml).isSome = true := by
  rw [db.getListLineFromXml_some]
  cases db.parse xml with
  | none => simp
  | some doc => simp

/-- The empty text is no document. -/
theorem not_getListLineFromXml_returns : ¬ ∀ (db : DocumentBuilder) (xml : List Char),
    ∃ lines, db.getListLineFromXml (some xml) = some lines ∧
      lines = cardLines (db.parse xml) := by
  intro h
  obtain ⟨lines, hreturn, _⟩ := h ⟨parse⟩ []
  have hthrown : DocumentBuilder.getListLineFromXml ⟨parse⟩ (some []) = none := by decide
  rw [hthrown] at hreturn
  cases hreturn

end CardScanner
