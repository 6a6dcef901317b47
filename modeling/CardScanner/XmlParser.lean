import CardScanner.CardText
import CardScanner.JavaText
import CardScanner.Xml

/-!
# Reading a recognition result

`XMLParser.getListLineFromXml` looks up every `line` element of a document and
keeps those with a large enough font and a long enough text.  A recognition
result is a `raw_output` element that holds `line` elements, each with a
`font_size` and a `text`.  The text is given piece by piece, as it stands in
the document; `parse_rawOutput` says what a result is parsed to, and
`elementsByTagName_rawOutput`, `getValue_fontSize` and `getValue_text` what
`getListLineFromXml` finds there.
-/

namespace CardScanner

open Decimal Xml

/-! ## The code -/

/-- The names of the elements in the document. -/
def itemName : List Char := ['l', 'i', 'n', 'e']

def elementText : List Char := ['t', 'e', 'x', 't']

def elementFontSize : List Char := ['f', 'o', 'n', 't', '_', 's', 'i', 'z', 'e']

/-- `getDomElement`; no document stands for a parse error. -/
def getDomElement (xml : List Char) : Option Nodes := parse xml

/-- `getElementValue`: the first text among the children, or an empty one. -/
def getElementValue : Option Nodes → List Char
  | none => []
  | some children => (firstText children).getD []

/-- `getValue`: the first element with the name, at any depth. -/
def getValue (item : Nodes) (str : List Char) : List Char :=
  getElementValue (elementsByTagName str item).head?

/-- The body of the loop: the line an element is, if it is kept. -/
def toLineModel (element : Nodes) : Option LineModel :=
  let fontSize := (parseInt (getValue element elementFontSize)).getD 0
  let text := getValue element elementText
  if fontSize > 10 ∧ charCount (text.filter (· != ' ')) > 5 then some ⟨fontSize, text⟩ else none

/-- `getListLineFromXml`; no result stands for the exception on a document that
could not be parsed. -/
def getListLineFromXml (xml : List Char) : Option (List LineModel) :=
  (getDomElement xml).map fun doc => (elementsByTagName itemName doc).filterMap toLineModel

/-! ## Recognition results -/

/-- A line of a result. -/
structure OcrLine where
  fontSize : Int
  text : List Piece

def rawOutputName : List Char := ['r', 'a', 'w', '_', 'o', 'u', 't', 'p', 'u', 't']

/-- A line as it stands in the document. -/
def OcrLine.render (line : OcrLine) : List Char :=
  startTag itemName ++ (startTag elementFontSize ++ decimal line.fontSize ++
    endTag elementFontSize ++ (startTag elementText ++ line.text.flatMap Piece.render ++
      endTag elementText)) ++ endTag itemName

/-- The document. -/
def rawOutput (body : List Char) : List Char :=
  startTag rawOutputName ++ body ++ endTag rawOutputName

/-- The children of a line's element. -/
def OcrLine.children (line : OcrLine) : Nodes :=
  .element elementFontSize (textNode (decimal line.fontSize))
    (.element elementText (textNode (line.text.map Piece.value)) .nil)

/-- The elements of several lines. -/
def lineNodes : List OcrLine → Nodes
  | [] => .nil
  | line :: lines => .element itemName line.children (lineNodes lines)

/-! ## Parsing a result -/

theorem isLiteral_decimal {n : Int} {c : Char} (hc : c ∈ decimal n) : isLiteral c = true := by
  rcases mem_decimal hc with rfl | hdigit
  · decide
  · have hrange := Char.isDigit_iff_toNat.mp hdigit
    change 48 ≤ c.toNat ∧ c.toNat ≤ 57 at hrange
    have hxml : isXmlChar c = true := isXmlChar_of_range (by omega)
    have hne : ∀ d : Char, d.toNat < 48 ∨ 57 < d.toNat → c ≠ d := by
      intro d hd
      apply ne_of_apply_ne Char.toNat
      omega
    simp [isLiteral, hxml, hne '<' (by decide), hne '&' (by decide), hne '\r' (by decide)]

/-- Without a bracket no `]]>` can come up. -/
theorem endFree_of_no_bracket {cs : List Char} (h : ']' ∉ cs) : EndFree 0 (cs.map .literal) := by
  apply endFree_of_no_cdataEnd
  intro hfound
  have hbracket : Piece.literal ']' ∈ cs.map Piece.literal := hfound.subset (by simp [cdataEnd])
  obtain ⟨c, hc, heq⟩ := List.mem_map.mp hbracket
  cases heq
  exact h hc

theorem wellFormed_decimal (n : Int) : WellFormed ((decimal n).map .literal) where
  literal := by
    intro c hc
    obtain ⟨d, hd, heq⟩ := List.mem_map.mp hc
    cases heq
    exact isLiteral_decimal hd
  endFree := by
    apply endFree_of_no_bracket
    intro hmem
    rcases mem_decimal hmem with hsign | hdigit
    · cases hsign
    · exact absurd hdigit (by decide)

/-- Literal characters are written as themselves. -/
theorem flatMap_literal (cs : List Char) : (cs.map Piece.literal).flatMap Piece.render = cs := by
  induction cs with
  | nil => rfl
  | cons c cs ih => simp [Piece.render, ih]

theorem map_literal (cs : List Char) : (cs.map Piece.literal).map Piece.value = cs := by
  simp [Piece.value, Function.comp_def]

/-- One line. -/
theorem reads_line {line : OcrLine} (htext : WellFormed line.text) :
    Reads line.render (.element itemName line.children .nil) := by
  have hsize : Reads (startTag elementFontSize ++ decimal line.fontSize ++ endTag elementFontSize)
      (.element elementFontSize (textNode (decimal line.fontSize)) .nil) := by
    have hread := Reads.textElement (show isName elementFontSize = true by decide)
      (wellFormed_decimal line.fontSize)
    rwa [flatMap_literal, map_literal] at hread
  have hline := Reads.element (show isName itemName = true by decide)
    (hsize.append (Reads.textElement (show isName elementText = true by decide) htext))
  exact hline

theorem reads_lines {lines : List OcrLine} (htext : ∀ line ∈ lines, WellFormed line.text) :
    Reads (lines.flatMap OcrLine.render) (lineNodes lines) := by
  induction lines with
  | nil => exact Reads.nil
  | cons line lines ih =>
      have hfirst := reads_line (htext line (by simp))
      have hrest := ih fun l hl => htext l (List.mem_cons_of_mem _ hl)
      rw [List.flatMap_cons]
      exact hfirst.append hrest

/-- A result with well-formed texts is parsed to its lines. -/
theorem parse_rawOutput {document : List Char} {lines : List OcrLine}
    (htext : ∀ line ∈ lines, WellFormed line.text)
    (hends : lineEnds document = rawOutput (lines.flatMap OcrLine.render)) :
    parse document = some (.element rawOutputName (lineNodes lines) .nil) :=
  parse_element (by decide) (reads_lines htext) hends

/-- A result with well-formed texts has no carriage return, so reading line
ends leaves it as it is. -/
theorem lineEnds_rawOutput {lines : List OcrLine} (htext : ∀ line ∈ lines, WellFormed line.text) :
    lineEnds (rawOutput (lines.flatMap OcrLine.render)) =
      rawOutput (lines.flatMap OcrLine.render) := by
  apply lineEnds_of_no_return
  have hline : ∀ line ∈ lines, '\r' ∉ line.render := by
    intro line hline
    have hsize := return_notMem_render (wellFormed_decimal line.fontSize)
    rw [flatMap_literal] at hsize
    have hbody := return_notMem_render (htext line hline)
    simp only [OcrLine.render, List.mem_append, not_or]
    refine ⟨⟨by decide, ⟨⟨by decide, hsize⟩, by decide⟩, ⟨by decide, hbody⟩, by decide⟩, by decide⟩
  have hbody : '\r' ∉ lines.flatMap OcrLine.render := by
    simp only [List.mem_flatMap, not_exists, not_and]
    exact hline
  simp only [rawOutput, List.mem_append, not_or]
  exact ⟨⟨by decide, hbody⟩, by decide⟩

/-! ## Looking up its lines -/

theorem elementsByTagName_textNode (tag value : List Char) :
    elementsByTagName tag (textNode value) = [] := by
  unfold textNode
  split_ifs <;> rfl

/-- The `line` elements of a result are its lines, none of which has another
one in it. -/
theorem elementsByTagName_rawOutput (lines : List OcrLine) :
    elementsByTagName itemName (.element rawOutputName (lineNodes lines) .nil) =
      lines.map OcrLine.children := by
  have hroot : rawOutputName ≠ itemName := by decide
  have hsize : elementFontSize ≠ itemName := by decide
  have htext : elementText ≠ itemName := by decide
  have hlines : ∀ ls : List OcrLine,
      elementsByTagName itemName (lineNodes ls) = ls.map OcrLine.children := by
    intro ls
    induction ls with
    | nil => rfl
    | cons line ls ih =>
        simp [lineNodes, elementsByTagName, OcrLine.children, elementsByTagName_textNode, hsize,
          htext, ih]
  simp [elementsByTagName, hroot, hlines]

/-- The first text of a text is that text, also where it is empty and there is
no node for it. -/
theorem firstText_textNode (value : List Char) :
    (firstText (textNode value)).getD [] = value := by
  unfold textNode
  split_ifs with hnil
  · exact hnil.symm
  · rfl

/-- The value of the size element is the size as it is written. -/
theorem getValue_fontSize (line : OcrLine) :
    getValue line.children elementFontSize = decimal line.fontSize := by
  simp [getValue, elementsByTagName, OcrLine.children, getElementValue, firstText_textNode]

/-- That of the text element is the text as it is read, with its references
resolved. -/
theorem getValue_text (line : OcrLine) :
    getValue line.children elementText = line.text.map Piece.value := by
  have hname : elementFontSize ≠ elementText := by decide
  simp [getValue, elementsByTagName, OcrLine.children, elementsByTagName_textNode, hname,
    getElementValue, firstText_textNode]

/-- What a line is read back as, if it is kept. -/
def OcrLine.model (line : OcrLine) : Option LineModel :=
  let text := line.text.map Piece.value
  if line.fontSize > 10 ∧ charCount (text.filter (· != ' ')) > 5 then some ⟨line.fontSize, text⟩
  else none

/-- A size that is an `int` is read back. -/
theorem toLineModel_children {line : OcrLine} (hlow : -2 ^ 31 ≤ line.fontSize)
    (hhigh : line.fontSize < 2 ^ 31) : toLineModel line.children = line.model := by
  simp only [toLineModel, getValue_fontSize, getValue_text, parseInt_decimal hlow hhigh,
    Option.getD_some]
  rfl

/-- The lines that are kept are those of the result, each as `OcrLine.model`
has it. -/
theorem getListLineFromXml_rawOutput {document : List Char} {lines : List OcrLine}
    (htext : ∀ line ∈ lines, WellFormed line.text)
    (hsize : ∀ line ∈ lines, -2 ^ 31 ≤ line.fontSize ∧ line.fontSize < 2 ^ 31)
    (hends : lineEnds document = rawOutput (lines.flatMap OcrLine.render)) :
    getListLineFromXml document = some (lines.filterMap OcrLine.model) := by
  unfold getListLineFromXml getDomElement
  rw [parse_rawOutput htext hends, Option.map_some, elementsByTagName_rawOutput,
    List.filterMap_map]
  congr 1
  apply List.filterMap_congr
  intro line hline
  obtain ⟨hlow, hhigh⟩ := hsize line hline
  exact toLineModel_children hlow hhigh

end CardScanner
