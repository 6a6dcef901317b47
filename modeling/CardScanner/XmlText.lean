import CardScanner.XmlParser

/-!
# From recognition results to lines

`GetXMLText` writes the words of a recognised rectangle as `line` elements, and
`XMLParser.getListLineFromXml` reads them back.  A dash is written when the next
symbol of its word is, so one at the end of a word is dropped, and then the
space after the word is left out too.

A symbol is a string of any length.  `GetXMLText` replaces a markup character
by a reference only when it is the whole symbol; a longer symbol is written as
it is.  What is written for a line is therefore its text, piece by piece
(`TextLine.pieces`), and it is an element's text when no longer symbol holds
`<` or `&` and none completes `]]>` (`TextLine.Clean`).
-/

namespace CardScanner

open Decimal Xml

/-! ## The code -/

/-- A symbol as `ResultIterator` shows it: its text, the font size of its word,
and whether it begins a word and a text line. -/
structure Symbol where
  grapheme : List Char
  pointsize : Int
  atWord : Bool
  atTextline : Bool

/-- Where the iterator stands: at a symbol or in an image block. -/
inductive Position where
  | image
  | symbol (s : Symbol)

/-- `isHyphen`; the source compares with the same dash twice. -/
def isHyphen (grapheme : List Char) : Bool :=
  grapheme == ['—'] || grapheme == ['—'] || grapheme == ['-']

/-- `grapheme[1] == 0`: the symbol is one byte long. -/
def oneByte : List Char → Bool
  | [c] => c.toNat < 128
  | _ => false

/-- The `switch` over the only byte of a symbol. -/
def escape : Char → List Char
  | '<' => ['&', 'l', 't', ';']
  | '>' => ['&', 'g', 't', ';']
  | '&' => ['&', 'a', 'm', 'p', ';']
  | '"' => ['&', 'q', 'u', 'o', 't', ';']
  | '\'' => ['&', '#', '3', '9', ';']
  | c => [c]

/-- A symbol that is no dash. -/
def writeGrapheme (grapheme : List Char) : List Char :=
  if oneByte grapheme then grapheme.flatMap escape else grapheme

/-- The `do` loop over the symbols of a word: what is written, whether the last
symbol is a dash, and where the iterator stands then. -/
def writeSymbols (hyphen : Bool) (s : Symbol) : List Position → List Char × Bool × List Position
  | .symbol next :: it =>
      if next.atWord then (writeSymbol, isHyphen s.grapheme, .symbol next :: it)
      else
        let later := writeSymbols (isHyphen s.grapheme) next it
        (writeSymbol ++ later.1, later.2)
  | it => (writeSymbol, isHyphen s.grapheme, it)
where
  writeSymbol : List Char :=
    (if hyphen then ['-'] else []) ++
      if isHyphen s.grapheme then [] else writeGrapheme s.grapheme

/-- Behind the symbols of a word there are no more positions than before. -/
theorem length_writeSymbols (hyphen : Bool) (s : Symbol) (it : List Position) :
    (writeSymbols hyphen s it).2.2.length ≤ it.length := by
  induction it generalizing hyphen s with
  | nil => simp [writeSymbols]
  | cons position it ih =>
      cases position with
      | image => simp [writeSymbols]
      | symbol next =>
          unfold writeSymbols
          split_ifs with hword
          · exact Nat.le_refl _
          · exact (ih _ next).trans (Nat.le_succ _)

/-- What closes a line that is open. -/
def closeLine (lineOpen : Bool) : List Char :=
  if lineOpen then endTag elementText ++ endTag itemName else []

/-- What is written up to the text of a line. -/
def openLine (pointsize : Int) : List Char :=
  startTag itemName ++ (startTag elementFontSize ++ decimal pointsize ++
    endTag elementFontSize ++ startTag elementText)

/-- The loop over the words. -/
def writeWords (lineOpen : Bool) : List Position → List Char
  | [] => closeLine lineOpen
  | .image :: it => writeWords lineOpen it
  | .symbol s :: it =>
      let word := writeSymbols false s it
      (if s.atTextline then closeLine lineOpen ++ openLine s.pointsize else []) ++ word.1 ++
        (if word.2.1 then [] else [' ']) ++ writeWords (lineOpen || s.atTextline) word.2.2
termination_by it => it.length
decreasing_by
  · exact Nat.lt_succ_self _
  · exact Nat.lt_succ_of_le (length_writeSymbols false s it)

/-- `GetXMLText`, over the positions of a page; no line has been begun. -/
def getXMLText (it : List Position) : List Char := writeWords false it

/-! ## Recognised text -/

/-- The text of a symbol. -/
structure Grapheme where
  text : List Char
  nonempty : text ≠ []
  legal : ∀ c ∈ text, isXmlChar c = true ∧ c ≠ '\r'

/-- A word: its point size, which is an int, and its graphemes, of which there
is at least one. -/
structure OcrWord where
  pointsize : Int
  int32 : -2 ^ 31 ≤ pointsize ∧ pointsize < 2 ^ 31
  graphemes : List Grapheme
  nonempty : graphemes ≠ []

/-- A line of words. -/
structure TextLine where
  words : List OcrWord
  nonempty : words ≠ []

/-- The symbols of a word, and whether it is the first of its line. -/
def OcrWord.positions (first : Bool) (w : OcrWord) : List Position :=
  match w.graphemes with
  | [] => []
  | g :: gs => .symbol ⟨g.text, w.pointsize, true, first⟩ ::
      gs.map fun g => .symbol ⟨g.text, w.pointsize, false, false⟩

/-- The symbols of a line. -/
def TextLine.positions (l : TextLine) : List Position :=
  match l.words with
  | [] => []
  | w :: ws => w.positions true ++ ws.flatMap (OcrWord.positions false)

/-- `htmlText`: what the rectangles of a card give, in the root element. -/
def ocrDocument (rects : List (List TextLine)) : List Char :=
  rawOutput (rects.flatMap fun r => getXMLText (r.flatMap TextLine.positions))

/-! ## The text of a line -/

/-- The text of a word: a dash in it is a hyphen, a dash at its end is left
out, and a space follows a word that ends in no dash. -/
def wordText : List Grapheme → List Char
  | [] => []
  | [g] => if isHyphen g.text then [] else g.text ++ [' ']
  | g :: gs => (if isHyphen g.text then ['-'] else g.text) ++ wordText gs

/-- The text of a line. -/
def TextLine.text (l : TextLine) : List Char := l.words.flatMap fun w => wordText w.graphemes

/-- The font size of the first word. -/
def TextLine.pointsize (l : TextLine) : Int := (l.words.head l.nonempty).pointsize

/-- The line a text line is to be read back as, if it is kept. -/
def TextLine.model (l : TextLine) : Option LineModel :=
  if l.pointsize > 10 ∧ charCount (l.text.filter (· != ' ')) > 5 then some ⟨l.pointsize, l.text⟩
  else none

/-! ## What is written for it -/

/-- How a one-byte symbol stands in the document. -/
def charPiece : Char → Piece
  | '<' => .reference ⟨['l', 't'], '<', rfl⟩
  | '>' => .reference ⟨['g', 't'], '>', rfl⟩
  | '&' => .reference ⟨['a', 'm', 'p'], '&', rfl⟩
  | '"' => .reference ⟨['q', 'u', 'o', 't'], '"', rfl⟩
  | '\'' => .reference ⟨['#', '3', '9'], '\'', rfl⟩
  | c => .literal c

/-- A grapheme in the document: escaped if it is a single byte, else as it is. -/
def graphemePieces (grapheme : List Char) : List Piece :=
  if oneByte grapheme then grapheme.map charPiece else grapheme.map .literal

/-- `wordText` as it stands in the document. -/
def wordPieces : List Grapheme → List Piece
  | [] => []
  | [g] => if isHyphen g.text then [] else graphemePieces g.text ++ [.literal ' ']
  | g :: gs => (if isHyphen g.text then [.literal '-'] else graphemePieces g.text) ++ wordPieces gs

/-- The text of a line, word by word. -/
def TextLine.pieces (l : TextLine) : List Piece := l.words.flatMap fun w => wordPieces w.graphemes

/-- The line as it stands in the document. -/
def TextLine.ocrLine (l : TextLine) : OcrLine := ⟨l.pointsize, l.pieces⟩

theorem wordText_cons_cons (g g' : Grapheme) (gs : List Grapheme) :
    wordText (g :: g' :: gs) =
      (if isHyphen g.text then ['-'] else g.text) ++ wordText (g' :: gs) := rfl

theorem wordPieces_cons_cons (g g' : Grapheme) (gs : List Grapheme) :
    wordPieces (g :: g' :: gs) =
      (if isHyphen g.text then [.literal '-'] else graphemePieces g.text) ++
        wordPieces (g' :: gs) := rfl

/-- A character is written in its escaped form. -/
theorem render_charPiece (c : Char) : (charPiece c).render = escape c := by
  unfold charPiece escape
  split <;> rfl

theorem value_charPiece (c : Char) : (charPiece c).value = c := by
  unfold charPiece
  split <;> rfl

/-- The pieces of a grapheme are what is written for it. -/
theorem render_graphemePieces (g : List Char) :
    (graphemePieces g).flatMap Piece.render = writeGrapheme g := by
  unfold graphemePieces writeGrapheme
  split_ifs
  · rw [List.flatMap_map]
    apply List.flatMap_congr
    intro c _
    exact render_charPiece c
  · exact flatMap_literal g

/-- And they are read as the grapheme. -/
theorem value_graphemePieces (g : List Char) : (graphemePieces g).map Piece.value = g := by
  unfold graphemePieces
  split_ifs
  · simp [Function.comp_def, value_charPiece]
  · exact map_literal g

/-- The pieces of a word stand for its text, be they literal or references. -/
theorem value_wordPieces (gs : List Grapheme) :
    (wordPieces gs).map Piece.value = wordText gs := by
  induction gs with
  | nil => rfl
  | cons g gs ih =>
      cases gs with
      | nil =>
          unfold wordPieces wordText
          split_ifs
          · rfl
          · simp [value_graphemePieces, Piece.value]
      | cons g' gs =>
          rw [wordPieces_cons_cons, wordText_cons_cons, List.map_append, ih]
          split_ifs
          · rfl
          · rw [value_graphemePieces]

/-- So the text of a line is read as its text. -/
theorem value_pieces (l : TextLine) : l.pieces.map Piece.value = l.text := by
  simp [TextLine.pieces, TextLine.text, List.map_flatMap, value_wordPieces]

theorem model_ocrLine (l : TextLine) : l.ocrLine.model = l.model := by
  unfold OcrLine.model TextLine.model TextLine.ocrLine
  rw [value_pieces]

/-! ## Writing -/

/-- No symbol of a word before this position stands here. -/
def BeginsWord : List Position → Prop
  | .symbol s :: _ => s.atWord = true
  | _ => True

/-- Before the beginning of a word, the symbol at hand is the last of its own. -/
theorem writeSymbols_of_beginsWord (hyphen : Bool) (s : Symbol) {rest : List Position}
    (hrest : BeginsWord rest) :
    writeSymbols hyphen s rest =
      (writeSymbols.writeSymbol hyphen s, isHyphen s.grapheme, rest) := by
  cases rest with
  | nil => rfl
  | cons position rest =>
      cases position with
      | image => rfl
      | symbol next =>
          unfold writeSymbols
          exact if_pos hrest

/-- The symbols of a word after its first. -/
def laterSymbols (pointsize : Int) (gs : List Grapheme) : List Position :=
  gs.map fun g => .symbol ⟨g.text, pointsize, false, false⟩

/-- **One word.**  A dash is held back until the next symbol is written; the
induction therefore starts with a dash that may still be held back. -/
theorem writeSymbols_word (hyphen : Bool) (s : Symbol) (g : Grapheme) (gs : List Grapheme)
    (pointsize : Int) (hs : s.grapheme = g.text) {rest : List Position} (hrest : BeginsWord rest) :
    ∃ out last, writeSymbols hyphen s (laterSymbols pointsize gs ++ rest) = (out, last, rest) ∧
      out ++ (if last then [] else [' ']) =
        (if hyphen then ['-'] else []) ++ (wordPieces (g :: gs)).flatMap Piece.render := by
  induction gs generalizing hyphen s g with
  | nil =>
      refine ⟨_, _, writeSymbols_of_beginsWord hyphen s hrest, ?_⟩
      unfold writeSymbols.writeSymbol wordPieces
      rw [hs, List.append_assoc]
      split_ifs with hdash
      · rfl
      · simp [render_graphemePieces, Piece.render]
      · rfl
      · simp [render_graphemePieces, Piece.render]
  | cons g' gs ih =>
      obtain ⟨out, last, hwrite, hout⟩ :=
        ih (isHyphen s.grapheme) ⟨g'.text, pointsize, false, false⟩ g' rfl
      refine ⟨writeSymbols.writeSymbol hyphen s ++ out, last, ?_, ?_⟩
      · change writeSymbols hyphen s
          (.symbol ⟨g'.text, pointsize, false, false⟩ :: (laterSymbols pointsize gs ++ rest)) = _
        unfold writeSymbols
        rw [hwrite]
        rfl
      · rw [List.append_assoc, hout, wordPieces_cons_cons, List.flatMap_append, hs]
        unfold writeSymbols.writeSymbol
        rw [hs, List.append_assoc]
        congr 1
        split_ifs
        · rfl
        · rw [render_graphemePieces]
          rfl

theorem beginsWord_positions (first : Bool) (w : OcrWord) (rest : List Position) :
    BeginsWord (w.positions first ++ rest) := by
  unfold OcrWord.positions
  cases hgs : w.graphemes with
  | nil => exact absurd hgs w.nonempty
  | cons g gs => rfl

/-- A word is written with its line opened before it, if it is the first. -/
theorem writeWords_word (lineOpen first : Bool) (w : OcrWord) {rest : List Position}
    (hrest : BeginsWord rest) :
    writeWords lineOpen (w.positions first ++ rest) =
      (if first then closeLine lineOpen ++ openLine w.pointsize else []) ++
        (wordPieces w.graphemes).flatMap Piece.render ++ writeWords (lineOpen || first) rest := by
  unfold OcrWord.positions
  cases hgs : w.graphemes with
  | nil => exact absurd hgs w.nonempty
  | cons g gs =>
      obtain ⟨out, last, hwrite, hout⟩ :=
        writeSymbols_word false ⟨g.text, w.pointsize, true, first⟩ g gs w.pointsize rfl hrest
      change writeWords lineOpen (.symbol ⟨g.text, w.pointsize, true, first⟩ ::
        (laterSymbols w.pointsize gs ++ rest)) = _
      rw [writeWords, hwrite]
      simp only [List.append_assoc]
      rw [← List.append_assoc out, hout]
      simp

theorem beginsWord_words (ws : List OcrWord) {rest : List Position} (hrest : BeginsWord rest) :
    BeginsWord (ws.flatMap (OcrWord.positions false) ++ rest) := by
  cases ws with
  | nil => exact hrest
  | cons w ws =>
      rw [List.flatMap_cons, List.append_assoc]
      exact beginsWord_positions false w _

/-- The words of a line after its first. -/
theorem writeWords_words (ws : List OcrWord) {rest : List Position} (hrest : BeginsWord rest) :
    writeWords true (ws.flatMap (OcrWord.positions false) ++ rest) =
      (ws.flatMap fun w => wordPieces w.graphemes).flatMap Piece.render ++
        writeWords true rest := by
  induction ws with
  | nil => rfl
  | cons w ws ih =>
      rw [List.flatMap_cons, List.append_assoc,
        writeWords_word true false w (beginsWord_words ws hrest), Bool.or_false, ih]
      simp

/-- A line is written word by word, behind the closing of the line before it. -/
theorem writeWords_line (lineOpen : Bool) (l : TextLine) {rest : List Position}
    (hrest : BeginsWord rest) :
    writeWords lineOpen (l.positions ++ rest) =
      closeLine lineOpen ++ openLine l.pointsize ++ l.pieces.flatMap Piece.render ++
        writeWords true rest := by
  obtain ⟨words, hne⟩ := l
  cases words with
  | nil => exact absurd rfl hne
  | cons w ws =>
      change writeWords lineOpen
        (w.positions true ++ ws.flatMap (OcrWord.positions false) ++ rest) = _
      rw [List.append_assoc, writeWords_word lineOpen true w (beginsWord_words ws hrest),
        Bool.or_true, writeWords_words ws hrest]
      simp [TextLine.pieces, TextLine.pointsize]

theorem beginsWord_lines (ls : List TextLine) : BeginsWord (ls.flatMap TextLine.positions) := by
  cases ls with
  | nil => trivial
  | cons l ls =>
      obtain ⟨words, hne⟩ := l
      cases words with
      | nil => exact absurd rfl hne
      | cons w ws =>
          change BeginsWord (w.positions true ++ ws.flatMap (OcrWord.positions false) ++ _)
          rw [List.append_assoc]
          exact beginsWord_positions true w _

/-- The lines of a rectangle, after one that may still be open. -/
theorem writeWords_lines (lineOpen : Bool) (ls : List TextLine) :
    writeWords lineOpen (ls.flatMap TextLine.positions) =
      closeLine lineOpen ++ (ls.map TextLine.ocrLine).flatMap OcrLine.render := by
  induction ls generalizing lineOpen with
  | nil => simp [writeWords]
  | cons l ls ih =>
      rw [List.flatMap_cons, writeWords_line lineOpen l (beginsWord_lines ls), ih true]
      simp [closeLine, openLine, OcrLine.render, TextLine.ocrLine]

/-- Every line is written as an element. -/
theorem ocrDocument_eq (rects : List (List TextLine)) :
    ocrDocument rects =
      rawOutput ((rects.flatten.map TextLine.ocrLine).flatMap OcrLine.render) := by
  unfold ocrDocument
  congr 1
  rw [List.flatMap_map, List.flatten_eq_flatMap, List.flatMap_assoc]
  apply List.flatMap_congr
  intro r _
  unfold getXMLText
  rw [writeWords_lines, List.flatMap_map]
  rfl

/-! ## Reading what was written -/

/-- No symbol of a line brings markup into the document: a symbol of more than
one byte holds no `<` and no `&`, and none completes `]]>`. -/
structure TextLine.Clean (l : TextLine) : Prop where
  markup : ∀ w ∈ l.words, ∀ g ∈ w.graphemes, oneByte g.text = false → '<' ∉ g.text ∧ '&' ∉ g.text
  cdata : ¬ cdataEnd <:+: l.pieces

theorem literal_charPiece {c d : Char} (h : charPiece c = .literal d) :
    d = c ∧ d ≠ '<' ∧ d ≠ '&' := by
  unfold charPiece at h
  split at h
  · cases h
  · cases h
  · cases h
  · cases h
  · cases h
  · rename_i hlt _ hamp _ _
    cases h
    exact ⟨rfl, hlt, hamp⟩

/-- What is written of a grapheme is literal, unless it has several bytes and
brings in markup. -/
theorem isLiteral_of_mem_graphemePieces {g : Grapheme} {c : Char}
    (hmarkup : oneByte g.text = false → '<' ∉ g.text ∧ '&' ∉ g.text)
    (hc : .literal c ∈ graphemePieces g.text) : isLiteral c = true := by
  have hfacts : c ∈ g.text ∧ c ≠ '<' ∧ c ≠ '&' := by
    unfold graphemePieces at hc
    split_ifs at hc with hbyte
    · obtain ⟨d, hd, hpiece⟩ := List.mem_map.mp hc
      obtain ⟨rfl, hne⟩ := literal_charPiece hpiece
      exact ⟨hd, hne⟩
    · obtain ⟨d, hd, hpiece⟩ := List.mem_map.mp hc
      cases hpiece
      obtain ⟨hlt, hamp⟩ := hmarkup (by simpa using hbyte)
      exact ⟨hd, fun heq => hlt (heq ▸ hd), fun heq => hamp (heq ▸ hd)⟩
  obtain ⟨hmem, hlt, hamp⟩ := hfacts
  obtain ⟨hxml, hreturn⟩ := g.legal c hmem
  simp [isLiteral, hxml, hlt, hamp, hreturn]

theorem isLiteral_of_mem_wordPieces {gs : List Grapheme}
    (hmarkup : ∀ g ∈ gs, oneByte g.text = false → '<' ∉ g.text ∧ '&' ∉ g.text)
    {c : Char} (hc : .literal c ∈ wordPieces gs) : isLiteral c = true := by
  induction gs with
  | nil => cases hc
  | cons g gs ih =>
      have hg := hmarkup g (by simp)
      have hgs := ih fun g' hg' => hmarkup g' (List.mem_cons_of_mem _ hg')
      cases gs with
      | nil =>
          unfold wordPieces at hc
          split_ifs at hc
          · cases hc
          · rcases List.mem_append.mp hc with hsymbol | hspace
            · exact isLiteral_of_mem_graphemePieces hg hsymbol
            · cases List.mem_singleton.mp hspace
              rfl
      | cons g' gs =>
          rw [wordPieces_cons_cons] at hc
          rcases List.mem_append.mp hc with hsymbol | hlater
          · split_ifs at hsymbol
            · cases List.mem_singleton.mp hsymbol
              rfl
            · exact isLiteral_of_mem_graphemePieces hg hsymbol
          · exact hgs hlater

/-- What is written for a clean line is an element's text. -/
theorem TextLine.Clean.wellFormed {l : TextLine} (h : l.Clean) : WellFormed l.pieces where
  literal := by
    intro c hc
    obtain ⟨w, hw, hmem⟩ := List.mem_flatMap.mp hc
    exact isLiteral_of_mem_wordPieces (h.markup w hw) hmem
  endFree := endFree_of_no_cdataEnd h.cdata

/-- **Written lines are read back.**  When every line is clean the document is
well-formed, and the lines found in it are the lines of the rectangles, in
order, those with a small font or a short text left out. -/
theorem getListLineFromXml_ocrDocument (rects : List (List TextLine))
    (hclean : ∀ r ∈ rects, ∀ l ∈ r, l.Clean) :
    (getDomElement (ocrDocument rects)).isSome = true ∧
      getListLineFromXml (ocrDocument rects) =
        some (rects.flatten.filterMap TextLine.model) := by
  have hlines : ∀ line ∈ rects.flatten.map TextLine.ocrLine, ∃ l : TextLine,
      l.Clean ∧ l.ocrLine = line := by
    intro line hline
    obtain ⟨l, hl, heq⟩ := List.mem_map.mp hline
    obtain ⟨r, hr, hmem⟩ := List.mem_flatten.mp hl
    exact ⟨l, hclean r hr l hmem, heq⟩
  have htext : ∀ line ∈ rects.flatten.map TextLine.ocrLine, WellFormed line.text := by
    intro line hline
    obtain ⟨l, hl, rfl⟩ := hlines line hline
    exact hl.wellFormed
  have hsize : ∀ line ∈ rects.flatten.map TextLine.ocrLine,
      -2 ^ 31 ≤ line.fontSize ∧ line.fontSize < 2 ^ 31 := by
    intro line hline
    obtain ⟨l, _, rfl⟩ := hlines line hline
    exact (l.words.head l.nonempty).int32
  have hends : lineEnds (ocrDocument rects) =
      rawOutput ((rects.flatten.map TextLine.ocrLine).flatMap OcrLine.render) := by
    rw [ocrDocument_eq]
    exact lineEnds_rawOutput htext
  refine ⟨?_, ?_⟩
  · unfold getDomElement
    rw [parse_rawOutput htext hends]
    rfl
  · rw [getListLineFromXml_rawOutput htext hsize hends, List.filterMap_map]
    congr 1
    apply List.filterMap_congr
    intro l _
    exact model_ocrLine l

/-- A symbol, from its characters. -/
def symbolOf (c : Char) (more : List Char)
    (h : ((c :: more).all fun d => isXmlChar d && d != '\r') = true) : Grapheme where
  text := c :: more
  nonempty := List.cons_ne_nil c more
  legal := by
    intro d hd
    have hall := List.all_eq_true.mp h d hd
    rw [Bool.and_eq_true, bne_iff_ne] at hall
    exact hall

/-- A line of one word in a font of twelve points. -/
def oneWord (g : Grapheme) (gs : List Grapheme) : TextLine where
  words := [⟨12, by decide, g :: gs, List.cons_ne_nil g gs⟩]
  nonempty := List.cons_ne_nil _ _

/-- A company name with an ampersand, a hyphen and a ligature. -/
def companyLine : TextLine :=
  oneWord (symbolOf 'R' [] rfl) [symbolOf '&' [] rfl, symbolOf 'D' [] rfl, symbolOf '—' [] rfl,
    symbolOf 'O' [] rfl, symbolOf 'f' ['f', 'i'] rfl, symbolOf 'c' [] rfl, symbolOf 'e' [] rfl]

theorem clean_companyLine : companyLine.Clean where
  markup := by
    intro w hw
    rw [List.mem_singleton.mp hw]
    decide
  cdata := by decide

/-- The line comes back from the document as it was printed, with its
ampersand and with the dash for a hyphen. -/
theorem getListLineFromXml_companyLine :
    getListLineFromXml (ocrDocument [[companyLine]]) =
      some [⟨12, ['R', '&', 'D', '-', 'O', 'f', 'f', 'i', 'c', 'e', ' ']⟩] := by
  have hread := getListLineFromXml_ocrDocument [[companyLine]] (by
    intro r hr l hl
    rw [List.mem_singleton.mp hr] at hl
    rw [List.mem_singleton.mp hl]
    exact clean_companyLine)
  exact hread.2

/-- The same with a symbol of two less-than signs. -/
def quotedLine : TextLine :=
  oneWord (symbolOf '<' ['<'] rfl) [symbolOf 'O' [] rfl, symbolOf 'f' ['f', 'i'] rfl,
    symbolOf 'c' [] rfl, symbolOf 'e' [] rfl]

/-- A symbol of two less-than signs is written as it is, and the document is
not well-formed. -/
theorem not_getListLineFromXml_ocrDocument :
    ¬ ∀ rects : List (List TextLine), (getDomElement (ocrDocument rects)).isSome = true ∧
      getListLineFromXml (ocrDocument rects) =
        some (rects.flatten.filterMap TextLine.model) := by
  intro hread
  have hdocument := (hread [[quotedLine]]).1
  rw [ocrDocument_eq] at hdocument
  exact absurd hdocument (by decide)

end CardScanner
