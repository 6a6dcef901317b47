import CardScanner.Decimal
import Mathlib.Data.List.Basic

/-!
# Reading XML

A non-validating XML 1.0 processor that builds a document tree, for documents
without an XML declaration and a document type.  It is a machine that reads one
character at a time, so what it does on a concatenation follows from what it
does on the parts (`feedAll_append`).  The rules at the end of the file read
documents that are put together from elements and character data:

* `Reads.nil`, `Reads.append`, `Reads.element`, `Reads.textElement` -- which
  nodes a text between tags contributes;
* `parse_element` -- what a whole document is parsed to.

Attributes are checked and dropped; comments, processing instructions and CDATA
sections leave a node whose contents nobody reads.
-/

namespace Xml

/-! ## Trees -/

/-- A node and its later siblings: the first child of an element, and the next
sibling of a node, are the two ways to go on. -/
inductive Nodes where
  | nil
  | text (value : List Char) (next : Nodes)
  | element (name : List Char) (children next : Nodes)
  | other (next : Nodes)
  deriving DecidableEq, Repr

/-- The nodes of the one behind those of the other. -/
def Nodes.append : Nodes → Nodes → Nodes
  | .nil, later => later
  | .text value next, later => .text value (next.append later)
  | .element name children next, later => .element name children (next.append later)
  | .other next, later => .other (next.append later)

@[simp] theorem Nodes.append_nil (nodes : Nodes) : nodes.append .nil = nodes := by
  induction nodes with
  | nil => rfl
  | text value next ih => simp [Nodes.append, ih]
  | element name children next _ ih => simp [Nodes.append, ih]
  | other next ih => simp [Nodes.append, ih]

theorem Nodes.append_assoc (a b c : Nodes) : (a.append b).append c = a.append (b.append c) := by
  induction a with
  | nil => rfl
  | text value next ih => simp [Nodes.append, ih]
  | element name children next _ ih => simp [Nodes.append, ih]
  | other next ih => simp [Nodes.append, ih]

/-- The text node of a run of characters: none for the empty run. -/
def textNode (value : List Char) : Nodes :=
  if value = [] then .nil else .text value .nil

/-! ## Characters -/

/-- `Char`: what may stand in a document. -/
def isXmlChar (c : Char) : Bool :=
  c == '\t' || c == '\n' || c == '\r' || (32 ≤ c.toNat && c.toNat ≤ 0xFFFD) || 0x10000 ≤ c.toNat

theorem isXmlChar_of_range {c : Char}
    (h : (32 ≤ c.toNat ∧ c.toNat ≤ 0xFFFD) ∨ 0x10000 ≤ c.toNat) : isXmlChar c = true := by
  unfold isXmlChar
  rcases h with ⟨hlow, hhigh⟩ | hhigh
  · simp [hlow, hhigh]
  · simp [hhigh]

/-- `S`. -/
def isSpace (c : Char) : Bool := c == ' ' || c == '\t' || c == '\n' || c == '\r'

/-- The intervals of `NameStartChar` beyond ASCII. -/
def nameStartRanges : List (Nat × Nat) :=
  [(0xC0, 0xD6), (0xD8, 0xF6), (0xF8, 0x2FF), (0x370, 0x37D), (0x37F, 0x1FFF), (0x200C, 0x200D),
    (0x2070, 0x218F), (0x2C00, 0x2FEF), (0x3001, 0xD7FF), (0xF900, 0xFDCF), (0xFDF0, 0xFFFD),
    (0x10000, 0xEFFFF)]

/-- `NameStartChar`. -/
def isNameStart (c : Char) : Bool :=
  c.isAlpha || c == ':' || c == '_' || nameStartRanges.any fun r => r.1 ≤ c.toNat && c.toNat ≤ r.2

/-- `NameChar`. -/
def isNameChar (c : Char) : Bool :=
  isNameStart c || c.isDigit || c == '-' || c == '.' || c.toNat == 0xB7 ||
    (0x300 ≤ c.toNat && c.toNat ≤ 0x36F) || c.toNat == 0x203F || c.toNat == 0x2040

/-- A name. -/
def isName : List Char → Bool
  | [] => false
  | c :: cs => isNameStart c && cs.all isNameChar

/-- The character with a number, if it may stand in a document. -/
def charOfNat (n : Nat) : Option Char :=
  if n.isValidChar && isXmlChar (Char.ofNat n) then some (Char.ofNat n) else none

/-- The value of a hexadecimal digit. -/
def hexDigit (c : Char) : Option Nat :=
  if 48 ≤ c.toNat ∧ c.toNat ≤ 57 then some (c.toNat - 48)
  else if 97 ≤ c.toNat ∧ c.toNat ≤ 102 then some (c.toNat - 87)
  else if 65 ≤ c.toNat ∧ c.toNat ≤ 70 then some (c.toNat - 55)
  else none

/-- The value of a digit string in a base, if there is one. -/
def digitsValue (base : Nat) : List Char → Option Nat
  | [] => none
  | ds => ds.foldlM (fun n c =>
      (hexDigit c).bind fun d => if d < base then some (n * base + d) else none) 0

/-- What stands between `&` and `;`: a predefined entity or a character
number. -/
def decodeRef : List Char → Option Char
  | ['l', 't'] => some '<'
  | ['g', 't'] => some '>'
  | ['a', 'm', 'p'] => some '&'
  | ['q', 'u', 'o', 't'] => some '"'
  | ['a', 'p', 'o', 's'] => some '\''
  | '#' :: 'x' :: digits => (digitsValue 16 digits).bind charOfNat
  | '#' :: digits => (digitsValue 10 digits).bind charOfNat
  | _ => none

/-! ## The machine -/

/-- Where in the markup the machine is, with what has been read of the
construct that it is in. -/
inductive Mode where
  /-- outside the root element -/
  | outside
  /-- in an element, after this many of the two brackets of `]]>` -/
  | content (brackets : Nat)
  | reference (body : List Char)
  /-- after `<` -/
  | markup
  | startName (name : List Char)
  /-- in a start tag, where white space or the end of the tag may stand -/
  | inTag (name : List Char) (attributes : List (List Char))
  /-- the same after white space, where an attribute may begin -/
  | inTagSpace (name : List Char) (attributes : List (List Char))
  | attribute (name : List Char) (attributes : List (List Char)) (attr : List Char)
  | beforeEquals (name : List Char) (attributes : List (List Char))
  | beforeValue (name : List Char) (attributes : List (List Char))
  | value (name : List Char) (attributes : List (List Char)) (quote : Char)
  | valueReference (name : List Char) (attributes : List (List Char)) (quote : Char)
      (body : List Char)
  /-- after the `/` of an empty-element tag -/
  | emptyTag (name : List Char)
  | endName (name : List Char)
  | endSpace (name : List Char)
  /-- after `<!` -/
  | declaration (seen : List Char)
  /-- in a comment, after this many of the two hyphens of its end -/
  | comment (hyphens : Nat)
  | cdata (brackets : Nat)
  | piTarget (target : List Char)
  | piData (question : Bool)
  | piEnd
  deriving DecidableEq, Repr

/-- An element that is not closed yet, and its children so far. -/
structure OpenElement where
  name : List Char
  children : Nodes
  deriving DecidableEq, Repr

/-- What the reader has in hand: the open elements with what stood before
them, the text and the nodes of the innermost, and what it expects next. -/
structure State where
  /-- the open elements, the innermost first -/
  stack : List OpenElement
  /-- the characters since the last node -/
  text : List Char
  /-- the root element, once it is closed -/
  root : Nodes
  mode : Mode
  deriving DecidableEq, Repr

/-- Add nodes to the innermost open element. -/
def addNodes (nodes : Nodes) : List OpenElement → List OpenElement
  | [] => []
  | e :: rest => { e with children := e.children.append nodes } :: rest

/-- Where the machine goes on after markup. -/
def State.resume (s : State) : State :=
  { s with mode := if s.stack.isEmpty then .outside else .content 0 }

/-- `<`: the characters read so far are a text node. -/
def State.beginMarkup (s : State) : State :=
  { s with stack := addNodes (textNode s.text) s.stack, text := [], mode := .markup }

/-- The end of a start tag. -/
def State.openTag (s : State) (name : List Char) : State :=
  { s with stack := ⟨name, .nil⟩ :: s.stack, mode := .content 0 }

/-- An element is complete: a child of the element around it, or the root. -/
def State.addElement (s : State) (name : List Char) (children : Nodes) : State :=
  if s.stack.isEmpty then { s with root := .element name children .nil, mode := .outside }
  else { s with stack := addNodes (.element name children .nil) s.stack, mode := .content 0 }

/-- The end of an end tag. -/
def State.closeTag (s : State) (name : List Char) : Option State :=
  match s.stack with
  | [] => none
  | e :: rest => if e.name = name then some ({ s with stack := rest }.addElement name e.children)
      else none

/-- The end of a comment, a processing instruction or a CDATA section. -/
def State.addOther (s : State) : State :=
  { s with stack := addNodes (.other .nil) s.stack }.resume

/-- A start tag where it may stand: in an element, or as the first one. -/
def State.mayOpen (s : State) : Bool := !s.stack.isEmpty || s.root == .nil

/-- Brackets of `]]>` after one more character. -/
def nextBrackets (brackets : Nat) (c : Char) : Nat := if c = ']' then min 2 (brackets + 1) else 0

/-- What stands after `<`. -/
def State.readMarkup (s : State) (c : Char) : Option State :=
  if c = '/' then some { s with mode := .endName [] }
  else if c = '!' then some { s with mode := .declaration [] }
  else if c = '?' then some { s with mode := .piTarget [] }
  else if isNameStart c && s.mayOpen then some { s with mode := .startName [c] }
  else none

/-- Where a start tag may end: at the end of its name, of a value or of space. -/
def State.readTagEnd (s : State) (name : List Char) (attributes : List (List Char)) (c : Char) :
    Option State :=
  if c = '>' then some (s.openTag name)
  else if c = '/' then some { s with mode := .emptyTag name }
  else if isSpace c then some { s with mode := .inTagSpace name attributes }
  else none

/-- `<!`: a comment, or in an element a CDATA section. -/
def State.readDeclaration (s : State) (seen : List Char) : Option State :=
  if seen = ['-', '-'] then some { s with mode := .comment 0 }
  else if seen = ['[', 'C', 'D', 'A', 'T', 'A', '['] && !s.stack.isEmpty then
    some { s with mode := .cdata 0 }
  else if ['-', '-'].take seen.length = seen ∨
      ['[', 'C', 'D', 'A', 'T', 'A', '['].take seen.length = seen then
    some { s with mode := .declaration seen }
  else none

/-- One character, which may not be legal, or not be possible where it stands:
the document is then not well-formed. -/
def feed (s : State) (c : Char) : Option State :=
  if !isXmlChar c then none else
  match s.mode with
  | .outside =>
      if c = '<' then some s.beginMarkup
      else if isSpace c then some s
      else none
  | .content brackets =>
      if c = '<' then some s.beginMarkup
      else if c = '&' then some { s with mode := .reference [] }
      else if c = '>' ∧ brackets = 2 then none
      else some { s with text := s.text ++ [c], mode := .content (nextBrackets brackets c) }
  | .reference body =>
      if c = ';' then
        (decodeRef body).map fun value => { s with text := s.text ++ [value], mode := .content 0 }
      else some { s with mode := .reference (body ++ [c]) }
  | .markup => s.readMarkup c
  | .startName name =>
      if isNameChar c then some { s with mode := .startName (name ++ [c]) }
      else s.readTagEnd name [] c
  | .inTag name attributes => s.readTagEnd name attributes c
  | .inTagSpace name attributes =>
      if isNameStart c then some { s with mode := .attribute name attributes [c] }
      else s.readTagEnd name attributes c
  | .attribute name attributes attr =>
      if isNameChar c then some { s with mode := .attribute name attributes (attr ++ [c]) }
      else if attributes.contains attr then none
      else if c = '=' then some { s with mode := .beforeValue name (attr :: attributes) }
      else if isSpace c then some { s with mode := .beforeEquals name (attr :: attributes) }
      else none
  | .beforeEquals name attributes =>
      if c = '=' then some { s with mode := .beforeValue name attributes }
      else if isSpace c then some s
      else none
  | .beforeValue name attributes =>
      if c = '"' ∨ c = '\'' then some { s with mode := .value name attributes c }
      else if isSpace c then some s
      else none
  | .value name attributes quote =>
      if c = quote then some { s with mode := .inTag name attributes }
      else if c = '<' then none
      else if c = '&' then some { s with mode := .valueReference name attributes quote [] }
      else some s
  | .valueReference name attributes quote body =>
      if c = ';' then
        (decodeRef body).map fun _ => { s with mode := .value name attributes quote }
      else some { s with mode := .valueReference name attributes quote (body ++ [c]) }
  | .emptyTag name => if c = '>' then some (s.addElement name .nil) else none
  | .endName name =>
      if c = '>' then s.closeTag name
      else if isSpace c then some { s with mode := .endSpace name }
      else some { s with mode := .endName (name ++ [c]) }
  | .endSpace name =>
      if c = '>' then s.closeTag name
      else if isSpace c then some s
      else none
  | .declaration seen => s.readDeclaration (seen ++ [c])
  | .comment hyphens =>
      if hyphens = 2 then (if c = '>' then some s.addOther else none)
      else some { s with mode := .comment (if c = '-' then hyphens + 1 else 0) }
  | .cdata brackets =>
      if c = '>' ∧ brackets = 2 then some s.addOther
      else some { s with mode := .cdata (nextBrackets brackets c) }
  | .piTarget target =>
      if isNameChar c then some { s with mode := .piTarget (target ++ [c]) }
      else if !isName target || target.map Char.toLower == ['x', 'm', 'l'] then none
      else if c = '?' then some { s with mode := .piEnd }
      else if isSpace c then some { s with mode := .piData false }
      else none
  | .piData question =>
      if c = '>' && question then some s.addOther
      else some { s with mode := .piData (c == '?') }
  | .piEnd => if c = '>' then some s.addOther else none

/-- A text. -/
def feedAll (s : State) (text : List Char) : Option State := text.foldlM feed s

/-- Line ends are read as line feeds. -/
def lineEnds : List Char → List Char
  | '\r' :: '\n' :: rest => '\n' :: lineEnds rest
  | '\r' :: rest => '\n' :: lineEnds rest
  | c :: rest => c :: lineEnds rest
  | [] => []

/-- Before the first character. -/
def start : State := ⟨[], [], .nil, .outside⟩

/-- The root element of a document. -/
def State.result (s : State) : Option Nodes :=
  if s.mode = .outside ∧ s.root ≠ .nil then some s.root else none

/-- The tree of a well-formed document. -/
def parse (document : List Char) : Option Nodes :=
  (feedAll start (lineEnds document)).bind State.result

/-! ## Looking things up -/

/-- `getElementsByTagName`: the elements with a name, in document order, each
given by its children. -/
def elementsByTagName (tag : List Char) : Nodes → List Nodes
  | .nil => []
  | .text _ next => elementsByTagName tag next
  | .other next => elementsByTagName tag next
  | .element name children next =>
      (if name = tag then [children] else []) ++ elementsByTagName tag children ++
        elementsByTagName tag next

/-- The first text node among children. -/
def firstText : Nodes → Option (List Char)
  | .nil => none
  | .text value _ => some value
  | .element _ _ next => firstText next
  | .other next => firstText next

/-! ## Character data -/

/-- A reference that can be decoded. -/
structure Ref where
  body : List Char
  value : Char
  decodes : decodeRef body = some value
  deriving DecidableEq

theorem decodeRef_amp : decodeRef ['a', 'm', 'p'] = some '&' := rfl

/-- A character of an element's text, as it stands in the document. -/
inductive Piece where
  | literal (c : Char)
  | reference (r : Ref)
  deriving DecidableEq

/-- The characters of a piece in the document. -/
def Piece.render : Piece → List Char
  | .literal c => [c]
  | .reference r => '&' :: r.body ++ [';']

/-- The character it stands for. -/
def Piece.value : Piece → Char
  | .literal c => c
  | .reference r => r.value

/-- May stand by itself in an element's text. -/
def isLiteral (c : Char) : Bool := isXmlChar c && c != '<' && c != '&' && c != '\r'

/-- The text does not run into `]]>`, after this many brackets of it. -/
def EndFree : Nat → List Piece → Prop
  | _, [] => True
  | brackets, .literal c :: pieces =>
      ¬ (c = '>' ∧ brackets = 2) ∧ EndFree (nextBrackets brackets c) pieces
  | _, .reference _ :: pieces => EndFree 0 pieces

/-- Pieces that are an element's text. -/
structure WellFormed (pieces : List Piece) : Prop where
  literal : ∀ c, .literal c ∈ pieces → isLiteral c = true
  endFree : EndFree 0 pieces

/-- The end of a CDATA section, as it stands in an element's text. -/
def cdataEnd : List Piece := [.literal ']', .literal ']', .literal '>']

/-- Text without `]]>` in it does not run into `]]>`.  The brackets seen before
the text are put back in front of it. -/
theorem endFree_of_replicate {brackets : Nat} {pieces : List Piece} (hbrackets : brackets ≤ 2)
    (h : ¬ cdataEnd <:+: List.replicate brackets (.literal ']') ++ pieces) :
    EndFree brackets pieces := by
  induction pieces generalizing brackets with
  | nil => trivial
  | cons piece pieces ih =>
      have htail : ¬ cdataEnd <:+: List.replicate 0 (.literal ']') ++ pieces := by
        intro hfound
        apply h
        exact hfound.trans ((List.suffix_cons _ _).trans (List.suffix_append _ _)).isInfix
      cases piece with
      | reference r => exact ih (by omega) htail
      | literal c =>
          refine ⟨?_, ?_⟩
          · intro hend
            apply h
            rw [hend.1, hend.2]
            exact ⟨[], pieces, rfl⟩
          · unfold nextBrackets
            split_ifs with hc
            · apply ih (by omega)
              intro hfound
              apply h
              rw [hc, List.append_cons, ← List.replicate_succ']
              have hle : min 2 (brackets + 1) ≤ brackets + 1 := by omega
              have hsplit := List.replicate_append_replicate
                (n := brackets + 1 - min 2 (brackets + 1)) (m := min 2 (brackets + 1))
                (a := Piece.literal ']')
              rw [Nat.sub_add_cancel hle] at hsplit
              rw [← hsplit, List.append_assoc]
              exact hfound.trans (List.suffix_append _ _).isInfix
            · exact ih (by omega) htail

theorem endFree_of_no_cdataEnd {pieces : List Piece} (h : ¬ cdataEnd <:+: pieces) :
    EndFree 0 pieces :=
  endFree_of_replicate (by omega) h

/-- A reference ends what could run into `]]>`. -/
theorem endFree_append_reference {brackets : Nat} {r : Ref} {a b : List Piece} :
    EndFree brackets (a ++ .reference r :: b) ↔ EndFree brackets a ∧ EndFree 0 b := by
  induction a generalizing brackets with
  | nil => simp [EndFree]
  | cons piece a ih =>
      cases piece with
      | literal c => simp [EndFree, ih, and_assoc]
      | reference r' => simp [EndFree, ih]

theorem lineEnds_return_feed (s : List Char) :
    lineEnds ('\r' :: '\n' :: s) = '\n' :: lineEnds s := rfl

/-- A carriage return by itself. -/
theorem lineEnds_return {s : List Char} (h : s.head? ≠ some '\n') :
    lineEnds ('\r' :: s) = '\n' :: lineEnds s := by
  apply lineEnds.eq_2
  intro rest heq
  exact h (heq ▸ rfl)

/-- A part without a carriage return is left as it is, and ends no line of what
follows. -/
theorem lineEnds_append {a : List Char} (h : '\r' ∉ a) (b : List Char) :
    lineEnds (a ++ b) = a ++ lineEnds b := by
  induction a with
  | nil => rfl
  | cons c a ih =>
      have hc : c ≠ '\r' := fun heq => h (heq ▸ List.mem_cons_self ..)
      have htail := ih fun hmem => h (List.mem_cons_of_mem _ hmem)
      rw [List.cons_append, List.cons_append, ← htail]
      exact lineEnds.eq_3 c (a ++ b) (fun _ heq _ => hc heq) hc

/-- Text without a carriage return is read as it is. -/
theorem lineEnds_of_no_return {s : List Char} (h : '\r' ∉ s) : lineEnds s = s := by
  have hread := lineEnds_append h []
  rwa [lineEnds.eq_4, List.append_nil] at hread

/-- Reading two parts is reading the one and going on with the other. -/
theorem feedAll_append (s : State) (a b : List Char) :
    feedAll s (a ++ b) = (feedAll s a).bind fun t => feedAll t b := List.foldlM_append

theorem feedAll_cons (s : State) (c : Char) (text : List Char) :
    feedAll s (c :: text) = (feed s c).bind fun t => feedAll t text := List.foldlM_cons

@[simp] theorem feedAll_nil (s : State) : feedAll s [] = some s := rfl

/-- After a text the machine goes on where it is. -/
theorem feedAll_append_of_eq {s t : State} {a : List Char} (h : feedAll s a = some t)
    (b : List Char) : feedAll s (a ++ b) = feedAll t b := by
  rw [feedAll_append, h]
  rfl

theorem mem_digits {base n m : Nat} {digits : List Char}
    (h : digits.foldlM (fun n c =>
      (hexDigit c).bind fun d => if d < base then some (n * base + d) else none) m = some n) :
    ∀ c ∈ digits, (hexDigit c).isSome = true := by
  induction digits generalizing m with
  | nil => simp
  | cons c digits ih =>
      rw [List.foldlM_cons] at h
      cases hc : hexDigit c with
      | none => simp [hc] at h
      | some d =>
          rw [hc, Option.bind_some] at h
          split_ifs at h with hlt
          · have htail := ih h
            intro x hx
            rcases List.mem_cons.mp hx with rfl | hx
            · simp [hc]
            · exact htail x hx
          · cases h

/-- May stand in the body of a reference. -/
def isBodyChar (c : Char) : Bool :=
  c.toNat < 128 && isXmlChar c && !([';', '\r', '<', '>', '&', '\n'].contains c)

/-- Digits may stand in a reference: they are ASCII, and none of them is
markup. -/
theorem isBodyChar_of_hexDigit {c : Char} (h : (hexDigit c).isSome = true) :
    isBodyChar c = true := by
  have hrange : 48 ≤ c.toNat ∧ c.toNat ≤ 102 ∧ (c.toNat < 58 ∨ 64 < c.toNat) := by
    unfold hexDigit at h
    split_ifs at h with h1 h2 h3
    · omega
    · omega
    · omega
    · cases h
  have hother : ∀ d : Char, d.toNat < 48 ∨ 57 < d.toNat ∧ d.toNat < 65 → c ≠ d := by
    intro d hd
    apply ne_of_apply_ne Char.toNat
    omega
  have hascii : c.toNat < 128 := by omega
  have hxml : isXmlChar c = true := isXmlChar_of_range (by omega)
  simp [isBodyChar, hxml, hascii, hother ';' (by decide), hother '\r' (by decide),
    hother '<' (by decide), hother '>' (by decide), hother '&' (by decide),
    hother '\n' (by decide)]

theorem mem_digitsValue {base : Nat} {digits : List Char} {value : Char}
    (h : (digitsValue base digits).bind charOfNat = some value) :
    ∀ c ∈ digits, isBodyChar c = true := by
  obtain ⟨n, hn, _⟩ := Option.bind_eq_some_iff.mp h
  cases digits with
  | nil => simp
  | cons d digits =>
      intro c hc
      exact isBodyChar_of_hexDigit (mem_digits hn c hc)

/-- A body that can be decoded does not end before its semicolon: it is the
name of an entity or a number. -/
theorem mem_body {body : List Char} {value : Char} (h : decodeRef body = some value) :
    ∀ c ∈ body, isBodyChar c = true := by
  unfold decodeRef at h
  split at h
  · exact List.all_eq_true.mp rfl
  · exact List.all_eq_true.mp rfl
  · exact List.all_eq_true.mp rfl
  · exact List.all_eq_true.mp rfl
  · exact List.all_eq_true.mp rfl
  · intro c hc
    rcases List.mem_cons.mp hc with rfl | hc
    · decide
    · rcases List.mem_cons.mp hc with rfl | hc
      · decide
      · exact mem_digitsValue h c hc
  · intro c hc
    rcases List.mem_cons.mp hc with rfl | hc
    · decide
    · exact mem_digitsValue h c hc
  · cases h

/-- Well-formed pieces stand in a document without carriage returns. -/
theorem return_notMem_render {pieces : List Piece} (h : WellFormed pieces) :
    '\r' ∉ pieces.flatMap Piece.render := by
  intro hmem
  obtain ⟨piece, hpiece, hr⟩ := List.mem_flatMap.mp hmem
  cases piece with
  | literal c =>
      have hc := h.literal c hpiece
      rw [← List.mem_singleton.mp hr] at hc
      exact absurd hc (by decide)
  | reference r =>
      have hbody : '\r' ∈ r.body := by simpa [Piece.render] using hr
      exact absurd (mem_body r.decodes _ hbody) (by decide)

/-! ## Reading character data -/

/-- A character of a reference is collected. -/
theorem feed_reference {s : State} {body : List Char} {c : Char} (hmode : s.mode = .reference body)
    (hc : isBodyChar c = true) : feed s c = some { s with mode := .reference (body ++ [c]) } := by
  simp only [isBodyChar, Bool.and_eq_true, Bool.not_eq_true', List.contains_cons,
    Bool.or_eq_false_iff, beq_eq_false_iff_ne] at hc
  unfold feed
  simp [hc.1.2, hc.2.1, hmode]

theorem feedAll_body {s : State} {seen : List Char} (hmode : s.mode = .reference seen)
    {body : List Char} (hbody : ∀ c ∈ body, isBodyChar c = true) :
    feedAll s body = some { s with mode := .reference (seen ++ body) } := by
  induction body generalizing s seen with
  | nil => simp [← hmode]
  | cons c body ih =>
      have hc := feed_reference hmode (hbody c (by simp))
      have hrest := ih (s := { s with mode := .reference (seen ++ [c]) }) rfl
        fun d hd => hbody d (List.mem_cons_of_mem _ hd)
      rw [feedAll_cons, hc]
      simpa using hrest

/-- A state inside an element. -/
def inside (e : OpenElement) (rest : List OpenElement) (text : List Char) (root : Nodes)
    (brackets : Nat) : State :=
  ⟨e :: rest, text, root, .content brackets⟩

variable {e : OpenElement} {rest : List OpenElement} {root : Nodes}

/-- A literal character is added to the text, unless it ends a `]]>`. -/
theorem feed_literal {text : List Char} {brackets : Nat} {c : Char} (hc : isLiteral c = true)
    (hend : ¬ (c = '>' ∧ brackets = 2)) :
    feed (inside e rest text root brackets) c =
      some (inside e rest (text ++ [c]) root (nextBrackets brackets c)) := by
  unfold isLiteral at hc
  simp only [Bool.and_eq_true, bne_iff_ne] at hc
  obtain ⟨⟨⟨hxml, hlt⟩, hamp⟩, _⟩ := hc
  unfold feed inside
  simp [hxml, hlt, hamp, hend]

/-- A reference adds the character it stands for, and separates the brackets
before it from those behind. -/
theorem feedAll_reference (text : List Char) (brackets : Nat) (r : Ref) :
    feedAll (inside e rest text root brackets) (Piece.reference r).render =
      some (inside e rest (text ++ [r.value]) root 0) := by
  have hamp : feed (inside e rest text root brackets) '&' =
      some ⟨e :: rest, text, root, .reference []⟩ := rfl
  have hbody := feedAll_body (s := ⟨e :: rest, text, root, .reference []⟩) rfl
    (mem_body r.decodes)
  have hsemicolon : feed ⟨e :: rest, text, root, .reference r.body⟩ ';' =
      some (inside e rest (text ++ [r.value]) root 0) := by
    have hxml : isXmlChar ';' = true := by decide
    unfold feed
    simp [hxml, r.decodes, inside]
  change feedAll _ ('&' :: (r.body ++ [';'])) = _
  rw [feedAll_cons, hamp, Option.bind_some, feedAll_append_of_eq hbody]
  simpa [feedAll_cons] using hsemicolon

/-- Well-formed pieces are read as the characters they stand for.  By
induction, with the number of brackets that have just been read. -/
theorem feedAll_pieces {pieces : List Piece}
    (hliteral : ∀ c, .literal c ∈ pieces → isLiteral c = true) (text : List Char) (brackets : Nat)
    (hend : EndFree brackets pieces) :
    ∃ brackets', feedAll (inside e rest text root brackets) (pieces.flatMap Piece.render) =
      some (inside e rest (text ++ pieces.map Piece.value) root brackets') := by
  induction pieces generalizing text brackets with
  | nil => exact ⟨brackets, by simp⟩
  | cons piece pieces ih =>
      have htail : ∀ c, .literal c ∈ pieces → isLiteral c = true :=
        fun c hc => hliteral c (List.mem_cons_of_mem _ hc)
      cases piece with
      | literal c =>
          obtain ⟨hstep, hrest⟩ := hend
          have hread : feed (inside e rest text root brackets) c =
              some (inside e rest (text ++ [c]) root (nextBrackets brackets c)) :=
            feed_literal (hliteral c (by simp)) hstep
          obtain ⟨brackets', hall⟩ := ih htail (text ++ [c]) _ hrest
          refine ⟨brackets', ?_⟩
          rw [List.flatMap_cons]
          change feedAll _ (c :: pieces.flatMap Piece.render) = _
          rw [feedAll_cons, hread, Option.bind_some, hall]
          simp [Piece.value]
      | reference r =>
          obtain ⟨brackets', hall⟩ := ih htail (text ++ [r.value]) 0 hend
          refine ⟨brackets', ?_⟩
          rw [List.flatMap_cons, feedAll_append_of_eq (feedAll_reference text brackets r), hall]
          simp [Piece.value]

/-! ## Reading tags -/

/-- A start tag without attributes. -/
def startTag (name : List Char) : List Char := '<' :: (name ++ ['>'])

/-- An end tag. -/
def endTag (name : List Char) : List Char := '<' :: '/' :: (name ++ ['>'])

theorem isXmlChar_of_nameChar {c : Char} (hc : isNameChar c = true) : isXmlChar c = true := by
  have hblock : (nameStartRanges.all fun r =>
      decide (32 ≤ r.1) && (decide (r.2 ≤ 0xFFFD) || decide (0x10000 ≤ r.1))) = true := rfl
  simp only [isNameChar, isNameStart, Bool.or_eq_true, beq_iff_eq, Bool.and_eq_true,
    decide_eq_true_eq, List.any_eq_true] at hc
  simp only [List.all_eq_true, Bool.and_eq_true, Bool.or_eq_true, decide_eq_true_eq] at hblock
  rcases hc with (((((((((hletter | rfl) | rfl) | ⟨r, hr, hlow, hhigh⟩) | hdigit) | rfl) | rfl) |
    hdot) | hmark) | hunder) | htie
  · have hrange := Char.toNat_of_isAlpha hletter
    exact isXmlChar_of_range (by omega)
  · rfl
  · rfl
  · have hrange := hblock r hr
    exact isXmlChar_of_range (by omega)
  · have hrange := Char.isDigit_iff_toNat.mp hdigit
    change 48 ≤ c.toNat ∧ c.toNat ≤ 57 at hrange
    exact isXmlChar_of_range (by omega)
  · rfl
  · rfl
  · exact isXmlChar_of_range (by omega)
  · exact isXmlChar_of_range (by omega)
  · exact isXmlChar_of_range (by omega)
  · exact isXmlChar_of_range (by omega)

theorem isNameChar_of_nameStart {c : Char} (hc : isNameStart c = true) : isNameChar c = true := by
  simp [isNameChar, hc]

/-- A name is read until the tag ends, and the element is opened under it. -/
theorem feedAll_startName {s : State} {seen : List Char} (hmode : s.mode = .startName seen)
    {more : List Char} (hmore : ∀ c ∈ more, isNameChar c = true) :
    feedAll s (more ++ ['>']) = some (s.openTag (seen ++ more)) := by
  induction more generalizing s seen with
  | nil =>
      have hxml : isXmlChar '>' = true := by decide
      have hname : isNameChar '>' = false := by decide
      simp [feedAll_cons, feed, hmode, hxml, hname, State.readTagEnd]
  | cons c more ih =>
      have hc := hmore c (by simp)
      have hread : feed s c = some { s with mode := .startName (seen ++ [c]) } := by
        unfold feed
        simp [isXmlChar_of_nameChar hc, hmode, hc]
      rw [List.cons_append, feedAll_cons, hread, Option.bind_some,
        ih rfl fun d hd => hmore d (List.mem_cons_of_mem _ hd)]
      simp [State.openTag]

/-- A start tag, where an element may begin: the element is opened, without
attributes. -/
theorem feedAll_startTag {s : State} {name : List Char} (hname : isName name = true)
    (hbegin : feed s '<' = some s.beginMarkup) (hopen : s.beginMarkup.mayOpen = true) :
    feedAll s (startTag name) = some (s.beginMarkup.openTag name) := by
  cases name with
  | nil => cases hname
  | cons c more =>
      simp only [isName, Bool.and_eq_true, List.all_eq_true] at hname
      have hxml := isXmlChar_of_nameChar (isNameChar_of_nameStart hname.1)
      have hother : ∀ d : Char, isNameStart d = false → c ≠ d := by
        intro d hd
        apply ne_of_apply_ne isNameStart
        simp [hname.1, hd]
      have hslash := hother '/' (by decide)
      have hbang := hother '!' (by decide)
      have hquestion := hother '?' (by decide)
      have hread : feed s.beginMarkup c = some { s.beginMarkup with mode := .startName [c] } := by
        unfold feed
        have hmode : s.beginMarkup.mode = .markup := rfl
        simp [hxml, hmode, State.readMarkup, hslash, hbang, hquestion, hname.1, hopen]
      change feedAll s ('<' :: (c :: (more ++ ['>']))) = _
      rw [feedAll_cons, hbegin, Option.bind_some, feedAll_cons, hread, Option.bind_some,
        feedAll_startName rfl hname.2]
      rfl

theorem closeTag_mode (s : State) (mode : Mode) (name : List Char) :
    { s with mode := mode }.closeTag name = s.closeTag name := by
  unfold State.closeTag State.addElement
  cases s.stack <;> rfl

/-- A name is read until the end tag ends, and closes the element if it is the
one that was opened. -/
theorem feedAll_endName {s : State} {seen : List Char} (hmode : s.mode = .endName seen)
    {more : List Char} (hmore : ∀ c ∈ more, isNameChar c = true) :
    feedAll s (more ++ ['>']) = s.closeTag (seen ++ more) := by
  induction more generalizing s seen with
  | nil =>
      have hxml : isXmlChar '>' = true := by decide
      simp [feedAll_cons, feed, hmode, hxml]
  | cons c more ih =>
      have hc := hmore c (by simp)
      have hother : ∀ d : Char, isNameChar d = false → c ≠ d := by
        intro d hd
        apply ne_of_apply_ne isNameChar
        simp [hc, hd]
      have hend := hother '>' (by decide)
      have hspace : isSpace c = false := by
        simp [isSpace, hother ' ' (by decide), hother '\t' (by decide), hother '\n' (by decide),
          hother '\r' (by decide)]
      have hread : feed s c = some { s with mode := .endName (seen ++ [c]) } := by
        unfold feed
        simp [isXmlChar_of_nameChar hc, hmode, hend, hspace]
      rw [List.cons_append, feedAll_cons, hread, Option.bind_some,
        ih rfl fun d hd => hmore d (List.mem_cons_of_mem _ hd)]
      rw [closeTag_mode]
      simp

/-- An end tag in an element, which has to have its name. -/
theorem feedAll_endTag {s : State} {name : List Char} (hname : isName name = true)
    (hbegin : feed s '<' = some s.beginMarkup) :
    feedAll s (endTag name) = s.beginMarkup.closeTag name := by
  have hall : ∀ c ∈ name, isNameChar c = true := by
    cases name with
    | nil => simp
    | cons c more =>
        simp only [isName, Bool.and_eq_true, List.all_eq_true] at hname
        intro d hd
        rcases List.mem_cons.mp hd with rfl | hd
        · exact isNameChar_of_nameStart hname.1
        · exact hname.2 d hd
  have hslash : feed s.beginMarkup '/' = some { s.beginMarkup with mode := .endName [] } := rfl
  change feedAll s ('<' :: '/' :: (name ++ ['>'])) = _
  rw [feedAll_cons, hbegin, Option.bind_some, feedAll_cons, hslash, Option.bind_some,
    feedAll_endName rfl hall, closeTag_mode]
  rfl

theorem feed_lt (text : List Char) (brackets : Nat) :
    feed (inside e rest text root brackets) '<' =
      some (inside e rest text root brackets).beginMarkup := rfl

/-! ## Rules -/

/-- Read between tags, the text adds these nodes to the element around it. -/
def Reads (text : List Char) (nodes : Nodes) : Prop :=
  ∀ (e : OpenElement) (rest : List OpenElement) (root : Nodes) (brackets : Nat), ∃ brackets',
    feedAll (inside e rest [] root brackets) text =
      some (inside { e with children := e.children.append nodes } rest [] root brackets')

theorem Reads.nil : Reads [] .nil := by
  intro e rest root brackets
  exact ⟨brackets, by simp⟩

/-- Two readable parts are readable together, with the nodes of both. -/
theorem Reads.append {a b : List Char} {as bs : Nodes} (ha : Reads a as) (hb : Reads b bs) :
    Reads (a ++ b) (as.append bs) := by
  intro e rest root brackets
  obtain ⟨n, hfirst⟩ := ha e rest root brackets
  obtain ⟨n', hsecond⟩ := hb { e with children := e.children.append as } rest root n
  refine ⟨n', ?_⟩
  rw [feedAll_append_of_eq hfirst, hsecond, Nodes.append_assoc]

/-- Between its tags the children of an element are read from their start. -/
theorem reads_of_children {name body : List Char} {children : Nodes} (hname : isName name = true)
    (hbody : ∀ (rest : List OpenElement) (root : Nodes), ∃ made text brackets,
      feedAll (inside ⟨name, .nil⟩ rest [] root 0) body =
        some (inside ⟨name, made⟩ rest text root brackets) ∧
      made.append (textNode text) = children) :
    Reads (startTag name ++ body ++ endTag name) (.element name children .nil) := by
  intro e rest root brackets
  obtain ⟨made, text, n, hread, hchildren⟩ := hbody (e :: rest) root
  refine ⟨0, ?_⟩
  have hstart : feedAll (inside e rest [] root brackets) (startTag name) =
      some (inside ⟨name, .nil⟩ (e :: rest) [] root 0) := by
    rw [feedAll_startTag hname (feed_lt [] brackets) rfl]
    simp [State.openTag, State.beginMarkup, inside, addNodes, textNode]
  have hend : feedAll (inside ⟨name, made⟩ (e :: rest) text root n) (endTag name) =
      some (inside { e with children := e.children.append (.element name children .nil) }
        rest [] root 0) := by
    rw [feedAll_endTag hname (feed_lt text n), ← hchildren]
    simp [State.closeTag, State.beginMarkup, inside, addNodes, State.addElement]
  rw [List.append_assoc, feedAll_append_of_eq hstart, feedAll_append_of_eq hread, hend]

/-- An element with elements in it. -/
theorem Reads.element {name body : List Char} {children : Nodes} (hname : isName name = true)
    (hbody : Reads body children) :
    Reads (startTag name ++ body ++ endTag name) (.element name children .nil) := by
  refine reads_of_children hname ?_
  intro rest root
  obtain ⟨n, hread⟩ := hbody ⟨name, .nil⟩ rest root 0
  exact ⟨children, [], n, hread, by simp [textNode]⟩

/-- An element with text in it. -/
theorem Reads.textElement {name : List Char} {pieces : List Piece} (hname : isName name = true)
    (hpieces : WellFormed pieces) :
    Reads (startTag name ++ pieces.flatMap Piece.render ++ endTag name)
      (.element name (textNode (pieces.map Piece.value)) .nil) := by
  refine reads_of_children hname ?_
  intro rest root
  have hread : ∃ n, feedAll (inside ⟨name, .nil⟩ rest [] root 0) (pieces.flatMap Piece.render) =
      some (inside ⟨name, .nil⟩ rest ([] ++ pieces.map Piece.value) root n) :=
    feedAll_pieces hpieces.literal [] 0 hpieces.endFree
  obtain ⟨n, hread⟩ := hread
  exact ⟨.nil, pieces.map Piece.value, n, hread, rfl⟩

/-- A document made of one element is read as that element, with what its body
is read as. -/
theorem parse_element {document name body : List Char} {children : Nodes}
    (hname : isName name = true) (hbody : Reads body children)
    (hends : lineEnds document = startTag name ++ body ++ endTag name) :
    parse document = some (.element name children .nil) := by
  obtain ⟨n, hread⟩ := hbody ⟨name, .nil⟩ [] .nil 0
  have hstart : feedAll start (startTag name) = some (inside ⟨name, .nil⟩ [] [] .nil 0) := by
    rw [feedAll_startTag (s := start) hname rfl rfl]
    rfl
  have hend : feedAll (inside ⟨name, children⟩ [] [] .nil n) (endTag name) =
      some ⟨[], [], .element name children .nil, .outside⟩ := by
    rw [feedAll_endTag hname (feed_lt [] n)]
    simp [State.closeTag, State.beginMarkup, inside, addNodes, State.addElement, textNode]
  unfold parse
  rw [hends, List.append_assoc, feedAll_append_of_eq hstart, feedAll_append_of_eq hread]
  rw [show Nodes.append .nil children = children from rfl, hend]
  rfl

end Xml
