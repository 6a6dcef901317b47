import CardScanner.XmlRuns
import Mathlib.Algebra.GroupWithZero.Nat
import Mathlib.Data.Nat.Basic

/-!
# Texts counted along a run

A document is read for the elements with one name, and in each for the text of
the first element with another.  Here the elements are counted whose text has a
property, in the tree that would come out if all open elements ended now
(`State.tree`).  While markup is read the count does not grow, and while text is
read only if the text in hand gets the property (`count_step`).
-/

namespace Xml

/-! ## Looking up in siblings -/

/-- The elements of siblings are found one sibling after the other. -/
theorem elementsByTagName_append (tag : List Char) (a b : Nodes) :
    elementsByTagName tag (a.append b) = elementsByTagName tag a ++ elementsByTagName tag b := by
  induction a with
  | nil => rfl
  | text value next ih => exact ih
  | element name children next _ ih => simp [Nodes.append, elementsByTagName, ih]
  | other next ih => exact ih

/-- The first text is that of the first part that has one. -/
theorem firstText_append (a b : Nodes) :
    firstText (a.append b) = (firstText a).or (firstText b) := by
  induction a with
  | nil => rfl
  | text value next ih => rfl
  | element name children next _ ih => exact ih
  | other next ih => exact ih

/-- The text of the first element with a name. -/
def textOf (tag : List Char) (nodes : Nodes) : List Char :=
  ((elementsByTagName tag nodes).head?.bind firstText).getD []

/-- The elements with one name in which the first element with another has such
a text. -/
def countTexts (item tag : List Char) (p : List Char → Bool) (nodes : Nodes) : Nat :=
  (elementsByTagName item nodes).countP fun children => p (textOf tag children)

variable {item tag : List Char} {p : List Char → Bool}

/-- Siblings are counted apart. -/
theorem countTexts_append (a b : Nodes) :
    countTexts item tag p (a.append b) = countTexts item tag p a + countTexts item tag p b := by
  simp [countTexts, elementsByTagName_append]

/-- Text alone has no elements. -/
theorem countTexts_textNode (value : List Char) : countTexts item tag p (textNode value) = 0 := by
  unfold textNode
  split_ifs <;> rfl

/-- An element is counted by its text, and its children by theirs. -/
theorem countTexts_element (name : List Char) (children : Nodes) :
    countTexts item tag p (.element name children .nil) =
      (if name = item ∧ p (textOf tag children) = true then 1 else 0) +
        countTexts item tag p children := by
  unfold countTexts
  rw [elementsByTagName]
  by_cases hname : name = item
  · simp [hname, elementsByTagName, List.countP_cons, Nat.add_comm]
  · simp [hname, elementsByTagName]

/-- A first element with the name is in the part before, if there is one. -/
theorem textOf_append (a b : Nodes) :
    textOf tag (a.append b) =
      if elementsByTagName tag a = [] then textOf tag b else textOf tag a := by
  unfold textOf
  rw [elementsByTagName_append]
  split_ifs with hnone
  · rw [hnone, List.nil_append]
  · obtain ⟨first, rest, hfirst⟩ := List.exists_cons_of_ne_nil hnone
    rw [hfirst]
    rfl

/-- An element with the name is the first one. -/
theorem textOf_element (name : List Char) (children : Nodes) :
    textOf tag (.element name children .nil) =
      if name = tag then (firstText children).getD [] else textOf tag children := by
  unfold textOf
  rw [elementsByTagName]
  split_ifs with hname
  · rfl
  · simp [elementsByTagName]

/-! ## Siblings in place of others -/

/-- With the nodes `b` in place of `a`, whatever is around them, at most so
many elements get a text with the property. -/
structure Adds (item tag : List Char) (p : List Char → Bool) (k : Nat) (a b : Nodes) : Prop where
  count : countTexts item tag p b ≤ countTexts item tag p a + k
  textOf : p (textOf tag b) = true → p (textOf tag a) = true
  firstText : p ((firstText b).getD []) = true → p ((firstText a).getD []) = true

variable {k : Nat} {a b : Nodes}

/-- Behind other nodes, which may have the first element or the first text
themselves. -/
theorem Adds.append_left (h : Adds item tag p k a b) (before : Nodes) :
    Adds item tag p k (before.append a) (before.append b) where
  count := by
    rw [countTexts_append, countTexts_append, Nat.add_assoc]
    exact Nat.add_le_add_left h.count _
  textOf := by
    rw [textOf_append, textOf_append]
    split_ifs
    · exact h.textOf
    · exact id
  firstText := by
    rw [firstText_append, firstText_append]
    cases Xml.firstText before with
    | none => exact h.firstText
    | some value => exact id

/-- In an element, whose own text counts if it has the name. -/
theorem Adds.element (h : Adds item tag p k a b) (name : List Char) :
    Adds item tag p k (.element name a .nil) (.element name b .nil) where
  count := by
    rw [countTexts_element, countTexts_element]
    have hcount := h.count
    have htext := h.textOf
    split_ifs with hb ha ha
    · omega
    · exact absurd ⟨hb.1, htext hb.2⟩ ha
    · omega
    · omega
  textOf := by
    rw [textOf_element, textOf_element]
    split_ifs
    · exact h.firstText
    · exact h.textOf
  firstText := id

/-- The element with more children. -/
def OpenElement.add (e : OpenElement) (nodes : Nodes) : OpenElement :=
  { e with children := e.children.append nodes }

/-- The nodes of open elements, if all of them ended now. -/
def unwind : List OpenElement → Nodes → Nodes
  | [], nodes => nodes
  | e :: rest, nodes => unwind rest (.element e.name (e.children.append nodes) .nil)

theorem Adds.unwind (stack : List OpenElement) (h : Adds item tag p k a b) :
    Adds item tag p k (unwind stack a) (unwind stack b) := by
  induction stack generalizing a b with
  | nil => exact h
  | cons e rest ih => exact ih ((h.append_left e.children).element e.name)

/-- The root element, if all open elements ended now. -/
def State.tree (s : State) : Nodes := s.root.append (unwind s.stack (textNode s.text))

/-- What is added to the innermost element is among its nodes when all end. -/
theorem unwind_addNodes {nodes : Nodes} {stack : List OpenElement} (h : stack = [] → nodes = .nil) :
    unwind (addNodes nodes stack) .nil = unwind stack nodes := by
  cases stack with
  | nil => exact (h rfl).symm
  | cons e rest => simp [addNodes, unwind]

/-- Comments and the like have no text. -/
theorem adds_other : Adds item tag p 0 .nil (.other .nil) where
  count := le_rfl
  textOf := id
  firstText := id

/-- The tree where no text is in hand. -/
theorem tree_of_noText {s : State} (htext : s.text = []) :
    s.tree = s.root.append (unwind s.stack .nil) := by
  rw [State.tree, htext]
  rfl

/-- An element that is complete is counted as a child or as the root. -/
theorem count_addElement {s : State} (htext : s.text = []) (name : List Char) (children : Nodes) :
    countTexts item tag p (s.addElement name children).tree ≤
      countTexts item tag p (s.root.append (unwind s.stack (.element name children .nil))) := by
  unfold State.addElement
  split_ifs with hempty
  · rw [List.isEmpty_iff] at hempty
    simp only [State.tree, hempty, htext, unwind, countTexts_append, countTexts_textNode]
    omega
  · rw [List.isEmpty_iff] at hempty
    simp only [State.tree, htext]
    rw [show textNode [] = .nil from rfl, unwind_addNodes fun hnone => absurd hnone hempty]

/-- An element that is complete is no text. -/
theorem text_addElement (s : State) (name : List Char) (children : Nodes) :
    (s.addElement name children).text = s.text := by
  unfold State.addElement
  split_ifs <;> rfl

/-- Markup that is read leaves no text in hand, whether or not it ends there. -/
theorem Tidy.text_step {s s' : State} {c : Char} (hs : Tidy s) (htextual : s.mode.textual = false)
    (h : Step s c s') : s'.text = [] := by
  have hnone := hs.noText htextual
  cases h with
  | quiet | openTag | other => exact hnone
  | body _ hbad | resolve _ hbad => exact absurd hbad (by simp [htextual])
  | literal _ hmode =>
      rw [hmode] at htextual
      cases htextual
  | beginMarkup => rfl
  | closeTag name _ _ _ hclose =>
      unfold State.closeTag at hclose
      split at hclose
      · cases hclose
      · split_ifs at hclose
        cases hclose
        exact (text_addElement _ _ _).trans hnone
  | emptyTag => exact (text_addElement _ _ _).trans hnone

section Step

variable (hnil : p [] = false)
include hnil

/-- An element without content adds no text. -/
theorem adds_empty (name : List Char) : Adds item tag p 0 .nil (.element name .nil .nil) where
  count := by
    have htext : textOf tag .nil = [] := rfl
    rw [countTexts_element, htext, hnil]
    simp
  textOf := by
    rw [textOf_element]
    split_ifs <;> exact fun h => absurd h (by simp [firstText, Xml.textOf, elementsByTagName, hnil])
  firstText := id

/-- Text adds a text only if it has the property, in place of any other. -/
theorem adds_text {value : List Char} (hvalue : p value = false) (value' : List Char) :
    Adds item tag p 0 (textNode value') (textNode value) where
  count := by
    rw [countTexts_textNode]
    exact Nat.zero_le _
  textOf := by
    have hnone : Xml.textOf tag (textNode value) = [] := by
      unfold textNode
      split_ifs <;> rfl
    rw [hnone, hnil]
    exact nofun
  firstText := by
    have hfirst : (Xml.firstText (textNode value)).getD [] = value := by
      unfold textNode
      split_ifs with hempty
      · exact hempty.symm
      · rfl
    rw [hfirst, hvalue]
    exact nofun

/-- **A step counts no text but the one in hand.**  One case for each kind of
step: it puts some nodes in place of others. -/
theorem count_step {s s' : State} {c : Char} (hs : Tidy s) (h : Step s c s')
    (htext : s'.text = s.text ∨ p s'.text = false) :
    countTexts item tag p s'.tree ≤ countTexts item tag p s.tree := by
  have hadds : ∀ {a b : Nodes}, Adds item tag p 0 a b →
      countTexts item tag p (s.root.append (unwind s.stack b)) ≤
        countTexts item tag p (s.root.append (unwind s.stack a)) :=
    fun h => ((h.unwind s.stack).append_left s.root).count
  cases h with
  | quiet | body => exact le_rfl
  | literal brackets =>
      refine hadds (adds_text hnil ?_ _)
      exact htext.resolve_left (by simp)
  | resolve value =>
      refine hadds (adds_text hnil ?_ _)
      exact htext.resolve_left (by simp)
  | beginMarkup hmode =>
      have htree : s.beginMarkup.tree = s.tree := by
        unfold State.tree State.beginMarkup
        simp only
        rw [show textNode [] = .nil from rfl, unwind_addNodes]
        intro hempty
        rcases hmode with hmode | ⟨brackets, hmode⟩
        · rw [hs.noText (by rw [hmode]; rfl)]
          rfl
        · exact absurd hempty (hs.inElement (by rw [hmode]; rfl))
      rw [htree]
  | openTag htextual =>
      rw [tree_of_noText (hs.noText htextual)]
      refine le_trans (le_of_eq ?_) (hadds (adds_empty hnil s.mode.held))
      rw [tree_of_noText (s := s.openTag s.mode.held) (hs.noText htextual)]
      rfl
  | closeTag name _ htextual _ hclose =>
      unfold State.closeTag at hclose
      split at hclose
      · cases hclose
      · next e rest hstack =>
          split_ifs at hclose with hname
          cases hclose
          refine le_trans (count_addElement (s := { s with stack := rest }) (hs.noText htextual)
            name e.children) (le_of_eq ?_)
          rw [tree_of_noText (hs.noText htextual), hstack, unwind, Nodes.append_nil, hname]
  | emptyTag htextual =>
      rw [tree_of_noText (hs.noText htextual)]
      exact le_trans (count_addElement (hs.noText htextual) _ _) (hadds (adds_empty hnil _))
  | other htextual =>
      rw [tree_of_noText (hs.noText htextual),
        tree_of_noText (s := s.addOther) (hs.noText htextual)]
      by_cases hempty : s.stack = []
      · exact le_of_eq (by simp [State.addOther, State.resume, hempty, addNodes])
      · refine le_trans (le_of_eq ?_) (hadds adds_other)
        rw [← unwind_addNodes fun hnone => absurd hnone hempty]
        rfl

/-- Nor does an end tag, behind which the next tag may begin. -/
theorem count_endTag {s s' : State} {name : List Char} (hs : Tidy s) (hname : isName name = true)
    (hbegin : feed s '<' = some s.beginMarkup) (h : feedAll s (endTag name) = some s') :
    countTexts item tag p s'.tree ≤ countTexts item tag p s.tree ∧
      feed s' '<' = some s'.beginMarkup := by
  rw [feedAll_endTag hname hbegin] at h
  have hmarkup := hs.step (feed_step hbegin)
  have hclose : Step s.beginMarkup '>' s' := .closeTag name s' rfl rfl h
  refine ⟨le_trans (count_step hnil hmarkup hclose (.inl (hmarkup.text_step rfl hclose)))
    (count_step hnil hs (feed_step hbegin) (.inr hnil)), ?_⟩
  unfold State.closeTag State.addElement at h
  split at h
  · cases h
  · split_ifs at h <;> cases h <;> rfl

end Step

/-! ## Pieces of text -/

/-- A document can still come of it. -/
def Live (s : State) : Prop := ∃ later s', feedAll s later = some s' ∧ s'.result ≠ none

/-- Then one could come of it earlier. -/
theorem Live.before {s s' : State} {w : List Char} (hlive : Live s') (h : feedAll s w = some s') :
    Live s := by
  obtain ⟨later, t, hread, hresult⟩ := hlive
  exact ⟨w ++ later, t, (feedAll_append_of_eq h later).trans hread, hresult⟩

/-- A state that is lost is not live. -/
theorem Live.not_hopeless {s : State} (hlive : Live s) (hs : Tidy s) : ¬ s.mode.hopeless := by
  intro hmode
  obtain ⟨later, t, hread, hresult⟩ := hlive
  exact hresult (result_of_hopeless hs hmode hread)

/-- In markup, characters that are no angle brackets change nothing but where
in the markup the machine is. -/
theorem feedAll_markup {s s' : State} {w : List Char} (htextual : s.mode.textual = false)
    (hw : ∀ c ∈ w, c ≠ '<' ∧ c ≠ '>') (h : feedAll s w = some s') :
    s'.mode.textual = false ∧ s'.tree = s.tree := by
  induction w generalizing s with
  | nil =>
      cases h
      exact ⟨htextual, rfl⟩
  | cons c w ih =>
      rw [feedAll_cons] at h
      obtain ⟨t, ht, hrest⟩ := Option.bind_eq_some_iff.mp h
      obtain ⟨⟨hlt, hgt⟩, hw⟩ := List.forall_mem_cons.mp hw
      have hquiet : t.mode.textual = false ∧ t.tree = s.tree := by
        cases feed_step ht with
        | quiet mode _ htextual' => exact ⟨htextual', rfl⟩
        | body _ hbad => exact absurd hbad (by simp [htextual])
        | literal _ hmode => rw [hmode] at htextual; cases htextual
        | resolve _ hbad => exact absurd hbad (by simp [htextual])
        | beginMarkup _ hc => exact absurd hc hlt
        | openTag _ hc | closeTag _ _ _ hc | emptyTag _ hc | other _ hc => exact absurd hc hgt
      obtain ⟨hend, htree⟩ := ih hquiet.1 hw hrest
      exact ⟨hend, htree.trans hquiet.2⟩

/-- What a piece can add to a text all of whose characters are of some kind. -/
def Piece.weight (ok : Char → Bool) : Piece → Nat
  | .literal c => if c = '<' ∨ c = '&' then 0 else 1
  | .reference r => if ok r.value then 1 else 0

/-- The piece may stand for a character of the kind. -/
def Piece.counts (ok : Char → Bool) : Piece → Bool
  | .literal _ => true
  | .reference r => ok r.value

/-- A text weighs no more than it has such pieces, and less if it has markup in
it. -/
theorem sum_weight_le (ok : Char → Bool) (pieces : List Piece) :
    (pieces.map (Piece.weight ok)).sum ≤ pieces.countP (Piece.counts ok) ∧
      ((∃ c, .literal c ∈ pieces ∧ (c = '<' ∨ c = '&')) →
        (pieces.map (Piece.weight ok)).sum < pieces.countP (Piece.counts ok)) := by
  induction pieces with
  | nil => exact ⟨le_rfl, nofun⟩
  | cons piece pieces ih =>
      have hpiece : piece.weight ok ≤ if piece.counts ok = true then 1 else 0 := by
        cases piece with
        | literal c =>
            rw [Piece.weight]
            split_ifs <;> simp_all [Piece.counts]
        | reference r => exact le_rfl
      rw [List.map_cons, List.sum_cons, List.countP_cons]
      refine ⟨by omega, ?_⟩
      rintro ⟨c, hmem, hc⟩
      rcases List.mem_cons.mp hmem with rfl | hmem
      · have hzero : (Piece.literal c).weight ok = 0 := if_pos hc
        have hone : (Piece.literal c).counts ok = true := rfl
        rw [hzero, if_pos hone]
        omega
      · have hlt := ih.2 ⟨c, hmem, hc⟩
        omega

/-- A text of at least `m` characters, all of the kind. -/
def long (ok : Char → Bool) (m : Nat) (value : List Char) : Bool :=
  decide (m ≤ value.length) && value.all ok

/-- The empty one is not long. -/
theorem long_nil {ok : Char → Bool} {m : Nat} (hm : 0 < m) : long ok m [] = false := by
  simp [long, Nat.ne_of_gt hm]

variable {ok : Char → Bool} {m slack w : Nat}

/-- If the text in hand is of the kind, it is shorter by `slack` than what has
been read, at most. -/
def Light (ok : Char → Bool) (slack w : Nat) (s : State) : Prop :=
  s.mode.textual = true → s.text.all ok = true → s.text.length + slack ≤ w

/-- A text that weighs too little is not long, nor is it with a character
more. -/
theorem not_long_append {text : List Char} {c : Char}
    (hlight : text.all ok = true → text.length + slack ≤ w) (hweight : w + 1 < m + slack) :
    long ok m (text ++ [c]) = false := by
  by_contra hlong
  simp only [long, Bool.not_eq_false, Bool.and_eq_true, decide_eq_true_eq, List.length_append,
    List.length_singleton, List.all_append] at hlong
  have hle := hlight hlong.2.1
  omega

/-- The text in hand gets longer by a character, which weighs one if it is of
the kind. -/
theorem count_longer {s s' : State} {c x : Char} {weight : Nat} (hm : 0 < m) (hs : Tidy s)
    (hlight : Light ok slack w s) (hone : ok x = true → weight = 1)
    (hweight : w + weight < m + slack) (hstep : Step s c s') (htextual : s.mode.textual = true)
    (htext : s'.text = s.text ++ [x]) :
    Light ok slack (w + weight) s' ∧
      countTexts item tag (long ok m) s'.tree ≤ countTexts item tag (long ok m) s.tree := by
  refine ⟨fun _ hok => ?_, count_step (long_nil hm) hs hstep (.inr ?_)⟩
  · rw [htext] at hok ⊢
    rw [List.all_append, Bool.and_eq_true] at hok
    have hle := hlight htextual hok.1
    rw [hone (by simpa using hok.2)]
    simp only [List.length_append, List.length_singleton]
    omega
  · rw [htext]
    cases hx : ok x with
    | true =>
        rw [hone hx] at hweight
        exact not_long_append (hlight htextual) hweight
    | false => simp [long, hx]

/-- Markup ends, and behind its last character, which is none of the text, the
text begins. -/
theorem count_markupEnd {s s' : State} {c : Char} (hm : 0 < m) (hslack : slack ≤ 1) (hs : Tidy s)
    (hstep : Step s c s') (htextual : s.mode.textual = false) (hc : c = '>') :
    Light ok slack (w + (Piece.literal c).weight ok) s' ∧
      countTexts item tag (long ok m) s'.tree ≤ countTexts item tag (long ok m) s.tree := by
  have hnone := hs.text_step htextual hstep
  have hone : (Piece.literal c).weight ok = 1 := by
    rw [hc]
    rfl
  refine ⟨fun _ _ => ?_, count_step (long_nil hm) hs hstep
    (.inl (hnone.trans (hs.noText htextual).symm))⟩
  rw [hnone, hone, List.length_nil]
  omega

/-- A literal character of a text, wherever the machine is.  In markup it may
end it, and in text it makes the text longer or begins markup. -/
theorem count_literal {s s' : State} {c : Char} (hm : 0 < m) (hslack : slack ≤ 1) (hs : Tidy s)
    (hlight : Light ok slack w s) (hweight : w + (Piece.literal c).weight ok < m + slack)
    (h : feed s c = some s') :
    Light ok slack (w + (Piece.literal c).weight ok) s' ∧
      countTexts item tag (long ok m) s'.tree ≤ countTexts item tag (long ok m) s.tree := by
  have hstep := feed_step h
  have hcount : s'.text = s.text ∨ long ok m s'.text = false →
      countTexts item tag (long ok m) s'.tree ≤ countTexts item tag (long ok m) s.tree :=
    count_step (long_nil hm) hs hstep
  cases hstep with
  | quiet mode _ htextual' =>
      refine ⟨fun hbad _ => ?_, hcount (.inl rfl)⟩
      rw [htextual'] at hbad
      cases hbad
  | body body htextual =>
      exact ⟨fun _ hok => le_trans (hlight htextual hok) (Nat.le_add_right _ _), hcount (.inl rfl)⟩
  | literal brackets hmode hlt hamp =>
      exact count_longer hm hs hlight (fun _ => if_neg (not_or_intro hlt hamp)) hweight
        (.literal brackets hmode hlt hamp) (by rw [hmode]; rfl) rfl
  | resolve value htextual hc =>
      refine count_longer hm hs hlight (fun _ => ?_) hweight (.resolve value htextual hc) htextual
        rfl
      rw [hc]
      rfl
  | beginMarkup => exact ⟨nofun, hcount (.inr (long_nil hm))⟩
  | openTag htextual hc => exact count_markupEnd hm hslack hs (.openTag htextual hc) htextual hc
  | closeTag name _ htextual hc hclose =>
      exact count_markupEnd hm hslack hs (.closeTag name _ htextual hc hclose) htextual hc
  | emptyTag htextual hc => exact count_markupEnd hm hslack hs (.emptyTag htextual hc) htextual hc
  | other htextual hc => exact count_markupEnd hm hslack hs (.other htextual hc) htextual hc

/-- No angle bracket is part of a reference. -/
theorem ne_of_mem_reference {r : Ref} : ∀ c ∈ (Piece.reference r).render, c ≠ '<' ∧ c ≠ '>' := by
  intro c hc
  rcases List.mem_cons.mp hc with rfl | hc
  · decide
  · rcases List.mem_append.mp hc with hc | hc
    · have hchar := mem_body r.decodes c hc
      simp only [isBodyChar, Bool.and_eq_true, Bool.not_eq_true', List.contains_cons,
        Bool.or_eq_false_iff, beq_eq_false_iff_ne] at hchar
      exact ⟨hchar.2.2.2.1, hchar.2.2.2.2.1⟩
    · rw [List.mem_singleton.mp hc]
      decide

/-- Neither a tag nor a reference begins within a reference. -/
theorem not_live_in_reference {s s' : State} {c : Char} {body later : List Char} (hs : Tidy s)
    (hmode : s.mode = .reference body) (hc : c = '<' ∨ c = '&')
    (h : feedAll s (c :: later) = some s') : ¬ Live s' := by
  intro hlive
  have hread : feed s c = some { s with mode := .reference (body ++ [c]) } := by
    have hxml : ¬ (!isXmlChar c) = true := by rcases hc with rfl | rfl <;> decide
    have hsemicolon : c ≠ ';' := by rcases hc with rfl | rfl <;> decide
    unfold feed
    rw [if_neg hxml, hmode]
    exact if_neg hsemicolon
  rw [feedAll_cons, hread, Option.bind_some] at h
  refine (hlive.before h).not_hopeless (hs.step (feed_step hread)) ?_
  refine hc.imp ?_ ?_ <;> exact fun heq => List.mem_append_right _ (List.mem_singleton.mpr heq.symm)

/-- A reference: it is resolved where text is read, and part of the markup
where markup is. -/
theorem count_reference {s s' : State} {r : Ref} (hm : 0 < m) (hs : Tidy s)
    (hlight : Light ok slack w s) (hweight : w + (Piece.reference r).weight ok < m + slack)
    (h : feedAll s (Piece.reference r).render = some s') (hlive : Live s') :
    Light ok slack (w + (Piece.reference r).weight ok) s' ∧
      countTexts item tag (long ok m) s'.tree ≤ countTexts item tag (long ok m) s.tree := by
  by_cases htextual : s.mode.textual = true
  · cases hmode : s.mode with
    | content brackets =>
        obtain ⟨e, rest, hstack⟩ := List.exists_cons_of_ne_nil (hs.inElement htextual)
        have hinside : s = inside e rest s.text s.root brackets := by
          rw [inside, ← hstack, ← hmode]
        rw [hinside, feedAll_reference] at h
        have hread : s' = { s with text := s.text ++ [r.value], mode := .content 0 } := by
          rw [hstack]
          exact (Option.some.inj h).symm
        rw [hread]
        have hresolve : Step s ';' { s with text := s.text ++ [r.value], mode := .content 0 } :=
          .resolve _ htextual rfl
        exact count_longer hm hs hlight (fun hok => if_pos hok) hweight hresolve htextual rfl
    | reference body => exact absurd hlive (not_live_in_reference hs hmode (.inr rfl) h)
    | _ => exact absurd htextual (by rw [hmode]; exact Bool.false_ne_true)
  · rw [Bool.not_eq_true] at htextual
    obtain ⟨htextual', htree⟩ := feedAll_markup htextual ne_of_mem_reference h
    refine ⟨fun hbad _ => ?_, htree ▸ le_rfl⟩
    rw [htextual'] at hbad
    cases hbad

/-- **A text that is too light adds none**, wherever it leads the machine.  By
induction on its pieces, with what has been read of its weight. -/
theorem count_pieces {pieces : List Piece} {s s' : State} (hm : 0 < m) (hslack : slack ≤ 1)
    (hs : Tidy s) (hlight : Light ok slack w s)
    (hweight : w + (pieces.map (Piece.weight ok)).sum < m + slack)
    (h : feedAll s (pieces.flatMap Piece.render) = some s') (hlive : Live s') :
    Light ok slack (w + (pieces.map (Piece.weight ok)).sum) s' ∧
      countTexts item tag (long ok m) s'.tree ≤ countTexts item tag (long ok m) s.tree := by
  induction pieces generalizing s w with
  | nil =>
      cases h
      exact ⟨hlight, le_rfl⟩
  | cons piece pieces ih =>
      rw [List.map_cons, List.sum_cons] at hweight ⊢
      rw [List.flatMap_cons, feedAll_append] at h
      obtain ⟨t, ht, hrest⟩ := Option.bind_eq_some_iff.mp h
      have hpiece : Light ok slack (w + piece.weight ok) t ∧
          countTexts item tag (long ok m) t.tree ≤ countTexts item tag (long ok m) s.tree := by
        cases piece with
        | literal c =>
            change feedAll s [c] = some t at ht
            rw [feedAll_cons] at ht
            obtain ⟨t', ht', heq⟩ := Option.bind_eq_some_iff.mp ht
            cases heq
            exact count_literal hm hslack hs hlight (by omega) ht'
        | reference r => exact count_reference hm hs hlight (by omega) ht (hlive.before hrest)
      obtain ⟨hend, hcount⟩ := ih (hs.feedAll ht) hpiece.1 (by omega) hrest
      rw [Nat.add_assoc] at hend
      exact ⟨hend, le_trans hcount hpiece.2⟩

end Xml
