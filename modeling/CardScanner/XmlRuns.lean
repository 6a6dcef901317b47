import CardScanner.Xml

/-!
# Runs of the XML machine

What a run can do to the machine's state, whatever it reads.  `Step` says what
one character does, and `feed_step` that it is one of these; what holds of every
state (`Tidy`) is read off the steps.  Where a `<` comes up in markup the machine
may be lost: it is then in a state that no document leads out of
(`Mode.hopeless`), or in one that passes over the tags that follow
(`Mode.calm`).
-/

namespace Xml

/-! ## Steps -/

/-- The machine has characters of an element's text in hand. -/
def Mode.textual : Mode → Bool
  | .content _ | .reference _ => true
  | _ => false

/-- What is kept of a tag that is being read: its name, and the quotation mark
that ends a value. -/
def Mode.held : Mode → List Char
  | .startName name | .inTag name _ | .inTagSpace name _ | .attribute name _ _
  | .beforeEquals name _ | .beforeValue name _ | .emptyTag name => name
  | .value name _ quote | .valueReference name _ quote _ => quote :: name
  | _ => []

/-- What one character does to the state.  The texts of names and references
are left open, but for a `<` in them. -/
inductive Step (s : State) (c : Char) : State → Prop where
  /-- it belongs to markup, or to white space outside the root element -/
  | quiet (mode : Mode) (htextual : s.mode.textual = false) (htextual' : mode.textual = false)
      (hheld : '<' ∈ mode.held → '<' ∈ s.mode.held)
      (houtside : mode = .outside → s.mode = .outside) : Step s c { s with mode := mode }
  /-- it belongs to a reference -/
  | body (body : List Char) (htextual : s.mode.textual = true) :
      Step s c { s with mode := .reference body }
  | literal (brackets : Nat) (hmode : s.mode = .content brackets) (hlt : c ≠ '<') (hamp : c ≠ '&') :
      Step s c { s with text := s.text ++ [c], mode := .content (nextBrackets brackets c) }
  | resolve (value : Char) (htextual : s.mode.textual = true) (hc : c = ';') :
      Step s c { s with text := s.text ++ [value], mode := .content 0 }
  | beginMarkup (hmode : s.mode = .outside ∨ ∃ brackets, s.mode = .content brackets)
      (hc : c = '<') : Step s c s.beginMarkup
  | openTag (htextual : s.mode.textual = false) (hc : c = '>') :
      Step s c (s.openTag s.mode.held)
  | closeTag (name : List Char) (s' : State) (htextual : s.mode.textual = false) (hc : c = '>')
      (hclose : s.closeTag name = some s') : Step s c s'
  | emptyTag (htextual : s.mode.textual = false) (hc : c = '>') :
      Step s c (s.addElement s.mode.held .nil)
  | other (htextual : s.mode.textual = false) (hc : c = '>') : Step s c s.addOther

/-- Where a start tag may end. -/
theorem step_readTagEnd {s s' : State} {c : Char} {attributes : List (List Char)}
    (htextual : s.mode.textual = false)
    (h : s.readTagEnd s.mode.held attributes c = some s') : Step s c s' := by
  unfold State.readTagEnd at h
  split_ifs at h with hend hslash hspace
  · cases h
    exact .openTag htextual hend
  · cases h
    exact .quiet _ htextual rfl id (by simp)
  · cases h
    exact .quiet _ htextual rfl id (by simp)

section Modes

variable {stack : List OpenElement} {text : List Char} {root : Nodes} {s' : State} {c : Char}

/-- In an element's content. -/
theorem step_content {brackets : Nat}
    (h : feed ⟨stack, text, root, .content brackets⟩ c = some s') :
    Step ⟨stack, text, root, .content brackets⟩ c s' := by
  simp only [feed] at h
  split_ifs at h with hxml hlt hamp hend
  · cases h
    exact .beginMarkup (.inr ⟨brackets, rfl⟩) hlt
  · cases h
    exact .body _ rfl
  · cases h
    exact .literal brackets rfl hlt hamp

/-- Behind a `<`: a name does not begin with one. -/
theorem step_markup (h : feed ⟨stack, text, root, .markup⟩ c = some s') :
    Step ⟨stack, text, root, .markup⟩ c s' := by
  simp only [feed, State.readMarkup] at h
  split_ifs at h with hxml hslash hbang hquestion hstart
  · cases h
    exact .quiet _ rfl rfl (by simp [Mode.held]) (by simp)
  · cases h
    exact .quiet _ rfl rfl (by simp [Mode.held]) (by simp)
  · cases h
    exact .quiet _ rfl rfl (by simp [Mode.held]) (by simp)
  · cases h
    refine .quiet _ rfl rfl (fun hlt => ?_) (by simp)
    rw [Bool.and_eq_true] at hstart
    rw [← List.mem_singleton.mp hlt] at hstart
    exact absurd hstart.1 (by decide)

/-- In the name of a start tag: a name does not go on with a `<`. -/
theorem step_startName {name : List Char}
    (h : feed ⟨stack, text, root, .startName name⟩ c = some s') :
    Step ⟨stack, text, root, .startName name⟩ c s' := by
  simp only [feed] at h
  split_ifs at h with hxml hname
  · cases h
    refine .quiet _ rfl rfl (fun hlt => ?_) (by simp)
    rcases List.mem_append.mp hlt with hlt | hlt
    · exact hlt
    · rw [← List.mem_singleton.mp hlt] at hname
      exact absurd hname (by decide)
  · exact step_readTagEnd rfl h

/-- Behind an attribute's `=`: a value is not quoted with a `<`. -/
theorem step_beforeValue {name : List Char} {attributes : List (List Char)}
    (h : feed ⟨stack, text, root, .beforeValue name attributes⟩ c = some s') :
    Step ⟨stack, text, root, .beforeValue name attributes⟩ c s' := by
  simp only [feed] at h
  split_ifs at h with hxml hquote hspace
  · cases h
    refine .quiet _ rfl rfl (fun hlt => ?_) (by simp)
    rcases List.mem_cons.mp hlt with rfl | hlt
    · exact absurd hquote (by decide)
    · exact hlt
  · cases h
    exact .quiet _ rfl rfl id (by simp)

/-- In an attribute's value. -/
theorem step_value {name : List Char} {attributes : List (List Char)} {quote : Char}
    (h : feed ⟨stack, text, root, .value name attributes quote⟩ c = some s') :
    Step ⟨stack, text, root, .value name attributes quote⟩ c s' := by
  simp only [feed] at h
  split_ifs at h
  · cases h
    exact .quiet _ rfl rfl (List.mem_cons_of_mem _) (by simp)
  · cases h
    exact .quiet _ rfl rfl id (by simp)
  · cases h
    exact .quiet _ rfl rfl id (by simp)

/-- In a comment, which a `-->` ends. -/
theorem step_comment {hyphens : Nat} (h : feed ⟨stack, text, root, .comment hyphens⟩ c = some s') :
    Step ⟨stack, text, root, .comment hyphens⟩ c s' := by
  simp only [feed] at h
  split_ifs at h with hxml htwo hend
  · cases h
    exact .other rfl hend
  all_goals
    cases h
    exact .quiet _ rfl rfl (by simp [Mode.held]) (by simp)

/-- In a CDATA section, which a `]]>` ends. -/
theorem step_cdata {brackets : Nat} (h : feed ⟨stack, text, root, .cdata brackets⟩ c = some s') :
    Step ⟨stack, text, root, .cdata brackets⟩ c s' := by
  simp only [feed] at h
  split_ifs at h with hxml hend
  · cases h
    exact .other rfl hend.1
  · cases h
    exact .quiet _ rfl rfl (by simp [Mode.held]) (by simp)

/-- In a processing instruction's data, which a `?>` ends. -/
theorem step_piData {question : Bool}
    (h : feed ⟨stack, text, root, .piData question⟩ c = some s') :
    Step ⟨stack, text, root, .piData question⟩ c s' := by
  simp only [feed] at h
  split_ifs at h with hxml hend
  · cases h
    rw [Bool.and_eq_true, decide_eq_true_eq] at hend
    exact .other rfl hend.1
  · cases h
    exact .quiet _ rfl rfl (by simp [Mode.held]) (by simp)

end Modes

/-- **What a character does.**  The machine's table, mode by mode; this is the
only place where it is gone through as a whole. -/
theorem feed_step {s s' : State} {c : Char} (h : feed s c = some s') : Step s c s' := by
  obtain ⟨stack, text, root, mode⟩ := s
  cases mode with
  | outside =>
      simp only [feed] at h
      split_ifs at h with hxml hlt hspace
      · cases h
        exact .beginMarkup (.inl rfl) hlt
      · cases h
        exact .quiet .outside rfl rfl id fun _ => rfl
  | content brackets => exact step_content h
  | reference body =>
      simp only [feed] at h
      split_ifs at h with hxml hsemicolon
      · obtain ⟨value, _, rfl⟩ := Option.map_eq_some_iff.mp h
        exact .resolve value rfl hsemicolon
      · cases h
        exact .body _ rfl
  | markup => exact step_markup h
  | startName name => exact step_startName h
  | inTag name attributes =>
      simp only [feed] at h
      split_ifs at h
      exact step_readTagEnd rfl h
  | inTagSpace name attributes =>
      simp only [feed] at h
      split_ifs at h with hxml hstart
      · cases h
        exact .quiet _ rfl rfl id (by simp)
      · exact step_readTagEnd rfl h
  | «attribute» name attributes attr | beforeEquals name attributes =>
      simp only [feed] at h
      split_ifs at h <;> cases h <;> exact .quiet _ rfl rfl id (by simp)
  | beforeValue name attributes => exact step_beforeValue h
  | value name attributes quote => exact step_value h
  | valueReference name attributes quote body =>
      simp only [feed] at h
      split_ifs at h with hxml hsemicolon
      · obtain ⟨value, _, rfl⟩ := Option.map_eq_some_iff.mp h
        exact .quiet _ rfl rfl id (by simp)
      · cases h
        exact .quiet _ rfl rfl id (by simp)
  | emptyTag name =>
      simp only [feed] at h
      split_ifs at h with hxml hend
      cases h
      exact .emptyTag rfl hend
  | endName name | endSpace name =>
      simp only [feed] at h
      split_ifs at h with hxml hend hspace
      · exact .closeTag name s' rfl hend h
      all_goals
        cases h
        exact .quiet _ rfl rfl (by simp [Mode.held]) (by simp)
  | declaration seen =>
      simp only [feed, State.readDeclaration] at h
      split_ifs at h <;> cases h <;> exact .quiet _ rfl rfl (by simp [Mode.held]) (by simp)
  | comment hyphens => exact step_comment h
  | cdata brackets => exact step_cdata h
  | piTarget target =>
      simp only [feed] at h
      split_ifs at h <;> cases h <;> exact .quiet _ rfl rfl (by simp [Mode.held]) (by simp)
  | piData question => exact step_piData h
  | piEnd =>
      simp only [feed] at h
      split_ifs at h with hxml hend
      cases h
      exact .other rfl hend

/-! ## Tidy states -/

/-- What holds of every state the machine gets into: no name has a `<` in it,
text is read in elements only, and there is none in markup. -/
structure Tidy (s : State) : Prop where
  names : ∀ e ∈ s.stack, '<' ∉ e.name
  held : '<' ∉ s.mode.held
  inElement : s.mode.textual = true → s.stack ≠ []
  noText : s.mode.textual = false → s.text = []
  outside : s.mode = .outside → s.stack = []

/-- Adding nodes opens no element. -/
theorem names_addNodes {nodes : Nodes} {stack : List OpenElement}
    (h : ∀ e ∈ stack, '<' ∉ e.name) : ∀ e ∈ addNodes nodes stack, '<' ∉ e.name := by
  cases stack with
  | nil => exact h
  | cons e rest =>
      rw [addNodes, List.forall_mem_cons]
      exact List.forall_mem_cons.mp h

/-- Nor does it end one. -/
theorem addNodes_eq_nil {nodes : Nodes} {stack : List OpenElement} :
    addNodes nodes stack = [] ↔ stack = [] := by
  cases stack <;> simp [addNodes]

/-- An element that is added where no text is in hand. -/
theorem Tidy.addElement {s : State} (hnames : ∀ e ∈ s.stack, '<' ∉ e.name) (htext : s.text = [])
    (name : List Char) (children : Nodes) : Tidy (s.addElement name children) := by
  unfold State.addElement
  split_ifs with hempty
  · rw [List.isEmpty_iff] at hempty
    exact ⟨hnames, nofun, nofun, fun _ => htext, fun _ => hempty⟩
  · rw [List.isEmpty_iff] at hempty
    exact ⟨names_addNodes hnames, nofun, fun _ => mt addNodes_eq_nil.mp hempty, nofun, nofun⟩

/-- Every step keeps a state tidy.  One case for each kind of step. -/
theorem Tidy.step {s s' : State} {c : Char} (hs : Tidy s) (h : Step s c s') : Tidy s' := by
  cases h with
  | quiet mode htextual htextual' hheld houtside =>
      refine ⟨hs.names, mt hheld hs.held, ?_, fun _ => hs.noText htextual,
        fun hmode => hs.outside (houtside hmode)⟩
      rw [htextual']
      exact nofun
  | body body htextual => exact ⟨hs.names, nofun, fun _ => hs.inElement htextual, nofun, nofun⟩
  | literal brackets hmode =>
      have htextual : s.mode.textual = true := by rw [hmode]; rfl
      exact ⟨hs.names, nofun, fun _ => hs.inElement htextual, nofun, nofun⟩
  | resolve value htextual =>
      exact ⟨hs.names, nofun, fun _ => hs.inElement htextual, nofun, nofun⟩
  | beginMarkup => exact ⟨names_addNodes hs.names, nofun, nofun, fun _ => rfl, nofun⟩
  | openTag htextual =>
      exact ⟨List.forall_mem_cons.mpr ⟨hs.held, hs.names⟩, nofun,
        fun _ => List.cons_ne_nil _ _, nofun, nofun⟩
  | closeTag name _ htextual _ hclose =>
      unfold State.closeTag at hclose
      split at hclose
      · cases hclose
      · next e rest hstack =>
          split_ifs at hclose
          cases hclose
          have hnames := hs.names
          rw [hstack] at hnames
          exact Tidy.addElement (s := { s with stack := rest }) (List.forall_mem_cons.mp hnames).2
            (hs.noText htextual) _ _
  | emptyTag htextual => exact Tidy.addElement hs.names (hs.noText htextual) _ _
  | other htextual =>
      unfold State.addOther State.resume
      simp only
      split_ifs with hempty
      · rw [List.isEmpty_iff] at hempty
        exact ⟨names_addNodes hs.names, nofun, nofun, fun _ => hs.noText htextual,
          fun _ => hempty⟩
      · rw [List.isEmpty_iff] at hempty
        exact ⟨names_addNodes hs.names, nofun, fun _ => hempty, nofun, nofun⟩

/-- The machine starts in a tidy state. -/
theorem tidy_start : Tidy start := by
  constructor <;> simp [start, Mode.held, Mode.textual]

/-- What every step keeps, a run keeps. -/
theorem feedAll_induct {p : State → Prop} (hstep : ∀ {s c s'}, p s → feed s c = some s' → p s')
    {s s' : State} {w : List Char} (hs : p s) (h : feedAll s w = some s') : p s' := by
  induction w generalizing s with
  | nil =>
      cases h
      exact hs
  | cons c w ih =>
      rw [feedAll_cons] at h
      obtain ⟨t, ht, hrest⟩ := Option.bind_eq_some_iff.mp h
      exact ih (hstep hs ht) hrest

/-- **Every state is tidy.** -/
theorem Tidy.feedAll {s s' : State} {w : List Char} (hs : Tidy s)
    (h : feedAll s w = some s') : Tidy s' :=
  feedAll_induct (fun hs h => hs.step (feed_step h)) hs h

/-! ## Hopeless states -/

/-- A reference or the name of an end tag has got a character that it cannot
have. -/
def Mode.hopeless : Mode → Prop
  | .reference body | .valueReference _ _ _ body => '<' ∈ body ∨ '&' ∈ body
  | .endName name | .endSpace name => '<' ∈ name
  | _ => False

/-- No reference has such a character. -/
theorem decodeRef_of_markup {body : List Char} (h : '<' ∈ body ∨ '&' ∈ body) :
    decodeRef body = none := by
  rw [Option.eq_none_iff_forall_ne_some]
  intro value hvalue
  rcases h with hmem | hmem <;> exact absurd (mem_body hvalue _ hmem) (by decide)

/-- No element has such a name. -/
theorem Tidy.closeTag_eq_none {s : State} (hs : Tidy s) {name : List Char} (hname : '<' ∈ name) :
    s.closeTag name = none := by
  unfold State.closeTag
  split
  · rfl
  · next e rest hstack =>
      rw [if_neg]
      intro heq
      exact hs.names e (by simp [hstack]) (heq ▸ hname)

/-- The next character does not help: what has been read of a reference or a
name stays in it. -/
theorem hopeless_step {s s' : State} {c : Char} (hs : Tidy s) (hmode : s.mode.hopeless)
    (h : feed s c = some s') : s'.mode.hopeless := by
  unfold feed at h
  have hxml : ¬ (!isXmlChar c) = true := fun hbad => by simp [hbad] at h
  rw [if_neg hxml] at h
  obtain ⟨stack, text, root, mode⟩ := s
  cases mode with
  | reference body | valueReference name attributes quote body =>
      simp only at h
      rw [decodeRef_of_markup hmode] at h
      split_ifs at h
      · cases h
      · cases h
        exact hmode.imp (List.mem_append_left _) (List.mem_append_left _)
  | endName name =>
      simp only at h
      rw [hs.closeTag_eq_none hmode] at h
      split_ifs at h
      · cases h
        exact hmode
      · cases h
        exact List.mem_append_left _ hmode
  | endSpace name =>
      simp only at h
      rw [hs.closeTag_eq_none hmode] at h
      split_ifs at h
      cases h
      exact hmode
  | _ => exact hmode.elim

/-- **There is no way back to a document.** -/
theorem result_of_hopeless {s s' : State} {w : List Char} (hs : Tidy s) (hmode : s.mode.hopeless)
    (h : feedAll s w = some s') : s'.result = none := by
  have hend : Tidy s' ∧ s'.mode.hopeless :=
    feedAll_induct (p := fun s => Tidy s ∧ s.mode.hopeless)
      (fun hs h => ⟨hs.1.step (feed_step h), hopeless_step hs.1 hs.2 h⟩) ⟨hs, hmode⟩ h
  unfold State.result
  rw [if_neg]
  intro hresult
  rw [hresult.1] at hend
  exact hend.2

/-! ## Comments, processing instructions and CDATA sections -/

/-- In one of the three, with nothing of its end read. -/
def Mode.calm : Mode → Bool
  | .comment 0 | .cdata 0 | .piData false => true
  | _ => false

/-- None of the three is text. -/
theorem Mode.textual_of_calm {mode : Mode} (h : mode.calm = true) : mode.textual = false := by
  unfold calm at h
  split at h
  · rfl
  · rfl
  · rfl
  · cases h

/-- A character that is no part of their ends. -/
def isCalm (c : Char) : Bool := isXmlChar c && !([']', '?', '-'].contains c)

/-- It changes nothing. -/
theorem feed_calm {s : State} {c : Char} (hs : s.mode.calm = true) (hc : isCalm c = true) :
    feed s c = some s := by
  simp only [isCalm, Bool.and_eq_true, Bool.not_eq_true', List.contains_cons,
    Bool.or_eq_false_iff, beq_eq_false_iff_ne] at hc
  obtain ⟨hxml, hbracket, hquestion, hhyphen, -⟩ := hc
  obtain ⟨stack, text, root, mode⟩ := s
  unfold feed
  unfold Mode.calm at hs
  split at hs
  · simp_all
  · simp_all [nextBrackets]
  · simp_all
  · cases hs

/-- Nor do such characters one after the other. -/
theorem feedAll_calm {s : State} (hs : s.mode.calm = true) {w : List Char}
    (hw : ∀ c ∈ w, isCalm c = true) : feedAll s w = some s := by
  induction w with
  | nil => rfl
  | cons c w ih =>
      rw [feedAll_cons, feed_calm hs (hw c (by simp)), Option.bind_some]
      exact ih fun d hd => hw d (List.mem_cons_of_mem _ hd)

/-- A single hyphen does not end a comment, nor does it end either of the
others. -/
theorem feedAll_calm_hyphen {s : State} (hs : s.mode.calm = true) {c : Char}
    (hc : isCalm c = true) : feedAll s ['-', c] = some s := by
  obtain ⟨stack, text, root, mode⟩ := s
  have hread : feedAll ⟨stack, text, root, mode⟩ ['-', c] =
      (feed ⟨stack, text, root, mode⟩ '-').bind fun t => feed t c := by
    rw [feedAll_cons]
    simp [feedAll_cons]
  rw [hread]
  simp only [isCalm, Bool.and_eq_true, Bool.not_eq_true', List.contains_cons,
    Bool.or_eq_false_iff, beq_eq_false_iff_ne] at hc
  obtain ⟨hxml, hbracket, hquestion, hhyphen, -⟩ := hc
  unfold Mode.calm at hs
  split at hs
  · simp_all [feed, show isXmlChar '-' = true by decide]
  · simp_all [feed, nextBrackets, show isXmlChar '-' = true by decide]
  · simp_all [feed, show isXmlChar '-' = true by decide]
  · cases hs

/-- In markup, a `<` leads nowhere, or to the inside of a comment, a processing
instruction or a CDATA section. -/
theorem feed_lt_markup {s s' : State} (hs : Tidy s) (htextual : s.mode.textual = false)
    (houtside : s.mode ≠ .outside) (h : feed s '<' = some s') :
    s'.mode.hopeless ∨ s'.mode.calm = true := by
  have hxml : ¬ (!isXmlChar '<') = true := by decide
  have hstart : isNameStart '<' = false := by decide
  have hchar : isNameChar '<' = false := by decide
  have hspace : isSpace '<' = false := by decide
  unfold feed at h
  rw [if_neg hxml] at h
  obtain ⟨stack, text, root, mode⟩ := s
  cases mode with
  | outside => exact absurd rfl houtside
  | content brackets | reference body => cases htextual
  | markup => simp [State.readMarkup, hstart] at h
  | startName name | inTag name attributes | inTagSpace name attributes =>
      simp [State.readTagEnd, hchar, hstart, hspace] at h
  | «attribute» name attributes attr => simp [hchar, hspace] at h
  | beforeEquals name attributes | beforeValue name attributes => simp [hspace] at h
  | value name attributes quote =>
      have hquote : ¬ '<' = quote := fun heq => hs.held (heq ▸ List.mem_cons_self ..)
      simp only at h
      rw [if_neg hquote, if_pos trivial] at h
      cases h
  | valueReference name attributes quote body =>
      cases h
      exact .inl (.inl (by simp))
  | emptyTag name => simp at h
  | endName name =>
      rw [hspace] at h
      cases h
      exact .inl (by simp [Mode.hopeless])
  | endSpace name => simp [hspace] at h
  | declaration seen =>
      have hother : ∀ l : List Char, '<' ∉ l → seen ++ ['<'] ≠ l := by
        intro l hl heq
        exact hl (heq ▸ List.mem_append_right _ (List.mem_singleton_self _))
      have htake : ∀ (n : Nat) (l : List Char), '<' ∉ l → l.take n ≠ seen ++ ['<'] :=
        fun n l hl heq => hother _ (mt List.mem_of_mem_take hl) heq.symm
      have hcdata := hother ['[', 'C', 'D', 'A', 'T', 'A', '['] (by decide)
      simp only [State.readDeclaration] at h
      rw [if_neg (hother ['-', '-'] (by decide)), if_neg (by simp [hcdata]),
        if_neg (not_or_intro (htake _ _ (by decide)) (htake _ _ (by decide)))] at h
      cases h
  | comment hyphens =>
      by_cases htwo : hyphens = 2
      · simp [htwo] at h
      · simp only at h
        rw [if_neg htwo] at h
        cases h
        exact .inr rfl
  | cdata brackets =>
      cases h
      exact .inr rfl
  | piTarget target => simp [hchar, hspace] at h
  | piData question =>
      cases h
      exact .inr rfl
  | piEnd => simp at h

end Xml
