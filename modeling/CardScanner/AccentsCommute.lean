import CardScanner.UnAccent
import CardScanner.XmlLines

/-!
# When removing accents commutes with parsing

`Utils.unAccent` rewrites a whole document, markup and all.  `UnAccent` shows
when that is enough for each text to be read as it would be without accents.
Here it is shown that nothing less will do (`accentsCommute_iff`), whatever the
lines of the document are.

After `unAccent` the document still is a result put together from lines, but
their texts may have markup in them, and line feeds may be missing
(`exists_reread`).  The markup is ruled out by what the texts are read with
(`lines_clean`); then each line is read by itself, and is compared with its text
without accents.
-/

namespace CardScanner

open Decimal Normalization Xml

variable {u : UnicodeData}

/-! ## References that are not kept -/

/-- Whatever is left by `unAccent` it leaves alone. -/
theorem kept_of_mem_unAccent {c : Char} {s : List Char} (h : c ∈ unAccent u s) : Kept u c := by
  obtain ⟨d, -, hplain⟩ := mem_unAccent.mp h
  obtain ⟨x, hx, hkept, hreplaced⟩ := mem_dropAccents.mp hplain
  rcases replaceStroke_cases x with hD | hd | hsame
  · rw [← hreplaced, hD]
    exact (fixed_of_ascii (by decide)).toKept
  · rw [← hreplaced, hd]
    exact (fixed_of_ascii (by decide)).toKept
  · rw [← hreplaced, hsame]
    exact ⟨u.full d x hx, hkept, hsame⟩

/-- A reference ends the text before it. -/
theorem unAccentPieces_append_reference (run : List Char) (a : List Piece) (r : Ref)
    (b : List Piece) :
    unAccentPieces u run (a ++ .reference r :: b) =
      unAccentPieces u run a ++ .reference r :: unAccentPieces u [] b := by
  induction a generalizing run with
  | nil => rfl
  | cons piece a ih =>
      cases piece with
      | literal c => exact ih (run ++ [c])
      | reference r' =>
          rw [List.cons_append, unAccentPieces, unAccentPieces, ih, List.append_assoc]
          rfl

/-- The last steps do not look at the order. -/
theorem dropAccents_perm {s t : List Char} (h : s.Perm t) : (dropAccents s).Perm (dropAccents t) :=
  (h.filter _).map _

/-- But for the order, a text without accents is made character by character. -/
theorem unAccent_perm (s : List Char) : (unAccent u s).Perm (dropAccents (s.flatMap u.decomp)) :=
  dropAccents_perm (canonicalOrder_perm _)

/-- A kept character stays. -/
theorem dropAccents_kept {c : Char} (hc : Kept u c) (s : List Char) :
    dropAccents (c :: s) = c :: dropAccents s := by
  rw [dropAccents_cons_kept hc.kept, hc.replaced]

/-- If its references are kept, a text is left with the characters of its parts
without accents. -/
theorem value_unAccentPieces_perm {run : List Char} {pieces : List Piece}
    (hkept : ∀ r, .reference r ∈ pieces → Kept u r.value) :
    ((unAccentPieces u run pieces).map Piece.value).Perm
      (dropAccents ((run ++ pieces.map Piece.value).flatMap u.decomp)) := by
  induction pieces generalizing run with
  | nil =>
      rw [unAccentPieces, map_literal, List.map_nil, List.append_nil]
      exact unAccent_perm run
  | cons piece pieces ih =>
      have htail : ∀ r, .reference r ∈ pieces → Kept u r.value :=
        fun r hr => hkept r (List.mem_cons_of_mem _ hr)
      cases piece with
      | literal c =>
          have hrest := @ih (run ++ [c]) htail
          rwa [List.append_assoc] at hrest
      | reference r =>
          have hr := hkept r (by simp)
          have hrest := @ih [] htail
          rw [unAccentPieces, List.map_append, map_literal, List.map_cons, List.map_cons,
            List.flatMap_append, List.flatMap_cons, dropAccents_append, Piece.value, hr.decomp,
            List.singleton_append, dropAccents_kept hr]
          exact (unAccent_perm run).append (hrest.cons _)

/-- Where it has a combining class, the last replacements leave nothing of a
character but itself. -/
theorem replaceStroke_inj {c d : Char} (hc : 0 < u.ccc c) (hd : 0 < u.ccc d)
    (h : replaceStroke c = replaceStroke d) : c = d := by
  have hother : ∀ {x : Char}, 0 < u.ccc x → x ≠ 'D' ∧ x ≠ 'd' := by
    intro x hx
    have hascii : ∀ y : Char, y.toNat < 128 → x ≠ y := by
      intro y hy heq
      rw [heq, (u.ascii y hy).2] at hx
      exact absurd hx (Nat.lt_irrefl 0)
    exact ⟨hascii 'D' (by decide), hascii 'd' (by decide)⟩
  have hc' := hother hc
  have hd' := hother hd
  unfold replaceStroke at h
  grind

/-- The part of a run that stands before a character is as it is ordered. -/
theorem run_split {before behind l1 l2 : List Char} {c : Char} (hc : Kept u c) (hpos : 0 < u.ccc c)
    (hbefore : ∀ d ∈ before, 0 < u.ccc d) (hbehind : ∀ d ∈ behind, 0 < u.ccc d)
    (hsplit : dropAccents (canonicalOrder u.ccc (before ++ ([c] ++ behind))) = l1 ++ c :: l2)
    (hperm : l1.Perm (dropAccents before)) :
    (∀ d ∈ before, isDiacritical d = false → u.ccc d ≤ u.ccc c) ∧
      ∀ d ∈ behind, isDiacritical d = false → u.ccc c ≤ u.ccc d := by
  have hall : ∀ d ∈ before ++ ([c] ++ behind), 0 < u.ccc d := by
    intro d hd
    simp only [List.mem_append, List.mem_singleton] at hd
    rcases hd with hd | rfl | hd
    · exact hbefore d hd
    · exact hpos
    · exact hbehind d hd
  have hordered := pairwise_canonicalOrder hall
  have hperm2 : l2.Perm (dropAccents behind) := by
    have hwhole : (dropAccents (canonicalOrder u.ccc (before ++ ([c] ++ behind)))).Perm
        (dropAccents (before ++ ([c] ++ behind))) := dropAccents_perm (canonicalOrder_perm _)
    rw [hsplit, dropAccents_append, List.singleton_append, dropAccents_kept hc] at hwhole
    have hrest := (hperm.symm.append_right (c :: l2)).trans hwhole
    exact ((List.perm_append_left_iff _).mp hrest).cons_inv
  unfold dropAccents at hsplit
  obtain ⟨s1, s2', hs, rfl, hs2⟩ := List.map_eq_append_iff.mp hsplit
  obtain ⟨y, s2, rfl, hy, rfl⟩ := List.map_eq_cons_iff.mp hs2
  have hsorted := hordered.filter (!isDiacritical ·)
  have hclass : ∀ x ∈ s1 ++ y :: s2, 0 < u.ccc x := by
    intro x hx
    rw [← hs] at hx
    exact hall x ((canonicalOrder_perm _).mem_iff.mp (List.mem_filter.mp hx).1)
  rw [hs] at hsorted
  obtain rfl : y = c :=
    replaceStroke_inj (hclass y (by simp)) hpos (hy.trans hc.replaced.symm)
  have hmem : ∀ {part s : List Char}, (∀ d ∈ part, 0 < u.ccc d) → (∀ x ∈ s, 0 < u.ccc x) →
      (s.map replaceStroke).Perm (dropAccents part) →
      ∀ d ∈ part, isDiacritical d = false → d ∈ s := by
    intro part s hpart hs hperm d hd hkept
    have hd' := hperm.mem_iff.mpr (mem_dropAccents.mpr ⟨d, hd, hkept, rfl⟩)
    obtain ⟨x, hx, heq⟩ := List.mem_map.mp hd'
    exact replaceStroke_inj (hs x hx) (hpart d hd) heq ▸ hx
  obtain ⟨-, hlater, hacross⟩ := List.pairwise_append.mp hsorted
  constructor
  · intro d hd hkept
    exact hacross d (hmem hbefore (fun x hx => hclass x (by simp [hx])) hperm d hd hkept) y
      (by simp)
  · intro d hd hkept
    exact (List.pairwise_cons.mp hlater).1 d
      (hmem hbehind (fun x hx => hclass x (by simp [hx])) hperm2 d hd hkept)

/-- The middle one of three parts goes on to both sides of a character in it. -/
theorem exists_append_cons {α : Type*} {v m w l1 l2 : List α} {c : α}
    (heq : v ++ (m ++ w) = l1 ++ c :: l2) (hle : v.length ≤ l1.length)
    (hlt : l1.length < v.length + m.length) : ∃ m1 m2, l1 = v ++ m1 ∧ m = m1 ++ c :: m2 := by
  obtain ⟨m1, rfl⟩ := List.prefix_of_prefix_length_le ⟨_, heq⟩ (List.prefix_append l1 _) hle
  rw [List.append_assoc] at heq
  have hrest := List.append_cancel_left heq
  have hpart : m1 ++ [c] <+: m1 ++ c :: l2 := ⟨l2, by simp⟩
  rw [List.length_append] at hlt
  obtain ⟨m2, hm2⟩ := List.prefix_of_prefix_length_le hpart ⟨_, hrest⟩ (by simp; omega)
  exact ⟨m1, m2, rfl, by rw [← hm2, List.append_assoc]; rfl⟩

/-- **A kept character stays in place only if nothing kept moves past it.** -/
theorem inPlace_of_eq {a b l1 l2 : List Char} {c : Char} (hc : Kept u c)
    (hperm : l1.Perm (dropAccents (a.flatMap u.decomp)))
    (heq : unAccent u (a ++ c :: b) = l1 ++ c :: l2) : InPlace u a c b := by
  rcases Nat.eq_zero_or_pos (u.ccc c) with hzero | hpos
  · exact inPlace_of_starter hzero
  · generalize hA : a.flatMap u.decomp = A at hperm
    generalize hB : b.flatMap u.decomp = B
    have hruns : unAccent u (a ++ c :: b) =
        dropAccents (canonicalOrder u.ccc (A.rdropWhile (mark u.ccc))) ++
          (dropAccents (canonicalOrder u.ccc
            (A.rtakeWhile (mark u.ccc) ++ ([c] ++ B.takeWhile (mark u.ccc)))) ++
          dropAccents (canonicalOrder u.ccc (B.dropWhile (mark u.ccc)))) := by
      rw [← dropAccents_append, ← dropAccents_append, ← canonicalOrder_runs]
      unfold unAccent nfd
      rw [List.flatMap_append, List.flatMap_cons, hc.decomp, hA, hB]
    have hfirst : (dropAccents (canonicalOrder u.ccc (A.rdropWhile (mark u.ccc)))).Perm
        (dropAccents (A.rdropWhile (mark u.ccc))) := dropAccents_perm (canonicalOrder_perm _)
    have hrun : (dropAccents (canonicalOrder u.ccc
        (A.rtakeWhile (mark u.ccc) ++ ([c] ++ B.takeWhile (mark u.ccc))))).length =
        (dropAccents (A.rtakeWhile (mark u.ccc))).length +
          ((dropAccents (B.takeWhile (mark u.ccc))).length + 1) := by
      rw [(dropAccents_perm (canonicalOrder_perm _)).length_eq, dropAccents_append,
        List.singleton_append, dropAccents_kept hc, List.length_append, List.length_cons]
    rw [hruns] at heq
    generalize dropAccents (canonicalOrder u.ccc (A.rdropWhile (mark u.ccc))) = v at heq hfirst
    rw [← List.rdropWhile_append_rtakeWhile (p := mark u.ccc) (l := A), dropAccents_append] at hperm
    have hlength := hperm.length_eq
    rw [List.length_append, ← hfirst.length_eq] at hlength
    obtain ⟨m1, m2, rfl, hm⟩ := exists_append_cons heq (by omega) (by omega)
    have hbefore : m1.Perm (dropAccents (A.rtakeWhile (mark u.ccc))) :=
      (List.perm_append_left_iff _).mp (hperm.trans (hfirst.symm.append_right _))
    have hsides := run_split hc hpos
      (fun d hd => by simpa [mark] using List.mem_rtakeWhile_imp hd)
      (fun d hd => by simpa [mark] using List.mem_takeWhile_imp hd) hm hbefore
    exact ⟨fun _ => hA ▸ hsides.1, fun _ => hB ▸ hsides.2⟩

/-- **Only kept references are read as they would be without accents.** -/
theorem refsKept_of_value {pieces : List Piece}
    (heq : (unAccentPieces u [] pieces).map Piece.value = unAccent u (pieces.map Piece.value)) :
    RefsKept u [] pieces := by
  have hkept : ∀ r, .reference r ∈ pieces → Kept u r.value := by
    intro r hr
    obtain ⟨a, b, rfl⟩ := List.append_of_mem hr
    have hmem : r.value ∈ (unAccentPieces u [] (a ++ .reference r :: b)).map Piece.value := by
      rw [unAccentPieces_append_reference]
      exact List.mem_map.mpr ⟨.reference r, by simp, rfl⟩
    rw [heq] at hmem
    exact kept_of_mem_unAccent hmem
  intro a r b hsplit
  subst hsplit
  have hr := hkept r (by simp)
  rw [unAccentPieces_append_reference, List.map_append, List.map_cons, List.map_append,
    List.map_cons] at heq
  refine ⟨hr, inPlace_of_eq hr ?_ heq.symm⟩
  exact value_unAccentPieces_perm fun r' hr' => hkept r' (List.mem_append_left _ hr')

/-! ## The end of a CDATA section -/

/-- Where no `>` is read behind `]]`, there is none. -/
theorem not_cdataEnd_of_endFree {brackets : Nat} {pieces : List Piece}
    (h : EndFree brackets pieces) : ¬ cdataEnd <:+: pieces := by
  rintro ⟨a, b, rfl⟩
  rw [List.append_assoc] at h
  induction a generalizing brackets with
  | nil =>
      refine h.2.2.1 ⟨rfl, ?_⟩
      simp only [nextBrackets, if_pos]
      omega
  | cons piece a ih =>
      cases piece with
      | literal c => exact ih h.2
      | reference r => exact ih h

/-! ## Line feeds that are lost -/

/-- The list without some of its elements `x`. -/
inductive Thinned {α : Type*} (x : α) : List α → List α → Prop where
  | nil : Thinned x [] []
  | keep (c : α) {s t : List α} (h : Thinned x s t) : Thinned x (c :: s) (c :: t)
  | drop {s t : List α} (h : Thinned x s t) : Thinned x (x :: s) t

section Thinned

variable {α β : Type*} {x : α} {s t s' t' : List α}

theorem Thinned.refl (s : List α) : Thinned x s s := by
  induction s with
  | nil => exact .nil
  | cons c s ih => exact .keep c ih

theorem Thinned.append (h : Thinned x s t) (h' : Thinned x s' t') :
    Thinned x (s ++ s') (t ++ t') := by
  induction h with
  | nil => exact h'
  | keep c _ ih => exact .keep c ih
  | drop _ ih => exact .drop ih

theorem Thinned.map (f : α → β) (h : Thinned x s t) : Thinned (f x) (s.map f) (t.map f) := by
  induction h with
  | nil => exact .nil
  | keep c _ ih => exact .keep _ ih
  | drop _ ih => exact .drop ih

/-- What is left is in its old order. -/
theorem Thinned.sublist (h : Thinned x s t) : t.Sublist s := by
  induction h with
  | nil => exact .slnil
  | keep c _ ih => exact ih.cons_cons c
  | drop _ ih => exact ih.cons x

/-- A list that is put together is thinned part by part. -/
theorem Thinned.of_append {a b : List α} (h : Thinned x (a ++ b) t) :
    ∃ ta tb, t = ta ++ tb ∧ Thinned x a ta ∧ Thinned x b tb := by
  induction a generalizing t with
  | nil => exact ⟨[], t, rfl, .nil, h⟩
  | cons c a ih =>
      cases h with
      | keep _ h =>
          obtain ⟨ta, tb, rfl, ha, hb⟩ := ih h
          exact ⟨c :: ta, tb, rfl, .keep c ha, hb⟩
      | drop h =>
          obtain ⟨ta, tb, rfl, ha, hb⟩ := ih h
          exact ⟨ta, tb, rfl, .drop ha, hb⟩

/-- Nothing can be missing if there is no `x`. -/
theorem Thinned.eq_of_notMem (h : Thinned x s t) (hx : x ∉ s) : t = s := by
  induction h with
  | nil => rfl
  | keep c _ ih => rw [ih fun hmem => hx (List.mem_cons_of_mem _ hmem)]
  | drop _ _ => exact absurd (List.mem_cons_self ..) hx

variable [DecidableEq α]

/-- What is missing are elements `x`. -/
theorem Thinned.count (h : Thinned x s t) : t.length + s.count x = s.length + t.count x := by
  induction h with
  | nil => rfl
  | keep c _ ih =>
      rw [List.count_cons, List.count_cons, List.length_cons, List.length_cons]
      omega
  | drop _ ih =>
      rw [List.count_cons_self, List.length_cons]
      omega

/-- Nothing is missing if no `x` is. -/
theorem Thinned.eq_of_count (h : Thinned x s t) (hcount : s.count x = t.count x) : t = s := by
  have hlength := h.count
  exact h.sublist.eq_of_length (by omega)

end Thinned

/-- A text in a document is thinned piece by piece: no reference has a line
feed in it, so only literal ones can be missing. -/
theorem thinned_render {pieces : List Piece} {t : List Char}
    (h : Thinned '\n' (pieces.flatMap Piece.render) t) :
    ∃ pieces', t = pieces'.flatMap Piece.render ∧ Thinned (.literal '\n') pieces pieces' := by
  induction pieces generalizing t with
  | nil =>
      cases h
      exact ⟨[], rfl, .nil⟩
  | cons piece pieces ih =>
      rw [List.flatMap_cons] at h
      obtain ⟨ta, tb, rfl, ha, hb⟩ := h.of_append
      obtain ⟨pieces', rfl, hthin⟩ := ih hb
      cases piece with
      | literal c =>
          cases ha with
          | keep _ ha =>
              cases ha
              exact ⟨.literal c :: pieces', rfl, .keep _ hthin⟩
          | drop ha =>
              cases ha
              exact ⟨pieces', rfl, .drop hthin⟩
      | reference r =>
          have hbody : '\n' ∉ (Piece.reference r).render := by
            intro hmem
            have hbad : '\n' ∈ r.body := by simpa [Piece.render] using hmem
            exact absurd (mem_body r.decodes _ hbad) (by decide)
          rw [ha.eq_of_notMem hbody]
          exact ⟨.reference r :: pieces', rfl, .keep _ hthin⟩

/-- No line end begins before a carriage return and ends behind it, so line
ends are read on both sides of one apart.  The induction follows `lineEnds`. -/
theorem lineEnds_append_return (a s : List Char) :
    lineEnds (a ++ '\r' :: s) = lineEnds a ++ lineEnds ('\r' :: s) := by
  fun_induction lineEnds a with
  | case1 rest ih => rw [List.cons_append, List.cons_append, lineEnds_return_feed, ih]; rfl
  | case2 rest hother ih =>
      rw [List.cons_append, lineEnds_return, ih]
      · rfl
      · cases rest with
        | nil => simp
        | cons c rest =>
            intro hhead
            cases hhead
            exact hother rest rfl
  | case3 c rest hother hne ih =>
      rw [List.cons_append, lineEnds.eq_3, ih]
      · rfl
      · exact fun _ hc _ => hne hc
      · exact hne
  | case4 => rfl

/-- **Reading line ends behind `unAccent` loses line feeds**, if anything. -/
theorem thinned_lineEnds (document : List Char) :
    Thinned '\n' (unAccent u (lineEnds document)) (lineEnds (unAccent u document)) := by
  induction hlength : document.length using Nat.strongRecOn generalizing document with
  | ind n ih =>
      by_cases hmem : '\r' ∈ document
      · obtain ⟨a, b, rfl, ha⟩ := List.eq_append_cons_of_mem hmem
        have hkept : '\r' ∉ unAccent u a := fun h => ha (mem_of_lineEnd (Or.inl rfl) h)
        have hcr : Fixed u '\r' := fixed_of_ascii (by decide)
        have hlf : Fixed u '\n' := fixed_of_ascii (by decide)
        have hfeed : ∀ s : List Char, unAccent u ('\n' :: s) = '\n' :: unAccent u s :=
          unAccent_append hlf []
        rw [List.length_append, List.length_cons] at hlength
        rw [unAccent_append hcr, lineEnds_append hkept, lineEnds_append ha]
        by_cases hhead : b.head? = some '\n'
        · obtain ⟨b', rfl⟩ := List.head?_eq_some_iff.mp hhead
          rw [List.length_cons] at hlength
          rw [hfeed, lineEnds_return_feed, lineEnds_return_feed, unAccent_append hlf]
          exact (Thinned.refl _).append (.keep _ (ih _ (by omega) b' rfl))
        · have hlater := ih _ (by omega) b rfl
          rw [lineEnds_return hhead, unAccent_append hlf]
          refine (Thinned.refl _).append ?_
          by_cases hhead' : (unAccent u b).head? = some '\n'
          · obtain ⟨b', hb'⟩ := List.head?_eq_some_iff.mp hhead'
            rw [hb'] at hlater ⊢
            exact .drop hlater
          · rw [lineEnds_return hhead']
            exact .keep _ hlater
      · have hkept : '\r' ∉ unAccent u document := fun h => hmem (mem_of_lineEnd (Or.inl rfl) h)
        rw [lineEnds_of_no_return hmem, lineEnds_of_no_return hkept]
        exact Thinned.refl _

/-- **Where no line feed is lost, removed marks stand in no line end.** -/
theorem returnSafe_of_eq {document : List Char}
    (heq : lineEnds (unAccent u document) = unAccent u (lineEnds document)) :
    ReturnSafe u document := by
  rintro a marks b rfl hmarks
  by_contra hne
  have hcr : Fixed u '\r' := fixed_of_ascii (by decide)
  have hlf : Fixed u '\n' := fixed_of_ascii (by decide)
  have hgone : unAccent u marks = [] := by
    rw [List.eq_nil_iff_forall_not_mem]
    intro d hd
    obtain ⟨c, hc, hplain⟩ := mem_unAccent.mp hd
    rw [hmarks c hc] at hplain
    cases hplain
  have hother : ∀ {c : Char}, Fixed u c → c ∉ marks := by
    intro c hc hmem
    have hplain := hmarks c hmem
    rw [plain, hc.decomp, dropAccents_kept hc.toKept] at hplain
    cases hplain
  have hhead : (marks ++ '\n' :: b).head? ≠ some '\n' := by
    cases marks with
    | nil => exact absurd rfl hne
    | cons c marks =>
        intro h
        cases h
        exact hother hlf (List.mem_cons_self ..)
  have hfeed : lineEnds ('\n' :: b) = '\n' :: lineEnds b :=
    lineEnds_append (a := ['\n']) (by decide) b
  have hbefore := (thinned_lineEnds (u := u) a).sublist.length_le
  have hbehind := (thinned_lineEnds (u := u) b).sublist.length_le
  have hlength := congrArg List.length heq
  rw [unAccent_append hcr, unAccent_append hlf, hgone, List.nil_append, lineEnds_append_return,
    lineEnds_return_feed, lineEnds_append_return, lineEnds_return hhead,
    lineEnds_append (hother hcr), hfeed, unAccent_append hlf, unAccent_append hlf, hgone] at hlength
  simp only [List.length_append, List.length_cons, List.nil_append] at hlength
  omega

/-! ## Lines after `unAccent` -/

/-- A line is thinned in its text: neither its tags nor its font size have a
line feed in them. -/
theorem thinned_line {line : OcrLine} {t : List Char} (h : Thinned '\n' line.render t) :
    ∃ line', t = OcrLine.render line' ∧ line'.fontSize = line.fontSize ∧
      Thinned (.literal '\n') line.text line'.text := by
  have hopen : '\n' ∉ beforeText line.fontSize := by
    have hsize : '\n' ∉ decimal line.fontSize := by
      intro hmem
      rcases mem_decimal hmem with hsign | hdigit
      · cases hsign
      · exact absurd hdigit (by decide)
    simp only [beforeText, List.mem_append, not_or]
    exact ⟨⟨by decide, ⟨by decide, hsize⟩, by decide⟩, by decide⟩
  rw [render_eq] at h
  obtain ⟨ta, tb, rfl, ha, hb⟩ := h.of_append
  obtain ⟨tc, td, rfl, hc, hd⟩ := hb.of_append
  obtain ⟨pieces, rfl, hthin⟩ := thinned_render hc
  refine ⟨⟨line.fontSize, pieces⟩, ?_, rfl, hthin⟩
  rw [render_eq, ha.eq_of_notMem hopen, hd.eq_of_notMem (by decide)]

/-- A result is thinned line by line, and keeps its lines in number and order. -/
theorem thinned_lines {ι : Type*} {f : ι → OcrLine} {ls : List ι} {t : List Char}
    (h : Thinned '\n' (ls.flatMap fun l => (f l).render) t) :
    ∃ pairs : List (ι × OcrLine), pairs.map Prod.fst = ls ∧
      t = pairs.flatMap (fun p => p.2.render) ∧ ∀ p ∈ pairs, p.2.fontSize = (f p.1).fontSize ∧
        Thinned (.literal '\n') (f p.1).text p.2.text := by
  induction ls generalizing t with
  | nil =>
      cases h
      exact ⟨[], rfl, rfl, fun p hp => absurd hp List.not_mem_nil⟩
  | cons l ls ih =>
      rw [List.flatMap_cons] at h
      obtain ⟨ta, tb, rfl, ha, hb⟩ := h.of_append
      obtain ⟨line', rfl, hline⟩ := thinned_line ha
      obtain ⟨pairs, rfl, rfl, hpairs⟩ := ih hb
      exact ⟨(l, line') :: pairs, rfl, rfl, List.forall_mem_cons.mpr ⟨hline, hpairs⟩⟩

/-! ## The length of a text without accents -/

/-- Whether a character is kept can be looked up. -/
instance (c : Char) : Decidable (Kept u c) :=
  decidable_of_iff (u.decomp c = [c] ∧ isDiacritical c = false ∧ replaceStroke c = c)
    ⟨fun h => ⟨h.1, h.2.1, h.2.2⟩, fun h => ⟨h.decomp, h.kept, h.replaced⟩⟩

/-- The characters that `unAccent` leaves. -/
def keptChar (u : UnicodeData) (c : Char) : Bool := decide (Kept u c)

/-- What a text is shortened to does not depend on its neighbours. -/
theorem length_unAccent_append (a b : List Char) :
    (unAccent u (a ++ b)).length = (unAccent u a).length + (unAccent u b).length := by
  rw [(unAccent_perm (a ++ b)).length_eq, (unAccent_perm a).length_eq,
    (unAccent_perm b).length_eq, List.flatMap_append, dropAccents_append, List.length_append]

/-- The literal characters and the kept references of a text are no more than
the characters it is read with. -/
theorem countP_unAccentPieces (run : List Char) (pieces : List Piece) :
    (unAccentPieces u run pieces).countP (Piece.counts (keptChar u)) ≤
      (unAccent u (run ++ pieces.map Piece.value)).length := by
  have hrun : ∀ s : List Char,
      (s.map Piece.literal).countP (Piece.counts (keptChar u)) = s.length := by
    intro s
    rw [List.countP_map]
    exact List.countP_eq_length.mpr fun _ _ => rfl
  induction pieces generalizing run with
  | nil => rw [unAccentPieces, hrun, List.map_nil, List.append_nil]
  | cons piece pieces ih =>
      cases piece with
      | literal c =>
          have hrest := ih (run ++ [c])
          rwa [List.append_assoc] at hrest
      | reference r =>
          have hrest := ih []
          have hone : (if (Piece.reference r).counts (keptChar u) = true then 1 else 0) ≤
              (unAccent u [r.value]).length := by
            split_ifs with hkept
            · have hr : Kept u r.value := of_decide_eq_true hkept
              rw [(unAccent_perm [r.value]).length_eq, List.flatMap_singleton, hr.decomp,
                dropAccents_kept hr]
              simp
            · exact Nat.zero_le _
          have hlength : (unAccent u (run ++ r.value :: pieces.map Piece.value)).length =
              (unAccent u run).length +
                ((unAccent u [r.value]).length + (unAccent u (pieces.map Piece.value)).length) := by
            rw [length_unAccent_append, ← length_unAccent_append [r.value]]
            rfl
          rw [unAccentPieces, List.countP_append, List.countP_cons, hrun, List.map_cons]
          rw [List.nil_append] at hrest
          change _ ≤ (unAccent u (run ++ r.value :: pieces.map Piece.value)).length
          omega

/-- A thinned text fits what its line is awaited to be read with: each
character of that stands for a piece at most. -/
theorem fits_thinned {line line' : OcrLine}
    (hthin : Thinned (.literal '\n') (unAccentPieces u [] line.text) line'.text) :
    (⟨line', unAccent u (line.text.map Piece.value)⟩ : Awaited).Fits (keptChar u) := by
  obtain ⟨hle, hlt⟩ := sum_weight_le (keptChar u) line'.text
  have hcount : line'.text.countP (Piece.counts (keptChar u)) ≤
      (unAccent u (line.text.map Piece.value)).length :=
    (hthin.sublist.countP_le).trans (countP_unAccentPieces [] line.text)
  refine ⟨?_, hle.trans hcount, fun hmarkup => ?_⟩
  · rw [List.all_eq_true]
    exact fun c hc => decide_eq_true (kept_of_mem_unAccent hc)
  · refine (hlt ?_).trans_le hcount
    by_contra hnone
    exact hmarkup fun c hc =>
      ⟨fun heq => hnone ⟨c, hc, .inl heq⟩, fun heq => hnone ⟨c, hc, .inr heq⟩⟩

/-- The lines of a document, each with what has become of it: the document after
`unAccent`, with line ends read, is put together from lines of the same sizes,
whose texts have lost line feeds if anything. -/
structure Reread (u : UnicodeData) (d : OcrDocument) (pairs : List (OcrLine × OcrLine)) :
    Prop where
  lines : pairs.map Prod.fst = d.lines
  ends : lineEnds (unAccent u d.document) = rawOutput (pairs.flatMap fun p => p.2.render)
  fontSize : ∀ p ∈ pairs, p.2.fontSize = p.1.fontSize
  thinned : ∀ p ∈ pairs, Thinned (.literal '\n') (unAccentPieces u [] p.1.text) p.2.text

/-- Every document is put together so. -/
theorem exists_reread (u : UnicodeData) (d : OcrDocument) : ∃ pairs, Reread u d pairs := by
  have hthin := thinned_lineEnds (u := u) d.document
  rw [d.ends, unAccent_rawOutput, rawOutput] at hthin
  obtain ⟨ta, tb, heq, ha, hb⟩ := hthin.of_append
  obtain ⟨tc, td, rfl, hc, hd⟩ := ha.of_append
  rw [List.flatMap_map] at hd
  obtain ⟨pairs, hlines, rfl, hpairs⟩ := thinned_lines hd
  refine ⟨pairs, hlines, ?_, fun p hp => (hpairs p hp).1, fun p hp => (hpairs p hp).2⟩
  rw [heq, hc.eq_of_notMem (by decide), hb.eq_of_notMem (by decide)]
  rfl

/-- Line feeds are neither made nor removed: only a line feed is decomposed to
one. -/
theorem count_unAccent (s : List Char) : (unAccent u s).count '\n' = s.count '\n' := by
  rw [(unAccent_perm s).count_eq]
  induction s with
  | nil => rfl
  | cons c s ih =>
      have hplain : (plain u c).count '\n' = if c = '\n' then 1 else 0 := by
        split_ifs with hc
        · have hlf : Fixed u c := fixed_of_ascii (hc ▸ by decide)
          rw [plain, hlf.decomp, dropAccents_kept hlf.toKept, hc]
          rfl
        · exact List.count_eq_zero.mpr fun hmem =>
            hc (lineEnd_of_mem_plain hmem (Or.inr rfl)).symm
      rw [List.flatMap_cons, dropAccents_append, List.count_append, ih, List.count_cons,
        Nat.add_comm]
      simpa [plain] using hplain

/-- Nor are those of a text with references. -/
theorem count_unAccentPieces (run : List Char) (pieces : List Piece) :
    ((unAccentPieces u run pieces).map Piece.value).count '\n' =
      (run ++ pieces.map Piece.value).count '\n' := by
  induction pieces generalizing run with
  | nil => rw [unAccentPieces, map_literal, count_unAccent, List.map_nil, List.append_nil]
  | cons piece pieces ih =>
      cases piece with
      | literal c =>
          rw [unAccentPieces, ih, List.append_assoc]
          rfl
      | reference r =>
          rw [unAccentPieces, List.map_append, map_literal, List.map_cons, List.count_append,
            List.count_cons, ih, List.nil_append, count_unAccent, List.map_cons,
            List.count_append, List.count_cons]

/-- A text that is read as it would be without accents has lost nothing. -/
theorem eq_of_value {line line' : OcrLine}
    (hthin : Thinned (.literal '\n') (unAccentPieces u [] line.text) line'.text)
    (hvalue : line'.text.map Piece.value = unAccent u (line.text.map Piece.value)) :
    line'.text = unAccentPieces u [] line.text := by
  have hcount : ((unAccentPieces u [] line.text).map Piece.value).count '\n' =
      (line'.text.map Piece.value).count '\n' := by
    rw [hvalue, count_unAccent, count_unAccentPieces, List.nil_append]
  have hlength := congrArg List.length ((hthin.map Piece.value).eq_of_count hcount)
  rw [List.length_map, List.length_map] at hlength
  exact hthin.sublist.eq_of_length hlength

/-- A character that `unAccent` makes of a literal is a literal of the result. -/
theorem mem_unAccentPieces_literal {c d : Char} (hd : d ∈ plain u c) {run : List Char}
    {pieces : List Piece} (hc : c ∈ run ∨ .literal c ∈ pieces) :
    .literal d ∈ unAccentPieces u run pieces := by
  have hrun : ∀ {run : List Char}, c ∈ run → Piece.literal d ∈ (unAccent u run).map .literal :=
    fun hc => List.mem_map_of_mem (mem_unAccent.mpr ⟨c, hc, hd⟩)
  induction pieces generalizing run with
  | nil => exact hrun (hc.resolve_right List.not_mem_nil)
  | cons piece pieces ih =>
      cases piece with
      | literal x =>
          apply ih
          rcases hc with hc | hc
          · exact Or.inl (List.mem_append_left _ hc)
          · rcases List.mem_cons.mp hc with heq | hc
            · cases heq
              exact Or.inl (by simp)
            · exact Or.inr hc
      | reference r =>
          rw [unAccentPieces, List.mem_append, List.mem_cons]
          rcases hc with hc | hc
          · exact Or.inl (hrun hc)
          · exact Or.inr (Or.inr (ih (Or.inr ((List.mem_cons.mp hc).resolve_left (by simp)))))

/-- No character of the text has markup in its decomposition if there is none
in the result. -/
theorem markup_of_clean {text : List Piece} (hclean : Clean (unAccentPieces u [] text)) :
    ∀ c, .literal c ∈ text → '<' ∉ u.decomp c ∧ '&' ∉ u.decomp c := by
  intro c hc
  have hmarkup : ∀ d, d = '<' ∨ d = '&' → d ∉ u.decomp c := by
    intro d hd hmem
    have hfixed : Fixed u d := fixed_of_ascii (by rcases hd with rfl | rfl <;> decide)
    have hplain : d ∈ plain u c := mem_dropAccents.mpr ⟨d, hmem, hfixed.kept, hfixed.replaced⟩
    obtain ⟨hlt, hamp⟩ := hclean d (mem_unAccentPieces_literal hplain (Or.inr hc))
    exact hd.elim hlt hamp
  exact ⟨hmarkup '<' (Or.inl rfl), hmarkup '&' (Or.inr rfl)⟩

/-- A thinned text without markup is an element's text. -/
theorem wellFormed_thinned {line line' : OcrLine} (htext : WellFormed line.text)
    (hthin : Thinned (.literal '\n') (unAccentPieces u [] line.text) line'.text)
    (hclean : Clean line'.text) (hfree : EndFree 0 line'.text) : WellFormed line'.text where
  literal := by
    intro d hd
    obtain ⟨c, hc, hplain⟩ := literal_mem_unAccentPieces (hthin.sublist.subset hd)
    obtain ⟨hlt, hamp⟩ := hclean d hd
    have hliteral := htext.literal c (hc.resolve_left List.not_mem_nil)
    exact isLiteral_of_mem_plain hliteral hplain hlt hamp
  endFree := hfree

section Reread

variable {d : OcrDocument} {pairs : List (OcrLine × OcrLine)} {after : Nodes}

/-- If the texts of the result are those that are awaited, none has markup in
it. -/
theorem Reread.clean (h : Reread u d pairs)
    (hafter : getDomElement (unAccent u d.document) = some after)
    (htexts : (elementsByTagName itemName after).map (textOf elementText) =
      pairs.map fun p => unAccent u (p.1.text.map Piece.value)) :
    ∀ p ∈ pairs, Clean p.2.text ∧ EndFree 0 p.2.text := by
  let awaited (p : OcrLine × OcrLine) : Awaited := ⟨p.2, unAccent u (p.1.text.map Piece.value)⟩
  have hfits : ∀ a ∈ pairs.map awaited, a.Fits (keptChar u) :=
    List.forall_mem_map.mpr fun p hp => fits_thinned (h.thinned p hp)
  have hends : lineEnds (unAccent u d.document) =
      rawOutput ((pairs.map awaited).flatMap fun a => a.line.render) := by
    rw [h.ends, List.flatMap_map]
  have hvalues : (elementsByTagName itemName after).map (textOf elementText) =
      (pairs.map awaited).map Awaited.value := by
    rw [htexts, List.map_map]
    rfl
  exact List.forall_mem_map.mp (lines_clean hfits hends hafter hvalues)

/-- Then each of them is read in its own line: without markup they make up a
document whose tree is known, and the texts that are awaited are the texts of
its lines. -/
theorem Reread.value (h : Reread u d pairs)
    (hafter : getDomElement (unAccent u d.document) = some after)
    (htexts : (elementsByTagName itemName after).map (textOf elementText) =
      pairs.map fun p => unAccent u (p.1.text.map Piece.value))
    (hclean : ∀ p ∈ pairs, Clean p.2.text ∧ EndFree 0 p.2.text) :
    ∀ p ∈ pairs, p.2.text.map Piece.value = unAccent u (p.1.text.map Piece.value) := by
  have hwell : ∀ line ∈ pairs.map Prod.snd, WellFormed line.text := by
    refine List.forall_mem_map.mpr fun p hp => ?_
    have hline : p.1 ∈ d.lines := h.lines ▸ List.mem_map_of_mem hp
    obtain ⟨hmarkup, hfree⟩ := hclean p hp
    exact wellFormed_thinned (d.wellFormed p.1 hline) (h.thinned p hp) hmarkup hfree
  have hends : lineEnds (unAccent u d.document) =
      rawOutput ((pairs.map Prod.snd).flatMap OcrLine.render) := by
    rw [h.ends, List.flatMap_map]
  have htree := (parse_rawOutput hwell hends).symm.trans hafter
  rw [← Option.some.inj htree, elementsByTagName_rawOutput, List.map_map, List.map_map] at htexts
  intro p hp
  have htext := List.map_inj_left.mp htexts p hp
  rwa [Function.comp_apply, Function.comp_apply, textOf_eq_getValue, getValue_text] at htext

/-- The texts of the result, if removing accents commutes with parsing. -/
theorem Reread.texts (h : Reread u d pairs) (hcommute : d.AccentsCommute u) :
    ∃ after, getDomElement (unAccent u d.document) = some after ∧
      (elementsByTagName itemName after).map (textOf elementText) =
        pairs.map fun p => unAccent u (p.1.text.map Piece.value) := by
  obtain ⟨before, after, hbefore, hafter, hvalues⟩ := hcommute
  obtain rfl : _ = before :=
    Option.some.inj ((parse_rawOutput d.wellFormed d.ends).symm.trans hbefore)
  refine ⟨after, hafter, ?_⟩
  have htexts := congrArg (List.map Prod.snd) hvalues
  rw [elementsByTagName_rawOutput, ← h.lines] at htexts
  rw [show textOf elementText = fun item => getValue item elementText from
    funext (textOf_eq_getValue elementText)]
  simpa [getValue_text, Function.comp_def] using htexts

end Reread

/-- **What is read as it should be was safe.**  Each line has kept its text
without accents, so no line feed is lost either. -/
theorem safe_of_accentsCommute {d : OcrDocument} (h : d.AccentsCommute u) :
    (∀ line ∈ d.lines, AccentSafe u line.text) ∧ ReturnSafe u d.document := by
  obtain ⟨pairs, hreread⟩ := exists_reread u d
  obtain ⟨after, hafter, htexts⟩ := hreread.texts h
  have hclean := hreread.clean hafter htexts
  have hvalue := hreread.value hafter htexts hclean
  have htext : ∀ p ∈ pairs, p.2.text = unAccentPieces u [] p.1.text :=
    fun p hp => eq_of_value (hreread.thinned p hp) (hvalue p hp)
  constructor
  · rw [← hreread.lines]
    refine List.forall_mem_map.mpr fun p hp => ?_
    obtain ⟨hmarkup, hfree⟩ := hclean p hp
    have hread := hvalue p hp
    rw [htext p hp] at hmarkup hfree hread
    exact ⟨markup_of_clean hmarkup, refsKept_of_value hread,
      not_cdataEnd_of_endFree ((endFree_unAccentPieces [] p.1.text 0).mp hfree)⟩
  · apply returnSafe_of_eq
    rw [hreread.ends, d.ends, unAccent_rawOutput, ← hreread.lines, List.map_map,
      List.flatMap_map]
    congr 1
    refine List.flatMap_congr fun p hp => ?_
    unfold OcrLine.unAccent
    rw [Function.comp_apply, ← htext p hp, ← hreread.fontSize p hp]

/-- **When removing accents commutes with parsing.**  Exactly when every text
is safe and no marks stand in a line end.  That it is enough is read off line
by line; that it is needed comes from the whole document: what the texts are
read with leaves no room for markup in them (`lines_clean`), no line feed to
lose (`eq_of_value`) and no reference to change or to move
(`refsKept_of_value`). -/
theorem accentsCommute_iff (u : UnicodeData) (d : OcrDocument) :
    d.AccentsCommute u ↔
      (∀ line ∈ d.lines, AccentSafe u line.text) ∧ ReturnSafe u d.document :=
  ⟨safe_of_accentsCommute, fun h => accentsCommute_of_safe u d h.1 h.2⟩

/-- A document of one line in a font of twelve points. -/
def oneLine (text : List Piece) (htext : WellFormed text) : OcrDocument where
  document := rawOutput ([⟨12, text⟩].flatMap OcrLine.render)
  lines := [⟨12, text⟩]
  wellFormed := by
    intro line hline
    rw [List.mem_singleton.mp hline]
    exact htext
  ends := by
    apply lineEnds_rawOutput
    intro line hline
    rw [List.mem_singleton.mp hline]
    exact htext

/-- The literal characters of a text. -/
def literals (pieces : List Piece) : List Char :=
  pieces.filterMap fun piece => match piece with
    | .literal c => some c
    | .reference _ => none

/-- They are those that the document has as they are. -/
theorem mem_literals {c : Char} {pieces : List Piece} :
    c ∈ literals pieces ↔ .literal c ∈ pieces := by
  unfold literals
  rw [List.mem_filterMap]
  constructor
  · intro ⟨piece, hpiece, hc⟩
    cases piece with
    | literal x =>
        cases hc
        exact hpiece
    | reference r => cases hc
  · intro hc
    exact ⟨.literal c, hc, rfl⟩

/-- A text of such characters is well-formed unless it has `]]>` in it. -/
theorem wellFormed_of_literals {pieces : List Piece}
    (hliteral : (literals pieces).all isLiteral = true) (hcdata : ¬ cdataEnd <:+: pieces) :
    WellFormed pieces where
  literal c hc := List.all_eq_true.mp hliteral c (mem_literals.mpr hc)
  endFree := endFree_of_no_cdataEnd hcdata

/-- A Vietnamese name, an ampersand, a letter with a stroke and a Hebrew
accent. -/
def nameText : List Piece :=
  [.literal 'N', .literal 'g', .literal 'u', .literal 'y', .literal 'ễ', .literal 'n',
    .reference ⟨['a', 'm', 'p'], '&', decodeRef_amp⟩, .literal 'Đ',
    .reference ⟨['#', 'x', '5', '9', '1'], '\u0591', by decide⟩]

/-- It can be the text of a line. -/
theorem wellFormed_nameText : WellFormed nameText := wellFormed_of_literals rfl (by decide)

/-- All of that together: accents, a letter with a stroke, and references that
are left alone, one of them to a combining character. -/
theorem accentsCommute_nameText :
    (oneLine nameText wellFormed_nameText).AccentsCommute sampleData := by
  refine (accentsCommute_iff sampleData (oneLine nameText wellFormed_nameText)).mpr ⟨?_, ?_⟩
  · intro line hline
    rw [List.mem_singleton.mp hline]
    refine ⟨?_, ?_, by decide⟩
    · intro c hc
      have hall : ∀ c ∈ literals nameText,
          !(sampleData.decomp c).contains '<' && !(sampleData.decomp c).contains '&' :=
        List.all_eq_true.mp rfl
      simpa using hall c (mem_literals.mpr hc)
    · have hamp : Fixed sampleData '&' := fixed_of_ascii (by decide)
      have haccent : Kept sampleData '\u0591' := ⟨by decide, by decide, by decide⟩
      have hjoined : (['N', 'g', 'u', 'y', 'ễ', 'n', '&', 'Đ'].flatMap
          sampleData.decomp).rtakeWhile (mark sampleData.ccc) = [] := rfl
      simp only [nameText, refsKept_literal, refsKept_reference]
      refine ⟨⟨hamp.toKept, inPlace_of_starter hamp.starter⟩, ⟨haccent, ⟨?_, ?_⟩⟩,
        refsKept_nil _⟩
      · intro _ d hd
        cases hjoined.subst (motive := fun l => d ∈ l) hd
      · intro _ d hd
        cases hd
  · intro a marks b heq
    have hreturn : '\r' ∉ (oneLine nameText wellFormed_nameText).document := by decide
    rw [heq] at hreturn
    exact absurd (by simp) hreturn

/-- Six letters and a less-than sign with a stroke. -/
def strokeText : List Piece :=
  [.literal 'S', .literal 'a', .literal 'i', .literal 'G', .literal 'o', .literal 'n', .literal '≮']

/-- It can be the text of a line before `unAccent` has seen it. -/
theorem wellFormed_strokeText : WellFormed strokeText := wellFormed_of_literals rfl (by decide)

/-- The decomposition begins with a less-than sign, and the document is no
longer well-formed. -/
theorem not_accentsCommute :
    ¬ ∀ (u : UnicodeData) (d : OcrDocument), d.AccentsCommute u := by
  intro hcommute
  obtain ⟨_, after, _, hparse, _⟩ := hcommute sampleData (oneLine strokeText wellFormed_strokeText)
  have hnone : getDomElement (unAccent sampleData
      (oneLine strokeText wellFormed_strokeText).document) = none := by decide
  rw [hnone] at hparse
  cases hparse

end CardScanner
