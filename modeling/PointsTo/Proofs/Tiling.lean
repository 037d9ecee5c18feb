import PointsTo.Proofs.Patterns

/-!
# The lexer tiles a text

At each place a scan takes the `Longest` text there that fits a pattern (`scan_eq_token_iff`,
`scan_eq_skip_iff`), and it is stuck only where none fits. So a text is cut, from its start on, into
blanks, comments and tokens, up to its end or up to the first place where nothing fits (`Tiling`,
`exists_tiling`). `lex_tiles_text`: the lexemes are the tokens of this tiling with the bytes that
they occupy, and an error is at the place where it ends.
-/

namespace PointsTo.Text

/-! ## Longest matches -/

/-- No pattern fits more of the front of `cs` than `u`. -/
def Longest (u cs : List Char) : Prop := ∀ w ∈ skipped + words, w <+: cs → w.length ≤ u.length

/-- No pattern fits at the front of `cs`. -/
def Unmatched (cs : List Char) : Prop := ∀ w ∈ skipped + words, ¬ w <+: cs

/-- What is wrong where no pattern fits: a comment that stays open, or else one character. -/
def offending (cs : List Char) : List Char := if ['/', '*'] <+: cs then cs else cs.take 1

/-! ## What a scan takes -/

/-- What is taken from the front of the text. -/
def Scan.taken? : Scan → Option (List Char)
  | .skip text _ => some text
  | .token _ text _ => some text
  | .done => none
  | .stuck _ => none

theorem length_le_length_takeWhile {p : Char → Bool} {w : List Char} (hw : w.all p = true)
    (rest : List Char) : w.length ≤ ((w ++ rest).takeWhile p).length := by
  rw [List.takeWhile_append_of_pos (List.all_eq_true.1 hw), List.length_append]
  exact Nat.le_add_right _ _

/-- Where a text between tokens fits, such a text is skipped, and not less of it. -/
theorem exists_scan_skip {w : List Char} (hw : w ∈ skipped) (rest : List Char) :
    ∃ u rest', scan (w ++ rest) = .skip u rest' ∧ w.length ≤ u.length := by
  rcases hw with (hw | hw) | hw
  · obtain ⟨hne, hall⟩ := mem_repeated_oneOf.1 hw
    cases w with
    | nil => exact absurd rfl hne
    | cons c w =>
      rw [List.all_cons, Bool.and_eq_true] at hall
      refine ⟨_, _, by rw [List.cons_append, scan, if_pos hall.1, takeRun], ?_⟩
      exact Nat.succ_le_succ (length_le_length_takeWhile hall.2 rest)
  · obtain ⟨body, hbody, rfl⟩ := mem_lineComment.1 hw
    exact ⟨_, _, rfl, Nat.succ_le_succ (Nat.succ_le_succ (length_le_length_takeWhile hbody rest))⟩
  · obtain ⟨body, hopen, rfl⟩ := mem_blockComment.1 hw
    refine ⟨'/' :: '*' :: (body ++ ['*', '/']), rest, ?_, Nat.le_refl _⟩
    have htext : '/' :: '*' :: body ++ ['*', '/'] ++ rest =
      '/' :: '*' :: (body ++ '*' :: '/' :: rest) := by simp
    rw [htext, scan_block hopen]

theorem isIdent_append {cs ds : List Char} (hcs : isIdent cs = true)
    (hds : ds.all isIdentChar = true) : isIdent (cs ++ ds) = true := by
  cases cs with
  | nil => cases hcs
  | cons c cs =>
    rw [isIdent, Bool.and_eq_true] at hcs
    rw [List.cons_append, isIdent, List.all_append, hcs.1, hcs.2, hds, Bool.and_self, Bool.and_self]

theorem isInt_append {cs ds : List Char} (hcs : isInt cs = true) (hds : ds.all isDigit = true) :
    isInt (cs ++ ds) = true := by
  obtain ⟨sign, hsign, digits, hdigits, rfl⟩ := Language.mem_mul.1 (mem_integer.2 hcs)
  obtain ⟨hne, hall⟩ := mem_repeated_oneOf.1 hdigits
  have hmore : digits ++ ds ∈ repeated (oneOf isDigit) :=
    mem_repeated_oneOf.2 ⟨List.append_ne_nil_of_left_ne_nil hne ds, by
      rw [List.all_append, hall, hds, Bool.and_self]⟩
  rw [List.append_assoc]
  exact mem_integer.1 (Language.append_mem_mul hsign hmore)

/-- A token may go on in what follows its text, but then it is a token of the same kind up to where
it ends. -/
theorem exists_stopsAt {t : Token} (ht : t.WellFormed = true) (rest : List Char) :
    ∃ (t' : Token) (rest' : List Char), t'.WellFormed = true ∧ t'.stopsAt rest' = true ∧
      t.text.toList ++ rest = t'.text.toList ++ rest' ∧
        t.text.toList.length ≤ t'.text.toList.length := by
  have hstops : ∀ p : Char → Bool, (rest.dropWhile p).head?.all (!p ·) = true := by
    intro p
    have hnot := List.head?_dropWhile_not p rest
    cases hhead : (rest.dropWhile p).head? with
    | none => rfl
    | some c =>
      rw [hhead] at hnot
      simpa using hnot
  cases t with
  | punct p => exact ⟨.punct p, rest, ht, rfl, rfl, Nat.le_refl _⟩
  | ident text =>
    refine ⟨.ident (String.ofList (text.toList ++ rest.takeWhile isIdentChar)),
      rest.dropWhile isIdentChar, ?_, hstops isIdentChar, ?_, ?_⟩
    · simpa [Token.WellFormed] using isIdent_append ht List.all_takeWhile
    · simp [Token.text]
    · simp [Token.text]
  | int text =>
    refine ⟨.int (String.ofList (text.toList ++ rest.takeWhile isDigit)),
      rest.dropWhile isDigit, ?_, hstops isDigit, ?_, ?_⟩
    · simpa [Token.WellFormed] using isInt_append ht List.all_takeWhile
    · simp [Token.text]
    · simp [Token.text]

/-- Where the text of a token fits, a token is found, and not a shorter one. -/
theorem exists_scan_token {t : Token} (ht : t.WellFormed = true) (rest : List Char) :
    ∃ t' rest', scan (t.text.toList ++ rest) = .token t' t'.text.toList rest' ∧
      t'.WellFormed = true ∧
      t.text.toList.length ≤ t'.text.toList.length := by
  obtain ⟨t', rest', ht', hstops, heq, hlen⟩ := exists_stopsAt ht rest
  exact ⟨t', rest', heq ▸ scan_text_append ht' hstops, ht', hlen⟩

theorem exists_taken {w cs : List Char} (hw : w ∈ skipped + words) (hcs : w <+: cs) :
    ∃ u, (scan cs).taken? = some u ∧ w.length ≤ u.length := by
  obtain ⟨rest, rfl⟩ := hcs
  rcases hw with hw | ⟨t, ht, rfl⟩
  · obtain ⟨u, rest', hscan, hlen⟩ := exists_scan_skip hw rest
    exact ⟨u, by rw [hscan, Scan.taken?], hlen⟩
  · obtain ⟨t', rest', hscan, -, hlen⟩ := exists_scan_token (t.text_mem_pattern_iff.1 ht) rest
    exact ⟨t'.text.toList, by rw [hscan, Scan.taken?], hlen⟩

theorem longest_of_taken {u cs : List Char} (h : (scan cs).taken? = some u) : Longest u cs := by
  intro w hw hcs
  obtain ⟨u', hu', hlen⟩ := exists_taken hw hcs
  obtain rfl : u' = u := Option.some.inj (hu'.symm.trans h)
  exact hlen

theorem unmatched_of_taken {cs : List Char} (h : (scan cs).taken? = none) : Unmatched cs := by
  intro w hw hcs
  obtain ⟨u, hu, -⟩ := exists_taken hw hcs
  cases h.symm.trans hu

/-- The text of a comment that closes ends at the first place where it can. -/
theorem exists_body_of_closeComment {cs text rest : List Char}
    (h : closeComment cs = some (text, rest)) :
    ∃ body, ¬ ['*', '/'] <:+: body ∧ text = body ++ ['*', '/'] := by
  induction cs using closeComment.induct generalizing text with
  | case1 cs =>
    cases h
    exact ⟨[], by simp, rfl⟩
  | case2 c cs hopen ih =>
    rw [closeComment.eq_2 c cs hopen] at h
    obtain ⟨⟨text', rest'⟩, hclose, heq⟩ := Option.map_eq_some_iff.1 h
    cases heq
    obtain ⟨body, hbody, rfl⟩ := ih hclose
    refine ⟨c :: body, ?_, rfl⟩
    rw [infix_closing_cons]
    rintro (⟨hstar, hslash⟩ | hinfix)
    · cases body with
      | nil => cases hslash
      | cons d body =>
        obtain rfl : d = '/' := by simpa using hslash
        exact hopen _ hstar (append_of_closeComment hclose).symm
    · exact hbody hinfix
  | case3 => cases h

theorem offending_cons {c : Char} (hc : c ≠ '/') (cs : List Char) : offending (c :: cs) = [c] := by
  rw [offending, if_neg]
  · rfl
  · rw [List.cons_prefix_cons]
    exact fun h => hc h.1.symm

/-- What is skipped fits a pattern, a token comes with its text, and a scan that is stuck shows what
is wrong. -/
def Scan.Fits (cs : List Char) : Scan → Prop
  | .done => cs = []
  | .skip text _ => text ∈ skipped
  | .token t text _ => text = t.text.toList
  | .stuck text => cs ≠ [] ∧ text = offending cs

theorem fits_scanComment (cs : List Char) : (scanComment cs).Fits ('/' :: cs) := by
  rw [scanComment.eq_def]
  split
  next cs => exact .inl (.inr (mem_lineComment.2 ⟨_, List.all_takeWhile, rfl⟩))
  next cs =>
    cases hclose : closeComment cs with
    | none => exact ⟨List.cons_ne_nil _ _, (if_pos ⟨cs, rfl⟩).symm⟩
    | some r =>
      obtain ⟨body, hbody, htext⟩ := exists_body_of_closeComment hclose
      exact .inr (mem_blockComment.2 ⟨body, hbody, by rw [htext]; rfl⟩)
  next cs hline hblock =>
    refine ⟨List.cons_ne_nil _ _, (if_neg ?_).symm⟩
    rintro ⟨rest, heq⟩
    exact hblock rest (List.cons.inj heq).2.symm

theorem fits_scanSign (cs : List Char) : (scanSign cs).Fits ('-' :: cs) := by
  have hstuck : Scan.Fits ('-' :: cs) (.stuck ['-']) :=
    ⟨List.cons_ne_nil _ _, (offending_cons (by decide) cs).symm⟩
  cases cs with
  | nil => exact hstuck
  | cons c cs =>
    rw [scanSign, takeRun]
    split_ifs
    · simp [Scan.Fits, Token.text]
    · exact hstuck

theorem fits_scanColon (cs : List Char) : (scanColon cs).Fits (':' :: cs) := by
  rw [scanColon.eq_def]
  split
  next => rfl
  next cs _ => exact ⟨List.cons_ne_nil _ _, (offending_cons (by decide) cs).symm⟩

theorem text_of_punct? {c : Char} {p : Punct} (h : punct? c = some p) : [c] = p.text.toList := by
  unfold punct? at h
  split at h <;> cases h <;> rfl

theorem fits_scan (cs : List Char) : (scan cs).Fits cs := by
  cases cs with
  | nil => rfl
  | cons c cs =>
    simp only [scan, takeRun]
    split_ifs with hblank hstart hdigit hslash hminus hcolon
    · exact .inl (.inl (mem_repeated_oneOf.2 ⟨List.cons_ne_nil _ _, by simp [hblank]⟩))
    · simp [Scan.Fits, Token.text]
    · simp [Scan.Fits, Token.text]
    · exact hslash ▸ fits_scanComment cs
    · exact hminus ▸ fits_scanSign cs
    · exact hcolon ▸ fits_scanColon cs
    · cases hpunct : punct? c with
      | none => exact ⟨List.cons_ne_nil _ _, (offending_cons hslash cs).symm⟩
      | some p => exact text_of_punct? hpunct

/-- A scan skips just the text between tokens that is the longest match. -/
theorem scan_eq_skip_iff {cs u rest : List Char} :
    scan cs = .skip u rest ↔ cs = u ++ rest ∧ u ∈ skipped ∧ Longest u cs := by
  have hfits := fits_scan cs
  have htiles := tiles_scan cs
  constructor
  · intro h
    rw [h] at hfits htiles
    exact ⟨htiles.2.symm, hfits, longest_of_taken (by rw [h, Scan.taken?])⟩
  · rintro ⟨rfl, hu, hlongest⟩
    obtain ⟨u', rest', hscan, hlen⟩ := exists_scan_skip hu rest
    rw [hscan] at hfits htiles
    have hlen' := hlongest u' (.inl hfits) ⟨rest', htiles.2⟩
    obtain ⟨rfl, rfl⟩ := List.append_inj htiles.2 (Nat.le_antisymm hlen' hlen)
    exact hscan

theorem Token.eq_of_text {t t' : Token} (ht : t.WellFormed = true) (ht' : t'.WellFormed = true)
    (h : t.text = t'.text) : t = t' := by
  have hnil : ∀ t : Token, t.stopsAt [] = true := by
    intro t
    cases t <;> rfl
  have hscan := scan_text_append ht (hnil t)
  rw [h, scan_text_append ht' (hnil t')] at hscan
  cases hscan
  rfl

/-- A scan finds just the token whose text is the longest match. -/
theorem scan_eq_token_iff {cs u rest : List Char} {t : Token} :
    scan cs = .token t u rest ↔ cs = u ++ rest ∧ u = t.text.toList ∧ u ∈ t.pattern ∧
      Longest u cs := by
  have hfits := fits_scan cs
  have htiles := tiles_scan cs
  constructor
  · intro h
    rw [h] at hfits htiles
    refine ⟨htiles.2.symm, hfits, ?_, longest_of_taken (by rw [h, Scan.taken?])⟩
    rw [show u = t.text.toList from hfits]
    exact t.text_mem_pattern_iff.2 (wellFormed_of_scan h)
  · rintro ⟨rfl, rfl, ht, hlongest⟩
    have hwf := t.text_mem_pattern_iff.1 ht
    obtain ⟨t', rest', hscan, hwf', hlen⟩ := exists_scan_token hwf rest
    rw [hscan] at htiles
    have hlen' :=
      hlongest t'.text.toList (.inr ⟨t', t'.text_mem_pattern_iff.2 hwf', rfl⟩) ⟨rest', htiles.2⟩
    obtain ⟨htext, rfl⟩ := List.append_inj htiles.2 (Nat.le_antisymm hlen' hlen)
    obtain rfl := Token.eq_of_text hwf' hwf (String.toList_inj.1 htext)
    exact hscan

/-! ## Tilings -/

/-- `Tiling before cs ls rest`: a text that has `before` in front goes on with `cs`, which is cut
into blanks, comments and the lexemes `ls`, each the longest match where it stands, up to `rest`. -/
inductive Tiling : List Char → List Char → List Lexeme → List Char → Prop where
  | stop (before rest : List Char) : Tiling before rest [] rest
  | skip {before u cs rest : List Char} {ls : List Lexeme} (hu : u ∈ skipped)
      (hlongest : Longest u (u ++ cs))
      (htiling : Tiling (before ++ u) cs ls rest) : Tiling before (u ++ cs) ls rest
  | token {before cs rest : List Char} {t : Token} {ls : List Lexeme}
      (ht : t.text.toList ∈ t.pattern) (hlongest : Longest t.text.toList (t.text.toList ++ cs))
      (htiling : Tiling (before ++ t.text.toList) cs ls rest) :
      Tiling before (t.text.toList ++ cs) (t.lexemeAfter before :: ls) rest

/-- Every text is tiled as far as patterns fit. -/
theorem exists_tiling (before cs : List Char) :
    ∃ ls rest, Tiling before cs ls rest ∧ Unmatched rest := by
  have htiles := tiles_scan cs
  cases hscan : scan cs with
  | done => exact ⟨[], cs, .stop before cs, unmatched_of_taken (by rw [hscan, Scan.taken?])⟩
  | stuck text => exact ⟨[], cs, .stop before cs, unmatched_of_taken (by rw [hscan, Scan.taken?])⟩
  | skip u cs' =>
    rw [hscan] at htiles
    have hlt := length_lt_of_tiles htiles
    obtain ⟨rfl, hu, hlongest⟩ := scan_eq_skip_iff.1 hscan
    obtain ⟨ls, rest, htiling, hrest⟩ := exists_tiling (before ++ u) cs'
    exact ⟨ls, rest, .skip hu hlongest htiling, hrest⟩
  | token t u cs' =>
    rw [hscan] at htiles
    have hlt := length_lt_of_tiles htiles
    obtain ⟨rfl, rfl, ht, hlongest⟩ := scan_eq_token_iff.1 hscan
    obtain ⟨ls, rest, htiling, hrest⟩ := exists_tiling (before ++ t.text.toList) cs'
    exact ⟨t.lexemeAfter before :: ls, rest, .token ht hlongest htiling, hrest⟩
termination_by cs.length

theorem lexAt_of_unmatched {cs : List Char} (hcs : Unmatched cs) (hne : cs ≠ []) (pos : Position) :
    lexAt pos cs = .error ⟨pos.line, String.ofList (offending cs)⟩ := by
  have hfits := fits_scan cs
  cases hscan : scan cs with
  | done =>
    rw [hscan] at hfits
    exact absurd hfits hne
  | skip u rest =>
    obtain ⟨rfl, hu, -⟩ := scan_eq_skip_iff.1 hscan
    exact absurd ⟨rest, rfl⟩ (hcs u (.inl hu))
  | token t u rest =>
    obtain ⟨rfl, rfl, ht, -⟩ := scan_eq_token_iff.1 hscan
    exact absurd ⟨rest, rfl⟩ (hcs _ (.inr ⟨t, ht, rfl⟩))
  | stuck text =>
    rw [hscan] at hfits
    obtain ⟨-, rfl⟩ := hfits
    rw [lexAt, lexFrom, hscan]

namespace Tiling

variable {before cs rest : List Char} {ls : List Lexeme}

/-- The lexer goes along a tiling. -/
theorem exists_lexAt (h : Tiling before cs ls rest) :
    ∃ tiled, cs = tiled ++ rest ∧ lexAt (({} : Position).advance before) cs =
      (lexAt (({} : Position).advance (before ++ tiled)) rest).map (ls ++ ·) := by
  induction h with
  | stop before rest =>
    refine ⟨[], rfl, ?_⟩
    rw [List.append_nil]
    cases lexAt (({} : Position).advance before) rest <;> rfl
  | @skip before u cs rest ls hu hlongest htiling ih =>
    obtain ⟨tiled, rfl, hlex⟩ := ih
    refine ⟨u ++ tiled, (List.append_assoc ..).symm, ?_⟩
    rw [lexAt_of_skip (scan_eq_skip_iff.2 ⟨rfl, hu, hlongest⟩), ← Position.advance_append, hlex,
      List.append_assoc]
  | @token before cs rest t ls ht hlongest htiling ih =>
    obtain ⟨tiled, rfl, hlex⟩ := ih
    refine ⟨t.text.toList ++ tiled, (List.append_assoc ..).symm, ?_⟩
    rw [lexAt_of_token (scan_eq_token_iff.2 ⟨rfl, rfl, ht, hlongest⟩), ← Position.advance_append,
      hlex, t.mk_advance_eq, List.append_assoc]
    cases lexAt (({} : Position).advance (before ++ (t.text.toList ++ tiled))) rest <;> rfl

/-- The text of each lexeme, and what stands before and after it. -/
theorem exists_split (h : Tiling before cs ls rest) {l : Lexeme} (hl : l ∈ ls) :
    ∃ front back, cs = front ++ (l.token.text.toList ++ back) ∧
      l = l.token.lexemeAfter (before ++ front) ∧
      l.token.text.toList ∈ l.token.pattern ∧
        Longest l.token.text.toList (l.token.text.toList ++ back) := by
  induction h with
  | stop before rest => cases hl
  | @skip before u cs rest ls hu hlongest htiling ih =>
    obtain ⟨front, back, rfl, hlexeme, hfound⟩ := ih hl
    exact ⟨u ++ front, back, by simp, by rwa [← List.append_assoc], hfound⟩
  | @token before cs rest t ls ht hlongest htiling ih =>
    rcases List.mem_cons.1 hl with rfl | hl
    · exact ⟨[], cs, rfl, by rw [List.append_nil]; rfl, ht, hlongest⟩
    · obtain ⟨front, back, rfl, hlexeme, hfound⟩ := ih hl
      exact ⟨t.text.toList ++ front, back, by simp, by rwa [← List.append_assoc], hfound⟩

/-- A lexeme ends before the next one starts. -/
theorem pairwise (h : Tiling before cs ls rest) : ls.Pairwise fun l l' => l.stop ≤ l'.start := by
  induction h with
  | stop before rest => exact .nil
  | skip hu hlongest htiling ih => exact ih
  | @token before cs rest t ls ht hlongest htiling ih =>
    refine List.pairwise_cons.2 ⟨?_, ih⟩
    intro l hl
    obtain ⟨front, -, -, hlexeme, -⟩ := htiling.exists_split hl
    have hsize : (String.ofList (before ++ t.text.toList ++ front)).utf8ByteSize =
        (String.ofList (before ++ t.text.toList)).utf8ByteSize +
        (String.ofList front).utf8ByteSize := by
      rw [String.ofList_append, String.utf8ByteSize_append]
    rw [hlexeme]
    exact (Nat.le_add_right _ _).trans_eq hsize.symm

end Tiling

/-! ## Whole texts -/

/-- A lexeme occupies the bytes of its text, which is the longest match there. -/
def Lexeme.StandsIn (text : String) (l : Lexeme) : Prop :=
  ∃ before after, text = before ++ l.token.text ++ after ∧ l.start = before.utf8ByteSize ∧
    l.stop = (before ++ l.token.text).utf8ByteSize ∧ l.line = 1 + before.toList.count '\n' ∧
    l.token.text.toList ∈ l.token.pattern ∧
    Longest l.token.text.toList (l.token.text ++ after).toList

/-- The lexemes `ls` tile a text up to `rest`. -/
structure Tiled (text : String) (ls : List Lexeme) (rest : List Char) : Prop where
  tiling : Tiling [] text.toList ls rest
  standsIn : ∀ l ∈ ls, l.StandsIn text
  nonempty : ∀ l ∈ ls, l.start < l.stop
  apart : ls.Pairwise fun l l' => l.stop ≤ l'.start

theorem Tiling.standsIn {text : String} {ls : List Lexeme} {rest : List Char}
    (h : Tiling [] text.toList ls rest) {l : Lexeme} (hl : l ∈ ls) : l.StandsIn text := by
  obtain ⟨front, back, htext, hlexeme, hpattern, hlongest⟩ := h.exists_split hl
  refine ⟨String.ofList front, String.ofList back, ?_, ?_, ?_, ?_, hpattern, ?_⟩
  · rw [← String.toList_inj, htext]
    simp
  · rw [hlexeme]
    rfl
  · rw [hlexeme]
    simp [Token.lexemeAfter]
  · rw [hlexeme]
    simp [Token.lexemeAfter]
  · simpa using hlongest

theorem Lexeme.StandsIn.start_lt_stop {text : String} {l : Lexeme} (h : l.StandsIn text) :
    l.start < l.stop := by
  obtain ⟨before, after, -, hstart, hstop, -, hpattern, -⟩ := h
  have hne := text_ne_nil (l.token.text_mem_pattern_iff.1 hpattern)
  have hsize : l.token.text.utf8ByteSize ≠ 0 := by
    rw [Ne, String.utf8ByteSize_eq_zero_iff, ← String.toList_inj]
    exact hne
  rw [hstart, hstop, String.utf8ByteSize_append]
  omega

theorem Tiling.tiled {text : String} {ls : List Lexeme} {rest : List Char}
    (h : Tiling [] text.toList ls rest) : Tiled text ls rest where
  tiling := h
  standsIn _ hl := h.standsIn hl
  nonempty _ hl := (h.standsIn hl).start_lt_stop
  apart := h.pairwise

theorem Tiling.lex_eq_ok {text : String} {ls : List Lexeme} (h : Tiling [] text.toList ls []) :
    lex text = .ok ls := by
  obtain ⟨tiled, -, hlex⟩ := h.exists_lexAt
  exact hlex.trans (congrArg Except.ok (List.append_nil ls))

theorem Tiling.lex_eq_error {text : String} {ls : List Lexeme} {tiled rest : List Char}
    (h : Tiling [] text.toList ls rest) (htext : text.toList = tiled ++ rest) (hne : rest ≠ [])
    (hrest : Unmatched rest) :
    lex text = .error ⟨1 + tiled.count '\n', String.ofList (offending rest)⟩ := by
  obtain ⟨tiled', htext', hlex⟩ := h.exists_lexAt
  obtain rfl : tiled = tiled' := List.append_cancel_right (htext.symm.trans htext')
  rw [lexAt_of_unmatched hrest hne, List.nil_append, Position.advance_eq tiled] at hlex
  exact hlex

/-- A text is tiled by blanks, comments and tokens. Each is the longest match where it stands. The
lexemes are the tokens with the bytes that they occupy. If the tiling ends before the text, because
nothing fits there, then the error is on the line of that place. It shows all that is left if a
comment starts there, and one character if not. -/
theorem lex_tiles_text (text : String) :
    (∀ ls, lex text = .ok ls ↔ Tiled text ls []) ∧
      ∀ e, lex text = .error e ↔ ∃ ls tiled rest, Tiled text ls rest ∧
        text.toList = tiled ++ rest ∧ rest ≠ [] ∧
        Unmatched rest ∧ e = ⟨1 + tiled.count '\n', String.ofList (offending rest)⟩ := by
  obtain ⟨ls, rest, htiling, hrest⟩ := exists_tiling [] text.toList
  obtain ⟨tiled, htext, -⟩ := htiling.exists_lexAt
  refine ⟨fun ls' => ⟨fun h => ?_, fun h => h.tiling.lex_eq_ok⟩, fun e => ⟨fun h => ?_, ?_⟩⟩
  · by_cases hne : rest = []
    · subst hne
      cases htiling.lex_eq_ok.symm.trans h
      exact htiling.tiled
    · cases (htiling.lex_eq_error htext hne hrest).symm.trans h
  · by_cases hne : rest = []
    · subst hne
      cases htiling.lex_eq_ok.symm.trans h
    · cases (htiling.lex_eq_error htext hne hrest).symm.trans h
      exact ⟨ls, tiled, rest, htiling.tiled, htext, hne, hrest, rfl⟩
  · rintro ⟨ls', tiled', rest', h, htext', hne, hrest', rfl⟩
    exact h.tiling.lex_eq_error htext' hne hrest'

end PointsTo.Text
