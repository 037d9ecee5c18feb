import Mathlib.Data.List.TakeWhile
import Mathlib.Tactic.SplitIfs
import PointsTo.Proofs.Tables
import PointsTo.Text.Lexer

/-!
# Tokens and their texts

The lexer finds only tokens whose texts have the form of their kind (`Token.WellFormed`). Conversely
it finds such a token where its text stands and does not go on (`Token.stopsAt`,
`scan_text_append`). The scans of a text tile it, so that their number is no restriction
(`lexFrom_eq_of_lt`) and the lexemes from a place on, `lexAt`, are told by one scan there and the
lexemes after it. In particular, tokens that are written one after the other with a blank after each
are what the lexer finds in that text (`lex_spell`).
-/

namespace PointsTo.Text

/-! ## Well-formed tokens -/

def isIdent : List Char → Bool
  | c :: cs => isIdentStart c && cs.all isIdentChar
  | [] => false

def isDigits (cs : List Char) : Bool := !cs.isEmpty && cs.all isDigit

theorem isDigits_cons (c : Char) (cs : List Char) :
    isDigits (c :: cs) = (isDigit c && cs.all isDigit) := by
  simp [isDigits]

/-- Digits, a minus sign may stand before them. -/
def isInt : List Char → Bool
  | '-' :: cs => isDigits cs
  | cs => isDigits cs

def Token.WellFormed : Token → Bool
  | .ident text => isIdent text.toList
  | .int text => isInt text.toList
  | .punct _ => true

theorem isBlank_eq_false_of_isIdentChar {c : Char} (h : isIdentChar c = true) :
    isBlank c = false := by
  refine Bool.eq_false_iff.2 fun hblank => ?_
  simp only [isBlank, Bool.or_eq_true, decide_eq_true_eq] at hblank
  rcases hblank with (((rfl | rfl) | rfl) | rfl) | rfl <;> cases h

theorem isIdentChar_of_isIdentStart {c : Char} (h : isIdentStart c = true) :
    isIdentChar c = true := by
  rw [isIdentChar, h, Bool.true_or]

theorem isIdentChar_of_isDigit {c : Char} (h : isDigit c = true) : isIdentChar c = true := by
  rw [isIdentChar, h, Bool.or_true]

theorem isIdentStart_eq_false_of_isDigit {c : Char} (h : isDigit c = true) :
    isIdentStart c = false := by
  simp only [isDigit, Bool.and_eq_true, decide_eq_true_eq] at h
  have hnine : c.toNat ≤ '9'.toNat := h.2
  have hA : ¬ 'A' ≤ c := fun hle => absurd (Nat.le_trans hle hnine) (by decide)
  have ha : ¬ 'a' ≤ c := fun hle => absurd (Nat.le_trans hle hnine) (by decide)
  have hunder : c ≠ '_' := by rintro rfl; exact absurd hnine (by decide)
  have hdollar : c ≠ '$' := by rintro rfl; exact absurd h.1 (by decide)
  simp [isIdentStart, hA, ha, hunder, hdollar]

/-! ## What the lexer finds -/

theorem isInt_of_isDigit {c : Char} {cs : List Char} (hc : isDigit c = true)
    (hcs : cs.all isDigit = true) : isInt (c :: cs) = true := by
  have hsign : c ≠ '-' := by rintro rfl; cases hc
  simp [isInt, isDigits, hsign, hc, hcs]

theorem wellFormed_of_scanSign {cs text rest : List Char} {t : Token}
    (h : scanSign cs = .token t text rest) : t.WellFormed = true := by
  cases cs with
  | nil => cases h
  | cons c cs =>
    simp only [scanSign, takeRun] at h
    split at h
    next hdigit =>
      cases h
      simp [Token.WellFormed, isInt, isDigits, hdigit]
    next => cases h

theorem scanComment_ne_token {cs text rest : List Char} {t : Token} :
    scanComment cs ≠ .token t text rest := by
  intro h
  rw [scanComment.eq_def] at h
  split at h
  next => cases h
  next => split at h <;> cases h
  next => cases h

theorem wellFormed_of_scan {cs text rest : List Char} {t : Token}
    (h : scan cs = .token t text rest) :
    t.WellFormed = true := by
  cases cs with
  | nil => cases h
  | cons c cs =>
    simp only [scan, takeRun] at h
    split_ifs at h with hblank hstart hdigit hslash hminus hcolon
    · cases h
      simp [Token.WellFormed, isIdent, hstart]
    · cases h
      simpa [Token.WellFormed] using isInt_of_isDigit hdigit List.all_takeWhile
    · exact absurd h scanComment_ne_token
    · exact wellFormed_of_scanSign h
    · rw [scanColon.eq_def] at h
      split at h <;> cases h
      rfl
    · split at h <;> cases h
      rfl

theorem wellFormed_of_lexFrom {n : Nat} {pos : Position} {cs : List Char} {ls : List Lexeme}
    (h : lexFrom n pos cs = .ok ls) : ∀ l ∈ ls, l.token.WellFormed = true := by
  induction n generalizing pos cs ls with
  | zero =>
    cases h
    exact fun l hl => absurd hl List.not_mem_nil
  | succ n ih =>
    rw [lexFrom] at h
    split at h
    next => cases h; exact fun l hl => absurd hl List.not_mem_nil
    next => exact ih h
    next hscan =>
      obtain ⟨ls', hls', heq⟩ := bind_eq_ok.1 h
      cases heq
      exact List.forall_mem_cons.2 ⟨wellFormed_of_scan hscan, ih hls'⟩
    next => cases h

/-! ## Texts of tokens -/

theorem takeWhile_append {p : Char → Bool} {cs rest : List Char} (hcs : cs.all p = true)
    (hrest : rest.head?.all (!p ·) = true) :
    (cs ++ rest).takeWhile p = cs ∧ (cs ++ rest).dropWhile p = rest := by
  have hall : ∀ x ∈ cs, p x = true := List.all_eq_true.1 hcs
  rw [List.takeWhile_append_of_pos hall, List.dropWhile_append_of_pos hall]
  cases rest with
  | nil => simp
  | cons x rest =>
    have hx : p x = false := by simpa using hrest
    simp [hx]

theorem takeRun_append {p : Char → Bool} {c : Char} {cs rest : List Char} (hcs : cs.all p = true)
    (hrest : rest.head?.all (!p ·) = true) : takeRun p c (cs ++ rest) = (c :: cs, rest) := by
  obtain ⟨htake, hdrop⟩ := takeWhile_append hcs hrest
  rw [takeRun, htake, hdrop]

theorem isDigit_eq_false_of_isIdentChar {c : Char} (h : isIdentChar c = false) :
    isDigit c = false := by
  rw [isIdentChar, Bool.or_eq_false_iff] at h
  exact h.2

/-- What follows the text of a token does not continue it. -/
def Token.stopsAt (rest : List Char) : Token → Bool
  | .ident _ => rest.head?.all (!isIdentChar ·)
  | .int _ => rest.head?.all (!isDigit ·)
  | .punct _ => true

theorem Token.stopsAt_cons {c : Char} (hc : isIdentChar c = false) (rest : List Char) (t : Token) :
    t.stopsAt (c :: rest) = true := by
  cases t with
  | ident text => simp [stopsAt, hc]
  | int text => simp [stopsAt, isDigit_eq_false_of_isIdentChar hc]
  | punct p => rfl

/-- At the text of a token the token is found, unless the text goes on. -/
theorem scan_text_append {t : Token} (ht : t.WellFormed = true) {rest : List Char}
    (hrest : t.stopsAt rest = true) :
    scan (t.text.toList ++ rest) = .token t t.text.toList rest := by
  cases t with
  | punct p => cases p <;> rfl
  | ident text =>
    rw [Token.WellFormed] at ht
    rw [Token.text, ← String.ofList_toList (s := text)]
    generalize text.toList = cs at ht
    rw [String.toList_ofList]
    cases cs with
    | nil => cases ht
    | cons c cs =>
      rw [isIdent, Bool.and_eq_true] at ht
      rw [List.cons_append, scan, isBlank_eq_false_of_isIdentChar
        (isIdentChar_of_isIdentStart ht.1), if_neg (by simp),
        if_pos ht.1, takeRun_append ht.2 hrest]
  | int text =>
    rw [Token.WellFormed] at ht
    rw [Token.text, ← String.ofList_toList (s := text)]
    generalize text.toList = cs at ht
    rw [String.toList_ofList]
    rw [isInt.eq_def] at ht
    split at ht
    next cs =>
      cases cs with
      | nil => cases ht
      | cons c cs =>
        rw [isDigits_cons, Bool.and_eq_true] at ht
        rw [List.cons_append, List.cons_append]
        change scanSign (c :: (cs ++ rest)) = _
        rw [scanSign, if_pos ht.1, takeRun_append ht.2 hrest]
    next =>
      cases cs with
      | nil => cases ht
      | cons c cs =>
        rw [isDigits_cons, Bool.and_eq_true] at ht
        rw [List.cons_append, scan, isBlank_eq_false_of_isIdentChar (isIdentChar_of_isDigit ht.1),
          if_neg (by simp),
          isIdentStart_eq_false_of_isDigit ht.1, if_neg (by simp), if_pos ht.1,
          takeRun_append ht.2 hrest]

/-! ## One scan after the other -/

/-- What is taken is the front of the text, and not empty. -/
def Scan.Tiles (cs : List Char) : Scan → Prop
  | .skip text rest => text ≠ [] ∧ text ++ rest = cs
  | .token _ text rest => text ≠ [] ∧ text ++ rest = cs
  | .done => True
  | .stuck _ => True

theorem append_of_closeComment {cs body rest : List Char}
    (h : closeComment cs = some (body, rest)) :
    body ++ rest = cs := by
  induction cs using closeComment.induct generalizing body with
  | case1 cs =>
    cases h
    rfl
  | case2 c cs hopen ih =>
    rw [closeComment.eq_2 c cs hopen] at h
    obtain ⟨⟨body', rest'⟩, hclose, heq⟩ := Option.map_eq_some_iff.1 h
    cases heq
    rw [List.cons_append, ih hclose]
  | case3 => cases h

theorem tiles_scanComment (cs : List Char) : (scanComment cs).Tiles ('/' :: cs) := by
  rw [scanComment.eq_def]
  split
  next => exact ⟨by simp, by simp⟩
  next cs =>
    cases hclose : closeComment cs with
    | none => trivial
    | some r => exact ⟨by simp, by simp [append_of_closeComment hclose]⟩
  next => trivial

theorem tiles_scanSign (cs : List Char) : (scanSign cs).Tiles ('-' :: cs) := by
  cases cs with
  | nil => trivial
  | cons c cs =>
    rw [scanSign, takeRun]
    split_ifs
    · exact ⟨by simp, by simp⟩
    · trivial

theorem tiles_scanColon (cs : List Char) : (scanColon cs).Tiles (':' :: cs) := by
  rw [scanColon.eq_def]
  split
  next => exact ⟨by simp, by simp⟩
  next => trivial

theorem tiles_scan (cs : List Char) : (scan cs).Tiles cs := by
  cases cs with
  | nil => trivial
  | cons c cs =>
    simp only [scan, takeRun]
    split_ifs with hblank hstart hdigit hslash hminus hcolon
    · exact ⟨by simp, by simp⟩
    · exact ⟨by simp, by simp⟩
    · exact ⟨by simp, by simp⟩
    · exact hslash ▸ tiles_scanComment cs
    · exact hminus ▸ tiles_scanSign cs
    · exact hcolon ▸ tiles_scanColon cs
    · cases punct? c with
      | none => trivial
      | some p => exact ⟨by simp, by simp⟩

theorem text_ne_nil {t : Token} (ht : t.WellFormed = true) : t.text.toList ≠ [] := by
  have hstops : t.stopsAt [] = true := by cases t <;> rfl
  have htiles := tiles_scan (t.text.toList ++ [])
  rw [scan_text_append ht hstops] at htiles
  exact htiles.1

theorem length_lt_of_tiles {cs text rest : List Char} (h : text ≠ [] ∧ text ++ rest = cs) :
    rest.length < cs.length := by
  have hpos := List.length_pos_of_ne_nil h.1
  rw [← h.2, List.length_append]
  omega

/-- More scans than there are characters do not help. -/
theorem lexFrom_eq_of_lt {n m : Nat} {cs : List Char} (hn : cs.length < n) (hm : cs.length < m)
    (pos : Position) : lexFrom n pos cs = lexFrom m pos cs := by
  induction n generalizing m cs pos with
  | zero => exact absurd hn (Nat.not_lt_zero _)
  | succ n ih =>
    obtain ⟨m, rfl⟩ : ∃ k, m = k + 1 := ⟨m - 1, by omega⟩
    have htiles := tiles_scan cs
    rw [lexFrom, lexFrom]
    cases hscan : scan cs with
    | done => rfl
    | stuck text => rfl
    | skip text rest =>
      rw [hscan] at htiles
      have hlt := length_lt_of_tiles htiles
      exact ih (by omega) (by omega) _
    | token t text rest =>
      rw [hscan] at htiles
      have hlt := length_lt_of_tiles htiles
      have hrest : lexFrom n (pos.advance text) rest = lexFrom m (pos.advance text) rest :=
        ih (by omega) (by omega) _
      simp only [hrest]

/-- The lexemes of a text that stands at a place. -/
def lexAt (pos : Position) (cs : List Char) : Except LexError (List Lexeme) :=
  lexFrom (cs.length + 1) pos cs

section Scans

variable {pos : Position} {cs text rest : List Char} {t : Token}

theorem lexAt_of_skip (h : scan cs = .skip text rest) :
    lexAt pos cs = lexAt (pos.advance text) rest := by
  have htiles := tiles_scan cs
  rw [h] at htiles
  rw [lexAt, lexFrom, h]
  exact lexFrom_eq_of_lt (length_lt_of_tiles htiles) (Nat.lt_succ_self _) _

theorem lexAt_of_token (h : scan cs = .token t text rest) :
    lexAt pos cs =
      (lexAt (pos.advance text) rest).map
        (⟨t, pos.offset, (pos.advance text).offset, pos.line⟩ :: ·) := by
  have htiles := tiles_scan cs
  rw [h] at htiles
  have hrest : lexFrom cs.length (pos.advance text) rest = lexAt (pos.advance text) rest :=
    lexFrom_eq_of_lt (length_lt_of_tiles htiles) (Nat.lt_succ_self _) _
  rw [lexAt, lexFrom, h]
  simp only [hrest]
  cases lexAt (pos.advance text) rest <;> rfl

theorem lexAt_text_append (ht : t.WellFormed = true) (hrest : t.stopsAt rest = true) :
    lexAt pos (t.text.toList ++ rest) = (lexAt (pos.advance t.text.toList) rest).map
      (⟨t, pos.offset, (pos.advance t.text.toList).offset, pos.line⟩ :: ·) :=
  lexAt_of_token (scan_text_append ht hrest)

/-- Blanks are skipped all at once, which is the same as one by one. -/
theorem lexAt_blank {c : Char} (hc : isBlank c = true) (cs : List Char) :
    lexAt pos (c :: cs) = lexAt (pos.step c) cs := by
  have hscan : scan (c :: cs) = .skip (c :: cs.takeWhile isBlank) (cs.dropWhile isBlank) := by
    rw [scan, if_pos hc, takeRun]
  rw [lexAt_of_skip hscan]
  cases cs with
  | nil => rfl
  | cons x cs =>
    by_cases hx : isBlank x = true
    · have hscan' : scan (x :: cs) = .skip (x :: cs.takeWhile isBlank) (cs.dropWhile isBlank) := by
        rw [scan, if_pos hx, takeRun]
      rw [lexAt_of_skip hscan', List.takeWhile_cons_of_pos hx, List.dropWhile_cons_of_pos hx]
      rfl
    · rw [List.takeWhile_cons_of_neg hx, List.dropWhile_cons_of_neg hx]
      rfl

end Scans

/-! ## Tokens with a blank after each -/

/-- The tokens one after the other, with a blank after each. -/
def spellChars (ts : List Token) : List Char := ts.flatMap fun t => t.text.toList ++ [' ']

def spell (ts : List Token) : String := String.ofList (spellChars ts)

theorem spellChars_cons (t : Token) (ts : List Token) :
    spellChars (t :: ts) = t.text.toList ++ ' ' :: spellChars ts := by
  simp [spellChars]

theorem lexAt_spellChars {ts : List Token} (hts : ∀ t ∈ ts, t.WellFormed = true) (pos : Position) :
    ∃ ls, lexAt pos (spellChars ts) = .ok ls ∧ ls.map Lexeme.token = ts := by
  induction ts generalizing pos with
  | nil => exact ⟨[], rfl, rfl⟩
  | cons t ts ih =>
    obtain ⟨ht, hts⟩ := List.forall_mem_cons.1 hts
    obtain ⟨ls, hls, htokens⟩ := ih hts ((pos.advance t.text.toList).step ' ')
    refine ⟨⟨t, pos.offset, (pos.advance t.text.toList).offset, pos.line⟩ :: ls, ?_,
      congrArg (t :: ·) htokens⟩
    rw [spellChars_cons, lexAt_text_append ht (t.stopsAt_cons rfl _), lexAt_blank rfl, hls]
    rfl

theorem lex_spell {ts : List Token} (hts : ∀ t ∈ ts, t.WellFormed = true) :
    ∃ ls, lex (spell ts) = .ok ls ∧ ls.map Lexeme.token = ts := by
  rw [lex, spell, String.toList_ofList]
  exact lexAt_spellChars hts {}

end PointsTo.Text
