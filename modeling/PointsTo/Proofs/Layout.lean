import Mathlib.Data.List.Chain
import PointsTo.Proofs.Lexing

/-!
# Blanks and comments

Before, between and after its tokens a text may have blanks and comments, in any number and order.
Nothing has to stand between two tokens unless the text of the first one would go on with that of
the second. Whatever `Layout` is chosen, the lexer finds just these tokens (`Layout.lex_text`). Each
lexeme occupies the bytes of its token's text and is on the line that the newlines before it tell
(`Token.lexemeAfter`).
-/

namespace PointsTo.Text

/-! ## Skipped text -/

/-- A blank, a comment up to the end of its line, or a block comment. -/
inductive Space where
  | blank (c : Char) (hblank : isBlank c = true)
  | line (body : List Char) (stop : Char) (hbody : body.all (!isLineEnd ·) = true)
      (hstop : isLineEnd stop = true)
  | block (body : List Char) (hopen : ¬ ['*', '/'] <:+: body)

def Space.text : Space → List Char
  | .blank c _ => [c]
  | .line body stop _ _ => '/' :: '/' :: body ++ [stop]
  | .block body _ => '/' :: '*' :: body ++ ['*', '/']

theorem Position.advance_append (pos : Position) (cs ds : List Char) :
    pos.advance (cs ++ ds) = (pos.advance cs).advance ds := List.foldl_append

theorem isBlank_of_isLineEnd {c : Char} (h : isLineEnd c = true) : isBlank c = true := by
  simp only [isLineEnd, Bool.or_eq_true, decide_eq_true_eq] at h
  rcases h with rfl | rfl <;> rfl

/-- A line comment takes what is left of the line. -/
theorem scan_line {body rest : List Char} (hbody : body.all (!isLineEnd ·) = true)
    (hrest : rest.head?.all isLineEnd = true) :
    scan ('/' :: '/' :: (body ++ rest)) = .skip ('/' :: '/' :: body) rest := by
  obtain ⟨htake, hdrop⟩ := takeWhile_append hbody (by simpa using hrest)
  change Scan.skip ('/' :: '/' :: (body ++ rest).takeWhile (!isLineEnd ·))
    ((body ++ rest).dropWhile (!isLineEnd ·)) = _
  rw [htake, hdrop]

/-- A block comment ends at the first place where it can. -/
theorem closeComment_append {body : List Char} (hopen : ¬ ['*', '/'] <:+: body) (rest : List Char) :
    closeComment (body ++ '*' :: '/' :: rest) = some (body ++ ['*', '/'], rest) := by
  induction body with
  | nil => rfl
  | cons c body ih =>
    have hbody : closeComment (body ++ '*' :: '/' :: rest) = some (body ++ ['*', '/'], rest) :=
      ih fun hwithin => hopen (hwithin.trans (List.suffix_cons c body).isInfix)
    rw [List.cons_append, closeComment.eq_2, hbody]
    · rfl
    · rintro tail rfl htail
      cases body with
      | nil => cases htail
      | cons x body =>
        cases htail
        exact hopen ⟨[], body, rfl⟩

theorem scan_block {body : List Char} (hopen : ¬ ['*', '/'] <:+: body) (rest : List Char) :
    scan ('/' :: '*' :: (body ++ '*' :: '/' :: rest)) =
      .skip ('/' :: '*' :: (body ++ ['*', '/'])) rest := by
  change scanComment ('*' :: (body ++ '*' :: '/' :: rest)) = _
  rw [scanComment, closeComment_append hopen]

theorem lexAt_space (s : Space) (pos : Position) (cs : List Char) :
    lexAt pos (s.text ++ cs) = lexAt (pos.advance s.text) cs := by
  cases s with
  | blank c hblank => exact lexAt_blank hblank cs
  | line body stop hbody hstop =>
    have hscan : scan ('/' :: '/' :: (body ++ stop :: cs)) =
        .skip ('/' :: '/' :: body) (stop :: cs) :=
      scan_line hbody (by simpa using hstop)
    have htext : Space.text (.line body stop hbody hstop) ++ cs =
        '/' :: '/' :: (body ++ stop :: cs) := by
      simp [Space.text]
    rw [htext, lexAt_of_skip hscan, lexAt_blank (isBlank_of_isLineEnd hstop), Space.text,
      Position.advance_append]
    rfl
  | block body hopen =>
    have htext : Space.text (.block body hopen) ++ cs =
        '/' :: '*' :: (body ++ '*' :: '/' :: cs) := by
      simp [Space.text]
    rw [htext, lexAt_of_skip (scan_block hopen cs)]
    rfl

/-- The text of some blanks and comments. -/
def gap (spaces : List Space) : List Char := spaces.flatMap Space.text

theorem lexAt_gap (spaces : List Space) (pos : Position) (cs : List Char) :
    lexAt pos (gap spaces ++ cs) = lexAt (pos.advance (gap spaces)) cs := by
  induction spaces generalizing pos with
  | nil => rfl
  | cons s spaces ih =>
    have hgap : gap (s :: spaces) = s.text ++ gap spaces := List.flatMap_cons
    rw [hgap, List.append_assoc, lexAt_space, ih, Position.advance_append]

/-- Blanks and comments start with characters that continue no token. -/
theorem Space.exists_text_eq_cons (s : Space) :
    ∃ c cs, s.text = c :: cs ∧ isIdentChar c = false := by
  cases s with
  | blank c hblank =>
    refine ⟨c, [], rfl, Bool.eq_false_iff.2 fun hident => ?_⟩
    rw [isBlank_eq_false_of_isIdentChar hident] at hblank
    cases hblank
  | line body stop => exact ⟨'/', _, rfl, rfl⟩
  | block body => exact ⟨'/', _, rfl, rfl⟩

/-! ## Layouts -/

/-- Tokens with blanks and comments around them. The last line may end in a comment. Two tokens
stand next to each other only if the text of the first does not go on with that of the second. -/
structure Layout where
  before : List Space
  parts : List (Token × List Space)
  comment : Option { body : List Char // body.all (!isLineEnd ·) = true }
  wellFormed : ∀ p ∈ parts, p.1.WellFormed = true
  apart : parts.IsChain fun p q => p.2 = [] → p.1.stopsAt q.1.text.toList = true

/-- The texts of tokens, each with what stands after it. -/
def partsText (parts : List (Token × List Space)) : List Char :=
  parts.flatMap fun p => p.1.text.toList ++ gap p.2

theorem partsText_cons (p : Token × List Space) (parts : List (Token × List Space)) :
    partsText (p :: parts) = p.1.text.toList ++ (gap p.2 ++ partsText parts) := by
  rw [partsText, List.flatMap_cons, List.append_assoc]
  rfl

/-- The lexeme of a token with `before` in front of it. -/
def Token.lexemeAfter (before : List Char) (t : Token) : Lexeme where
  token := t
  start := (String.ofList before).utf8ByteSize
  stop := (String.ofList (before ++ t.text.toList)).utf8ByteSize
  line := 1 + before.count '\n'

/-- The lexemes of tokens and what stands after them, in a text that starts with `before`. -/
def lexemesAfter (before : List Char) : List (Token × List Space) → List Lexeme
  | [] => []
  | (t, spaces) :: parts =>
    t.lexemeAfter before :: lexemesAfter (before ++ t.text.toList ++ gap spaces) parts

namespace Layout

variable (l : Layout)

def tokens : List Token := l.parts.map Prod.fst

/-- A comment that the end of the text ends. -/
def ending : List Char := l.comment.elim [] fun body => '/' :: '/' :: body

def text : String := String.ofList (gap l.before ++ (partsText l.parts ++ l.ending))

def lexemes : List Lexeme := lexemesAfter (gap l.before) l.parts

end Layout

/-! ## What the lexer finds -/

/-- A place, by the bytes and newlines before it. -/
theorem Position.advance_eq (cs : List Char) :
    ({} : Position).advance cs = ⟨(String.ofList cs).utf8ByteSize, 1 + cs.count '\n'⟩ := by
  induction cs using List.reverseRecOn with
  | nil => rfl
  | append_singleton cs c ih =>
    rw [Position.advance_append, ih, String.ofList_append, String.utf8ByteSize_append,
      ← String.singleton_eq_ofList,
      String.utf8ByteSize_singleton, List.count_append, List.count_singleton]
    by_cases hc : c = '\n'
    · simp [Position.advance, Position.step, hc, Nat.add_assoc]
    · simp [Position.advance, Position.step, hc]

/-- The lexeme that the lexer makes of a token, at the place where `before` ends. -/
theorem Token.mk_advance_eq (before : List Char) (t : Token) :
    Lexeme.mk t (({} : Position).advance before).offset
      (({} : Position).advance (before ++ t.text.toList)).offset
      (({} : Position).advance before).line = t.lexemeAfter before := by
  simp only [Position.advance_eq]
  rfl

/-- The text of a token does not go on, as the tokens are apart. -/
theorem stopsAt_of_isChain {p : Token × List Space} {parts : List (Token × List Space)}
    {ending : List Char} (hwellFormed : ∀ q ∈ parts, q.1.WellFormed = true)
    (hapart : (p :: parts).IsChain fun p q => p.2 = [] → p.1.stopsAt q.1.text.toList = true)
    (hending : ending.head?.all (!isIdentChar ·) = true) :
    p.1.stopsAt (gap p.2 ++ (partsText parts ++ ending)) = true := by
  obtain ⟨t, spaces⟩ := p
  cases spaces with
  | cons s spaces =>
    obtain ⟨c, cs, htext, hc⟩ := s.exists_text_eq_cons
    rw [gap, List.flatMap_cons, htext]
    exact t.stopsAt_cons hc _
  | nil =>
    cases parts with
    | nil =>
      cases ending with
      | nil => cases t <;> simp [Token.stopsAt, gap, partsText]
      | cons c cs => exact t.stopsAt_cons (by simpa using hending) _
    | cons q parts =>
      have hne := text_ne_nil (hwellFormed q (List.mem_cons_self ..))
      have hstops := (List.isChain_cons_cons.1 hapart).1 rfl
      have hhead : (gap [] ++ (partsText (q :: parts) ++ ending)).head? =
          q.1.text.toList.head? := by
        rw [partsText_cons]
        cases htext : q.1.text.toList with
        | nil => exact absurd htext hne
        | cons c cs => rfl
      cases t with
      | ident text => simpa only [Token.stopsAt, hhead] using hstops
      | int text => simpa only [Token.stopsAt, hhead] using hstops
      | punct p => trivial

theorem lexAt_ending {comment : Option { body : List Char // body.all (!isLineEnd ·) = true }}
    (pos : Position) : lexAt pos (comment.elim [] fun body => '/' :: '/' :: body) = .ok [] := by
  cases comment with
  | none => rfl
  | some body =>
    have hnil : ([] : List Char).head?.all isLineEnd = true := rfl
    have hscan : scan ('/' :: '/' :: body.1) = .skip ('/' :: '/' :: body.1) [] := by
      simpa using scan_line body.2 hnil
    rw [Option.elim_some, lexAt_of_skip hscan]
    rfl

theorem lexAt_parts {parts : List (Token × List Space)}
    (hwellFormed : ∀ p ∈ parts, p.1.WellFormed = true)
    (hapart : parts.IsChain fun p q => p.2 = [] → p.1.stopsAt q.1.text.toList = true)
    {ending : List Char} (hending : ending.head?.all (!isIdentChar ·) = true)
    (hlex : ∀ pos, lexAt pos ending = .ok []) (before : List Char) :
    lexAt (({} : Position).advance before) (partsText parts ++ ending) =
      .ok (lexemesAfter before parts) := by
  -- all text up to a part is `before`, so that places are those from the start of the text
  induction parts generalizing before with
  | nil => exact hlex _
  | cons p parts ih =>
    obtain ⟨hp, hparts⟩ := List.forall_mem_cons.1 hwellFormed
    have hstops := stopsAt_of_isChain hparts hapart hending
    rw [partsText_cons, List.append_assoc, List.append_assoc,
      lexAt_text_append hp hstops, lexAt_gap,
      ← Position.advance_append, ← Position.advance_append, ih hparts hapart.tail, lexemesAfter,
      p.1.mk_advance_eq]
    rfl

theorem Layout.lex_text (l : Layout) : lex l.text = .ok l.lexemes := by
  have hending : l.ending.head?.all (!isIdentChar ·) = true := by
    rw [Layout.ending]
    cases l.comment <;> rfl
  rw [lex, Layout.text, String.toList_ofList]
  change lexAt {} _ = _
  rw [lexAt_gap]
  exact lexAt_parts l.wellFormed l.apart hending lexAt_ending (gap l.before)

theorem Layout.map_token_lexemes (l : Layout) : l.lexemes.map Lexeme.token = l.tokens := by
  have hparts : ∀ before parts, (lexemesAfter before parts).map Lexeme.token =
      parts.map Prod.fst := by
    intro before parts
    induction parts generalizing before with
    | nil => rfl
    | cons p parts ih =>
      rw [lexemesAfter, List.map_cons, List.map_cons, ih]
      rfl
  exact hparts _ _

end PointsTo.Text
