import Mathlib.Computability.Language
import PointsTo.Proofs.Layout

/-!
# Lexical patterns

The regular expressions of blanks, comments and tokens, as languages of characters (`skipped`,
`Token.pattern`), and the forms of the texts in them. The expression of a block comment has the
texts that end at their first `*/` (`mem_blockComment`).
-/

namespace PointsTo.Text

open scoped Computability

/-! ## Expressions -/

/-- One character of a class. -/
def oneOf (p : Char → Bool) : Language Char :=
  show Set (List Char) from {w | ∃ c, p c = true ∧ w = [c]}

/-- One text only. -/
def exactly (text : String) : Language Char := {text.toList}

/-- One or more texts of a language after each other. -/
def repeated (L : Language Char) : Language Char := L * L∗

theorem mem_kstar_oneOf {p : Char → Bool} {w : List Char} : w ∈ (oneOf p)∗ ↔ w.all p = true := by
  rw [Language.mem_kstar]
  constructor
  · rintro ⟨L, rfl, hL⟩
    induction L with
    | nil => rfl
    | cons y L ih =>
      obtain ⟨⟨c, hc, rfl⟩, hrest⟩ := List.forall_mem_cons.1 hL
      rw [List.flatten_cons, List.singleton_append, List.all_cons, hc, ih hrest, Bool.and_self]
  · intro hw
    refine ⟨w.map ([·]), by simp [← List.flatMap_def], ?_⟩
    intro y hy
    obtain ⟨c, hc, rfl⟩ := List.mem_map.1 hy
    exact ⟨c, List.all_eq_true.1 hw c hc, rfl⟩

theorem mem_oneOf_mul {p : Char → Bool} {L : Language Char} {w : List Char} :
    w ∈ oneOf p * L ↔ ∃ c u, p c = true ∧ u ∈ L ∧ w = c :: u := by
  rw [Language.mem_mul]
  constructor
  · rintro ⟨_, ⟨c, hc, rfl⟩, u, hu, rfl⟩
    exact ⟨c, u, hc, hu, rfl⟩
  · rintro ⟨c, u, hc, hu, rfl⟩
    exact ⟨[c], ⟨c, hc, rfl⟩, u, hu, rfl⟩

theorem mem_repeated_oneOf {p : Char → Bool} {w : List Char} :
    w ∈ repeated (oneOf p) ↔ w ≠ [] ∧ w.all p = true := by
  rw [repeated, mem_oneOf_mul]
  constructor
  · rintro ⟨c, u, hc, hu, rfl⟩
    exact ⟨List.cons_ne_nil c u, by rw [List.all_cons, hc, mem_kstar_oneOf.1 hu, Bool.and_self]⟩
  · rintro ⟨hne, hw⟩
    cases w with
    | nil => exact absurd rfl hne
    | cons c u =>
      rw [List.all_cons, Bool.and_eq_true] at hw
      exact ⟨c, u, hw.1, mem_kstar_oneOf.2 hw.2, rfl⟩

theorem mem_exactly_mul {text : String} {L : Language Char} {w : List Char} :
    w ∈ exactly text * L ↔ ∃ u ∈ L, w = text.toList ++ u := by
  rw [Language.mem_mul]
  constructor
  · rintro ⟨_, rfl, u, hu, rfl⟩
    exact ⟨u, hu, rfl⟩
  · rintro ⟨u, hu, rfl⟩
    exact ⟨text.toList, rfl, u, hu, rfl⟩

/-! ## Blanks and comments -/

/-- The expression `[ \t\r\n\f]+`. -/
def blanks : Language Char := repeated (oneOf isBlank)

/-- The expression `//[^\n\r]*`. -/
def lineComment : Language Char := exactly "//" * (oneOf (!isLineEnd ·))∗

/-- The expression `\*+`. -/
def stars : Language Char := repeated (oneOf (· == '*'))

/-- The expression `[^*]|\*+[^*/]`. -/
def commentPiece : Language Char := oneOf (· != '*') + stars * oneOf fun c => c != '*' && c != '/'

/-- The expression `/\*([^*]|\*+[^*/])*\*+/`. -/
def blockComment : Language Char := exactly "/*" * (commentPiece∗ * stars * exactly "/")

/-- What stands between tokens. -/
def skipped : Language Char := blanks + lineComment + blockComment

theorem mem_lineComment {w : List Char} :
    w ∈ lineComment ↔ ∃ body : List Char, body.all (!isLineEnd ·) = true ∧
      w = '/' :: '/' :: body := by
  rw [lineComment, mem_exactly_mul]
  simp only [mem_kstar_oneOf]
  rfl

theorem infix_closing_cons {c : Char} {cs : List Char} :
    ['*', '/'] <:+: c :: cs ↔ (c = '*' ∧ cs.head? = some '/') ∨ ['*', '/'] <:+: cs := by
  rw [List.infix_cons_iff, List.cons_prefix_cons, eq_comm (a := '*')]
  cases cs <;> simp [eq_comm (a := '/')]

/-- Stars do not close a comment, unless a slash comes after them. -/
theorem not_infix_stars_append {s rest : List Char} (hs : s.all (· == '*') = true)
    (hhead : rest.head? ≠ some '/') (hrest : ¬ ['*', '/'] <:+: rest) :
    ¬ ['*', '/'] <:+: s ++ rest := by
  induction s with
  | nil => exact hrest
  | cons c s ih =>
    rw [List.all_cons, Bool.and_eq_true] at hs
    rw [List.cons_append, infix_closing_cons]
    rintro (⟨-, hslash⟩ | hinfix)
    · cases s with
      | nil => exact hhead hslash
      | cons d s =>
        obtain rfl : d = '/' := by simpa using hslash
        simp at hs
    · exact ih hs.2 hinfix

theorem not_infix_commentPiece_append {y rest : List Char} (hy : y ∈ commentPiece)
    (hrest : ¬ ['*', '/'] <:+: rest) : ¬ ['*', '/'] <:+: y ++ rest := by
  have hcons : ∀ c, c ≠ '*' → ¬ ['*', '/'] <:+: c :: rest := by
    intro c hc
    rw [infix_closing_cons]
    rintro (⟨hstar, -⟩ | hinfix)
    · exact hc hstar
    · exact hrest hinfix
  rcases (Language.mem_add _ _ _).1 hy with ⟨c, hc, rfl⟩ | hy
  · exact hcons c (by simpa using hc)
  · obtain ⟨s, hs, _, ⟨c, hc, rfl⟩, rfl⟩ := Language.mem_mul.1 hy
    obtain ⟨hstar, hslash⟩ : c ≠ '*' ∧ c ≠ '/' := by simpa using hc
    rw [List.append_assoc]
    exact not_infix_stars_append (mem_repeated_oneOf.1 hs).2 (by simpa using hslash) (hcons c hstar)

theorem not_infix_flatten_append {L : List (List Char)} (hL : ∀ y ∈ L, y ∈ commentPiece)
    {s : List Char} (hs : s.all (· == '*') = true) : ¬ ['*', '/'] <:+: L.flatten ++ s := by
  induction L with
  | nil =>
    have hnil : ¬ ['*', '/'] <:+: ([] : List Char) := by simp
    simpa using not_infix_stars_append hs (by simp) hnil
  | cons y L ih =>
    obtain ⟨hy, hL⟩ := List.forall_mem_cons.1 hL
    rw [List.flatten_cons, List.append_assoc]
    exact not_infix_commentPiece_append hy (ih hL)

/-- A star in front of a piece makes a piece again, as the slash that would close the comment does
not come next. -/
theorem star_cons_mem_commentPiece {y : List Char} (hy : y ∈ commentPiece)
    (hhead : y.head? ≠ some '/') : '*' :: y ∈ commentPiece := by
  refine (Language.mem_add _ _ _).2 (.inr ?_)
  rcases (Language.mem_add _ _ _).1 hy with ⟨c, hc, rfl⟩ | hy
  · have hstar : c ≠ '*' := by simpa using hc
    have hslash : c ≠ '/' := by simpa using hhead
    exact Language.append_mem_mul (a := ['*']) (mem_repeated_oneOf.2 (by simp))
      ⟨c, by simp [hstar, hslash], rfl⟩
  · obtain ⟨s, hs, u, hu, rfl⟩ := Language.mem_mul.1 hy
    obtain ⟨-, hall⟩ := mem_repeated_oneOf.1 hs
    exact Language.append_mem_mul (a :=
      '*' :: s) (mem_repeated_oneOf.2 ⟨List.cons_ne_nil _ _, by simpa using hall⟩) hu

theorem append_star_mem {body : List Char} (hopen : ¬ ['*', '/'] <:+: body) :
    body ++ ['*'] ∈ commentPiece∗ * stars := by
  induction body with
  | nil => exact Language.append_mem_mul (Language.nil_mem_kstar _) (mem_repeated_oneOf.2 (by simp))
  | cons c body ih =>
    rw [infix_closing_cons, not_or] at hopen
    obtain ⟨x, hx, s, hs, heq⟩ := Language.mem_mul.1 (ih hopen.2)
    obtain ⟨L, rfl, hL⟩ := Language.mem_kstar.1 hx
    rw [List.cons_append, ← heq]
    by_cases hc : c = '*'
    · -- the star joins the first piece, or the stars at the end if there is none
      subst hc
      cases L with
      | nil =>
        obtain ⟨-, hall⟩ := mem_repeated_oneOf.1 hs
        exact Language.append_mem_mul (Language.nil_mem_kstar _)
          (mem_repeated_oneOf.2 ⟨List.cons_ne_nil _ _, by simpa using hall⟩)
      | cons y L =>
        obtain ⟨hy, hL⟩ := List.forall_mem_cons.1 hL
        have hhead : y.head? ≠ some '/' := by
          intro hslash
          have hbody : (body ++ ['*']).head? = some '/' := by simp [← heq, hslash]
          cases body with
          | nil => simp at hbody
          | cons d body => exact hopen.1 ⟨rfl, by simpa using hbody⟩
        have hpieces : ∀ z ∈ ('*' :: y) :: L, z ∈ commentPiece :=
          List.forall_mem_cons.2 ⟨star_cons_mem_commentPiece hy hhead, hL⟩
        exact Language.append_mem_mul (Language.join_mem_kstar hpieces) hs
    · have hpiece : [c] ∈ commentPiece :=
        (Language.mem_add _ _ _).2 (.inl ⟨c, by simpa using hc, rfl⟩)
      exact Language.append_mem_mul
        (Language.join_mem_kstar (List.forall_mem_cons.2 ⟨hpiece, hL⟩)) hs

/-- A block comment ends at the first `*/` after its start. -/
theorem mem_blockComment {w : List Char} :
    w ∈ blockComment ↔ ∃ body, ¬ ['*', '/'] <:+: body ∧ w = '/' :: '*' :: body ++ ['*', '/'] := by
  rw [blockComment, mem_exactly_mul]
  constructor
  · rintro ⟨u, hu, rfl⟩
    obtain ⟨v, hv, _, rfl, rfl⟩ := Language.mem_mul.1 hu
    obtain ⟨x, hx, s, hs, rfl⟩ := Language.mem_mul.1 hv
    obtain ⟨L, rfl, hL⟩ := Language.mem_kstar.1 hx
    obtain ⟨hne, hall⟩ := mem_repeated_oneOf.1 hs
    obtain ⟨s, c, rfl⟩ := (List.eq_nil_or_concat' s).resolve_left hne
    obtain ⟨hstars, rfl⟩ : s.all (· == '*') = true ∧ c = '*' := by simpa using hall
    exact ⟨L.flatten ++ s, not_infix_flatten_append hL hstars, by simp⟩
  · rintro ⟨body, hopen, rfl⟩
    refine ⟨body ++ ['*'] ++ ['/'], Language.append_mem_mul (append_star_mem hopen) rfl, by simp⟩

/-! ## Tokens -/

/-- The expression `[A-Za-z_$][A-Za-z0-9_$]*`. -/
def identifier : Language Char := oneOf isIdentStart * (oneOf isIdentChar)∗

/-- The expression `-?[0-9]+`. -/
def integer : Language Char := (1 + exactly "-") * repeated (oneOf isDigit)

/-- The expression of a token's kind. A mark has one text. -/
def Token.pattern : Token → Language Char
  | .ident _ => identifier
  | .int _ => integer
  | .punct p => exactly p.text

/-- The texts of tokens. -/
def words : Language Char :=
  show Set (List Char) from {w | ∃ t : Token, w ∈ t.pattern ∧ w = t.text.toList}

theorem mem_identifier {w : List Char} : w ∈ identifier ↔ isIdent w = true := by
  rw [identifier, mem_oneOf_mul]
  simp only [mem_kstar_oneOf]
  cases w with
  | nil => simp [isIdent]
  | cons c w => simp [isIdent]

theorem mem_integer {w : List Char} : w ∈ integer ↔ isInt w = true := by
  have hdigits : ∀ u : List Char, u ∈ repeated (oneOf isDigit) ↔ isDigits u = true := by
    intro u
    rw [mem_repeated_oneOf, isDigits]
    simp
  rw [integer, Language.mem_mul]
  constructor
  · rintro ⟨sign, rfl | rfl, u, hu, rfl⟩
    · have hu := (hdigits u).1 hu
      cases u with
      | nil => cases hu
      | cons c u =>
        rw [isDigits_cons, Bool.and_eq_true] at hu
        exact isInt_of_isDigit hu.1 hu.2
    · exact (hdigits u).1 hu
  · intro hw
    rw [isInt.eq_def] at hw
    split at hw
    next u => exact ⟨['-'], .inr rfl, u, (hdigits u).2 hw, rfl⟩
    next => exact ⟨[], .inl rfl, w, (hdigits w).2 hw, rfl⟩

theorem Token.text_mem_pattern_iff (t : Token) :
    t.text.toList ∈ t.pattern ↔ t.WellFormed = true := by
  cases t with
  | ident text => exact mem_identifier
  | int text => exact mem_integer
  | punct p => exact iff_of_true rfl rfl

end PointsTo.Text
