import PointsTo.Proofs.Awaiting
import PointsTo.Proofs.Recognition

/-!
# Where syntax errors are

`syntax_error_exact`: an error of the format is at the first lexeme that cannot be continued, and it
tells just the possible continuations. By the theory of awaited symbols this comes down to two facts
about each rule: whatever is awaited in it can be completed, in front of what may follow the rule
(`completes_program`), and each expectation is met by the lexemes that are awaited
(`Expectation.Meets`, `tells_program`). That a rule takes a keyword for a name where the keyword's
own rule gave up makes no difference.
-/

namespace PointsTo.Text

open Grammar

/-- The lexemes that a construct may start with. -/
def Construct.StartsWith : Construct → Lexeme → Prop
  | .item, l => Format.item.CanStart l
  | .member, l => Format.member.CanStart l
  | .statement, l => Format.command.CanStart l
  | .expression, l => Format.expression.CanStart l
  | .invocation, l => Format.call.CanStart l

/-- The lexeme is one of those that are expected. -/
def Expectation.Meets : Expectation → Lexeme → Prop
  | .punct p, l => l.token = .punct p
  | .keyword word, l => l.token = .ident word
  | .name, l => ∃ x, l.token = .ident x
  | .arrayIndex, l => (∃ x, l.token = .ident x) ∨ ∃ x, l.token = .int x
  | .construct c, l => c.StartsWith l
  | .endOfInput, _ => False

/-- A token as a lexeme at no particular place. -/
def Token.lexeme (t : Token) : Lexeme := ⟨t, 0, 0, 0⟩

namespace Format

/-! ## Completions -/

section Completes

variable {F : List Lexeme → Prop}

theorem awaits_punct (p : Punct) : (punct p).Awaits [] (Token.punct p).lexeme :=
  ⟨rfl, by simp [Token.lexeme]⟩

theorem awaits_keyword (w : String) : (keyword w).Awaits [] (Token.ident w).lexeme :=
  ⟨rfl, by simp [Token.lexeme]⟩

theorem awaits_name : name.Awaits [] (Token.ident "x").lexeme := ⟨rfl, rfl⟩

theorem before_lexeme (p : Punct) (ls : List Lexeme) : Before p ((Token.punct p).lexeme :: ls) :=
  ⟨_, _, rfl, rfl⟩

theorem completes_punct (p : Punct) : (punct p).Completes F := completes_symbol

theorem completes_keyword (w : String) : (keyword w).Completes F := completes_symbol

theorem completes_name : name.Completes F := completes_symbol

/-- A mark is completed as it stands, whatever comes after it. -/
theorem completes_punct_skipThen {α : Type} {g : Rule α} {t : Lexeme} (p : Punct)
    (hg : g.Completes F) (ht : g.Awaits [] t) : ((punct p).skipThen g).Completes F :=
  (completes_punct p).skipThen (G := fun _ => True) hg rfl ht fun _ => trivial

theorem completes_keyword_skipThen {α : Type} {g : Rule α} {t : Lexeme} (w : String)
    (hg : g.Completes F) (ht : g.Awaits [] t) : ((keyword w).skipThen g).Completes F :=
  (completes_keyword w).skipThen (G := fun _ => True) hg rfl ht fun _ => trivial

theorem completes_name_seq {α : Type} {g : Rule α} {t : Lexeme} (hg : g.Completes F)
    (ht : g.Awaits [] t) : (name.seq g).Completes F :=
  (completes_name (F := fun _ => True)).seq hg rfl ht fun _ => trivial

theorem completes_names1 : names1.Completes (Before .lbrace) := by
  refine (completes_punct .comma).separated1 completes_name rfl rfl awaits_name fun rest hrest => ?_
  exact (starts_punct .comma).read?_eq_none hrest (by rintro _ rfl; decide)

theorem completes_parenthesized : parenthesized.Completes F := by
  have hnames : (separated (punct .comma) name).Completes (Before .rparen) := by
    refine (completes_punct .comma).separated completes_name rfl rfl awaits_name
      fun rest hrest => ?_
    exact (starts_punct .comma).read?_eq_none hrest (by rintro _ rfl; decide)
  exact completes_punct_skipThen .lparen
    (hnames.thenSkip (completes_punct .rparen) rfl (awaits_punct .rparen) (before_lexeme .rparen))
    (.inl (.inl awaits_name))

theorem completes_qualified : qualified.Completes F :=
  (completes_name_seq (completes_punct_skipThen .colons completes_name awaits_name)
    (.inl (awaits_punct .colons))).map

theorem completes_brackets : brackets.Completes F := by
  have hindex : index.optional.Completes (Before .rbracket) := completes_symbol.optional
  exact (completes_punct_skipThen .lbracket
    (hindex.thenSkip (completes_punct .rbracket) rfl (awaits_punct .rbracket)
      (before_lexeme .rbracket))
    (.inr ⟨none, [], rfl, awaits_punct .rbracket⟩)).map

theorem awaits_qualified : qualified.Awaits [] (Token.ident "x").lexeme := .inl awaits_name

theorem completes_callTarget : callTarget.Completes F :=
  (completes_qualified (F := fun _ => True)).seq completes_parenthesized rfl
    (.inl (awaits_punct .lparen)) fun _ => trivial

theorem completes_staticCall : staticCall.Completes F :=
  (completes_keyword_skipThen "invokestatic" completes_callTarget (.inl awaits_qualified)).map

theorem completes_instanceCall : instanceCall.Completes F := by
  have hreceiver : (name.thenSkip (punct .dot)).Completes fun _ => True :=
    (completes_name_seq (completes_punct .dot) (awaits_punct .dot)).map
  have hcall : ((name.thenSkip (punct .dot)).seq callTarget).Completes F :=
    hreceiver.seq completes_callTarget rfl (.inl awaits_qualified) fun _ => trivial
  exact (completes_symbol.seq (G := fun _ => True) hcall rfl (.inl (.inl awaits_name))
    fun _ => trivial).map

theorem completes_call : call.Completes F :=
  (completes_staticCall.choice completes_instanceCall rfl).label

theorem completes_allocation : allocation.Completes (Before .semicolon) := by
  have hbrackets : ((punct .lbracket).skipThen (punct .rbracket)).optional.Completes
      (Before .semicolon) :=
    (completes_punct_skipThen .lbracket (completes_punct .rbracket)
      (awaits_punct .rbracket)).optional
  refine (completes_keyword_skipThen "new"
    (completes_name.seq_of_empty hbrackets rfl fun rest hrest => ⟨none, ?_⟩) (.inl awaits_name)).map
  rw [read?_optional, (starts_punct .lbracket).skipThen.read?_eq_none hrest
    (by rintro _ rfl; decide)]

theorem completes_access : access.Completes F :=
  .choice (completes_punct_skipThen .dot completes_qualified awaits_qualified).map
    (.choice (completes_punct_skipThen .colons completes_name awaits_name).map
      completes_brackets.map rfl) rfl

theorem completes_place : place.Completes (Before .semicolon) := by
  refine (completes_name.seq_of_empty completes_access.optional rfl
    fun rest hrest => ⟨none, ?_⟩).map
  rw [read?_optional, starts_access.read?_eq_none hrest fun _ ht hne => hne ht]

theorem completes_expression : expression.Completes (Before .semicolon) :=
  .label (.choice completes_call.map
    (.choice completes_allocation (.choice completes_symbol completes_place rfl) rfl) rfl)

theorem completes_assigned : assigned.Completes F :=
  completes_punct_skipThen .equal completes_name awaits_name

/-- An expression may be a name. -/
theorem awaits_expression : expression.Awaits [] (Token.ident "x").lexeme :=
  .inr ⟨rfl, .inr ⟨rfl, .inr ⟨rfl, .inl awaits_name⟩⟩⟩

theorem awaits_assigned : assigned.Awaits [] (Token.punct .equal).lexeme :=
  .inl (awaits_punct .equal)

theorem completes_assignment : assignment.Completes (Before .semicolon) := by
  have hstore : (qualified.seq assigned).Completes (Before .semicolon) :=
    (completes_qualified (F := fun _ => True)).seq completes_assigned rfl awaits_assigned
      fun _ => trivial
  have hindexed : (brackets.skipThen assigned).Completes (Before .semicolon) :=
    (completes_brackets (F := fun _ => True)).skipThen completes_assigned rfl awaits_assigned
      fun _ => trivial
  exact .choice (completes_punct_skipThen .equal completes_expression awaits_expression).map
    (.choice (completes_punct_skipThen .dot hstore (.inl awaits_qualified)).map
      (.choice (completes_punct_skipThen .colons
        (completes_name_seq completes_assigned awaits_assigned)
        (.inl awaits_name)).map hindexed.map rfl) rfl) rfl

theorem completes_command : command.Completes (Before .semicolon) := by
  have hreturn : ((keyword "return").skipThen name.optional).Completes (Before .semicolon) := by
    refine ((completes_keyword "return").seq_of_empty completes_name.optional rfl
      fun rest hrest => ⟨none, ?_⟩).map
    rw [read?_optional, starts_name.read?_eq_none hrest (by rintro _ rfl ⟨x, hx⟩; cases hx)]
  have hassign : (name.seq assignment).Completes (Before .semicolon) :=
    completes_name_seq completes_assignment (.inl (.inl (awaits_punct .equal)))
  exact .label (.choice hreturn.map (.choice completes_call.map hassign.map rfl) rfl)

theorem completes_statement : statement.Completes F :=
  completes_command.thenSkip (completes_punct .semicolon) rfl (awaits_punct .semicolon)
    (before_lexeme .semicolon)

theorem completes_modifier : modifier.Completes F :=
  .choice (completes_keyword "static").map (completes_keyword "abstract").map rfl

theorem completes_fieldMember : fieldMember.Completes F := by
  have hname : (name.thenSkip (punct .semicolon)).Completes F :=
    (completes_name_seq (completes_punct .semicolon) (awaits_punct .semicolon)).map
  exact (completes_keyword_skipThen "field" hname (.inl awaits_name)).map

theorem completes_body : body.Completes F := by
  have hstatements : statement.many.Completes (Before .rbrace) := by
    refine completes_statement.many rfl fun rest hrest => ?_
    exact starts_statement.read?_eq_none hrest (by rintro _ rfl ⟨x, hx⟩; cases hx)
  have hbraces : (between (punct .lbrace) (punct .rbrace) statement.many).Completes F :=
    completes_punct_skipThen .lbrace
      (hstatements.thenSkip (completes_punct .rbrace) rfl (awaits_punct .rbrace)
        (before_lexeme .rbrace))
      (.inr ⟨[], [], rfl, awaits_punct .rbrace⟩)
  exact .choice hbraces.map (completes_punct .semicolon).map rfl

theorem completes_methodMember : methodMember.Completes F := by
  have hrest : (parenthesized.seq body).Completes F :=
    (completes_parenthesized (F := fun _ => True)).seq completes_body rfl
      (.inl (.inl (awaits_punct .lbrace))) fun _ => trivial
  exact (completes_keyword_skipThen "method"
    (completes_name_seq hrest (.inl (.inl (awaits_punct .lparen)))) (.inl awaits_name)).map

theorem completes_member : member.Completes F := by
  have hmodifiers : modifier.many.Completes (Next Lexeme.token (· = .ident "field")) := by
    refine completes_modifier.many rfl fun rest hrest => ?_
    exact starts_modifier.read?_eq_none hrest (by rintro _ rfl; decide)
  have hdeclarator : (fieldMember.choice methodMember).Completes F :=
    completes_fieldMember.choice completes_methodMember rfl
  exact (hmodifiers.seq hdeclarator rfl (.inl (.inl (awaits_keyword "field")))
    fun _ => ⟨_, _, rfl, rfl⟩).map.label

theorem completes_members : members.Completes F := by
  have hmembers : member.many.Completes (Before .rbrace) := by
    refine completes_member.many rfl fun rest hrest => ?_
    exact starts_member.read?_eq_none hrest (by rintro _ rfl ⟨x, hx⟩; cases hx)
  exact completes_punct_skipThen .lbrace
    (hmembers.thenSkip (completes_punct .rbrace) rfl (awaits_punct .rbrace) (before_lexeme .rbrace))
    (.inr ⟨[], [], rfl, awaits_punct .rbrace⟩)

theorem awaits_members : members.Awaits [] (Token.punct .lbrace).lexeme :=
  .inl (awaits_punct .lbrace)

/-- A clause with names stands in front of the members. -/
theorem completes_clause (w : String) :
    (((keyword w).skipThen names1).optional.seq members).Completes F :=
  (completes_keyword_skipThen w completes_names1 (.inl awaits_name)).optional.seq completes_members
    rfl awaits_members (before_lexeme .lbrace)

theorem completes_classTree : classTree.Completes F := by
  have hhead : ((keyword "abstract").optional.thenSkip (keyword "class")).Completes fun _ => True :=
    (completes_keyword "abstract").optional.thenSkip (G :=
      fun _ => True) (completes_keyword "class") rfl (awaits_keyword "class") fun _ => trivial
  have hsuper : ((keyword "extends").skipThen name).optional.Completes fun _ => True :=
    (completes_keyword_skipThen "extends" completes_name awaits_name).optional
  have hrest : (((keyword "extends").skipThen name).optional.seq
      (((keyword "implements").skipThen names1).optional.seq members)).Completes F :=
    hsuper.seq (completes_clause "implements") rfl (.inr ⟨none, [], rfl, awaits_members⟩)
      fun _ => trivial
  exact (hhead.seq (completes_name_seq hrest
    (.inr ⟨none, [], rfl, .inr ⟨none, [], rfl, awaits_members⟩⟩)) rfl
    (.inl awaits_name) fun _ => trivial).map

theorem completes_interfaceTree : interfaceTree.Completes F :=
  (completes_keyword_skipThen "interface"
    (completes_name_seq (completes_clause "extends") (.inr ⟨none, [], rfl, awaits_members⟩))
    (.inl awaits_name)).map

theorem completes_entry : entry.Completes F := by
  have htarget : (qualified.thenSkip (punct .semicolon)).Completes F :=
    (completes_qualified (F := fun _ => True)).thenSkip (completes_punct .semicolon) rfl
      (awaits_punct .semicolon) fun _ => trivial
  exact ((completes_keyword "entry").seq (G := fun _ => True) htarget rfl (.inl awaits_qualified)
    fun _ => trivial).map

theorem completes_item : item.Completes F :=
  .label (.choice completes_entry (completes_classTree.choice completes_interfaceTree rfl).map rfl)

theorem completes_program : program.Completes (· = []) := by
  refine completes_item.many rfl ?_
  rintro _ rfl
  exact starts_item.read?_nil

end Completes

/-! ## Expectations -/

section Tells

variable {hidden : Bool}

theorem tells_punct (p : Punct) : (punct p).Tells Expectation.Meets hidden := by
  refine ⟨⟨(Token.punct p).lexeme, by simp [Token.lexeme]⟩, .inr fun l => ?_⟩
  simp [Expectation.Meets]

theorem tells_keyword (w : String) : (keyword w).Tells Expectation.Meets hidden := by
  refine ⟨⟨(Token.ident w).lexeme, by simp [Token.lexeme]⟩, .inr fun l => ?_⟩
  simp [Expectation.Meets]

theorem tells_name : name.Tells Expectation.Meets hidden := by
  refine ⟨⟨(Token.ident "x").lexeme, rfl⟩, .inr fun l => ?_⟩
  cases hl : l.token <;> simp [Expectation.Meets, hl]

theorem tells_index : index.Tells Expectation.Meets hidden := by
  refine ⟨⟨(Token.ident "x").lexeme, rfl⟩, .inr fun l => ?_⟩
  cases hl : l.token <;> simp [Expectation.Meets, hl]

theorem tells_parenthesized : parenthesized.Tells Expectation.Meets hidden :=
  (tells_punct .lparen).between (tells_punct .rparen) ((tells_punct .comma).separated tells_name)

theorem tells_qualified : qualified.Tells Expectation.Meets hidden :=
  (tells_name.seq ((tells_punct .colons).skipThen tells_name)).map

theorem tells_brackets : brackets.Tells Expectation.Meets hidden :=
  ((tells_punct .lbracket).between (tells_punct .rbracket) tells_index.optional).map

/-- The keywords of calls on a receiver are hidden by the name of calls. -/
theorem tells_instanceKind : instanceKind.Tells Expectation.Meets true :=
  ⟨⟨(Token.ident "invokevirtual").lexeme, rfl⟩, .inl rfl⟩

theorem tells_call : call.Tells Expectation.Meets hidden := by
  have htarget : callTarget.Tells Expectation.Meets false := tells_qualified.seq tells_parenthesized
  have hstatic : staticCall.Tells Expectation.Meets true :=
    ((tells_keyword "invokestatic").skipThen htarget).map
  have hinstance : instanceCall.Tells Expectation.Meets true :=
    (tells_instanceKind.seq ((tells_name.thenSkip (tells_punct .dot)).seq htarget)).map
  exact (hstatic.choice hinstance).label (completes_call (F := fun _ => True)) ⟨[], trivial⟩ rfl rfl
    fun _ => Iff.rfl

/-- Constants are hidden by the name of expressions. -/
theorem tells_constant : constant.Tells Expectation.Meets true :=
  ⟨⟨(Token.ident "null").lexeme, rfl⟩, .inl rfl⟩

theorem tells_expression : expression.Tells Expectation.Meets hidden := by
  have hallocation : allocation.Tells Expectation.Meets true :=
    ((tells_keyword "new").skipThen
      (tells_name.seq ((tells_punct .lbracket).skipThen (tells_punct .rbracket)).optional)).map
  have haccess : access.Tells Expectation.Meets false :=
    ((tells_punct .dot).skipThen tells_qualified).map.choice
      (((tells_punct .colons).skipThen tells_name).map.choice tells_brackets.map)
  have hplace : place.Tells Expectation.Meets true := (tells_name.seq haccess.optional).map
  exact (tells_call.map.choice (hallocation.choice (tells_constant.choice hplace))).label
    completes_expression ⟨_, before_lexeme .semicolon []⟩ rfl rfl fun _ => Iff.rfl

theorem tells_command : command.Tells Expectation.Meets hidden := by
  have hassigned : assigned.Tells Expectation.Meets false :=
    (tells_punct .equal).skipThen tells_name
  have hassignment : assignment.Tells Expectation.Meets false :=
    ((tells_punct .equal).skipThen tells_expression).map.choice
      (((tells_punct .dot).skipThen (tells_qualified.seq hassigned)).map.choice
        (((tells_punct .colons).skipThen (tells_name.seq hassigned)).map.choice
          (tells_brackets.skipThen hassigned).map))
  exact (((tells_keyword "return").skipThen tells_name.optional).map.choice
    (tells_call.map.choice (tells_name.seq hassignment).map)).label completes_command
    ⟨_, before_lexeme .semicolon []⟩ rfl rfl fun _ => Iff.rfl

theorem tells_member : member.Tells Expectation.Meets hidden := by
  have hmodifier : modifier.Tells Expectation.Meets false :=
    (tells_keyword "static").map.choice (tells_keyword "abstract").map
  have hfield : fieldMember.Tells Expectation.Meets false :=
    ((tells_keyword "field").skipThen (tells_name.thenSkip (tells_punct .semicolon))).map
  have hbody : body.Tells Expectation.Meets false :=
    ((tells_punct .lbrace).between (tells_punct .rbrace)
      (tells_command.thenSkip (tells_punct .semicolon)).many).map.choice
      (tells_punct .semicolon).map
  have hmethod : methodMember.Tells Expectation.Meets false :=
    ((tells_keyword "method").skipThen (tells_name.seq (tells_parenthesized.seq hbody))).map
  exact (hmodifier.many.seq (hfield.choice hmethod)).map.label
    (completes_member (F := fun _ => True)) ⟨[], trivial⟩ rfl rfl fun _ => Iff.rfl

theorem tells_item : item.Tells Expectation.Meets hidden := by
  have hentry : entry.Tells Expectation.Meets true :=
    ((tells_keyword "entry").seq (tells_qualified.thenSkip (tells_punct .semicolon))).map
  have hmembers : members.Tells Expectation.Meets false :=
    (tells_punct .lbrace).between (tells_punct .rbrace) tells_member.many
  have hclause : ∀ w, ((keyword w).skipThen names1).optional.Tells Expectation.Meets false :=
    fun w => ((tells_keyword w).skipThen ((tells_punct .comma).separated1 tells_name)).optional
  have hclass : classTree.Tells Expectation.Meets true :=
    (((tells_keyword "abstract").optional.thenSkip (tells_keyword "class")).seq
      (tells_name.seq (((tells_keyword "extends").skipThen tells_name).optional.seq
        ((hclause "implements").seq hmembers)))).map
  have hinterface : interfaceTree.Tells Expectation.Meets true :=
    ((tells_keyword "interface").skipThen (tells_name.seq ((hclause "extends").seq hmembers))).map
  exact (hentry.choice (hclass.choice hinterface).map).label (completes_item (F := fun _ => True))
    ⟨[], trivial⟩ rfl rfl fun _ => Iff.rfl

theorem tells_program : program.Tells Expectation.Meets false := tells_item.many

end Tells

end Format

/-- Some lexemes are the start of a text of the format. -/
def Viable (ls : List Lexeme) : Prop := ∃ more items, parseItems (ls ++ more) = .ok items

theorem viable_iff {ls : List Lexeme} : Viable ls ↔ Format.program.Viable ls := by
  simp only [Viable, Grammar.Viable, parseItems, parse_eq_ok_iff]

/-- Something is always expected, as the lexemes before an error can be continued or are a text. So
`expectedText` never falls back on its text for an empty list. -/
theorem expected_ne_nil {ls : List Lexeme} {f : Failure Expectation}
    (h : parseItems ls = .error f) : f.expected ≠ [] := by
  have hproper : Format.program.proper := rfl
  have hfinish : Expectation.endOfInput ∉ Format.program.expectations := by decide
  obtain ⟨more, items, haccepted⟩ :=
    viable_take_of_parse_eq_error hproper Format.completes_program h Format.tells_program
  cases more with
  | nil =>
    rw [List.append_nil] at haccepted
    exact List.ne_nil_of_mem ((finish_mem_of_parse_eq_error hproper h hfinish).2 ⟨items, haccepted⟩)
  | cons l more =>
    rw [List.append_cons] at haccepted
    obtain ⟨e, he, -⟩ := (viable_iff_of_parse_eq_error hproper Format.completes_program h
      Format.tells_program id).1 ⟨more, items, haccepted⟩
    exact List.ne_nil_of_mem he

/-- A syntax error is at the first lexeme that cannot be continued, or at the end if all of them
can. What it tells to be expected are just the possible continuations, the end among them if the
lexemes before it are a text as they stand. -/
theorem syntax_error_exact {ls : List Lexeme} {f : Failure Expectation}
    (h : parseItems ls = .error f) :
    Viable (ls.take f.index) ∧
      ((∃ l, ls[f.index]? = some l ∧ ParseError.ofFailure ls f =
        .unexpected l.line f.expected l.token ∧
          ¬ Viable (ls.take (f.index + 1))) ∨
        f.index = ls.length ∧ ParseError.ofFailure ls f = .endOfInput f.expected) ∧
      (∀ l, Viable (ls.take f.index ++ [l]) ↔ ∃ e ∈ f.expected, e.Meets l) ∧
      (.endOfInput ∈ f.expected ↔ ∃ items, parseItems (ls.take f.index) = .ok items) := by
  have hproper : Format.program.proper := rfl
  have hfinish : Expectation.endOfInput ∉ Format.program.expectations := by decide
  have hindex := index_le_of_parse_eq_error h
  refine ⟨?_, ?_, fun l => ?_, ?_⟩
  · rw [viable_iff]
    exact viable_take_of_parse_eq_error hproper Format.completes_program h Format.tells_program
  · by_cases hlt : f.index < ls.length
    · refine .inl ⟨ls[f.index], List.getElem?_eq_getElem hlt, ?_, ?_⟩
      · rw [ParseError.ofFailure, List.getElem?_eq_getElem hlt]
      · rw [viable_iff]
        exact not_viable_take_of_parse_eq_error hproper Format.completes_program h hlt
    · refine .inr ⟨Nat.le_antisymm hindex (Nat.le_of_not_lt hlt), ?_⟩
      rw [ParseError.ofFailure, List.getElem?_eq_none (Nat.le_of_not_lt hlt)]
  · rw [viable_iff]
    exact viable_iff_of_parse_eq_error hproper Format.completes_program h Format.tells_program id
  · simp only [parseItems, parse_eq_ok_iff]
    exact finish_mem_of_parse_eq_error hproper h hfinish

/-- The tokens of `class C { method m() { x = new 7`, up to the integer. -/
def sampleUnfinished : List Lexeme :=
  ([.ident "class", .ident "C", .punct .lbrace, .ident "method", .ident "m", .punct .lparen,
    .punct .rparen,
    .punct .lbrace, .ident "x", .punct .equal, .ident "new"] : List Token).map Token.lexeme

/-- After `new` there may be the name of a class, or `new` is itself the name of a variable. -/
theorem sample_syntax_error_exact :
    ∃ f, parseItems (sampleUnfinished ++ [(Token.int "7").lexeme]) = .error f ∧
      f = ⟨11, [.name, .punct .dot, .punct .colons, .punct .lbracket, .punct .semicolon]⟩ ∧
      Viable sampleUnfinished ∧ ∀ l, Viable (sampleUnfinished ++ [l]) ↔
        ∃ e ∈ f.expected, e.Meets l := by
  have hparse : parseItems (sampleUnfinished ++ [(Token.int "7").lexeme]) =
      .error ⟨11, [.name, .punct .dot, .punct .colons, .punct .lbracket, .punct .semicolon]⟩ := by
    rfl
  obtain ⟨hviable, -, hexpected, -⟩ := syntax_error_exact hparse
  exact ⟨_, hparse, rfl, hviable, hexpected⟩

end PointsTo.Text
