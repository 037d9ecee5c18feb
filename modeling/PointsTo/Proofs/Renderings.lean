import PointsTo.Proofs.Grammars
import PointsTo.Text.Read

/-!
# Renderings of syntax trees

The token sequences that render a tree are a language, put together from those of its parts
(`Item.renderings`). An array index leaves no trace in the tree, so it is rendered as nothing, as
any identifier or as any integer, and a constant is rendered as `null` or as any integer. A tree of
a shape that no text has, such as a static call with a receiver, has no rendering.

Whatever the grammar reads is a rendering of the tree that it gives (`sound_program`). A rendering
shows no lines, so a tree is known from it as far as `bare` goes (`renderings_map_bare`).
-/

namespace PointsTo.Text

/-! ## Renderings -/

def mark (p : Punct) : Language Token := {[.punct p]}

def word (w : String) : Language Token := {[.ident w]}

/-- Any single integer. -/
def anyInt : Language Token := show Set (List Token) from {w | ∃ x, w = [.int x]}

/-- Any single identifier. -/
def anyIdent : Language Token := show Set (List Token) from {w | ∃ x, w = [.ident x]}

/-- Brackets around an index that may be missing. -/
def indexed : Language Token := mark .lbracket * ((1 + (anyIdent + anyInt)) * mark .rbracket)

def Name.renderings (n : Name) : Language Token := word n.text

def Qualified.renderings (q : Qualified) : Language Token :=
  q.cls.renderings * (mark .colons * q.name.renderings)

/-- Names in parentheses with commas between them. -/
def inParens (names : List Name) : Language Token :=
  mark .lparen * (listed (mark .comma) Name.renderings names * mark .rparen)

/-- The keyword of a call. -/
def callWord : CallKind → String
  | .static => "invokestatic"
  | .special => "invokespecial"
  | .virtual => "invokevirtual"
  | .interface => "invokeinterface"
  | .dynamic => "invokedynamic"
  | .other => "invoke"

/-- A static call has no receiver, and every other call has one. -/
def CallTree.renderings (c : CallTree) : Language Token :=
  match c.receiver with
  | none =>
    if c.kind = .static then word (callWord c.kind) * (c.target.renderings * inParens c.args) else 0
  | some receiver =>
    if c.kind = .static then 0
    else word (callWord c.kind) *
      (receiver.renderings * mark .dot * (c.target.renderings * inParens c.args))

def Expr.renderings : Expr → Language Token
  | .new cls array =>
    word "new" * (cls.renderings * if array then mark .lbracket * mark .rbracket else 1)
  | .const => word "null" + anyInt
  | .copy value => value.renderings
  | .load base field => base.renderings * (mark .dot * field.renderings)
  | .loadStatic field => field.renderings
  | .loadArray base => base.renderings * indexed
  | .call c => c.renderings

def Command.renderings : Command → Language Token
  | .assign lhs rhs => lhs.renderings * (mark .equal * rhs.renderings)
  | .store base field rhs =>
    base.renderings * (mark .dot * (field.renderings * (mark .equal * rhs.renderings)))
  | .storeStatic field rhs =>
    field.cls.renderings * (mark .colons * (field.name.renderings * (mark .equal * rhs.renderings)))
  | .storeArray base rhs => base.renderings * (indexed * (mark .equal * rhs.renderings))
  | .call c => c.renderings
  | .ret value => word "return" * value.elim 1 Name.renderings

def Modifier.renderings : Modifier → Language Token
  | .static => word "static"
  | .abstract => word "abstract"

/-- A body is given in braces, or a semicolon stands in its place. -/
def bodyRenderings : Option (List Command) → Language Token
  | some cs => mark .lbrace * ((cs.map fun c => c.renderings * mark .semicolon).prod * mark .rbrace)
  | none => mark .semicolon

def declarator (name : Name) : MemberKind → Language Token
  | .field => word "field" * (name.renderings * mark .semicolon)
  | .method params body =>
    word "method" * (name.renderings * (inParens params * bodyRenderings body))

def Member.renderings (m : Member) : Language Token :=
  (m.modifiers.map Modifier.renderings).prod * declarator m.name m.kind

def inBraces (members : List Member) : Language Token :=
  mark .lbrace * ((members.map Member.renderings).prod * mark .rbrace)

/-- A keyword with names after it, left out where there are none. -/
def clause (keyword : String) : List Name → Language Token
  | [] => 1
  | n :: names => word keyword * listed1 (mark .comma) Name.renderings (n :: names)

/-- An interface has no superclass and no modifier. -/
def ClassTree.renderings (t : ClassTree) : Language Token :=
  match t.isInterface, t.isAbstract, t.superclass with
  | false, isAbstract, superclass =>
    (if isAbstract then word "abstract" else 1) * word "class" *
      (t.name.renderings * (superclass.elim 1 (fun n => word "extends" * n.renderings) *
        (clause "implements" t.interfaces * inBraces t.members)))
  | true, false, none =>
    word "interface" * (t.name.renderings * (clause "extends" t.interfaces * inBraces t.members))
  | true, _, _ => 0

def Item.renderings : Item → Language Token
  | .cls t => t.renderings
  | .entry target _ => word "entry" * (target.renderings * mark .semicolon)

/-- The renderings of a whole text. -/
def renderings (items : List Item) : Language Token := (items.map Item.renderings).prod

/-! ## What is read is a rendering -/

namespace Format

theorem sound_punct (p : Punct) : (punct p).Sound Lexeme.token fun _ => mark p := by
  refine Grammar.sound_symbol fun l _ hl => ?_
  split at hl
  next heq => exact congrArg (fun t => [t]) heq
  next => cases hl

theorem sound_keyword (w : String) : (keyword w).Sound Lexeme.token fun _ => word w := by
  refine Grammar.sound_symbol fun l _ hl => ?_
  split at hl
  next heq => exact congrArg (fun t => [t]) heq
  next => cases hl

theorem sound_name : name.Sound Lexeme.token Name.renderings := by
  refine Grammar.sound_symbol fun l n hl => ?_
  split at hl
  next text heq =>
    cases hl
    exact congrArg (fun t => [t]) heq
  next => cases hl

theorem sound_index : index.Sound Lexeme.token fun _ => anyIdent + anyInt := by
  refine Grammar.sound_symbol fun l _ hl => ?_
  split at hl
  next text heq => exact .inl ⟨text, congrArg (fun t => [t]) heq⟩
  next text heq => exact .inr ⟨text, congrArg (fun t => [t]) heq⟩
  next => cases hl

theorem sound_instanceKind :
    instanceKind.Sound Lexeme.token fun kind => if kind = .static then 0 else
      word (callWord kind) := by
  refine Grammar.sound_symbol fun l kind hl => ?_
  split at hl <;> cases hl <;> exact congrArg (fun t => [t]) ‹_›

theorem sound_constant : constant.Sound Lexeme.token Expr.renderings := by
  refine Grammar.sound_symbol fun l e hl => ?_
  split at hl
  next text heq => cases hl; exact .inr ⟨text, congrArg (fun t => [t]) heq⟩
  next heq => cases hl; exact .inl (congrArg (fun t => [t]) heq)
  next => cases hl

theorem sound_names1 : names1.Sound Lexeme.token (listed1 (mark .comma) Name.renderings) :=
  (sound_punct .comma).separated1 sound_name

theorem sound_parenthesized : parenthesized.Sound Lexeme.token inParens :=
  (sound_punct .lparen).between (sound_punct .rparen) ((sound_punct .comma).separated sound_name)

theorem sound_qualified : qualified.Sound Lexeme.token Qualified.renderings :=
  (sound_name.seq ((sound_punct .colons).skipThen sound_name)).map fun _ => le_rfl

theorem sound_brackets : brackets.Sound Lexeme.token fun _ => indexed := by
  refine ((sound_punct .lbracket).between (sound_punct .rbracket) sound_index.optional).map
    fun o => ?_
  refine mul_le_mul_right (mul_le_mul_left ?_ _) _
  cases o with
  | none => exact le_self_add
  | some => exact le_add_self

theorem sound_callTarget :
    callTarget.Sound Lexeme.token fun (target, args) => target.renderings * inParens args :=
  sound_qualified.seq sound_parenthesized

theorem sound_staticCall : staticCall.Sound Lexeme.token CallTree.renderings :=
  ((sound_keyword "invokestatic").skipThen sound_callTarget).map fun _ => le_rfl

theorem sound_instanceCall : instanceCall.Sound Lexeme.token CallTree.renderings := by
  refine (sound_instanceKind.seq
    ((sound_name.thenSkip (sound_punct .dot)).seq sound_callTarget)).map
    fun (kind, receiver, target, args) => ?_
  by_cases hkind : kind = .static
  · simp [hkind, CallTree.renderings]
  · simp [hkind, CallTree.renderings]

theorem sound_call : call.Sound Lexeme.token CallTree.renderings :=
  .label (sound_staticCall.choice sound_instanceCall)

theorem sound_allocation : allocation.Sound Lexeme.token Expr.renderings := by
  refine ((sound_keyword "new").skipThen
    (sound_name.seq ((sound_punct .lbracket).skipThen (sound_punct .rbracket)).optional)).map
    fun (cls, array) => ?_
  cases array <;> exact le_rfl

/-- What makes a sequence of `f n` when any name `n` is put in front of it. -/
def after (f : Name → Language Token) : Language Token :=
  show Set (List Token) from {w | ∀ n : Name, .ident n.text :: w ∈ f n}

theorem mul_after_le (n : Name) (f : Name → Language Token) : n.renderings * after f ≤ f n := by
  intro w hw
  obtain ⟨w₁, rfl, w₂, hw₂, rfl⟩ := Language.mem_mul.1 hw
  exact hw₂ n

theorem le_after {L : Language Token} {f : Name →
      Language Token} (hf : ∀ n, n.renderings * L ≤ f n) :
    L ≤ after f :=
  fun _ hw n => hf n (Language.append_mem_mul (Set.mem_singleton [Token.ident n.text]) hw)

theorem sound_access : access.Sound Lexeme.token fun f => after fun n => (f n).renderings :=
  .choice (.map ((sound_punct .dot).skipThen sound_qualified) fun _ => le_after fun _ => le_rfl)
    (.choice (.map ((sound_punct .colons).skipThen sound_name) fun _ => le_after fun _ => le_rfl)
      (.map sound_brackets fun _ => le_after fun _ => le_rfl))

theorem sound_place : place.Sound Lexeme.token Expr.renderings := by
  refine (sound_name.seq sound_access.optional).map fun (first, access) => ?_
  cases access with
  | none => exact (mul_one _).le
  | some f => exact mul_after_le first fun n => (f n).renderings

theorem sound_expression : expression.Sound Lexeme.token Expr.renderings :=
  .label (.choice (.map sound_call fun _ => le_rfl)
    (.choice sound_allocation (.choice sound_constant sound_place)))

theorem sound_assigned : assigned.Sound Lexeme.token fun rhs => mark .equal * rhs.renderings :=
  (sound_punct .equal).skipThen sound_name

theorem sound_assignment : assignment.Sound Lexeme.token fun f => after fun n => (f n).renderings :=
  .choice (.map ((sound_punct .equal).skipThen sound_expression) fun _ => le_after fun _ => le_rfl)
    (.choice (.map ((sound_punct .dot).skipThen (sound_qualified.seq sound_assigned)) fun _ =>
        le_after fun _ => le_rfl)
      (.choice (.map ((sound_punct .colons).skipThen (sound_name.seq sound_assigned)) fun _ =>
          le_after fun _ => le_rfl)
        (.map (sound_brackets.skipThen sound_assigned) fun _ => le_after fun _ => le_rfl)))

theorem sound_command : command.Sound Lexeme.token Command.renderings :=
  .label (.choice (.map ((sound_keyword "return").skipThen sound_name.optional) fun _ => le_rfl)
    (.choice (.map sound_call fun _ => le_rfl)
      (.map (sound_name.seq sound_assignment) fun (n, f) => mul_after_le n
        fun n => (f n).renderings)))

theorem sound_statement : statement.Sound Lexeme.token fun c => c.renderings * mark .semicolon :=
  sound_command.thenSkip (sound_punct .semicolon)

theorem sound_modifier : modifier.Sound Lexeme.token Modifier.renderings :=
  .choice (.map (sound_keyword "static") fun _ => le_rfl)
    (.map (sound_keyword "abstract") fun _ => le_rfl)

theorem sound_fieldMember :
    fieldMember.Sound Lexeme.token fun (name, kind) => declarator name kind :=
  ((sound_keyword "field").skipThen (sound_name.thenSkip (sound_punct .semicolon))).map
    fun _ => le_rfl

theorem sound_body : body.Sound Lexeme.token bodyRenderings :=
  .choice (.map ((sound_punct .lbrace).between (sound_punct .rbrace) sound_statement.many)
    fun _ => le_rfl) (.map (sound_punct .semicolon) fun _ => le_rfl)

theorem sound_methodMember :
    methodMember.Sound Lexeme.token fun (name, kind) => declarator name kind :=
  ((sound_keyword "method").skipThen (sound_name.seq (sound_parenthesized.seq sound_body))).map
    fun _ => le_rfl

theorem sound_member : member.Sound Lexeme.token Member.renderings :=
  .label (.map (sound_modifier.many.seq (sound_fieldMember.choice sound_methodMember))
    fun _ => le_rfl)

theorem sound_members : members.Sound Lexeme.token inBraces :=
  (sound_punct .lbrace).between (sound_punct .rbrace) sound_member.many

/-- A clause that may be missing, with its names. -/
theorem sound_clause (w : String) :
    (((keyword w).skipThen names1).optional).Sound Lexeme.token fun o => clause w (o.getD []) := by
  intro ls o rest hread
  obtain ⟨used, hls, hused⟩ := ((sound_keyword w).skipThen sound_names1).optional hread
  refine ⟨used, hls, ?_⟩
  obtain _ | _ | ⟨n, names⟩ := o
  · exact hused
  · simp [listed1] at hused
  · exact hused

theorem sound_classTree : classTree.Sound Lexeme.token ClassTree.renderings := by
  refine (((sound_keyword "abstract").optional.thenSkip (sound_keyword "class")).seq
    (sound_name.seq (((sound_keyword "extends").skipThen sound_name).optional.seq
      ((sound_clause "implements").seq sound_members)))).map fun (isAbstract, _) => ?_
  cases isAbstract <;> exact le_rfl

theorem sound_interfaceTree : interfaceTree.Sound Lexeme.token ClassTree.renderings :=
  ((sound_keyword "interface").skipThen
    (sound_name.seq ((sound_clause "extends").seq sound_members))).map fun _ => le_rfl

theorem sound_entry : entry.Sound Lexeme.token Item.renderings :=
  ((sound_keyword "entry").seq (sound_qualified.thenSkip (sound_punct .semicolon))).map
    fun _ => le_rfl

theorem sound_item : item.Sound Lexeme.token Item.renderings :=
  .label (.choice sound_entry (.map (sound_classTree.choice sound_interfaceTree) fun _ => le_rfl))

theorem sound_program : program.Sound Lexeme.token renderings := sound_item.many

end Format

/-! ## Trees without lines -/

def Name.bare (n : Name) : Name := { n with line := 0 }

def Qualified.bare (q : Qualified) : Qualified := ⟨q.cls.bare, q.name.bare⟩

def CallTree.bare (c : CallTree) : CallTree :=
  { c with receiver := c.receiver.map Name.bare, target := c.target.bare, args :=
    c.args.map Name.bare }

def Expr.bare : Expr → Expr
  | .new cls array => .new cls.bare array
  | .const => .const
  | .copy value => .copy value.bare
  | .load base field => .load base.bare field.bare
  | .loadStatic field => .loadStatic field.bare
  | .loadArray base => .loadArray base.bare
  | .call c => .call c.bare

def Command.bare : Command → Command
  | .assign lhs rhs => .assign lhs.bare rhs.bare
  | .store base field rhs => .store base.bare field.bare rhs.bare
  | .storeStatic field rhs => .storeStatic field.bare rhs.bare
  | .storeArray base rhs => .storeArray base.bare rhs.bare
  | .call c => .call c.bare
  | .ret value => .ret (value.map Name.bare)

def MemberKind.bare : MemberKind → MemberKind
  | .field => .field
  | .method params body => .method (params.map Name.bare) (body.map (·.map Command.bare))

def Member.bare (m : Member) : Member := ⟨m.modifiers, m.name.bare, m.kind.bare⟩

def ClassTree.bare (t : ClassTree) : ClassTree :=
  { t with
    name := t.name.bare
    superclass := t.superclass.map Name.bare
    interfaces := t.interfaces.map Name.bare
    members := t.members.map Member.bare }

def Item.bare : Item → Item
  | .cls t => .cls t.bare
  | .entry target _ => .entry target.bare 0

section Bare

theorem listed_map {σ α β : Type} (K : Language σ) (L : β → Language σ) (f : α → β) (as : List α) :
    listed K L (as.map f) = listed K (fun a => L (f a)) as := by
  cases as with
  | nil => rfl
  | cons a as => simp only [listed, listed1, List.map_cons, List.map_map, Function.comp_def]

@[simp]
theorem Name.renderings_bare (n : Name) : n.bare.renderings = n.renderings := rfl

@[simp]
theorem Qualified.renderings_bare (q : Qualified) : q.bare.renderings = q.renderings := rfl

@[simp]
theorem inParens_map_bare (names : List Name) :
    inParens (names.map Name.bare) = inParens names := by
  simp only [inParens, listed_map, Name.renderings_bare]

@[simp]
theorem CallTree.renderings_bare (c : CallTree) : c.bare.renderings = c.renderings := by
  obtain ⟨kind, _ | receiver, target, args⟩ := c <;> simp [CallTree.bare, CallTree.renderings]

@[simp]
theorem Expr.renderings_bare (e : Expr) : e.bare.renderings = e.renderings := by
  cases e <;> simp [Expr.bare, Expr.renderings]

@[simp]
theorem Command.renderings_bare (c : Command) : c.bare.renderings = c.renderings := by
  cases c with
  | ret value => cases value <;> rfl
  | storeStatic => rfl
  | _ => simp [Command.bare, Command.renderings]

@[simp]
theorem declarator_bare (n : Name) (kind : MemberKind) :
    declarator n.bare kind.bare = declarator n kind := by
  cases kind with
  | field => rfl
  | method params body =>
    cases body <;> simp [MemberKind.bare, declarator, bodyRenderings, Function.comp_def]

@[simp]
theorem Member.renderings_bare (m : Member) : m.bare.renderings = m.renderings := by
  simp [Member.bare, Member.renderings]

@[simp]
theorem clause_map_bare (w : String) (names : List Name) :
    clause w (names.map Name.bare) = clause w names := by
  cases names with
  | nil => rfl
  | cons n names => simp [clause, listed1, Function.comp_def]

@[simp]
theorem inBraces_map_bare (ms : List Member) : inBraces (ms.map Member.bare) = inBraces ms := by
  simp [inBraces, Function.comp_def]

@[simp]
theorem ClassTree.renderings_bare (t : ClassTree) : t.bare.renderings = t.renderings := by
  obtain ⟨name, _ | _, _ | _, _ | superclass, interfaces, members⟩ := t <;>
    simp [ClassTree.bare, ClassTree.renderings]

@[simp]
theorem Item.renderings_bare (i : Item) : i.bare.renderings = i.renderings := by
  cases i <;> simp [Item.bare, Item.renderings]

/-- The renderings of items do not depend on their lines. -/
theorem renderings_map_bare (items : List Item) :
    renderings (items.map Item.bare) = renderings items := by
  simp [renderings, Function.comp_def]

theorem Item.classes_map_bare (items : List Item) :
    Item.classes (items.map Item.bare) = (Item.classes items).map ClassTree.bare := by
  rw [classes, classes, List.filterMap_map, List.map_filterMap]
  refine List.filterMap_congr fun i _ => ?_
  cases i <;> rfl

theorem Item.lastEntry_map_bare (items : List Item) :
    Item.lastEntry (items.map Item.bare) = (Item.lastEntry items).map fun (q, _) =>
      (q.bare, 0) := by
  rw [lastEntry, lastEntry, ← List.getLast?_map, List.filterMap_map, List.map_filterMap]
  refine congrArg _ (List.filterMap_congr fun i _ => ?_)
  cases i <;> rfl

end Bare

/-! ## The names of a tree -/

def Qualified.names (q : Qualified) : List Name := [q.cls, q.name]

def CallTree.names (c : CallTree) : List Name := c.receiver.toList ++ c.target.names ++ c.args

def Expr.names : Expr → List Name
  | .new cls _ => [cls]
  | .const => []
  | .copy value => [value]
  | .load base field => base :: field.names
  | .loadStatic field => field.names
  | .loadArray base => [base]
  | .call c => c.names

def Command.names : Command → List Name
  | .assign lhs rhs => lhs :: rhs.names
  | .store base field rhs => base :: field.names ++ [rhs]
  | .storeStatic field rhs => field.names ++ [rhs]
  | .storeArray base rhs => [base, rhs]
  | .call c => c.names
  | .ret value => value.toList

def MemberKind.names : MemberKind → List Name
  | .field => []
  | .method params body => params ++ (body.getD []).flatMap Command.names

def Member.names (m : Member) : List Name := m.name :: m.kind.names

def ClassTree.names (t : ClassTree) : List Name :=
  t.name :: t.superclass.toList ++ t.interfaces ++ t.members.flatMap Member.names

def Item.names : Item → List Name
  | .cls t => t.names
  | .entry target _ => target.names

end PointsTo.Text
