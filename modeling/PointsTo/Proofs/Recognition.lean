import PointsTo.Proofs.Renderings

/-!
# Renderings are read

A rendering of items is read as those items, but for lines, if no name of theirs is a keyword. Every
choice between the rules is made by the first token, and an option or a repetition ends at a token
that could not continue it; keywords are the only obstacle, since they are tokens of the same kind
as names (`reads_expression_of_place`, `reads_command_of_assignment`). With the soundness of the
rules, the grammar accepts exactly the renderings: `parseItems_iff_rendering`.
-/

namespace PointsTo.Text

namespace Format

open Grammar

/-- The next token is this mark. -/
abbrev Before (p : Punct) : List Lexeme → Prop := Next Lexeme.token (· = .punct p)

section FirstTokens

theorem begins_mark (p : Punct) : Begins (mark p) (· = .punct p) := begins_singleton rfl

theorem begins_word (w : String) : Begins (word w) (· = .ident w) := begins_singleton rfl

theorem starts_punct (p : Punct) : (punct p).Starts Lexeme.token (· = .punct p) := by
  refine starts_symbol fun l _ hl => ?_
  split at hl
  next heq => exact heq
  next => cases hl

theorem starts_keyword (w : String) : (keyword w).Starts Lexeme.token (· = .ident w) := by
  refine starts_symbol fun l _ hl => ?_
  split at hl
  next heq => exact heq
  next => cases hl

theorem starts_name : name.Starts Lexeme.token fun t => ∃ x, t = .ident x := by
  refine starts_symbol fun l _ hl => ?_
  split at hl
  next text heq => exact ⟨text, heq⟩
  next => cases hl

theorem starts_index : index.Starts Lexeme.token fun t => ∀ p, t ≠ .punct p := by
  refine starts_symbol fun l _ hl p hp => ?_
  simp [hp] at hl

theorem starts_instanceKind :
    instanceKind.Starts Lexeme.token fun t => ∃ k, t = .ident (callWord k) := by
  refine starts_symbol fun l kind hl => ⟨kind, ?_⟩
  split at hl <;> cases hl <;> assumption

theorem starts_constant :
    constant.Starts Lexeme.token fun t => t = .ident "null" ∨ ∃ x, t = .int x := by
  refine starts_symbol fun l _ hl => ?_
  split at hl
  next text heq => exact .inr ⟨text, heq⟩
  next heq => exact .inl heq
  next => cases hl

theorem starts_call : call.Starts Lexeme.token fun t => ∃ k, t = .ident (callWord k) :=
  .label
    (.choice (.map (.skipThen ((starts_keyword "invokestatic").mono fun _ ht => ⟨.static, ht⟩)))
    (.map (.seq starts_instanceKind)))

theorem starts_allocation : allocation.Starts Lexeme.token (· = .ident "new") :=
  .map (.skipThen (starts_keyword "new"))

theorem starts_access : access.Starts Lexeme.token (· ≠ .punct .semicolon) :=
  .choice (.map (.skipThen ((starts_punct .dot).mono (by rintro _ rfl; decide))))
    (.choice (.map (.skipThen ((starts_punct .colons).mono (by rintro _ rfl; decide))))
      (.map (.map (.skipThen ((starts_punct .lbracket).mono (by rintro _ rfl; decide))))))

theorem starts_command : command.Starts Lexeme.token fun t => ∃ x, t = .ident x :=
  .label (.choice (.map (.skipThen ((starts_keyword "return").mono fun _ ht => ⟨_, ht⟩)))
    (.choice (.map (starts_call.mono fun _ ⟨k, hk⟩ => ⟨callWord k, hk⟩)) (.map (.seq starts_name))))

theorem starts_statement : statement.Starts Lexeme.token fun t => ∃ x, t = .ident x :=
  starts_command.thenSkip

theorem starts_modifier :
    modifier.Starts Lexeme.token fun t => t = .ident "static" ∨ t = .ident "abstract" :=
  .choice (.map ((starts_keyword "static").mono fun _ => .inl))
    (.map ((starts_keyword "abstract").mono fun _ => .inr))

theorem starts_fieldMember : fieldMember.Starts Lexeme.token (· = .ident "field") :=
  .map (.skipThen (starts_keyword "field"))

theorem starts_methodMember : methodMember.Starts Lexeme.token (· = .ident "method") :=
  .map (.skipThen (starts_keyword "method"))

theorem starts_member : member.Starts Lexeme.token fun t => ∃ x, t = .ident x := by
  refine .label (.map (MayStart.seq (starts_modifier.mono ?_).many
    (.choice (starts_fieldMember.mono ?_) (starts_methodMember.mono ?_))))
  · rintro _ (rfl | rfl) <;> exact ⟨_, rfl⟩
  · rintro _ rfl; exact ⟨_, rfl⟩
  · rintro _ rfl; exact ⟨_, rfl⟩

theorem starts_entry : entry.Starts Lexeme.token (· = .ident "entry") :=
  .map (.seq (starts_keyword "entry"))

theorem starts_classTree :
    classTree.Starts Lexeme.token fun t => t = .ident "abstract" ∨ t = .ident "class" :=
  .map (.seq (.map (MayStart.seq ((starts_keyword "abstract").mono fun _ => .inl).optional
    ((starts_keyword "class").mono fun _ => .inr))))

theorem starts_item : item.Starts Lexeme.token fun t => ∃ x, t = .ident x := by
  refine .label (.choice (starts_entry.mono ?_) (.map (.choice (starts_classTree.mono ?_)
    (.map (.skipThen ((starts_keyword "interface").mono ?_))))))
  · rintro _ rfl; exact ⟨_, rfl⟩
  · rintro _ (rfl | rfl) <;> exact ⟨_, rfl⟩
  · rintro _ rfl; exact ⟨_, rfl⟩

theorem callWord_mem_keywords (k : CallKind) : callWord k ∈ keywords := by cases k <;> decide

theorem callWord_ne (k : CallKind) :
    callWord k ≠ "new" ∧ callWord k ≠ "null" ∧ callWord k ≠ "return" := by
  cases k <;> decide

theorem begins_call (c : CallTree) : Begins c.renderings fun t => ∃ k, t = .ident (callWord k) := by
  have hword : Begins (word (callWord c.kind)) fun t => ∃ k, t = .ident (callWord k) :=
    begins_singleton ⟨_, rfl⟩
  rw [CallTree.renderings]
  split <;> split
  · exact .mul hword
  · exact begins_zero
  · exact begins_zero
  · exact .mul hword

theorem begins_const :
    Begins Expr.const.renderings fun t => t = .ident "null" ∨ ∃ x, t = .int x := by
  refine .add (begins_singleton (.inl rfl)) ?_
  rintro _ ⟨x, rfl⟩
  exact ⟨_, _, rfl, .inr ⟨x, rfl⟩⟩

end FirstTokens

section Reads

variable {F : List Lexeme → Prop}

theorem reads_punct (p : Punct) : (punct p).Reads Lexeme.token (mark p) (fun _ => True) F :=
  reads_symbol fun _ hw => ⟨_, hw, fun _ hl => ⟨(), if_pos hl, trivial⟩⟩

theorem reads_keyword (w : String) : (keyword w).Reads Lexeme.token (word w) (fun _ => True) F :=
  reads_symbol fun _ hw => ⟨_, hw, fun l hl => ⟨l.line, if_pos hl, trivial⟩⟩

theorem reads_name (n : Name) : name.Reads Lexeme.token n.renderings (·.bare = n.bare) F :=
  reads_symbol fun _ hw => ⟨_, hw, fun l hl => ⟨⟨n.text, l.line⟩, by simp only [hl], rfl⟩⟩

theorem reads_index : index.Reads Lexeme.token (anyIdent + anyInt) (fun _ => True) F := by
  refine reads_symbol fun w hw => ?_
  obtain ⟨x, rfl⟩ | ⟨x, rfl⟩ := hw
  · exact ⟨_, rfl, fun l hl => ⟨(), by simp only [hl], trivial⟩⟩
  · exact ⟨_, rfl, fun l hl => ⟨(), by simp only [hl], trivial⟩⟩

theorem reads_names1 (names : List Name) (hF : ∀ rest, F rest → (punct .comma).read? rest = none) :
    names1.Reads Lexeme.token (listed1 (mark .comma) Name.renderings names)
      (fun names' => names'.map Name.bare = names.map Name.bare) F :=
  .separated1 (reads_punct .comma) (begins_mark .comma) (fun n _ => reads_name n) hF

theorem reads_parenthesized (names : List Name) :
    parenthesized.Reads Lexeme.token (inParens names)
      (fun names' => names'.map Name.bare = names.map Name.bare) F := by
  refine .between (reads_punct .lparen) (reads_punct .rparen) ?_ (begins_mark .rparen)
  refine .separated (reads_punct .comma) (begins_mark .comma) (fun n _ => reads_name n) ?_ ?_
  · intro rest hrest
    exact (starts_punct .comma).read?_eq_none hrest (by rintro _ rfl; decide)
  · intro rest hrest
    exact starts_name.read?_eq_none hrest (by rintro _ rfl ⟨x, hx⟩; cases hx)

theorem reads_qualified (q : Qualified) :
    qualified.Reads Lexeme.token q.renderings (·.bare = q.bare) F := by
  refine .map (.mono (.seq (reads_name q.cls)
    (.skipThen (reads_punct .colons) (reads_name q.name))) ?_)
  rintro ⟨cls, name⟩ ⟨hcls, hname⟩
  exact congrArg₂ Qualified.mk hcls hname

theorem reads_brackets : brackets.Reads Lexeme.token indexed (fun _ => True) F := by
  refine .map (.between (reads_punct .lbracket) (reads_punct .rbracket) ?_ (begins_mark .rbracket))
  refine .add (reads_none trivial ?_) (.some reads_index fun _ _ => trivial)
  intro rest hrest
  exact starts_index.read?_eq_none hrest (by rintro _ rfl h; exact h _ rfl)

theorem reads_callTarget (target : Qualified) (args : List Name) :
    callTarget.Reads Lexeme.token (target.renderings * inParens args)
      (fun x => x.1.bare = target.bare ∧ x.2.map Name.bare = args.map Name.bare) F :=
  .seq (reads_qualified target) (reads_parenthesized args)

theorem reads_instanceKind (kind : CallKind) (hkind : kind ≠ .static) :
    instanceKind.Reads Lexeme.token (word (callWord kind)) (· = kind) F := by
  refine reads_symbol fun w hw => ⟨_, hw, fun l hl => ⟨kind, ?_, rfl⟩⟩
  cases kind with
  | static => exact absurd rfl hkind
  | _ => simp only [hl, callWord]

theorem reads_call (c : CallTree) : call.Reads Lexeme.token c.renderings (·.bare = c.bare) F := by
  obtain ⟨kind, _ | receiver, target, args⟩ := c <;> by_cases hkind : kind = .static
  · subst hkind
    refine .label
      (.left (.map (.mono (.skipThen (reads_keyword _) (reads_callTarget target args)) ?_)))
    rintro ⟨target', args'⟩ ⟨htarget, hargs⟩
    simp only [CallTree.bare, htarget, hargs]
  · simpa only [CallTree.renderings, if_neg hkind] using reads_zero
  · simpa only [CallTree.renderings, if_pos hkind] using reads_zero
  · simp only [CallTree.renderings, if_neg hkind]
    refine .label (.right (.map (.mono (.seq (reads_instanceKind kind hkind) (.seq
      (.thenSkip (reads_name receiver) (reads_punct .dot)) (reads_callTarget target args))) ?_))
      (.map (.skipThen (starts_keyword "invokestatic"))) (.mul (begins_word _)) ?_)
    · rintro ⟨kind', receiver', target', args'⟩ ⟨rfl, hreceiver, htarget, hargs⟩
      simp only [CallTree.bare, htarget, hargs, Option.map_some]
      rw [hreceiver]
    · rintro _ rfl
      cases kind <;> first | decide | exact absurd rfl hkind

theorem reads_allocation (cls : Name) (array : Bool) :
    allocation.Reads Lexeme.token (Expr.new cls array).renderings
      (·.bare = (Expr.new cls array).bare) (Before .semicolon) := by
  have hbrackets : ((punct .lbracket).skipThen (punct .rbracket)).optional.Reads Lexeme.token
      (if array then mark .lbracket * mark .rbracket else 1) (·.isSome = array)
      (Before .semicolon) := by
    cases array with
    | false =>
      refine reads_none rfl fun rest hrest => ?_
      exact (starts_punct .lbracket).skipThen.read?_eq_none hrest (by rintro _ rfl; decide)
    | true => exact .some (.skipThen (reads_punct .lbracket) (reads_punct .rbracket)) fun _ _ => rfl
  refine .map (.skipThen (reads_keyword "new") (.mono (.seq (reads_name cls) hbrackets) ?_))
  rintro ⟨cls', brackets⟩ ⟨hcls, harray⟩
  exact congrArg₂ Expr.new hcls harray

theorem reads_constant :
    constant.Reads Lexeme.token Expr.const.renderings (·.bare = Expr.const.bare) F := by
  refine reads_symbol fun w hw => ?_
  obtain rfl | ⟨x, rfl⟩ := hw
  · exact ⟨_, rfl, fun l hl => ⟨.const, by simp only [hl], rfl⟩⟩
  · exact ⟨_, rfl, fun l hl => ⟨.const, by simp only [hl], rfl⟩⟩

/-- An expression that starts with a name is read as a place, unless the name is a keyword. -/
theorem reads_expression_of_place {L : Language Token} {P : Expr → Prop} {n : Name}
    (hplace : place.Reads Lexeme.token (n.renderings * L) P F) (hn : n.text ∉ keywords) :
    expression.Reads Lexeme.token (n.renderings * L) P F := by
  have hL : Begins (n.renderings * L) (· = .ident n.text) := .mul (begins_word _)
  refine .label (.right (.right (.right hplace starts_constant hL ?_) starts_allocation hL ?_)
    (.map starts_call) hL ?_)
  · rintro _ rfl (h | ⟨x, hx⟩)
    · exact hn (Token.ident.inj h ▸ by decide)
    · cases hx
  · rintro _ rfl h
    exact hn (Token.ident.inj h ▸ by decide)
  · rintro _ rfl ⟨k, hk⟩
    exact hn (Token.ident.inj hk ▸ callWord_mem_keywords k)

/-- A name with what may follow it. The access is a function of the name, and the name is known but
for its line. -/
theorem reads_place {L : Language Token} {n : Name} {e : Expr}
    (haccess : access.Reads Lexeme.token L (fun f => ∀ n' : Name, n'.bare = n.bare →
      (f n').bare = e.bare) F) :
    place.Reads Lexeme.token (n.renderings * L) (·.bare = e.bare) F := by
  refine .map (.mono (.seq (reads_name n) (.some haccess (Q := fun o => ∃ f, o = some f ∧
    ∀ n' : Name, n'.bare = n.bare → (f n').bare = e.bare) fun f hf => ⟨f, rfl, hf⟩)) ?_)
  rintro ⟨n', _⟩ ⟨hn, f, rfl, hf⟩
  exact hf n' hn

theorem reads_expression (e : Expr) (he : ∀ n ∈ e.names, n.text ∉ keywords) :
    expression.Reads Lexeme.token e.renderings (·.bare = e.bare) (Before .semicolon) := by
  cases e with
  | new cls array =>
    refine .label (.right (.left (reads_allocation cls array)) (.map starts_call)
      (.mul (begins_word "new")) ?_)
    rintro _ rfl ⟨k, hk⟩
    exact (callWord_ne k).1 (Token.ident.inj hk).symm
  | const =>
    refine .label (.right (.right (.left reads_constant) starts_allocation begins_const ?_)
      (.map starts_call) begins_const ?_)
    · rintro _ (rfl | ⟨x, rfl⟩) <;> simp
    · rintro _ (rfl | ⟨x, rfl⟩) ⟨k, hk⟩
      · exact (callWord_ne k).2.1 (Token.ident.inj hk).symm
      · cases hk
  | copy value =>
    rw [Expr.renderings, ← mul_one value.renderings]
    refine reads_expression_of_place ?_ (he value List.mem_cons_self)
    refine .map (.mono (.seq (reads_name value) (reads_none (P := (· = none)) rfl ?_)) ?_)
    · exact fun rest hrest => starts_access.read?_eq_none hrest fun _ ht hne => hne ht
    · rintro ⟨value', _⟩ ⟨hvalue, rfl⟩
      exact congrArg Expr.copy hvalue
  | load base field =>
    refine reads_expression_of_place (reads_place (.left (.map (.mono
      (.skipThen (reads_punct .dot) (reads_qualified field)) ?_)))) (he base List.mem_cons_self)
    exact fun field' hfield base' hbase => congrArg₂ Expr.load hbase hfield
  | loadStatic field =>
    refine reads_expression_of_place (reads_place (.right (.left (.map (.mono
      (.skipThen (reads_punct .colons) (reads_name field.name)) ?_)))
      (.map (.skipThen (starts_punct .dot))) (.mul (begins_mark .colons)) ?_))
      (he field.cls List.mem_cons_self)
    · exact fun name' hname cls' hcls => congrArg Expr.loadStatic
        (congrArg₂ Qualified.mk hcls hname)
    · rintro _ rfl; decide
  | loadArray base =>
    refine reads_expression_of_place (reads_place (.right (.right (.map (.mono reads_brackets ?_))
      (.map (.skipThen (starts_punct .colons))) (.mul (begins_mark .lbracket)) ?_)
      (.map (.skipThen (starts_punct .dot))) (.mul (begins_mark .lbracket)) ?_))
      (he base List.mem_cons_self)
    · exact fun _ _ base' hbase => congrArg Expr.loadArray hbase
    · rintro _ rfl; decide
    · rintro _ rfl; decide
  | call c => exact .label (.left (.map (.mono (reads_call c) fun _ hc => congrArg Expr.call hc)))

theorem reads_assigned (rhs : Name) :
    assigned.Reads Lexeme.token (mark .equal * rhs.renderings) (·.bare = rhs.bare) F :=
  .skipThen (reads_punct .equal) (reads_name rhs)

/-- A command that starts with a name is read as an assignment, unless the name is a keyword. -/
theorem reads_command_of_assignment {L : Language Token} {n : Name} {c : Command}
    (hn : n.text ∉ keywords)
    (hassign : assignment.Reads Lexeme.token L (fun f => ∀ n' : Name, n'.bare = n.bare →
      (f n').bare = c.bare) F) :
    command.Reads Lexeme.token (n.renderings * L) (·.bare = c.bare) F := by
  have hL : Begins (n.renderings * L) (· = .ident n.text) := .mul (begins_word _)
  refine .label (.right (.right (.map (.mono (.seq (reads_name n) hassign) ?_))
    (.map starts_call) hL ?_) (.map (.skipThen (starts_keyword "return"))) hL ?_)
  · rintro ⟨n', f⟩ ⟨hn', hf⟩
    exact hf n' hn'
  · rintro _ rfl ⟨k, hk⟩
    exact hn (Token.ident.inj hk ▸ callWord_mem_keywords k)
  · rintro _ rfl h
    exact hn (Token.ident.inj h ▸ by decide)

theorem reads_command (c : Command) (hc : ∀ n ∈ c.names, n.text ∉ keywords) :
    command.Reads Lexeme.token c.renderings (·.bare = c.bare) (Before .semicolon) := by
  cases c with
  | assign lhs rhs =>
    refine reads_command_of_assignment (hc lhs List.mem_cons_self) (.left (.map (.mono
      (.skipThen (reads_punct .equal)
        (reads_expression rhs fun n hn => hc n (List.mem_cons_of_mem _ hn))) ?_)))
    exact fun rhs' hrhs lhs' hlhs => congrArg₂ Command.assign hlhs hrhs
  | store base field rhs =>
    have hL : Begins (mark .dot * (field.renderings * (mark .equal * rhs.renderings)))
        (· = .punct .dot) :=
      .mul (begins_mark .dot)
    refine reads_command_of_assignment (hc base List.mem_cons_self) (.right (.left (.map (.mono
      (.skipThen (reads_punct .dot) (.seq (reads_qualified field) (reads_assigned rhs))) ?_)))
      (.map (.skipThen (starts_punct .equal))) hL ?_)
    · rintro ⟨field', rhs'⟩ ⟨hfield, hrhs⟩ base' hbase
      simp only [Command.bare, hfield, hrhs, hbase]
    · rintro _ rfl; decide
  | storeStatic field rhs =>
    have hL : Begins (mark .colons * (field.name.renderings * (mark .equal * rhs.renderings)))
        (· = .punct .colons) :=
      .mul (begins_mark .colons)
    refine reads_command_of_assignment (hc field.cls List.mem_cons_self)
      (.right (.right (.left (.map (.mono
      (.skipThen (reads_punct .colons) (.seq (reads_name field.name) (reads_assigned rhs))) ?_)))
      (.map (.skipThen (starts_punct .dot))) hL ?_) (.map (.skipThen (starts_punct .equal))) hL ?_)
    · rintro ⟨name', rhs'⟩ ⟨hname, hrhs⟩ cls' hcls
      simp only [Command.bare, Qualified.bare, hname, hrhs, hcls]
    · rintro _ rfl; decide
    · rintro _ rfl; decide
  | storeArray base rhs =>
    have hL : Begins (indexed * (mark .equal * rhs.renderings)) (· = .punct .lbracket) :=
      .mul (.mul (begins_mark .lbracket))
    refine reads_command_of_assignment (hc base List.mem_cons_self)
      (.right (.right (.right (.map (.mono
      (.skipThen reads_brackets (reads_assigned rhs)) ?_))
      (.map (.skipThen (starts_punct .colons))) hL ?_)
      (.map (.skipThen (starts_punct .dot))) hL ?_) (.map (.skipThen (starts_punct .equal))) hL ?_)
    · exact fun rhs' hrhs base' hbase => congrArg₂ Command.storeArray hbase hrhs
    · rintro _ rfl; decide
    · rintro _ rfl; decide
    · rintro _ rfl; decide
  | call c =>
    refine .label (.right (.left (.map (.mono (reads_call c) fun _ hc => congrArg Command.call hc)))
      (.map (.skipThen (starts_keyword "return"))) (begins_call c) ?_)
    rintro _ ⟨k, rfl⟩ hk
    exact (callWord_ne k).2.2 (Token.ident.inj hk)
  | ret value =>
    have hvalue : name.optional.Reads Lexeme.token (value.elim 1 Name.renderings)
        (·.map Name.bare = value.map Name.bare) (Before .semicolon) := by
      cases value with
      | none =>
        refine reads_none rfl fun rest hrest => ?_
        exact starts_name.read?_eq_none hrest (by rintro _ rfl ⟨x, hx⟩; cases hx)
      | some n => exact .some (reads_name n) fun _ hn => congrArg some hn
    exact .label (.left (.map (.mono (.skipThen (reads_keyword "return") hvalue)
      fun _ hv => congrArg Command.ret hv)))

theorem reads_statement (c : Command) (hc : ∀ n ∈ c.names, n.text ∉ keywords) :
    statement.Reads Lexeme.token (c.renderings * mark .semicolon) (·.bare = c.bare) F :=
  .thenSkip_next (reads_command c hc) (reads_punct .semicolon) (begins_mark .semicolon)

theorem begins_command (c : Command) : Begins c.renderings fun t => ∃ x, t = .ident x := by
  cases c with
  | call c => exact (begins_call c).mono fun _ ⟨k, hk⟩ => ⟨callWord k, hk⟩
  | _ => exact .mul (begins_singleton ⟨_, rfl⟩)

theorem reads_body (body : Option (List Command))
    (hbody : ∀ n ∈ (body.getD []).flatMap Command.names, n.text ∉ keywords) :
    Format.body.Reads Lexeme.token (bodyRenderings body)
      (·.map (·.map Command.bare) = body.map (·.map Command.bare)) F := by
  cases body with
  | none =>
    refine .right (.map (.mono (reads_punct .semicolon) fun _ _ => rfl))
      (.map (.skipThen (starts_punct .lbrace))) (begins_mark .semicolon) ?_
    rintro _ rfl; decide
  | some cs =>
    have hcs : statement.many.Reads Lexeme.token
        (cs.map fun c => c.renderings * mark .semicolon).prod
        (fun cs' => cs'.map Command.bare = cs.map Command.bare) (Before .rbrace) := by
      refine .many (fun c hc => reads_statement c
        fun n hn => hbody n (List.mem_flatMap.2 ⟨c, hc, hn⟩))
        (fun c _ => (begins_command c).mul.nil_notMem) fun rest hrest => ?_
      exact starts_statement.read?_eq_none hrest (by rintro _ rfl ⟨x, hx⟩; cases hx)
    exact .left
      (.map (.mono (.between (reads_punct .lbrace) (reads_punct .rbrace) hcs (begins_mark .rbrace))
      fun _ hcs' => congrArg some hcs'))

theorem reads_declarator (n : Name) (kind : MemberKind)
    (hkind : ∀ n ∈ kind.names, n.text ∉ keywords) :
    (fieldMember.choice methodMember).Reads Lexeme.token (declarator n kind)
      (fun x => x.1.bare = n.bare ∧ x.2.bare = kind.bare) F := by
  cases kind with
  | field =>
    exact .left (.map
      (.mono (.skipThen (reads_keyword "field") (.thenSkip (reads_name n) (reads_punct .semicolon)))
      fun _ hn => ⟨hn, rfl⟩))
  | method params body =>
    have hbody := reads_body (F := F) body fun n hn => hkind n (List.mem_append_right _ hn)
    refine .right (.map (.mono (.skipThen (reads_keyword "method")
      (.seq (reads_name n) (.seq (reads_parenthesized params) hbody))) ?_))
      starts_fieldMember (.mul (begins_word "method")) ?_
    · rintro ⟨n', params', body'⟩ ⟨hn, hparams, hbody⟩
      exact ⟨hn, congrArg₂ MemberKind.method hparams hbody⟩
    · rintro _ rfl; decide

theorem begins_declarator (n : Name) (kind : MemberKind) :
    Begins (declarator n kind) fun t => t = .ident "field" ∨ t = .ident "method" := by
  cases kind with
  | field => exact .mul (begins_singleton (.inl rfl))
  | method => exact .mul (begins_singleton (.inr rfl))

theorem reads_modifier (m : Modifier) :
    modifier.Reads Lexeme.token m.renderings (id · = id m) F := by
  cases m with
  | static => exact .left (.map (.mono (reads_keyword "static") fun _ _ => rfl))
  | abstract =>
    refine .right (.map (.mono (reads_keyword "abstract") fun _ _ => rfl))
      (.map (starts_keyword "static")) (begins_word "abstract") ?_
    rintro _ rfl; decide

theorem reads_member (m : Member) (hm : ∀ n ∈ m.names, n.text ∉ keywords) :
    member.Reads Lexeme.token m.renderings (·.bare = m.bare) F := by
  have hmodifiers : modifier.many.Reads Lexeme.token (m.modifiers.map Modifier.renderings).prod
      (fun ms => ms.map id = m.modifiers.map id)
      (Next Lexeme.token fun t => t = .ident "field" ∨ t = .ident "method") := by
    refine .many (fun m _ => reads_modifier m) (fun m _ => ?_) fun rest hrest => ?_
    · cases m <;> exact (begins_word _).nil_notMem
    · exact starts_modifier.read?_eq_none hrest (by rintro _ (rfl | rfl) <;> decide)
  have hdeclarator :=
    reads_declarator (F := F) m.name m.kind fun n hn => hm n (List.mem_cons_of_mem _ hn)
  refine .label
    (.map (.mono (.seq_next hmodifiers hdeclarator (begins_declarator m.name m.kind)) ?_))
  rintro ⟨modifiers, name, kind⟩ ⟨hmodifiers, hname, hkind⟩
  simp only [List.map_id] at hmodifiers
  simp only [Member.bare, hmodifiers, hname, hkind]

theorem begins_member (m : Member) : Begins m.renderings fun t => ∃ x, t = .ident x := by
  obtain ⟨_ | ⟨_ | _, modifiers⟩, name, kind⟩ := m
  · rw [Member.renderings, List.map_nil, List.prod_nil, one_mul]
    exact (begins_declarator name kind).mono (by rintro _ (rfl | rfl) <;> exact ⟨_, rfl⟩)
  · exact .mul (.mul (begins_singleton ⟨_, rfl⟩))
  · exact .mul (.mul (begins_singleton ⟨_, rfl⟩))

theorem reads_members (ms : List Member) (hms : ∀ n ∈ ms.flatMap Member.names, n.text ∉ keywords) :
    members.Reads Lexeme.token (inBraces ms)
      (fun ms' => ms'.map Member.bare = ms.map Member.bare) F := by
  refine .between (reads_punct .lbrace) (reads_punct .rbrace) (.many
    (fun m hm => reads_member m fun n hn => hms n (List.mem_flatMap.2 ⟨m, hm, hn⟩))
    (fun m _ => (begins_member m).nil_notMem) fun rest hrest => ?_) (begins_mark .rbrace)
  exact starts_member.read?_eq_none hrest (by rintro _ rfl ⟨x, hx⟩; cases hx)

/-- A clause is read in front of the members. -/
theorem reads_clause (w : String) (names : List Name) :
    ((keyword w).skipThen names1).optional.Reads Lexeme.token (clause w names)
      (fun o => (o.getD []).map Name.bare = names.map Name.bare) (Before .lbrace) := by
  cases names with
  | nil =>
    refine reads_none rfl fun rest hrest => ?_
    exact (starts_keyword w).skipThen.read?_eq_none hrest (by rintro _ rfl h; cases h)
  | cons n names =>
    refine .some (.skipThen (reads_keyword w) (reads_names1 (n :: names) fun rest hrest => ?_))
      fun _ hnames => hnames
    exact (starts_punct .comma).read?_eq_none hrest (by rintro _ rfl; decide)

theorem begins_clause (w : String) (names : List Name) (ms : List Member) :
    Begins (clause w names * inBraces ms) fun t => t = .ident w ∨ t = .punct .lbrace := by
  cases names with
  | nil => exact (one_mul (inBraces ms)).symm ▸ .mul (begins_singleton (.inr rfl))
  | cons n names => exact .mul (.mul (begins_singleton (.inl rfl)))

theorem reads_classTree (t : ClassTree) (ht : ∀ n ∈ t.names, n.text ∉ keywords) :
    (classTree.choice interfaceTree).Reads Lexeme.token t.renderings (·.bare = t.bare) F := by
  have hmembers := reads_members (F := F) t.members fun n hn => ht n (by simp [ClassTree.names, hn])
  obtain ⟨name, isInterface, isAbstract, superclass, interfaces, members⟩ := t
  cases isInterface with
  | false =>
    have habstract : ((keyword "abstract").optional.thenSkip (keyword "class")).Reads Lexeme.token
        ((if isAbstract then word "abstract" else 1) * word "class") (·.isSome = isAbstract)
        fun _ => True := by
      refine .thenSkip_next (S := (· = .ident "class")) ?_ (reads_keyword "class")
        (begins_word "class")
      cases isAbstract with
      | false =>
        refine reads_none rfl fun rest hrest => ?_
        exact (starts_keyword "abstract").read?_eq_none hrest (by rintro _ rfl; decide)
      | true => exact .some (reads_keyword "abstract") fun _ _ => rfl
    have hsuper : ((keyword "extends").skipThen Format.name).optional.Reads Lexeme.token
        (superclass.elim 1 fun n => word "extends" * n.renderings)
        (·.map Name.bare = superclass.map Name.bare)
        (Next Lexeme.token fun t => t = .ident "implements" ∨ t = .punct .lbrace) := by
      cases superclass with
      | none =>
        refine reads_none rfl fun rest hrest => ?_
        exact (starts_keyword "extends").skipThen.read?_eq_none hrest
          (by rintro _ (rfl | rfl) <;> decide)
      | some n =>
        exact .some (.skipThen (reads_keyword "extends") (reads_name n))
          fun _ hn => congrArg some hn
    refine .left (.map (.mono (.seq habstract (.seq (reads_name name) (.seq_next hsuper
      (.seq_next (reads_clause "implements" interfaces) hmembers (.mul (begins_mark .lbrace)))
      (begins_clause "implements" interfaces members)))) ?_))
    rintro ⟨isAbstract', name', superclass', interfaces', members'⟩ ⟨habs, hname, hsup, hint, hmem⟩
    simp only [ClassTree.bare, habs, hname, hsup, hint, hmem]
  | true =>
    obtain _ | _ := isAbstract <;> obtain _ | n := superclass
    · refine .right (.map (.mono (.skipThen (reads_keyword "interface") (.seq (reads_name name)
        (.seq_next (reads_clause "extends" interfaces) hmembers (.mul (begins_mark .lbrace))))) ?_))
        starts_classTree (.mul (begins_word "interface")) ?_
      · rintro ⟨name', interfaces', members'⟩ ⟨hname, hint, hmem⟩
        simp only [ClassTree.bare, hname, hint, hmem, Option.map_none]
      · rintro _ rfl; decide
    · exact reads_zero
    · exact reads_zero
    · exact reads_zero

theorem begins_classTree (t : ClassTree) :
    Begins t.renderings fun t => t = .ident "abstract" ∨ t = .ident "class" ∨
      t = .ident "interface" := by
  obtain ⟨name, isInterface, isAbstract, superclass, interfaces, members⟩ := t
  cases isInterface with
  | false =>
    cases isAbstract with
    | false =>
      rw [ClassTree.renderings]
      simp only [Bool.false_eq_true, if_false, one_mul]
      exact .mul (begins_singleton (.inr (.inl rfl)))
    | true => exact .mul (.mul (begins_singleton (.inl rfl)))
  | true =>
    obtain _ | _ := isAbstract <;> obtain _ | n := superclass
    · exact .mul (begins_singleton (.inr (.inr rfl)))
    · exact begins_zero
    · exact begins_zero
    · exact begins_zero

theorem reads_item (i : Item) (hi : ∀ n ∈ i.names, n.text ∉ keywords) :
    item.Reads Lexeme.token i.renderings (·.bare = i.bare) F := by
  cases i with
  | cls t =>
    refine .label
      (.right (.map (.mono (reads_classTree t hi) fun _ ht => congrArg Item.cls ht)) starts_entry
      (begins_classTree t) ?_)
    rintro _ (rfl | rfl | rfl) <;> decide
  | entry target line =>
    refine .label (.left (.map (.mono (.seq (reads_keyword "entry")
      (.thenSkip (reads_qualified target) (reads_punct .semicolon))) ?_)))
    rintro ⟨line', target'⟩ ⟨-, htarget⟩
    simp only [Item.bare, htarget]

theorem begins_item (i : Item) : Begins i.renderings fun t => ∃ x, t = .ident x := by
  cases i with
  | cls t => exact (begins_classTree t).mono (by rintro _ (rfl | rfl | rfl) <;> exact ⟨_, rfl⟩)
  | entry target line => exact .mul (begins_singleton ⟨_, rfl⟩)

theorem reads_program (items : List Item) (hitems : ∀ i ∈ items, ∀ n ∈ i.names, n.text ∉ keywords) :
    program.Reads Lexeme.token (renderings items)
      (fun items' => items'.map Item.bare = items.map Item.bare) (· = []) := by
  refine .many (fun i hi => reads_item i (hitems i hi)) (fun i _ => (begins_item i).nil_notMem) ?_
  rintro _ rfl
  exact starts_item.read?_nil

end Reads

end Format

/-- Lexemes are read as some items, lines apart, exactly if their tokens are a rendering of these
items, provided that no name is a keyword. Whatever the names, lexemes that are read as some items
are a rendering of them. -/
theorem parseItems_iff_rendering (ls : List Lexeme) (items : List Item) :
    ((∀ i ∈ items, ∀ n ∈ i.names, n.text ∉ keywords) →
      ((∃ items', parseItems ls = .ok items' ∧ items'.map Item.bare = items.map Item.bare) ↔
        ls.map Lexeme.token ∈ renderings items)) ∧
    (parseItems ls = .ok items → ls.map Lexeme.token ∈ renderings items) := by
  have hsound : ∀ items', parseItems ls = .ok items' → ls.map Lexeme.token ∈ renderings items' := by
    intro items' hparse
    obtain ⟨used, hls, hused⟩ := Format.sound_program (Grammar.parse_eq_ok_iff.1 hparse)
    rwa [hls, List.append_nil]
  refine ⟨fun hnames => ⟨?_, fun hls => ?_⟩, hsound items⟩
  · rintro ⟨items', hparse, hbare⟩
    rw [← renderings_map_bare, ← hbare, renderings_map_bare]
    exact hsound items' hparse
  · obtain ⟨items', hread, hbare⟩ := Format.reads_program items hnames hls rfl
    rw [List.append_nil] at hread
    exact ⟨items', Grammar.parse_eq_ok_iff.2 hread, hbare⟩

/-- The tokens of  abstract class A extends B { method m(p) { x = new A[]; y = x[i]; x[] = y; return
y; } method n(); } interface I { static field f; } entry A::m;  all on line 1. -/
def sampleLexemes : List Lexeme :=
  ([.ident "abstract", .ident "class", .ident "A", .ident "extends", .ident "B", .punct .lbrace,
    .ident "method", .ident "m", .punct .lparen, .ident "p", .punct .rparen, .punct .lbrace,
    .ident "x", .punct .equal, .ident "new", .ident "A", .punct .lbracket, .punct .rbracket,
    .punct .semicolon,
    .ident "y", .punct .equal, .ident "x", .punct .lbracket, .ident "i", .punct .rbracket,
    .punct .semicolon,
    .ident "x", .punct .lbracket, .punct .rbracket, .punct .equal, .ident "y", .punct .semicolon,
    .ident "return", .ident "y", .punct .semicolon, .punct .rbrace,
    .ident "method", .ident "n", .punct .lparen, .punct .rparen, .punct .semicolon, .punct .rbrace,
    .ident "interface", .ident "I", .punct .lbrace,
    .ident "static", .ident "field", .ident "f", .punct .semicolon, .punct .rbrace,
    .ident "entry", .ident "A", .punct .colons, .ident "m", .punct .semicolon] : List Token).map
    (⟨·, 0, 0, 1⟩)

/-- The items of `sampleLexemes`, with names on other lines. -/
def sampleItems : List Item :=
  [.cls ⟨⟨"A", 1⟩, false, true, some ⟨"B", 2⟩, [],
      [⟨[], ⟨"m", 3⟩, .method [⟨"p", 4⟩] (some
          [.assign ⟨"x", 5⟩ (.new ⟨"A", 6⟩ true), .assign ⟨"y", 7⟩ (.loadArray ⟨"x", 8⟩),
            .storeArray ⟨"x", 9⟩ ⟨"y", 10⟩, .ret (some ⟨"y", 11⟩)])⟩,
        ⟨[], ⟨"n", 12⟩, .method [] none⟩]⟩,
    .cls ⟨⟨"I", 13⟩, true, false, none, [], [⟨[.static], ⟨"f", 14⟩, .field⟩]⟩,
    .entry ⟨⟨"A", 15⟩, ⟨"m", 16⟩⟩ 17]

theorem sample_parseItems_iff_rendering :
    (∀ i ∈ sampleItems, ∀ n ∈ i.names, n.text ∉ keywords) ∧
      (∃ items, parseItems sampleLexemes = .ok items ∧
        items.map Item.bare = sampleItems.map Item.bare) ∧
      sampleLexemes.map Lexeme.token ∈ renderings sampleItems := by
  have hnames : ∀ i ∈ sampleItems, ∀ n ∈ i.names, n.text ∉ keywords := by decide
  have hparse : (parseItems sampleLexemes).toOption.map (·.map Item.bare) =
      some (sampleItems.map Item.bare) := by
    decide +kernel
  have hread : ∃ items, parseItems sampleLexemes = .ok items ∧
      items.map Item.bare = sampleItems.map Item.bare := by
    cases h : parseItems sampleLexemes with
    | error f => rw [h] at hparse; cases hparse
    | ok items => exact ⟨items, rfl, by rw [h] at hparse; exact Option.some.inj hparse⟩
  exact ⟨hnames, hread, ((parseItems_iff_rendering sampleLexemes sampleItems).1 hnames).1 hread⟩

end PointsTo.Text
