import PointsTo.Proofs.Lexing
import PointsTo.Proofs.Renderings

/-!
# Printing syntax trees

Of the renderings of a tree one is printed: a constant as `null`, an index of an array as nothing. A
tree that is `Spellable`, with a rendering of well-formed tokens, as each tree of a text is, is
printed as such a rendering (`spells_items`).
-/

namespace PointsTo.Text

/-! ## Sequences that can be written -/

/-- A sequence of well-formed tokens in a language. -/
structure Spells (L : Language Token) (ts : List Token) : Prop where
  mem : ts ∈ L
  wellFormed : ∀ t ∈ ts, t.WellFormed = true

def Spellable (L : Language Token) : Prop := ∃ ts, Spells L ts

section Spells

variable {L M : Language Token} {u v : List Token}

theorem Spells.mul (hu : Spells L u) (hv : Spells M v) : Spells (L * M) (u ++ v) :=
  ⟨Language.append_mem_mul hu.mem hv.mem, List.forall_mem_append.2 ⟨hu.wellFormed, hv.wellFormed⟩⟩

theorem Spells.one : Spells 1 [] := ⟨Language.nil_mem_one, fun _ ht => absurd ht List.not_mem_nil⟩

theorem Spells.add_left (hu : Spells L u) : Spells (L + M) u := ⟨.inl hu.mem, hu.wellFormed⟩

theorem Spells.prod {α : Type} {f : α → Language Token} {g : α → List Token} {as : List α}
    (h : ∀ a ∈ as, Spells (f a) (g a)) : Spells (as.map f).prod (as.flatMap g) := by
  induction as with
  | nil => exact .one
  | cons a as ih => exact (h a (.head as)).mul (ih fun b hb => h b (.tail a hb))

theorem spells_mark (p : Punct) : Spells (mark p) [.punct p] :=
  ⟨Set.mem_singleton _, by simp [Token.WellFormed]⟩

theorem spells_word {w : String} (hw : isIdent w.toList = true) : Spells (word w) [.ident w] :=
  ⟨Set.mem_singleton _, by simpa [Token.WellFormed] using hw⟩

@[simp]
theorem spellable_zero : ¬ Spellable 0 := fun ⟨_, h⟩ => Language.notMem_zero _ h.mem

@[simp]
theorem spellable_one : Spellable 1 := ⟨[], .one⟩

@[simp]
theorem spellable_mul : Spellable (L * M) ↔ Spellable L ∧ Spellable M := by
  constructor
  · rintro ⟨ts, h⟩
    obtain ⟨u, hu, v, hv, rfl⟩ := Language.mem_mul.1 h.mem
    have hall := List.forall_mem_append.1 h.wellFormed
    exact ⟨⟨u, hu, hall.1⟩, ⟨v, hv, hall.2⟩⟩
  · rintro ⟨⟨u, hu⟩, ⟨v, hv⟩⟩
    exact ⟨u ++ v, hu.mul hv⟩

@[simp]
theorem spellable_prod {Ls : List (Language Token)} :
    Spellable Ls.prod ↔ ∀ L ∈ Ls, Spellable L := by
  induction Ls with
  | nil => simp
  | cons L Ls ih => rw [List.prod_cons, spellable_mul, ih, List.forall_mem_cons]

@[simp]
theorem spellable_mark (p : Punct) : Spellable (mark p) := ⟨_, spells_mark p⟩

@[simp]
theorem spellable_word {w : String} : Spellable (word w) ↔ isIdent w.toList = true := by
  constructor
  · rintro ⟨_, rfl, h⟩
    exact h _ (.head [])
  · exact fun h => ⟨_, spells_word h⟩

@[simp]
theorem spellable_indexed : Spellable indexed := by
  rw [indexed, spellable_mul, spellable_mul]
  exact ⟨spellable_mark _, ⟨[], Spells.one.add_left⟩, spellable_mark _⟩

end Spells

/-! ## Tokens of trees -/

def Name.token (n : Name) : Token := .ident n.text

def Qualified.tokens (q : Qualified) : List Token := [q.cls.token, .punct .colons, q.name.token]

def listTokens : List Name → List Token
  | [] => []
  | n :: ns => n.token :: ns.flatMap fun n => [.punct .comma, n.token]

def parenTokens (ns : List Name) : List Token :=
  .punct .lparen :: (listTokens ns ++ [.punct .rparen])

def CallTree.tokens (c : CallTree) : List Token :=
  .ident (callWord c.kind) ::
    (c.receiver.elim [] (fun n => [n.token, .punct .dot]) ++
      (c.target.tokens ++ parenTokens c.args))

def Expr.tokens : Expr → List Token
  | .new cls array =>
    .ident "new" :: cls.token :: if array then [.punct .lbracket, .punct .rbracket] else []
  | .const => [.ident "null"]
  | .copy value => [value.token]
  | .load base field => base.token :: .punct .dot :: field.tokens
  | .loadStatic field => field.tokens
  | .loadArray base => [base.token, .punct .lbracket, .punct .rbracket]
  | .call c => c.tokens

def Command.tokens : Command → List Token
  | .assign lhs rhs => lhs.token :: .punct .equal :: rhs.tokens
  | .store base field rhs =>
    base.token :: .punct .dot :: (field.tokens ++ [.punct .equal, rhs.token])
  | .storeStatic field rhs => field.tokens ++ [.punct .equal, rhs.token]
  | .storeArray base rhs =>
    [base.token, .punct .lbracket, .punct .rbracket, .punct .equal, rhs.token]
  | .call c => c.tokens
  | .ret value => .ident "return" :: value.toList.map Name.token

def Modifier.tokens : Modifier → List Token
  | .static => [.ident "static"]
  | .abstract => [.ident "abstract"]

def bodyTokens : Option (List Command) → List Token
  | some cs =>
    .punct .lbrace :: (cs.flatMap (fun c => c.tokens ++ [.punct .semicolon]) ++ [.punct .rbrace])
  | none => [.punct .semicolon]

def declaratorTokens (name : Name) : MemberKind → List Token
  | .field => [.ident "field", name.token, .punct .semicolon]
  | .method params body => .ident "method" :: name.token :: (parenTokens params ++ bodyTokens body)

def Member.tokens (m : Member) : List Token :=
  m.modifiers.flatMap Modifier.tokens ++ declaratorTokens m.name m.kind

def clauseTokens (keyword : String) : List Name → List Token
  | [] => []
  | n :: ns => .ident keyword :: listTokens (n :: ns)

def ClassTree.tokens (t : ClassTree) : List Token :=
  (if t.isAbstract then [.ident "abstract"] else []) ++
    .ident (if t.isInterface then "interface" else "class") :: t.name.token ::
      (t.superclass.elim [] (fun n => [.ident "extends", n.token]) ++
        (clauseTokens (if t.isInterface then "extends" else "implements") t.interfaces ++
          .punct .lbrace :: (t.members.flatMap Member.tokens ++ [.punct .rbrace])))

def Item.tokens : Item → List Token
  | .cls t => t.tokens
  | .entry target _ => .ident "entry" :: (target.tokens ++ [.punct .semicolon])

/-! ## What is printed is a rendering -/

@[simp]
theorem Name.spellable_iff {n : Name} : Spellable n.renderings ↔ isIdent n.text.toList = true :=
  spellable_word

theorem Name.spells {n : Name} (h : Spellable n.renderings) : Spells n.renderings [n.token] :=
  spells_word (spellable_iff.1 h)

theorem Qualified.spells {q : Qualified} (h : Spellable q.renderings) :
    Spells q.renderings q.tokens := by
  obtain ⟨hcls, -, hname⟩ := (spellable_mul.1 h).imp id spellable_mul.1
  exact (Name.spells hcls).mul ((spells_mark .colons).mul (Name.spells hname))

theorem spells_listed {ns : List Name} (h : Spellable (listed (mark .comma) Name.renderings ns)) :
    Spells (listed (mark .comma) Name.renderings ns) (listTokens ns) := by
  cases ns with
  | nil => exact .one
  | cons n ns =>
    simp only [listed, listed1, spellable_mul, spellable_prod, List.forall_mem_map] at h
    exact (Name.spells h.1).mul (.prod
      fun m hm => (spells_mark .comma).mul (Name.spells (h.2 m hm).2))

theorem spells_inParens {ns : List Name} (h : Spellable (inParens ns)) :
    Spells (inParens ns) (parenTokens ns) := by
  simp only [inParens, spellable_mul] at h
  exact (spells_mark .lparen).mul ((spells_listed h.2.1).mul (spells_mark .rparen))

theorem spells_callWord (kind : CallKind) :
    Spells (word (callWord kind)) [.ident (callWord kind)] := by
  refine spells_word ?_
  cases kind <;> rfl

theorem CallTree.spells {c : CallTree} (h : Spellable c.renderings) :
    Spells c.renderings c.tokens := by
  obtain ⟨kind, _ | receiver, target, args⟩ := c
  · simp only [renderings] at h ⊢
    split at h
    next hkind =>
      rw [if_pos hkind]
      simp only [spellable_mul] at h
      exact (spells_callWord kind).mul ((Qualified.spells h.2.1).mul (spells_inParens h.2.2))
    next => exact absurd h spellable_zero
  · simp only [renderings] at h ⊢
    split at h
    next => exact absurd h spellable_zero
    next hkind =>
      rw [if_neg hkind]
      simp only [spellable_mul] at h
      exact (spells_callWord kind).mul (((Name.spells h.2.1.1).mul (spells_mark .dot)).mul
        ((Qualified.spells h.2.2.1).mul (spells_inParens h.2.2.2)))

theorem spells_indexed : Spells indexed [.punct .lbracket, .punct .rbracket] :=
  (spells_mark .lbracket).mul (Spells.one.add_left.mul (spells_mark .rbracket))

theorem Expr.spells {e : Expr} (h : Spellable e.renderings) : Spells e.renderings e.tokens := by
  cases e with
  | new cls array =>
    simp only [renderings, spellable_mul] at h
    refine (spells_word rfl).mul ((Name.spells h.2.1).mul ?_)
    cases array with
    | false => exact .one
    | true => exact (spells_mark .lbracket).mul (spells_mark .rbracket)
  | const => exact (spells_word rfl).add_left
  | copy value => exact Name.spells h
  | load base field =>
    simp only [renderings, spellable_mul] at h
    exact (Name.spells h.1).mul ((spells_mark .dot).mul (Qualified.spells h.2.2))
  | loadStatic field => exact Qualified.spells h
  | loadArray base => exact (Name.spells (spellable_mul.1 h).1).mul spells_indexed
  | call c => exact CallTree.spells h

theorem Command.spells {c : Command} (h : Spellable c.renderings) :
    Spells c.renderings c.tokens := by
  cases c with
  | assign lhs rhs =>
    simp only [renderings, spellable_mul] at h
    exact (Name.spells h.1).mul ((spells_mark .equal).mul (Expr.spells h.2.2))
  | store base field rhs =>
    simp only [renderings, spellable_mul] at h
    exact (Name.spells h.1).mul ((spells_mark .dot).mul ((Qualified.spells h.2.2.1).mul
      ((spells_mark .equal).mul (Name.spells h.2.2.2.2))))
  | storeStatic field rhs =>
    simp only [renderings, spellable_mul] at h
    exact (Name.spells h.1).mul ((spells_mark .colons).mul ((Name.spells h.2.2.1).mul
      ((spells_mark .equal).mul (Name.spells h.2.2.2.2))))
  | storeArray base rhs =>
    simp only [renderings, spellable_mul] at h
    exact (Name.spells h.1).mul
      (spells_indexed.mul ((spells_mark .equal).mul (Name.spells h.2.2.2)))
  | call c => exact CallTree.spells h
  | ret value =>
    cases value with
    | none => exact (spells_word rfl).mul .one
    | some v => exact (spells_word rfl).mul (Name.spells (spellable_mul.1 h).2)

theorem spells_body {body : Option (List Command)} (h : Spellable (bodyRenderings body)) :
    Spells (bodyRenderings body) (bodyTokens body) := by
  cases body with
  | none => exact spells_mark .semicolon
  | some cs =>
    simp only [bodyRenderings, spellable_mul, spellable_prod, List.forall_mem_map] at h
    exact (spells_mark .lbrace).mul
      ((Spells.prod fun c hc => (Command.spells (h.2.1 c hc).1).mul (spells_mark .semicolon)).mul
        (spells_mark .rbrace))

theorem spells_declarator {name : Name} {kind : MemberKind} (h : Spellable (declarator name kind)) :
    Spells (declarator name kind) (declaratorTokens name kind) := by
  cases kind with
  | field =>
    simp only [declarator, spellable_mul] at h
    exact (spells_word rfl).mul ((Name.spells h.2.1).mul (spells_mark .semicolon))
  | method params body =>
    simp only [declarator, spellable_mul] at h
    exact (spells_word rfl).mul
      ((Name.spells h.2.1).mul ((spells_inParens h.2.2.1).mul (spells_body h.2.2.2)))

theorem Modifier.spells (x : Modifier) : Spells x.renderings x.tokens := by
  cases x <;> exact spells_word rfl

theorem Member.spells {m : Member} (h : Spellable m.renderings) : Spells m.renderings m.tokens := by
  simp only [renderings, spellable_mul] at h
  exact (Spells.prod fun x _ => x.spells).mul (spells_declarator h.2)

theorem spells_inBraces {ms : List Member} (h : Spellable (inBraces ms)) :
    Spells (inBraces ms) (.punct .lbrace :: (ms.flatMap Member.tokens ++ [.punct .rbrace])) := by
  simp only [inBraces, spellable_mul, spellable_prod, List.forall_mem_map] at h
  exact (spells_mark .lbrace).mul
    ((Spells.prod fun m hm => Member.spells (h.2.1 m hm)).mul (spells_mark .rbrace))

theorem spells_clause {w : String} {ns : List Name} (h : Spellable (clause w ns)) :
    Spells (clause w ns) (clauseTokens w ns) := by
  cases ns with
  | nil => exact .one
  | cons n ns =>
    simp only [clause, spellable_mul, spellable_word] at h
    have hlist : Spellable (listed (mark .comma) Name.renderings (n :: ns)) := h.2
    exact (spells_word h.1).mul (spells_listed hlist)

theorem ClassTree.spells {t : ClassTree} (h : Spellable t.renderings) :
    Spells t.renderings t.tokens := by
  obtain ⟨name, isInterface, isAbstract, superclass, interfaces, members⟩ := t
  cases isInterface with
  | false =>
    simp only [renderings, spellable_mul] at h ⊢
    obtain ⟨-, hname, hsuper, hinterfaces, hmembers⟩ := h
    have hhead : Spells ((if isAbstract then word "abstract" else 1) * word "class")
        ((if isAbstract then [.ident "abstract"] else []) ++ [.ident "class"]) := by
      refine .mul ?_ (spells_word rfl)
      cases isAbstract with
      | false => exact .one
      | true => exact spells_word rfl
    have htail := (spells_clause hinterfaces).mul (spells_inBraces hmembers)
    have hmiddle : Spells (superclass.elim 1 fun n => word "extends" * n.renderings)
        (superclass.elim [] fun n => [.ident "extends", n.token]) := by
      cases superclass with
      | none => exact .one
      | some n => exact (spells_word rfl).mul (Name.spells (spellable_mul.1 hsuper).2)
    have hall := hhead.mul ((Name.spells hname).mul (hmiddle.mul htail))
    rwa [List.append_assoc] at hall
  | true =>
    cases isAbstract with
    | true => exact absurd h spellable_zero
    | false =>
      cases superclass with
      | some n => exact absurd h spellable_zero
      | none =>
        simp only [renderings, spellable_mul] at h
        exact (spells_word rfl).mul
          ((Name.spells h.2.1).mul ((spells_clause h.2.2.1).mul (spells_inBraces h.2.2.2)))

theorem Item.spells {i : Item} (h : Spellable i.renderings) : Spells i.renderings i.tokens := by
  cases i with
  | cls t => exact ClassTree.spells h
  | entry target line =>
    simp only [renderings, spellable_mul] at h
    exact (spells_word rfl).mul ((Qualified.spells h.2.1).mul (spells_mark .semicolon))

/-- Items that can be written are printed as one of their renderings. -/
theorem spells_items {items : List Item} (h : ∀ i ∈ items, Spellable i.renderings) :
    Spells (renderings items) (items.flatMap Item.tokens) :=
  .prod fun i hi => Item.spells (h i hi)

end PointsTo.Text
