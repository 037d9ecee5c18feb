import PointsTo.Proofs.Layout
import PointsTo.Proofs.Outcomes
import PointsTo.Proofs.Reading
import PointsTo.Proofs.Renderings

/-!
# Lines are told, not looked at

Two texts with the same tokens may have them on different lines. A run of a grammar goes alike on
symbols that its single parts cannot tell apart, and the values that it reads are alike, too
(`Respects`). The rules of the format look only at tokens (`Sees`), so that the items of two such
texts agree but for their lines (`parseItems_alike`). Entering them takes the same steps, since a
line is only put into messages. What comes out is the same program, or the same error on another
line (`Program.layout_irrelevant`).
-/

namespace PointsTo

/-! ## Runs that go alike -/

section Alike

variable {τ ε α β γ : Type} {R : τ → τ → Prop} {S : α → α → Prop} {S' : β → β → Prop}

/-- The same places and failures, alike values, and alike symbols that are left. -/
inductive Outcome.Alike (R : τ → τ → Prop) (S : α → α → Prop) :
    Outcome τ ε α → Outcome τ ε α → Prop where
  | ok {a b : α} {next : Nat} {rest rest' : List τ} {f : Option (Failure ε)} (value : S a b)
      (left : List.Forall₂ R rest rest') : Alike R S (.ok a next rest f) (.ok b next rest' f)
  | fail {f : Failure ε} : Alike R S (.fail f) (.fail f)

namespace Outcome.Alike

variable {o o' : Outcome τ ε α}

theorem map {f f' : α → β} (h : o.Alike R S o') (hf : ∀ a b, S a b → S' (f a) (f' b)) :
    (o.map f).Alike R S' (o'.map f') := by
  cases h with
  | ok value left => exact .ok (hf _ _ value) left
  | fail => exact .fail

theorem after (h : o.Alike R S o') (earlier : Option (Failure ε)) :
    (o.after earlier).Alike R S (o'.after earlier) := by
  cases h with
  | ok value left => exact .ok value left
  | fail => cases earlier <;> exact .fail

theorem named (h : o.Alike R S o') (name : ε) (start : Nat) :
    (o.named name start).Alike R S (o'.named name start) := by
  cases h with
  | ok value left => exact .ok value left
  | fail => exact .fail

theorem andThen {c c' : α → Nat → List τ → Outcome τ ε β} (h : o.Alike R S o')
    (hc : ∀ a b next rest rest', S a b → List.Forall₂ R rest rest' →
      (c a next rest).Alike R S' (c' b next rest')) :
    (o.andThen c).Alike R S' (o'.andThen c') := by
  cases h with
  | ok value left => exact (hc _ _ _ _ _ value left).after _
  | fail => exact .fail

theorem orElse {other other' : Outcome τ ε α} (h : o.Alike R S o')
    (hother : other.Alike R S other') :
    (o.orElse other).Alike R S (o'.orElse other') := by
  cases h with
  | ok value left => exact .ok value left
  | fail => exact hother.after _

end Outcome.Alike

namespace Grammar

/-- Runs on alike symbols go alike and read alike values. -/
def Respects (g : Grammar τ ε α) (R : τ → τ → Prop) (S : α → α → Prop) : Prop :=
  ∀ ⦃ts ts' : List τ⦄, List.Forall₂ R ts ts' → ∀ i, (g.run i ts).Alike R S (g.run i ts')

variable {g : Grammar τ ε α} {h : Grammar τ ε β}

theorem respects_symbol {expected : List ε} {accept : τ → Option α}
    (haccept : ∀ t t', R t t' → Option.Rel S (accept t) (accept t')) :
    (symbol expected accept).Respects R S := by
  intro ts ts' hts i
  cases hts with
  | nil => exact .fail
  | @cons t t' ts ts' ht hts =>
    have hrel := haccept t t' ht
    rw [run_symbol, run_symbol]
    generalize accept t = a, accept t' = b at hrel
    cases hrel with
    | none => exact .fail
    | some hab => exact .ok hab hts

theorem Respects.seq (hg : g.Respects R S) (hh : h.Respects R S') :
    (g.seq h).Respects R fun p q => S p.1 q.1 ∧ S' p.2 q.2 := by
  intro ts ts' hts i
  rw [run_seq, run_seq]
  refine (hg hts i).andThen fun a b next rest rest' hab hrest => ?_
  exact (hh hrest next).map fun _ _ hvalue => ⟨hab, hvalue⟩

theorem Respects.choice {g' : Grammar τ ε α} (hg : g.Respects R S) (hg' : g'.Respects R S) :
    (g.choice g').Respects R S := by
  intro ts ts' hts i
  rw [run_choice, run_choice]
  exact (hg hts i).orElse (hg' hts i)

theorem Respects.optional (hg : g.Respects R S) : g.optional.Respects R (Option.Rel S) := by
  intro ts ts' hts i
  rw [run_optional, run_optional]
  exact ((hg hts i).map fun _ _ => Option.Rel.some).orElse (.ok .none hts)

theorem alike_repeatRun {bound bound' : List τ} (hg : g.Respects R S)
    (hbound : List.Forall₂ R bound bound') {ts ts' : List τ}
    (hts : List.Forall₂ R ts ts') (i : Nat) :
    (repeatRun g.run bound i ts).Alike R (List.Forall₂ S) (repeatRun g.run bound' i ts') := by
  induction hbound generalizing ts ts' i with
  | nil =>
    have hrun := hg hts i
    rw [repeatRun, repeatRun]
    generalize g.run i ts = o, g.run i ts' = o' at hrun
    cases hrun with
    | ok value left => exact .ok (.cons value .nil) left
    | fail => exact .ok .nil hts
  | cons _ _ ih =>
    have hrun := hg hts i
    rw [repeatRun, repeatRun]
    generalize g.run i ts = o, g.run i ts' = o' at hrun
    cases hrun with
    | ok value left => exact ((ih left _).map fun _ _ => List.Forall₂.cons value).after _
    | fail => exact .ok .nil hts

theorem Respects.many (hg : g.Respects R S) : g.many.Respects R (List.Forall₂ S) :=
  fun _ _ hts i => alike_repeatRun hg hts hts i

theorem Respects.label {name : ε} (hg : g.Respects R S) : (g.label name).Respects R S :=
  fun _ _ hts i => (hg hts i).named name i

theorem Respects.map {f : α → β} (hg : g.Respects R S) (hf : ∀ a b, S a b → S' (f a) (f b)) :
    (g.map f).Respects R S' :=
  fun _ _ hts i => (hg hts i).map hf

theorem Respects.imp {T : α → α → Prop} (hg : g.Respects R S) (hST : ∀ a b, S a b → T a b) :
    g.Respects R T := by
  intro ts ts' hts i
  have hrun := hg hts i
  generalize g.run i ts = o, g.run i ts' = o' at hrun
  cases hrun with
  | ok value left => exact .ok (hST _ _ value) left
  | fail => exact .fail

theorem Respects.skipThen (hg : g.Respects R S) (hh : h.Respects R S') :
    (g.skipThen h).Respects R S' :=
  (hg.seq hh).map fun _ _ hvalue => hvalue.2

theorem Respects.thenSkip (hg : g.Respects R S) (hh : h.Respects R S') :
    (g.thenSkip h).Respects R S :=
  (hg.seq hh).map fun _ _ hvalue => hvalue.1

theorem Respects.between {S'' : γ → γ → Prop} {part : Grammar τ ε γ} (hg : g.Respects R S)
    (hh : h.Respects R S') (hpart : part.Respects R S'') :
    (Grammar.between g h part).Respects R S'' :=
  hg.skipThen (hpart.thenSkip hh)

theorem Respects.separated1 (hh : h.Respects R S') (hg : g.Respects R S) :
    (Grammar.separated1 h g).Respects R (List.Forall₂ S) :=
  (hg.seq (hh.skipThen hg).many).map fun _ _ hvalue => .cons hvalue.1 hvalue.2

theorem Respects.separated (hh : h.Respects R S') (hg : g.Respects R S) :
    (Grammar.separated h g).Respects R (List.Forall₂ S) :=
  (hh.separated1 hg).optional.map fun _ _ hvalue => by
    cases hvalue with
    | none => exact .nil
    | some hvalue => exact hvalue

/-- Alike symbols are accepted or refused together, with the same failure. -/
theorem Respects.parse (hg : g.Respects R S) (finish : ε) {ts ts' : List τ}
    (hts : List.Forall₂ R ts ts') :
    (∃ a b, g.parse finish ts = .ok a ∧ g.parse finish ts' = .ok b ∧ S a b) ∨
      ∃ f, g.parse finish ts = .error f ∧ g.parse finish ts' = .error f := by
  have hrun := hg hts 0
  rw [Grammar.parse, Grammar.parse]
  generalize g.run 0 ts = o, g.run 0 ts' = o' at hrun
  cases hrun with
  | fail => exact .inr ⟨_, rfl, rfl⟩
  | @ok a b next rest rest' f value left =>
    cases left with
    | nil => exact .inl ⟨a, b, rfl, rfl, value⟩
    | cons => cases f <;> exact .inr ⟨_, rfl, rfl⟩

end Grammar

end Alike

namespace Text

/-! ## The rules of the format -/

def Lexeme.SameToken (l l' : Lexeme) : Prop := l.token = l'.token

theorem map_eq_of_forall₂ {α β : Type} {f : α → β} {as bs : List α}
    (h : List.Forall₂ (fun a b => f a = f b) as bs) : as.map f = bs.map f := by
  induction h with
  | nil => rfl
  | cons hab _ ih => rw [List.map_cons, List.map_cons, hab, ih]

theorem map_eq_of_rel {α β : Type} {f : α → β} {o o' : Option α}
    (h : Option.Rel (fun a b => f a = f b) o o') : o.map f = o'.map f := by
  cases h with
  | none => rfl
  | some hab => exact congrArg some hab

namespace Format

open Lexeme (SameToken)

/-- What is read off lexemes with the same tokens looks the same. -/
abbrev Sees {α β : Type} (g : Rule α) (view : α → β) : Prop :=
  g.Respects SameToken fun a b => view a = view b

theorem sees_symbol {α β : Type} {expected : List Expectation} {accept : Lexeme → Option α}
    {view : α → β} (h : ∀ l l', l.token = l'.token → (accept l).map view = (accept l').map view) :
    Sees (.symbol expected accept) view := by
  refine Grammar.respects_symbol fun l l' hl => ?_
  have hview := h l l' hl
  generalize accept l = o, accept l' = o' at hview
  cases o with
  | none =>
    cases o' with
    | none => exact .none
    | some b => cases hview
  | some a =>
    cases o' with
    | none => cases hview
    | some b => exact .some (Option.some.inj hview)

theorem sees_punct (p : Punct) : Sees (punct p) fun _ => () :=
  sees_symbol fun l l' hl => by rw [hl]

theorem sees_keyword (word : String) : Sees (keyword word) fun _ => () :=
  sees_symbol fun l l' hl => by rw [hl]; split <;> rfl

theorem sees_name : Sees name Name.bare :=
  sees_symbol fun l l' hl => by rw [hl]; cases l'.token <;> rfl

theorem sees_index : Sees index fun _ => () :=
  sees_symbol fun l l' hl => by rw [hl]

theorem sees_instanceKind : Sees instanceKind id :=
  sees_symbol fun l l' hl => by rw [hl]

theorem sees_constant : Sees constant Expr.bare :=
  sees_symbol fun l l' hl => by rw [hl]

/-! Names -/

theorem sees_names1 : Sees names1 (List.map Name.bare) :=
  ((sees_punct .comma).separated1 sees_name).imp fun _ _ => map_eq_of_forall₂

theorem sees_parenthesized : Sees parenthesized (List.map Name.bare) :=
  (sees_punct .lparen).between (sees_punct .rparen)
    (((sees_punct .comma).separated sees_name).imp fun _ _ => map_eq_of_forall₂)

theorem sees_qualified : Sees qualified Qualified.bare :=
  (sees_name.seq ((sees_punct .colons).skipThen sees_name)).map
    fun _ _ h => congrArg₂ Qualified.mk h.1 h.2

theorem sees_brackets : Sees brackets fun _ => () :=
  ((sees_punct .lbracket).between (sees_punct .rbracket) sees_index.optional).map fun _ _ _ => rfl

/-! Statements -/

theorem respects_callTarget : callTarget.Respects SameToken
    fun c c' => c.1.bare = c'.1.bare ∧ c.2.map Name.bare = c'.2.map Name.bare :=
  sees_qualified.seq sees_parenthesized

theorem sees_staticCall : Sees staticCall CallTree.bare :=
  ((sees_keyword "invokestatic").skipThen respects_callTarget).map fun _ _ h => by
    simp only [CallTree.bare, h]

theorem sees_instanceCall : Sees instanceCall CallTree.bare := by
  refine (sees_instanceKind.seq
    ((sees_name.thenSkip (sees_punct .dot)).seq respects_callTarget)).map fun c c' h => ?_
  obtain ⟨hkind, hreceiver, htarget, hargs⟩ := h
  have hkind : c.1 = c'.1 := hkind
  simp only [CallTree.bare, hkind, Option.map_some, hreceiver, htarget, hargs]

theorem sees_call : Sees call CallTree.bare := (sees_staticCall.choice sees_instanceCall).label

theorem sees_allocation : Sees allocation Expr.bare := by
  refine ((sees_keyword "new").skipThen (sees_name.seq
    ((sees_punct .lbracket).skipThen (sees_punct .rbracket)).optional)).map ?_
  rintro ⟨cls, array⟩ ⟨cls', array'⟩ ⟨hcls, harray⟩
  have hsome : array.isSome = array'.isSome := by cases harray <;> rfl
  simp only [Expr.bare, hcls, hsome]

/-- What is put after alike names makes alike right-hand sides. -/
theorem respects_access : access.Respects SameToken
    fun f f' => ∀ n n', n.bare = n'.bare → (f n).bare = (f' n').bare := by
  refine .choice ?_ (.choice ?_ ?_)
  · exact ((sees_punct .dot).skipThen sees_qualified).map fun _ _ hfield n n' hn => by
      simp only [Expr.bare, hn, hfield]
  · exact ((sees_punct .colons).skipThen sees_name).map fun _ _ hname n n' hn => by
      simp only [Expr.bare, Qualified.bare, hn, hname]
  · exact sees_brackets.map fun _ _ _ n n' hn => by simp only [Expr.bare, hn]

theorem sees_place : Sees place Expr.bare := by
  refine (sees_name.seq respects_access.optional).map ?_
  rintro ⟨n, f⟩ ⟨n', f'⟩ ⟨hn, hf⟩
  cases hf with
  | none => simp only [Expr.bare, hn]
  | some hf => exact hf n n' hn

theorem sees_expression : Sees expression Expr.bare := by
  refine .label (.choice ?_ (.choice sees_allocation (.choice sees_constant sees_place)))
  exact sees_call.map fun _ _ hcall => congrArg Expr.call hcall

theorem sees_assigned : Sees assigned Name.bare := (sees_punct .equal).skipThen sees_name

theorem respects_assignment : assignment.Respects SameToken
    fun f f' => ∀ n n', n.bare = n'.bare → (f n).bare = (f' n').bare := by
  refine .choice ?_ (.choice ?_ (.choice ?_ ?_))
  · exact ((sees_punct .equal).skipThen sees_expression).map fun _ _ hrhs n n' hn => by
      simp only [Command.bare, hn, hrhs]
  · exact ((sees_punct .dot).skipThen (sees_qualified.seq sees_assigned)).map
        fun _ _ h n n' hn => by
      simp only [Command.bare, hn, h]
  · exact ((sees_punct .colons).skipThen (sees_name.seq sees_assigned)).map fun _ _ h n n' hn => by
      simp only [Command.bare, Qualified.bare, hn, h]
  · exact (sees_brackets.skipThen sees_assigned).map fun _ _ hrhs n n' hn => by
      simp only [Command.bare, hn, hrhs]

theorem sees_command : Sees command Command.bare := by
  refine .label (.choice ?_ (.choice ?_ ?_))
  · exact ((sees_keyword "return").skipThen sees_name.optional).map
      fun _ _ h => congrArg Command.ret (map_eq_of_rel h)
  · exact sees_call.map fun _ _ hcall => congrArg Command.call hcall
  · exact (sees_name.seq respects_assignment).map fun _ _ h => h.2 _ _ h.1

theorem sees_statement : Sees statement Command.bare :=
  sees_command.thenSkip (sees_punct .semicolon)

/-! Declarations -/

theorem sees_modifier : Sees modifier id :=
  .choice ((sees_keyword "static").map fun _ _ _ => rfl)
    ((sees_keyword "abstract").map fun _ _ _ => rfl)

theorem respects_fieldMember : fieldMember.Respects SameToken
    fun m m' => m.1.bare = m'.1.bare ∧ m.2.bare = m'.2.bare :=
  ((sees_keyword "field").skipThen (sees_name.thenSkip (sees_punct .semicolon))).map
    fun _ _ hname => ⟨hname, rfl⟩

theorem sees_body : Sees body (Option.map (List.map Command.bare)) := by
  refine .choice ?_ ((sees_punct .semicolon).map fun _ _ _ => rfl)
  exact ((sees_punct .lbrace).between (sees_punct .rbrace) sees_statement.many).map
    fun _ _ h => congrArg some (map_eq_of_forall₂ h)

theorem respects_methodMember : methodMember.Respects SameToken
    fun m m' => m.1.bare = m'.1.bare ∧ m.2.bare = m'.2.bare :=
  ((sees_keyword "method").skipThen (sees_name.seq (sees_parenthesized.seq sees_body))).map
    fun _ _ ⟨hname, hparams, hbody⟩ => ⟨hname, congrArg₂ MemberKind.method hparams hbody⟩

theorem sees_member : Sees member Member.bare := by
  refine .label ((sees_modifier.many.seq
    (respects_fieldMember.choice respects_methodMember)).map ?_)
  rintro ⟨modifiers, name, kind⟩ ⟨modifiers', name', kind'⟩ ⟨hmodifiers, hname, hkind⟩
  have hsame : modifiers = modifiers' := by simpa using map_eq_of_forall₂ hmodifiers
  simp only [Member.bare, hsame, hname, hkind]

theorem sees_members : Sees members (List.map Member.bare) :=
  (sees_punct .lbrace).between (sees_punct .rbrace)
    (sees_member.many.imp fun _ _ => map_eq_of_forall₂)

/-- The names of a clause that may be missing. -/
theorem sees_clause (word : String) : ((keyword word).skipThen names1).optional.Respects SameToken
    fun o o' => (o.getD []).map Name.bare = (o'.getD []).map Name.bare :=
  ((sees_keyword word).skipThen sees_names1).optional.imp fun _ _ h => by
    cases h with
    | none => rfl
    | some hnames => exact hnames

theorem sees_classTree : Sees classTree ClassTree.bare := by
  refine (((sees_keyword "abstract").optional.thenSkip (sees_keyword "class")).seq
    (sees_name.seq (((sees_keyword "extends").skipThen sees_name).optional.seq
      ((sees_clause "implements").seq sees_members)))).map ?_
  rintro ⟨isAbstract, tree⟩ ⟨isAbstract', tree'⟩
    ⟨habstract, hname, hsuperclass, hinterfaces, hmembers⟩
  have hsome : isAbstract.isSome = isAbstract'.isSome := by cases habstract <;> rfl
  simp only [ClassTree.bare, hsome, hname, map_eq_of_rel hsuperclass, hinterfaces, hmembers]

theorem sees_interfaceTree : Sees interfaceTree ClassTree.bare := by
  refine ((sees_keyword "interface").skipThen
    (sees_name.seq ((sees_clause "extends").seq sees_members))).map
    fun _ _ ⟨hname, hinterfaces, hmembers⟩ => ?_
  simp only [ClassTree.bare, hname, hinterfaces, hmembers]

theorem sees_entry : Sees entry Item.bare :=
  ((sees_keyword "entry").seq (sees_qualified.thenSkip (sees_punct .semicolon))).map
    fun _ _ h => congrArg (Item.entry · 0) h.2

theorem sees_item : Sees item Item.bare :=
  .label (.choice sees_entry ((sees_classTree.choice sees_interfaceTree).map
    fun _ _ h => congrArg Item.cls h))

theorem sees_program : Sees program (List.map Item.bare) :=
  sees_item.many.imp fun _ _ => map_eq_of_forall₂

end Format

/-- The items of lexemes with the same tokens differ in their lines only, and so does the
failure. -/
theorem parseItems_alike {ls ls' : List Lexeme} (h : List.Forall₂ Lexeme.SameToken ls ls') :
    (∃ items items', parseItems ls = .ok items ∧ parseItems ls' = .ok items' ∧
        items.map Item.bare = items'.map Item.bare) ∨
      ∃ f, parseItems ls = .error f ∧ parseItems ls' = .error f :=
  Format.sees_program.parse .endOfInput h

/-! ## Entering items -/

/-- The error without its line. -/
def ParseError.bare : ParseError → ParseError
  | .lex error => .lex { error with line := 0 }
  | .unexpected _ expected found => .unexpected 0 expected found
  | .endOfInput expected => .endOfInput expected
  | .reserved _ name => .reserved 0 name
  | .abstractBody _ method => .abstractBody 0 method
  | .unknownEntry _ cls method => .unknownEntry 0 cls method
  | .ambiguousEntry _ cls method => .ambiguousEntry 0 cls method
  | .build error => .build error

namespace Entering

variable {α β γ : Type} {m : MethodId}

/-- The same step with an error that does not tell its line. -/
def blur (x : Entering α) : Entering α := fun d => (x d).mapError ParseError.bare

@[simp]
theorem blur_pure (a : α) : blur (pure a) = pure a := rfl

@[simp]
theorem blur_bind (x : Entering α) (f : α → Entering β) :
    blur (x >>= f) = blur x >>= fun a => blur (f a) := by
  funext d
  simp only [blur, bind, StateT.bind, Except.bind]
  cases x d <;> rfl

@[simp]
theorem blur_throw (e : ParseError) : blur (throw e : Entering α) = throw e.bare := rfl

@[simp]
theorem blur_map (f : α → β) (x : Entering α) : blur (f <$> x) = f <$> blur x := by
  rw [map_eq_pure_bind, map_eq_pure_bind, blur_bind]
  rfl

@[simp]
theorem blur_mapM (f : α → Entering β) (as : List α) :
    blur (as.mapM f) = as.mapM fun a => blur (f a) := by
  induction as with
  | nil => rfl
  | cons a as ih => simp only [List.mapM_cons, blur_bind, blur_pure, ih]

@[simp]
theorem blur_forM (f : α → Entering Unit) (as : List α) :
    blur (forM as f) = forM as fun a => blur (f a) := by
  induction as with
  | nil => rfl
  | cons a as ih => simp only [List.forM_cons, blur_bind, ih]

@[simp]
theorem blur_optional (f : α → Entering β) (o : Option α) :
    blur (Entering.optional f o) = Entering.optional (fun a => blur (f a)) o := by
  cases o with
  | none => rfl
  | some a => simp only [Entering.optional, blur_bind, blur_pure]

@[simp]
theorem optional_map (f : β → Entering γ) (g : α → β) (o : Option α) :
    Entering.optional f (o.map g) = Entering.optional (fun a => f (g a)) o := by
  cases o <;> rfl

/-! Whatever is entered, its lines are only told in errors. -/

@[simp]
theorem blur_name (n : Name) : blur (name n.bare) = blur (name n) := by
  by_cases hn : n.text ∈ keywords
  · simp [name, Name.bare, hn, ParseError.bare]
  · simp [name, Name.bare, hn]

@[simp]
theorem blur_cls (n : Name) : blur (cls n.bare) = blur (cls n) := by
  simp [cls]

@[simp]
theorem blur_var (n : Name) : blur (var m n.bare) = blur (var m n) := by
  simp [var]

@[simp]
theorem blur_fieldRef (q : Qualified) : blur (fieldRef q.bare) = blur (fieldRef q) := by
  simp [fieldRef, Qualified.bare]

@[simp]
theorem blur_invoke (lhs : Option VarId) (c : CallTree) :
    blur (invoke m lhs c.bare) = blur (invoke m lhs c) := by
  simp [invoke, CallTree.bare, Qualified.bare]

@[simp]
theorem blur_assign (lhs : VarId) (e : Expr) :
    blur (assign m lhs e.bare) = blur (assign m lhs e) := by
  cases e <;> simp [assign, Expr.bare]

@[simp]
theorem blur_stmt (c : Command) : blur (stmt m c.bare) = blur (stmt m c) := by
  cases c <;> simp [stmt, Command.bare]

@[simp]
theorem blur_command (c : Command) : blur (command m c.bare) = blur (command m c) := by
  simp [command]

@[simp]
theorem blur_member (c : ClassId) (x : Member) : blur (member c x.bare) = blur (member c x) := by
  obtain ⟨modifiers, n, kind⟩ := x
  cases kind with
  | field =>
    change blur (member c ⟨modifiers, n.bare, .field⟩) = _
    simp [member]
  | method params body =>
    change blur (member c ⟨modifiers, n.bare,
      .method (params.map Name.bare) (body.map (·.map Command.bare))⟩) = _
    cases body with
    | none => simp [member]
    | some cs =>
      by_cases habstract : .abstract ∈ modifiers
      · simp [member, habstract, ParseError.bare]
      · simp [member, habstract]

@[simp]
theorem blur_classTree (t : ClassTree) : blur (classTree t.bare) = blur (classTree t) := by
  simp [classTree, ClassTree.bare]

theorem blur_entry (q : Qualified) (line : Nat) : blur (entry q.bare 0) = blur (entry q line) := by
  simp only [entry, Qualified.bare, blur_bind, blur_name]
  refine bind_congr fun cls => bind_congr fun method => bind_congr fun d => ?_
  split <;> rfl

end Entering

theorem Entering.blur_items (items : List Item) :
    blur (Entering.items (items.map Item.bare)) = blur (Entering.items items) := by
  rw [Entering.items, Entering.items, Item.classes_map_bare, Item.lastEntry_map_bare]
  cases Item.lastEntry items with
  | none => simp
  | some e => simp [blur_entry e.1 e.2]

/-- The same draft is described by items on other lines. -/
theorem draftOf_map_bare (items : List Item) :
    (draftOf (items.map Item.bare)).mapError ParseError.bare =
      (draftOf items).mapError ParseError.bare := by
  have hcomm : ∀ r : Except ParseError (Unit × Draft),
      (r.map Prod.snd).mapError ParseError.bare = (r.mapError ParseError.bare).map Prod.snd := by
    intro r
    cases r <;> rfl
  have hrun := congrFun (Entering.blur_items items) {}
  rw [draftOf, draftOf, hcomm, hcomm]
  exact congrArg (Except.map Prod.snd) hrun

/-! ## Programs -/

theorem ofFailure_bare {ls ls' : List Lexeme} (h : List.Forall₂ Lexeme.SameToken ls ls')
    (f : Failure Expectation) :
    (ParseError.ofFailure ls f).bare = (ParseError.ofFailure ls' f).bare := by
  have htokens : ls.map Lexeme.token = ls'.map Lexeme.token := map_eq_of_forall₂ h
  have hget := congrArg (·[f.index]?) htokens
  simp only [List.getElem?_map] at hget
  rw [ParseError.ofFailure, ParseError.ofFailure]
  generalize ls[f.index]? = l, ls'[f.index]? = l' at hget
  cases l with
  | none =>
    cases l' with
    | none => rfl
    | some l' => cases hget
  | some l =>
    cases l' with
    | none => cases hget
    | some l' => exact congrArg (ParseError.unexpected 0 f.expected) (Option.some.inj hget)

end Text

open Text

theorem mapError_bind {ε ε' α β : Type} (g : ε → ε') (x : Except ε α) (f : α → Except ε β) :
    (x >>= f).mapError g = x.mapError g >>= fun a => (f a).mapError g := by
  cases x <;> rfl

theorem mapError_mapError {ε ε' ε'' α : Type} (g : ε → ε') (g' : ε' → ε'') (x : Except ε α) :
    (x.mapError g).mapError g' = x.mapError fun e => g' (g e) := by
  cases x <;> rfl

/-- What follows the lexer, without lines in errors. -/
theorem Program.ofText_bare {text : String} {ls : List Lexeme} (h : lex text = .ok ls) :
    (Program.ofText text).mapError ParseError.bare =
      (parseItems ls).mapError (fun f => (ParseError.ofFailure ls f).bare) >>= fun items =>
        (draftOf items).mapError ParseError.bare >>= fun d =>
          d.seal.mapError fun id => ParseError.build (.dangling id) := by
  rw [Program.ofText, h]
  simp only [mapError_bind, mapError_mapError]
  rfl

/-- Texts with the same tokens give the same program, or the same error on another line. -/
theorem Program.ofText_of_tokens_eq {text text' : String} {ls ls' : List Lexeme}
    (hlex : lex text = .ok ls) (hlex' : lex text' = .ok ls')
    (htokens : ls.map Lexeme.token = ls'.map Lexeme.token) :
    (Program.ofText text).mapError ParseError.bare =
      (Program.ofText text').mapError ParseError.bare := by
  have hsame : List.Forall₂ Lexeme.SameToken ls ls' := by
    have hmap : List.Forall₂ (· = ·) (ls.map Lexeme.token) (ls'.map Lexeme.token) :=
      htokens ▸ List.forall₂_refl _
    rwa [List.forall₂_map_left_iff, List.forall₂_map_right_iff] at hmap
  rw [ofText_bare hlex, ofText_bare hlex']
  obtain ⟨items, items', hparse, hparse', hbare⟩ | ⟨f, hparse, hparse'⟩ := parseItems_alike hsame
  · have hdraft : (draftOf items).mapError ParseError.bare =
        (draftOf items').mapError ParseError.bare := by
      rw [← draftOf_map_bare, hbare, draftOf_map_bare]
    rw [hparse, hparse']
    change ((draftOf items).mapError ParseError.bare >>= _) =
      (draftOf items').mapError ParseError.bare >>= _
    rw [hdraft]
  · rw [hparse, hparse']
    exact congrArg Except.error (ofFailure_bare hsame f)

/-- In a text of tokens with any blanks and comments around them, the lexer finds the tokens where
they stand. The same tokens with others around them give the same program, or the same error on
another line. -/
theorem Program.layout_irrelevant (l : Layout) :
    lex l.text = .ok l.lexemes ∧ l.lexemes.map Lexeme.token = l.tokens ∧
      ∀ l' : Layout, l'.tokens = l.tokens →
        (Program.ofText l'.text).mapError ParseError.bare =
          (Program.ofText l.text).mapError ParseError.bare := by
  refine ⟨l.lex_text, l.map_token_lexemes,
    fun l' htokens => ofText_of_tokens_eq l'.lex_text l.lex_text ?_⟩
  rw [l'.map_token_lexemes, l.map_token_lexemes, htokens]

/-- Tokens with blanks only where they cannot do without. -/
def sampleDense : Layout where
  before := []
  parts :=
    [(.ident "class", [.blank ' ' rfl]), (.ident "A", []), (.punct .lbrace, []),
      (.punct .rbrace, []),
    (.ident "a", []), (.int "-5", [.blank '\t' rfl]), (.int "5", []), (.ident "a", []),
    (.punct .colons, []), (.punct .colons, [])]
  comment := none
  wellFormed := by decide
  apart := by decide

/-- The same tokens with comments of all kinds. -/
def sampleLoose : Layout where
  before := [.line ['"', '*', '/'] '\r' rfl rfl, .block ['*', ' ', '/', 'é', '*'] (by decide)]
  parts :=
    [(.ident "class", [.block [] (by decide)]), (.ident "A", [.blank '\n' rfl, .blank ' ' rfl]),
    (.punct .lbrace, []), (.punct .rbrace, [.line [] '\n' rfl rfl]),
    (.ident "a", [.block ['\n'] (by decide)]),
    (.int "-5", [.block ['/', '/'] (by decide)]), (.int "5", []), (.ident "a", [.blank '\x0c' rfl]),
    (.punct .colons, []), (.punct .colons, [])]
  comment := some ⟨['/', '*'], rfl⟩
  wellFormed := by decide
  apart := by decide

theorem Program.sample_layout_irrelevant :
    sampleDense.text = "class A{}a-5\t5a::::" ∧
    sampleLoose.text = "//\"*/\r/** /é**/class/**/A\n {}//\na/*\n*/-5/*//*/5a\x0c:::://" ++ "/*" ∧
    sampleLoose.tokens = sampleDense.tokens ∧ lex sampleLoose.text = .ok sampleLoose.lexemes ∧
    (Program.ofText sampleLoose.text).mapError ParseError.bare =
      (Program.ofText sampleDense.text).mapError ParseError.bare :=
  ⟨by decide +kernel, by decide +kernel, rfl, (Program.layout_irrelevant sampleLoose).1,
    (Program.layout_irrelevant sampleDense).2.2 sampleLoose rfl⟩

end PointsTo
