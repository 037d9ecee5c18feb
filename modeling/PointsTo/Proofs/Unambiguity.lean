import PointsTo.Proofs.Recognition

/-!
# Renderings are unambiguous

Two lists of items with a common rendering are the same, but for lines and for `null`, which may be
meant as a constant or as a name (`shown_eq_of_mem_renderings`). This holds whatever the names are,
also where they are keywords and the grammar refuses the rendering: what a part of a text is, and
where it ends, is known from keywords and marks at places where no name can stand (`Determines`). An
expression or a command is told apart from all others by its first two tokens (`Second`).
-/

namespace PointsTo

/-! ## Languages that tell each other apart -/

namespace Grammar

variable {σ α γ : Type} {L L' M M' K K' : Language σ} {P Q : Prop}

/-- Sequences of two languages that begin a common sequence are equal, and `P` holds if there are
such sequences. -/
def Determines (L M : Language σ) (P : Prop) : Prop :=
  ∀ ⦃u⦄, u ∈ L → ∀ ⦃v⦄, v ∈ M → ∀ r s, u ++ r = v ++ s → u = v ∧ P

theorem Determines.imp (h : Determines L M P) (hPQ : P → Q) : Determines L M Q := by
  intro u hu v hv r s huv
  obtain ⟨heq, hP⟩ := h hu hv r s huv
  exact ⟨heq, hPQ hP⟩

theorem Determines.symm (h : Determines L M P) : Determines M L P := by
  intro v hv u hu s r huv
  obtain ⟨heq, hP⟩ := h hu hv r s huv.symm
  exact ⟨heq.symm, hP⟩

theorem determines_zero_left : Determines 0 M P := fun _ hu => absurd hu (Language.notMem_zero _)

theorem determines_zero_right : Determines L 0 P := determines_zero_left.symm

theorem determines_singleton (a b : σ) : Determines {[a]} {[b]} (a = b) := by
  rintro _ rfl _ rfl r s huv
  have hab : a = b := List.head_eq_of_cons_eq huv
  exact ⟨by rw [hab], hab⟩

/-- Single tokens are compared as they are. -/
theorem determines_of_single (hL : ∀ w ∈ L, ∃ a, w = [a]) (hM : ∀ w ∈ M, ∃ a, w = [a]) :
    Determines L M True := by
  intro u hu v hv r s huv
  obtain ⟨a, rfl⟩ := hL u hu
  obtain ⟨b, rfl⟩ := hM v hv
  exact ⟨by rw [List.head_eq_of_cons_eq huv], trivial⟩

/-- What follows is compared once the first parts are known to agree. -/
theorem Determines.mul (h : Determines L M P) (h' : P → Determines L' M' Q) :
    Determines (L * L') (M * M') (P ∧ Q) := by
  intro u hu v hv r s huv
  obtain ⟨u₁, hu₁, u₂, hu₂, rfl⟩ := Language.mem_mul.1 hu
  obtain ⟨v₁, hv₁, v₂, hv₂, rfl⟩ := Language.mem_mul.1 hv
  rw [List.append_assoc, List.append_assoc] at huv
  obtain ⟨rfl, hP⟩ := h hu₁ hv₁ _ _ huv
  obtain ⟨rfl, hQ⟩ := h' hP hu₂ hv₂ r s (List.append_cancel_left huv)
  exact ⟨rfl, hP, hQ⟩

theorem Determines.add_left (h : Determines L M P) (h' : Determines L' M P) :
    Determines (L + L') M P :=
  fun _ hu => hu.elim (h ·) (h' ·)

theorem Determines.add_right (h : Determines L M P) (h' : Determines L M' P) :
    Determines L (M + M') P :=
  (h.symm.add_left h'.symm).symm

/-- Languages with different beginnings have nothing in common. -/
theorem Begins.determines {S T : σ → Prop} (hL : Begins L S) (hM : Begins M T)
    (hST : ∀ s, S s → ¬ T s) : Determines L M P := by
  intro u hu v hv r s huv
  obtain ⟨a, u', rfl, ha⟩ := hL hu
  obtain ⟨b, v', rfl, hb⟩ := hM hv
  exact absurd (List.head_eq_of_cons_eq huv ▸ hb) (hST a ha)

section Repetition

variable {S : σ → Prop} {F : α → Language σ} {view : α → γ}
  (hF : ∀ a b, Determines (F a) (F b) (view a = view b)) (hS : ∀ a, Begins (F a) S)

include hF hS

/-- A repetition ends where something begins that could not continue it. -/
theorem Determines.prod_mul {T : σ → Prop} (hK : Determines K K' P) (hT : Begins K T)
    (hT' : Begins K' T) (hST : ∀ s, S s → ¬ T s) (as bs : List α) :
    Determines ((as.map F).prod * K) ((bs.map F).prod * K') (as.map view = bs.map view ∧ P) := by
  induction as generalizing bs with
  | nil =>
    rw [List.map_nil, List.prod_nil, one_mul]
    cases bs with
    | nil =>
      rw [List.map_nil, List.prod_nil, one_mul]
      exact hK.imp fun hP => ⟨rfl, hP⟩
    | cons b bs =>
      rw [List.map_cons, List.prod_cons, mul_assoc]
      exact hT.determines (hS b).mul fun s hs hs' => hST s hs' hs
  | cons a as ih =>
    rw [List.map_cons, List.prod_cons, mul_assoc]
    cases bs with
    | nil =>
      rw [List.map_nil, List.prod_nil, one_mul]
      exact (hS a).mul.determines hT' hST
    | cons b bs =>
      rw [List.map_cons, List.prod_cons, mul_assoc]
      refine ((hF a b).mul fun _ => ih bs).imp ?_
      rintro ⟨hab, htail, hP⟩
      exact ⟨by rw [List.map_cons, List.map_cons, hab, htail], hP⟩

/-- What may be missing is missing where something begins that could not be it. -/
theorem Determines.optional_mul {T : σ → Prop} (hK : Determines K K' P) (hT : Begins K T)
    (hT' : Begins K' T) (hST : ∀ s, S s → ¬ T s) (o o' : Option α) :
    Determines (o.elim 1 F * K) (o'.elim 1 F * K') (o.map view = o'.map view ∧ P) := by
  have hprod : ∀ o : Option α, o.elim 1 F = (o.toList.map F).prod := by
    rintro (_ | a)
    · rfl
    · exact List.prod_singleton.symm
  rw [hprod, hprod]
  refine (Determines.prod_mul hF hS hK hT hT' hST o.toList o'.toList).imp ?_
  rintro ⟨hview, hP⟩
  rw [← Option.toList_map, ← Option.toList_map] at hview
  have hhead := congrArg List.head? hview
  rw [Option.head?_toList, Option.head?_toList] at hhead
  exact ⟨hhead, hP⟩

/-- Repetitions that fill the same sequence. -/
theorem map_eq_of_mem_prod {w : List σ} {as bs : List α} (has : w ∈ (as.map F).prod)
    (hbs : w ∈ (bs.map F).prod) : as.map view = bs.map view := by
  induction as generalizing w bs with
  | nil =>
    cases bs with
    | nil => rfl
    | cons b bs => exact absurd ((Language.mem_one w).1 has ▸ hbs) (hS b).mul.nil_notMem
  | cons a as ih =>
    cases bs with
    | nil => exact absurd ((Language.mem_one w).1 hbs ▸ has) (hS a).mul.nil_notMem
    | cons b bs =>
      rw [List.map_cons, List.prod_cons, Language.mem_mul] at has hbs
      obtain ⟨u, hu, r, hr, rfl⟩ := has
      obtain ⟨v, hv, s, hs, huv⟩ := hbs
      obtain ⟨rfl, hab⟩ := hF a b hu hv r s huv.symm
      rw [List.append_cancel_left huv] at hs
      rw [List.map_cons, List.map_cons, hab, ih hr hs]

end Repetition

theorem Determines.ite_mul {S T : σ → Prop} (hL : Determines L L Q) (hS : Begins L S)
    (hK : Determines K K' P) (hT : Begins K T) (hT' : Begins K' T) (hST : ∀ s, S s → ¬ T s)
    (b b' : Bool) :
    Determines ((if b then L else 1) * K) ((if b' then L else 1) * K') (b = b' ∧ P) := by
  cases b <;> cases b'
  · simpa only [Bool.false_eq_true, if_false, one_mul, true_and] using hK
  · simp only [Bool.false_eq_true, if_false, if_true, one_mul]
    exact hT.determines hS.mul fun s hs hs' => hST s hs' hs
  · simp only [Bool.false_eq_true, if_false, if_true, one_mul]
    exact hS.mul.determines hT' hST
  · exact (hL.mul fun _ => hK).imp fun h => ⟨rfl, h.2⟩

end Grammar

namespace Text

open Grammar Format

/-! ## What a rendering shows -/

/-- An expression as its rendering shows it: without lines, and with `null` always a constant. -/
def Expr.shown : Expr → Expr
  | .copy value => if value.text = "null" then .const else .copy value.bare
  | e => e.bare

def Command.shown : Command → Command
  | .assign lhs rhs => .assign lhs.bare rhs.shown
  | c => c.bare

def MemberKind.shown : MemberKind → MemberKind
  | .field => .field
  | .method params body => .method (params.map Name.bare) (body.map (·.map Command.shown))

def Member.shown (m : Member) : Member := ⟨m.modifiers, m.name.bare, m.kind.shown⟩

def ClassTree.shown (t : ClassTree) : ClassTree :=
  { t.bare with members := t.members.map Member.shown }

def Item.shown : Item → Item
  | .cls t => .cls t.shown
  | .entry target _ => .entry target.bare 0

/-! ## Parts with nothing but names -/

theorem determines_mark (p q : Punct) : Determines (mark p) (mark q) (p = q) :=
  (determines_singleton _ _).imp Token.punct.inj

theorem determines_word (v w : String) : Determines (word v) (word w) (v = w) :=
  (determines_singleton _ _).imp Token.ident.inj

theorem Name.determines (n n' : Name) : Determines n.renderings n'.renderings (n.bare = n'.bare) :=
  (determines_word n.text n'.text).imp fun h => congrArg (Name.mk · 0) h

theorem begins_name (n : Name) : Begins n.renderings fun t => ∃ x, t = .ident x :=
  begins_singleton ⟨_, rfl⟩

theorem Qualified.determines (q q' : Qualified) :
    Determines q.renderings q'.renderings (q.bare = q'.bare) := by
  refine ((q.cls.determines q'.cls).mul fun _ => (determines_mark _ _).mul
    fun _ => q.name.determines q'.name).imp ?_
  rintro ⟨hcls, -, hname⟩
  exact congrArg₂ Qualified.mk hcls hname

/-- Names with commas between them end where no comma follows. -/
theorem determines_listed1 {K K' : Language Token} {P : Prop} (hK : Determines K K' P)
    (hcomma : Begins K (· ≠ .punct .comma)) (hcomma' : Begins K' (· ≠ .punct .comma))
    (names names' : List Name) :
    Determines (listed1 (mark .comma) Name.renderings names * K)
      (listed1 (mark .comma) Name.renderings names' * K')
      (names.map Name.bare = names'.map Name.bare ∧ P) := by
  have hstep : ∀ n n' : Name,
      Determines (mark .comma * n.renderings) (mark .comma * n'.renderings)
      (n.bare = n'.bare) := fun n n' =>
    ((determines_mark _ _).mul fun _ => n.determines n').imp And.right
  cases names with
  | nil =>
    rw [listed1, zero_mul]
    exact determines_zero_left
  | cons n names =>
    cases names' with
    | nil =>
      rw [listed1, listed1, zero_mul]
      exact determines_zero_right
    | cons n' names' =>
      rw [listed1, listed1, mul_assoc, mul_assoc]
      refine ((n.determines n').mul fun _ => Determines.prod_mul hstep
        (fun _ => (begins_mark .comma).mul) hK hcomma
        hcomma' (fun _ hs hne => hne hs) names names').imp ?_
      rintro ⟨hn, hnames, hP⟩
      exact ⟨by rw [List.map_cons, List.map_cons, hn, hnames], hP⟩

theorem determines_inParens (names names' : List Name) :
    Determines (inParens names) (inParens names') (names.map Name.bare = names'.map Name.bare) := by
  have hclose := determines_mark .rparen .rparen
  have hcomma : Begins (mark .rparen) (· ≠ .punct .comma) :=
    (begins_mark .rparen).mono (by rintro _ rfl; decide)
  have hname : ∀ n names, Begins (listed (mark .comma) Name.renderings (n :: names) * mark .rparen)
      fun t => ∃ x, t = .ident x := fun n _ => (begins_name n).mul.mul
  have hapart : ∀ t : Token, t = .punct .rparen → ¬ ∃ x, t = .ident x := by
    rintro _ rfl ⟨x, hx⟩
    cases hx
  refine ((determines_mark .lparen .lparen).mul fun _ => ?_).imp And.right
  cases names with
  | nil =>
    rw [listed, one_mul]
    cases names' with
    | nil =>
      rw [listed, one_mul]
      exact hclose.imp fun _ => rfl
    | cons n' names' => exact (begins_mark .rparen).determines (hname n' names') hapart
  | cons n names =>
    cases names' with
    | nil =>
      rw [listed, listed, one_mul]
      exact (hname n names).determines (begins_mark .rparen) fun t hx ht => hapart t ht hx
    | cons n' names' =>
      exact (determines_listed1 hclose hcomma hcomma (n :: names) (n' :: names')).imp And.left

theorem determines_indexed : Determines indexed indexed True := by
  have hindex : Begins (anyIdent + anyInt) (· ≠ .punct .rbracket) := by
    rintro _ (⟨x, rfl⟩ | ⟨x, rfl⟩) <;> exact ⟨_, [], rfl, by simp⟩
  have hsingle : ∀ w ∈ anyIdent + anyInt, ∃ t, w = [t] := by
    rintro _ (⟨x, rfl⟩ | ⟨x, rfl⟩) <;> exact ⟨_, rfl⟩
  have hclose : Determines (mark .rbracket) (mark .rbracket) True :=
    (determines_mark _ _).imp fun _ => trivial
  have hmixed : Determines (mark .rbracket) ((anyIdent + anyInt) * mark .rbracket) True :=
    (begins_mark .rbracket).determines hindex.mul fun _ ht hne => hne ht
  have hboth : Determines ((anyIdent + anyInt) * mark .rbracket)
      ((anyIdent + anyInt) * mark .rbracket) True :=
    ((determines_of_single hsingle hsingle).mul fun _ => hclose).imp fun _ => trivial
  rw [indexed, add_mul, one_mul]
  exact ((determines_mark _ _).mul
    fun _ => (hclose.add_right hmixed).add_left (hmixed.symm.add_right hboth)).imp fun _ => trivial

theorem callWord_injective {k k' : CallKind} (h : callWord k = callWord k') : k = k' := by
  cases k <;> cases k' <;> simp_all [callWord]

/-- A call has its receiver, if it is to have one, in front of its target. -/
theorem CallTree.renderings_eq (c : CallTree) : c.renderings =
    if c.receiver.isSome = true ↔ c.kind ≠ .static then
      word (callWord c.kind) * (c.receiver.elim 1 (fun n => n.renderings * mark .dot) *
        (c.target.renderings * inParens c.args))
    else 0 := by
  obtain ⟨kind, _ | receiver, target, args⟩ := c <;> simp [CallTree.renderings]

theorem CallTree.determines (c c' : CallTree) :
    Determines c.renderings c'.renderings (c.bare = c'.bare) := by
  obtain ⟨kind, receiver, target, args⟩ := c
  obtain ⟨kind', receiver', target', args'⟩ := c'
  have htarget : Determines (target.renderings * inParens args)
      (target'.renderings * inParens args')
      (target.bare = target'.bare ∧ args.map Name.bare = args'.map Name.bare) :=
    (target.determines target').mul fun _ => determines_inParens args args'
  rw [CallTree.renderings_eq, CallTree.renderings_eq]
  by_cases hshape : receiver.isSome = true ↔ kind ≠ .static
  swap
  · rw [if_neg hshape]
    exact determines_zero_left
  by_cases hshape' : receiver'.isSome = true ↔ kind' ≠ .static
  swap
  · rw [if_neg hshape']
    exact determines_zero_right
  rw [if_pos hshape, if_pos hshape']
  -- the keyword tells whether there is a receiver
  have hrest : kind = kind' → Determines
      (receiver.elim 1 (fun n => n.renderings * mark .dot) * (target.renderings * inParens args))
      (receiver'.elim 1 (fun n => n.renderings * mark .dot) * (target'.renderings * inParens args'))
      (receiver.map Name.bare = receiver'.map Name.bare ∧
        target.bare = target'.bare ∧ args.map Name.bare = args'.map Name.bare) := by
    intro hkind
    rw [hkind, ← hshape'] at hshape
    cases receiver with
    | none =>
      cases receiver' with
      | none =>
        rw [Option.elim_none, one_mul, one_mul]
        exact htarget.imp fun h => ⟨rfl, h⟩
      | some n' => exact absurd (hshape.2 rfl) Bool.false_ne_true
    | some n =>
      cases receiver' with
      | none => exact absurd (hshape.1 rfl) Bool.false_ne_true
      | some n' =>
        refine (((n.determines n').mul fun _ => determines_mark .dot .dot).mul
          fun _ => htarget).imp ?_
        rintro ⟨⟨hn, -⟩, h⟩
        exact ⟨congrArg some hn, h⟩
  refine (((determines_word _ _).imp callWord_injective).mul hrest).imp ?_
  rintro ⟨hkind, hreceiver, htarget, hargs⟩
  simp only [CallTree.bare, hkind, hreceiver, htarget, hargs]

/-! ## The second token -/

/-- The mark that a token is, if it is one. -/
def Token.punct? : Token → Option Punct
  | .punct p => some p
  | .ident _ | .int _ => none

/-- All sequences of a language have this mark as their second token, or a token that is no mark. -/
def Second (L : Language Token) (o : Option Punct) : Prop :=
  ∀ ⦃w⦄, w ∈ L → ∃ t u w', w = t :: u :: w' ∧ u.punct? = o

section Second

variable {L M : Language Token} {o o' : Option Punct} {P : Prop}

theorem second_mul (hL : ∀ w ∈ L, ∃ t, w = [t]) (hM : Begins M (·.punct? = o)) :
    Second (L * M) o := by
  intro w hw
  obtain ⟨w₁, hw₁, w₂, hw₂, rfl⟩ := Language.mem_mul.1 hw
  obtain ⟨t, rfl⟩ := hL w₁ hw₁
  obtain ⟨u, w', rfl, hu⟩ := hM hw₂
  exact ⟨t, u, w', rfl, hu⟩

theorem second_word_mul (x : String) (hM : Begins M (·.punct? = o)) : Second (word x * M) o :=
  second_mul (fun _ hw => ⟨_, hw⟩) hM

theorem Second.determines (hL : Second L o) (hM : Second M o') (hne : o ≠ o') :
    Determines L M P := by
  intro u hu v hv r s huv
  obtain ⟨_, b, u', rfl, hb⟩ := hL hu
  obtain ⟨_, b', v', rfl, hb'⟩ := hM hv
  have hbb' : b = b' := List.head_eq_of_cons_eq (List.tail_eq_of_cons_eq huv)
  exact absurd (by rw [← hb, ← hb', hbb']) hne

theorem begins_punct? (p : Punct) : Begins (mark p) (·.punct? = some p) := begins_singleton rfl

theorem begins_name_punct? (n : Name) : Begins n.renderings (·.punct? = none) :=
  begins_singleton rfl

theorem CallTree.second (c : CallTree) (K : Language Token) : Second (c.renderings * K) none := by
  rw [c.renderings_eq]
  split_ifs
  · rw [mul_assoc]
    refine second_word_mul _ (.mul ?_)
    cases c.receiver with
    | none =>
      exact (one_mul (c.target.renderings * inParens c.args)).symm ▸
        (begins_name_punct? c.target.cls).mul.mul
    | some receiver => exact (begins_name_punct? receiver).mul.mul
  · rw [zero_mul]
    exact fun _ hw => absurd hw (Language.notMem_zero _)

end Second

/-! ## Expressions and commands -/

/-- The mark after the first token of an expression that a semicolon ends. -/
def Expr.secondMark : Expr → Option Punct
  | .const | .copy _ => some .semicolon
  | .load .. => some .dot
  | .loadStatic _ => some .colons
  | .loadArray _ => some .lbracket
  | .new .. | .call _ => none

theorem Expr.second (e : Expr) : Second (e.renderings * mark .semicolon) e.secondMark := by
  cases e with
  | new cls array =>
    rw [Expr.renderings, mul_assoc]
    exact second_word_mul _ (begins_name_punct? cls).mul.mul
  | const =>
    refine second_mul ?_ (begins_punct? .semicolon)
    rintro _ (rfl | ⟨x, rfl⟩) <;> exact ⟨_, rfl⟩
  | copy value => exact second_word_mul _ (begins_punct? .semicolon)
  | load base field =>
    rw [Expr.renderings, mul_assoc]
    exact second_word_mul _ (begins_punct? .dot).mul.mul
  | loadStatic field =>
    rw [Expr.renderings, Qualified.renderings, mul_assoc]
    exact second_word_mul _ (begins_punct? .colons).mul.mul
  | loadArray base =>
    rw [Expr.renderings, mul_assoc]
    exact second_word_mul _ (begins_punct? .lbracket).mul.mul
  | call c => exact c.second _

theorem determines_const_copy (value : Name) :
    Determines Expr.const.renderings value.renderings (value.text = "null") := by
  refine .add_left ((determines_word _ _).imp Eq.symm) ?_
  have hint : Begins anyInt fun t => ∃ x, t = .int x := by
    rintro _ ⟨x, rfl⟩
    exact ⟨_, [], rfl, x, rfl⟩
  exact hint.determines (begins_name value) (by rintro _ ⟨x, rfl⟩ ⟨y, hy⟩; cases hy)

theorem determines_new_call (cls : Name) (array : Bool) (c : CallTree) {K : Language Token}
    {P : Prop} : Determines ((Expr.new cls array).renderings * K) (c.renderings * K) P := by
  refine (begins_word "new").mul.mul.determines (begins_call c).mul ?_
  rintro _ rfl ⟨k, hk⟩
  exact (callWord_ne k).1 (Token.ident.inj hk).symm

theorem Expr.determines (e e' : Expr) :
    Determines (e.renderings * mark .semicolon) (e'.renderings * mark .semicolon)
      (e.shown = e'.shown) := by
  -- equal second tokens leave, but for equal forms, allocations against calls and constants against
  -- names
  by_cases hsecond : e.secondMark = e'.secondMark
  swap
  · exact e.second.determines e'.second hsecond
  have hend := determines_mark .semicolon .semicolon
  cases e with
  | new cls array =>
    cases e' with
    | new cls' array' =>
      have hbrackets :=
        Determines.ite_mul ((determines_mark .lbracket _).mul fun _ => determines_mark .rbracket _)
        (begins_mark .lbracket).mul hend (begins_mark .semicolon) (begins_mark .semicolon)
          (by rintro _ rfl; decide)
        array array'
      rw [Expr.renderings, Expr.renderings, mul_assoc, mul_assoc, mul_assoc, mul_assoc]
      refine ((determines_word _ _).mul fun _ => (cls.determines cls').mul
        fun _ => hbrackets).imp ?_
      rintro ⟨-, hcls, harray, -⟩
      exact congrArg₂ Expr.new hcls harray
    | call c' => exact determines_new_call cls array c'
    | _ => cases hsecond
  | const =>
    cases e' with
    | const =>
      have hsingle : ∀ w ∈ Expr.const.renderings, ∃ t, w = [t] := by
        rintro _ (rfl | ⟨x, rfl⟩) <;> exact ⟨_, rfl⟩
      exact ((determines_of_single hsingle hsingle).mul fun _ => hend).imp fun _ => rfl
    | copy value' =>
      exact ((determines_const_copy value').mul fun _ => hend).imp fun h => (if_pos h.1).symm
    | _ => cases hsecond
  | copy value =>
    cases e' with
    | const => exact ((determines_const_copy value).symm.mul fun _ => hend).imp fun h => if_pos h.1
    | copy value' =>
      refine ((value.determines value').mul fun _ => hend).imp ?_
      rintro ⟨hvalue, -⟩
      have htext : value.text = value'.text := (Name.mk.inj hvalue).1
      simp only [Expr.shown, hvalue, htext]
    | _ => cases hsecond
  | load base field =>
    cases e' with
    | load base' field' =>
      refine (((base.determines base').mul fun _ => (determines_mark _ _).mul fun _ =>
        field.determines field').mul fun _ => hend).imp ?_
      rintro ⟨⟨hbase, -, hfield⟩, -⟩
      exact congrArg₂ Expr.load hbase hfield
    | _ => cases hsecond
  | loadStatic field =>
    cases e' with
    | loadStatic field' =>
      exact ((field.determines field').mul fun _ => hend).imp fun h => congrArg Expr.loadStatic h.1
    | _ => cases hsecond
  | loadArray base =>
    cases e' with
    | loadArray base' =>
      exact (((base.determines base').mul fun _ => determines_indexed).mul fun _ => hend).imp
        fun h => congrArg Expr.loadArray h.1.1
    | _ => cases hsecond
  | call c =>
    cases e' with
    | new cls' array' => exact (determines_new_call cls' array' c).symm
    | call c' => exact ((c.determines c').mul fun _ => hend).imp fun h => congrArg Expr.call h.1
    | _ => cases hsecond

/-- The mark after the first token of a command that a semicolon ends. -/
def Command.secondMark : Command → Option Punct
  | .assign .. => some .equal
  | .store .. => some .dot
  | .storeStatic .. => some .colons
  | .storeArray .. => some .lbracket
  | .ret none => some .semicolon
  | .ret (some _) | .call _ => none

theorem Command.second (c : Command) : Second (c.renderings * mark .semicolon) c.secondMark := by
  cases c with
  | assign lhs rhs =>
    rw [Command.renderings, mul_assoc]
    exact second_word_mul _ (begins_punct? .equal).mul.mul
  | store base field rhs =>
    rw [Command.renderings, mul_assoc]
    exact second_word_mul _ (begins_punct? .dot).mul.mul
  | storeStatic field rhs =>
    rw [Command.renderings, mul_assoc]
    exact second_word_mul _ (begins_punct? .colons).mul.mul
  | storeArray base rhs =>
    rw [Command.renderings, mul_assoc]
    exact second_word_mul _ (begins_punct? .lbracket).mul.mul.mul
  | call c => exact c.second _
  | ret value =>
    rw [Command.renderings, mul_assoc]
    cases value with
    | none => exact second_word_mul _ ((one_mul (mark .semicolon)).symm ▸ begins_punct? .semicolon)
    | some value => exact second_word_mul _ (begins_name_punct? value).mul

theorem determines_call_ret (c : CallTree) (value : Option Name) {K : Language Token} {P : Prop} :
    Determines (c.renderings * K) ((Command.ret value).renderings * K) P := by
  refine (begins_call c).mul.determines (begins_word "return").mul.mul ?_
  rintro _ ⟨k, rfl⟩ hk
  exact (callWord_ne k).2.2 (Token.ident.inj hk)

theorem Command.determines (c c' : Command) :
    Determines (c.renderings * mark .semicolon) (c'.renderings * mark .semicolon)
      (c.shown = c'.shown) := by
  -- a returned name is no mark, so a return is told apart from a call by its keyword
  by_cases hsecond : c.secondMark = c'.secondMark
  swap
  · exact c.second.determines c'.second hsecond
  have hend := determines_mark .semicolon .semicolon
  have hassigned : ∀ rhs rhs' : Name,
      Determines (mark .equal * rhs.renderings) (mark .equal * rhs'.renderings)
      (rhs.bare = rhs'.bare) := fun rhs rhs' =>
    ((determines_mark _ _).mul fun _ => rhs.determines rhs').imp And.right
  cases c with
  | assign lhs rhs =>
    cases c' with
    | assign lhs' rhs' =>
      rw [Command.renderings, Command.renderings, mul_assoc, mul_assoc, mul_assoc, mul_assoc]
      refine ((lhs.determines lhs').mul fun _ => (determines_mark _ _).mul
        fun _ => rhs.determines rhs').imp ?_
      rintro ⟨hlhs, -, hrhs⟩
      exact congrArg₂ Command.assign hlhs hrhs
    | ret value' => cases value' <;> cases hsecond
    | _ => cases hsecond
  | store base field rhs =>
    cases c' with
    | store base' field' rhs' =>
      refine (((base.determines base').mul fun _ => (determines_mark _ _).mul fun _ =>
        (field.determines field').mul fun _ => hassigned rhs rhs').mul fun _ => hend).imp ?_
      rintro ⟨⟨hbase, -, hfield, hrhs⟩, -⟩
      simp only [Command.shown, Command.bare, hbase, hfield, hrhs]
    | ret value' => cases value' <;> cases hsecond
    | _ => cases hsecond
  | storeStatic field rhs =>
    cases c' with
    | storeStatic field' rhs' =>
      refine (((field.cls.determines field'.cls).mul fun _ => (determines_mark _ _).mul fun _ =>
        (field.name.determines field'.name).mul fun _ => hassigned rhs rhs').mul
        fun _ => hend).imp ?_
      rintro ⟨⟨hcls, -, hname, hrhs⟩, -⟩
      simp only [Command.shown, Command.bare, Qualified.bare, hcls, hname, hrhs]
    | ret value' => cases value' <;> cases hsecond
    | _ => cases hsecond
  | storeArray base rhs =>
    cases c' with
    | storeArray base' rhs' =>
      refine (((base.determines base').mul fun _ => determines_indexed.mul fun _ =>
        hassigned rhs rhs').mul fun _ => hend).imp ?_
      rintro ⟨⟨hbase, -, hrhs⟩, -⟩
      exact congrArg₂ Command.storeArray hbase hrhs
    | ret value' => cases value' <;> cases hsecond
    | _ => cases hsecond
  | call c =>
    cases c' with
    | call c' => exact ((c.determines c').mul fun _ => hend).imp fun h => congrArg Command.call h.1
    | ret value' => exact determines_call_ret c value'
    | _ => cases hsecond
  | ret value =>
    cases c' with
    | call c' => exact (determines_call_ret c' value).symm
    | ret value' =>
      have hvalue :=
        Determines.optional_mul Name.determines begins_name hend (begins_mark .semicolon)
        (begins_mark .semicolon) (by rintro _ ⟨x, rfl⟩ hx; cases hx) value value'
      rw [Command.renderings, Command.renderings, mul_assoc, mul_assoc]
      exact ((determines_word _ _).mul fun _ => hvalue).imp fun h => congrArg Command.ret h.2.1
    | _ => cases value <;> cases hsecond

/-! ## Members, classes and items -/

theorem determines_body (body body' : Option (List Command)) :
    Determines (bodyRenderings body) (bodyRenderings body')
      (body.map (·.map Command.shown) = body'.map (·.map Command.shown)) := by
  have hmixed : ∀ cs, Determines (mark .semicolon) (bodyRenderings (some cs)) False := fun cs =>
    (begins_mark .semicolon).determines (begins_mark .lbrace).mul (by rintro _ rfl; decide)
  cases body with
  | none =>
    cases body' with
    | none => exact (determines_mark _ _).imp fun _ => rfl
    | some cs' => exact (hmixed cs').imp False.elim
  | some cs =>
    cases body' with
    | none => exact (hmixed cs).symm.imp False.elim
    | some cs' =>
      have hcommands := Determines.prod_mul Command.determines (fun c => (begins_command c).mul)
        (determines_mark .rbrace .rbrace) (begins_mark .rbrace) (begins_mark .rbrace)
        (by rintro _ ⟨x, rfl⟩ hx; cases hx) cs cs'
      exact ((determines_mark _ _).mul fun _ => hcommands).imp fun h => congrArg some h.2.1

theorem determines_declarator (n n' : Name) (kind kind' : MemberKind) :
    Determines (declarator n kind) (declarator n' kind')
      (n.bare = n'.bare ∧ kind.shown = kind'.shown) := by
  cases kind with
  | field =>
    cases kind' with
    | field =>
      refine ((determines_word _ _).mul fun _ => (n.determines n').mul
        fun _ => determines_mark _ _).imp ?_
      exact fun h => ⟨h.2.1, rfl⟩
    | method params' body' =>
      exact ((determines_word _ _).mul fun h => absurd h (by decide)).imp And.right
  | method params body =>
    cases kind' with
    | field => exact ((determines_word _ _).mul fun h => absurd h (by decide)).imp And.right
    | method params' body' =>
      refine ((determines_word _ _).mul fun _ => (n.determines n').mul fun _ =>
        (determines_inParens params params').mul fun _ => determines_body body body').imp ?_
      rintro ⟨-, hn, hparams, hbody⟩
      exact ⟨hn, congrArg₂ MemberKind.method hparams hbody⟩

theorem Modifier.determines (m m' : Modifier) :
    Determines m.renderings m'.renderings (id m = id m') := by
  cases m <;> cases m'
  · exact (determines_word _ _).imp fun _ => rfl
  · exact (determines_word _ _).imp fun h => absurd h (by decide)
  · exact (determines_word _ _).imp fun h => absurd h (by decide)
  · exact (determines_word _ _).imp fun _ => rfl

theorem begins_modifier (m : Modifier) :
    Begins m.renderings fun t => t = .ident "static" ∨ t = .ident "abstract" := by
  cases m with
  | static => exact begins_singleton (.inl rfl)
  | abstract => exact begins_singleton (.inr rfl)

theorem Member.determines (m m' : Member) :
    Determines m.renderings m'.renderings (m.shown = m'.shown) := by
  refine (Determines.prod_mul Modifier.determines begins_modifier
    (determines_declarator m.name m'.name m.kind m'.kind) (begins_declarator m.name m.kind)
    (begins_declarator m'.name m'.kind) ?_ m.modifiers m'.modifiers).imp ?_
  · rintro _ (rfl | rfl) <;> decide
  · rintro ⟨hmodifiers, hname, hkind⟩
    rw [List.map_id, List.map_id] at hmodifiers
    simp only [Member.shown, hmodifiers, hname, hkind]

theorem determines_inBraces (ms ms' : List Member) :
    Determines (inBraces ms) (inBraces ms') (ms.map Member.shown = ms'.map Member.shown) := by
  have hmembers := Determines.prod_mul Member.determines begins_member
    (determines_mark .rbrace .rbrace) (begins_mark .rbrace) (begins_mark .rbrace)
    (by rintro _ ⟨x, rfl⟩ hx; cases hx) ms ms'
  exact ((determines_mark _ _).mul fun _ => hmembers).imp fun h => h.2.1

theorem begins_inBraces (ms : List Member) : Begins (inBraces ms) (· = .punct .lbrace) :=
  (begins_mark .lbrace).mul

/-- A clause, or the members if it is missing. -/
theorem determines_clause (w : String) (names names' : List Name) (ms ms' : List Member) :
    Determines (clause w names * inBraces ms) (clause w names' * inBraces ms')
      (names.map Name.bare = names'.map Name.bare ∧
        ms.map Member.shown = ms'.map Member.shown) := by
  have hmembers := determines_inBraces ms ms'
  have hcomma : ∀ ms, Begins (inBraces ms) (· ≠ .punct .comma) := fun ms =>
    (begins_inBraces ms).mono (by rintro _ rfl; decide)
  have hmixed : ∀ n names ms ms',
      Determines (inBraces ms) (clause w (n :: names) * inBraces ms') False :=
    fun n names ms ms' => (begins_inBraces ms).determines (begins_word w).mul.mul
      (by rintro _ rfl hw; cases hw)
  cases names with
  | nil =>
    rw [clause, one_mul]
    cases names' with
    | nil =>
      rw [clause, one_mul]
      exact hmembers.imp fun h => ⟨rfl, h⟩
    | cons n' names' => exact (hmixed n' names' ms ms').imp False.elim
  | cons n names =>
    cases names' with
    | nil =>
      rw [clause, clause, one_mul]
      exact (hmixed n names ms' ms).symm.imp False.elim
    | cons n' names' =>
      rw [clause, clause, mul_assoc, mul_assoc]
      exact ((determines_word _ _).mul fun _ =>
        determines_listed1 hmembers (hcomma ms) (hcomma ms') (n :: names)
        (n' :: names')).imp And.right

theorem ClassTree.begins_interface (t : ClassTree) :
    Begins t.renderings fun k => k = .ident "interface" ↔ t.isInterface = true := by
  obtain ⟨name, _ | _, isAbstract, superclass, interfaces, members⟩ := t
  · cases isAbstract with
    | false =>
      rw [ClassTree.renderings]
      simp only [Bool.false_eq_true, if_false, one_mul]
      exact .mul (begins_singleton (by simp))
    | true => exact .mul (.mul (begins_singleton (by simp)))
  · obtain _ | _ := isAbstract <;> obtain _ | superclass := superclass
    · exact .mul (begins_singleton (by simp))
    · exact begins_zero
    · exact begins_zero
    · exact begins_zero

theorem ClassTree.determines (t t' : ClassTree) :
    Determines t.renderings t'.renderings (t.shown = t'.shown) := by
  by_cases hkind : t.isInterface = t'.isInterface
  swap
  · refine t.begins_interface.determines t'.begins_interface fun k hk hk' => hkind ?_
    rw [Bool.eq_iff_iff, ← hk, ← hk']
  obtain ⟨name, isInterface, isAbstract, superclass, interfaces, members⟩ := t
  obtain ⟨name', isInterface', isAbstract', superclass', interfaces', members'⟩ := t'
  obtain rfl : isInterface = isInterface' := hkind
  cases isInterface with
  | false =>
    have hheader := Determines.ite_mul (determines_word "abstract" _) (begins_word "abstract")
      (determines_word "class" _) (begins_word "class") (begins_word "class")
      (by rintro _ rfl; decide) isAbstract isAbstract'
    have hextends : ∀ n n' : Name,
        Determines (word "extends" * n.renderings) (word "extends" * n'.renderings)
        (n.bare = n'.bare) := fun n n' =>
      ((determines_word _ _).mul fun _ => n.determines n').imp And.right
    have hrest := Determines.optional_mul hextends (fun _ => (begins_word "extends").mul)
      (determines_clause "implements" interfaces interfaces' members members')
      (begins_clause "implements" interfaces members)
      (begins_clause "implements" interfaces' members')
      (by rintro _ rfl; decide) superclass superclass'
    refine (hheader.mul fun _ => (name.determines name').mul fun _ => hrest).imp ?_
    rintro ⟨⟨habstract, -⟩, hname, hsuper, hinterfaces, hmembers⟩
    simp only [ClassTree.shown, ClassTree.bare, habstract, hname, hsuper, hinterfaces, hmembers]
  | true =>
    -- an interface with a modifier or a superclass has no rendering
    obtain _ | _ := isAbstract <;> obtain _ | superclass := superclass
    · obtain _ | _ := isAbstract' <;> obtain _ | superclass' := superclass'
      · refine ((determines_word _ _).mul fun _ => (name.determines name').mul fun _ =>
          determines_clause "extends" interfaces interfaces' members members').imp ?_
        rintro ⟨-, hname, hinterfaces, hmembers⟩
        simp only [ClassTree.shown, ClassTree.bare, hname, hinterfaces, hmembers]
      · exact determines_zero_right
      · exact determines_zero_right
      · exact determines_zero_right
    · exact determines_zero_left
    · exact determines_zero_left
    · exact determines_zero_left

theorem Item.determines (i i' : Item) :
    Determines i.renderings i'.renderings (i.shown = i'.shown) := by
  have hmixed : ∀ t target line, Determines (Item.cls t).renderings
      (Item.entry target line).renderings False := by
    intro t target line
    refine (begins_classTree t).determines (begins_word "entry").mul ?_
    rintro _ (rfl | rfl | rfl) <;> decide
  cases i with
  | cls t =>
    cases i' with
    | cls t' => exact (t.determines t').imp fun h => congrArg Item.cls h
    | entry target' line' => exact (hmixed t target' line').imp False.elim
  | entry target line =>
    cases i' with
    | cls t' => exact (hmixed t' target line).symm.imp False.elim
    | entry target' line' =>
      refine ((determines_word _ _).mul fun _ => (target.determines target').mul
        fun _ => determines_mark _ _).imp ?_
      exact fun h => congrArg (Item.entry · 0) h.2.1

/-- Items with a common rendering are shown alike. -/
theorem shown_eq_of_mem_renderings {w : List Token} {items items' : List Item}
    (h : w ∈ renderings items) (h' : w ∈ renderings items') :
    items.map Item.shown = items'.map Item.shown :=
  map_eq_of_mem_prod Item.determines begins_item h h'

end Text

end PointsTo
