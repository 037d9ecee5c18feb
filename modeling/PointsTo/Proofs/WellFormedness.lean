import PointsTo.Proofs.RoundTrip
import PointsTo.Proofs.Subgraph

/-!
# Programs of texts are well formed

What a text says by names is said by the outlines of its program, so facts about trees become facts
about programs. A tree of a text has no static call with a receiver and no other call without one; a
method without a body has no statements, and members stand in declarations only. A callee is found
by its subsignature, so arguments and parameters always match. `Program.wellFormed_of_ofText` puts
this together as `Draft.WellFormed`.
-/

namespace PointsTo

open Text

/-! ## Callees -/

namespace Draft

variable {d : Draft}

/-- The answer of a chain is that of one of its classes. -/
theorem exists_cls_of_firstFrom {α : Type} {ask : Class → Option α} {n : Nat} {c : Option ClassId}
    {a : α} (h : d.firstFrom ask n c = .ok (some a)) :
    ∃ c' x, d.cls c' = .ok x ∧ ask x = some a := by
  induction n generalizing c with
  | zero => cases c <;> cases h
  | succ n ih =>
    cases c with
    | none => cases h
    | some c =>
      rw [firstFrom] at h
      obtain ⟨x, hx, h⟩ := bind_eq_ok.1 h
      split at h
      next a' hask =>
        cases h
        exact ⟨c, x, hx, hask⟩
      next => exact ih h

/-- A callee has the subsignature that the call asks for. -/
theorem Owned.sig_of_callee (hd : d.Owned) {receiver : Option ClassId} {call : Invoke}
    {m : MethodId} (h : d.callee receiver call = .ok (some m)) :
    ∃ y, d.method m = .ok y ∧ y.sig = call.target.sig := by
  rw [callee] at h
  split at h
  next => cases h
  next c _ =>
    obtain ⟨found, hfound, h⟩ := bind_eq_ok.1 h
    obtain ⟨rfl, -⟩ := Option.filter_eq_some_iff.1 (pure_eq_ok.1 h)
    obtain ⟨c', x, hx, hask⟩ := exists_cls_of_firstFrom hfound
    rw [concreteMethod?, Option.filter_eq_some_iff, Class.method?] at hask
    obtain ⟨y, hy, -, hsig⟩ := hd.methods c' x hx _ (mem_of_lookup_eq_some hask.1)
    exact ⟨y, hy, hsig⟩

end Draft

/-! ## Calls of texts -/

namespace Text

/-- The call of a command, if it is one. -/
def Command.call? : Command → Option CallTree
  | .assign _ (.call c) => some c
  | .call c => some c
  | _ => none

/-- A call that can be written has a receiver unless it is static. -/
theorem CallTree.isSome_receiver_iff {c : CallTree} (h : Spellable c.renderings) :
    c.receiver.isSome = true ↔ c.kind ≠ .static := by
  rw [renderings] at h
  split at h
  next hreceiver =>
    split at h
    next hkind => simp [hreceiver, hkind]
    next => exact absurd h spellable_zero
  next receiver hreceiver =>
    split at h
    next => exact absurd h spellable_zero
    next hkind => simp [hreceiver, hkind]

theorem Command.spellable_call {k : Command} {c : CallTree} (h : Spellable k.renderings)
    (hc : k.call? = some c) : Spellable c.renderings := by
  cases k with
  | assign lhs rhs =>
    cases rhs with
    | call c' =>
      cases hc
      exact (spellable_mul.1 (spellable_mul.1 h).2).2
    | _ => cases hc
  | call c' =>
    cases hc
    exact h
  | _ => cases hc

theorem Member.spellable_commands {x : Member} {params : List Name} {body : Option (List Command)}
    (h : Spellable x.renderings) (hkind : x.kind = .method params body) :
    ∀ k ∈ body.getD [], Spellable k.renderings := by
  rw [renderings, spellable_mul, hkind, declarator] at h
  obtain ⟨-, -, -, -, hbody⟩ : _ ∧ _ ∧ _ ∧ _ ∧ Spellable (bodyRenderings body) := by
    simpa only [spellable_mul] using h
  cases body with
  | none => exact fun k hk => absurd hk List.not_mem_nil
  | some ks =>
    simp only [bodyRenderings, spellable_mul, spellable_prod, List.forall_mem_map] at hbody
    exact fun k hk => (hbody.2.1 k hk).1

theorem ClassTree.spellable_members {t : ClassTree} (h : Spellable t.renderings) :
    ∀ x ∈ t.members, Spellable x.renderings := by
  have hbraces : Spellable (inBraces t.members) := by
    obtain ⟨name, _ | _, _ | _, _ | superclass, interfaces, members⟩ := t <;>
      simp only [renderings, spellable_mul, spellable_zero] at h
    all_goals tauto
  simp only [inBraces, spellable_mul, spellable_prod, List.forall_mem_map] at hbraces
  exact hbraces.2.1

/-! ## Methods of texts -/

section Methods

variable {ts : List ClassTree} {d : Draft}

theorem Describes.declared_of_members (hd : Describes ts d) {c : ClassId} {x : Class}
    (hx : d.cls c = .ok x) (hmembers : x.fields ≠ [] ∨ x.methods ≠ []) : x.declared = true := by
  obtain ⟨t, -, houtline⟩ | hmention := hd.cls_cases hx
  · exact congrArg ClassOutline.declared houtline
  · rw [hmention] at hmembers
    rcases hmembers with hfields | hmethods
    · exact absurd rfl hfields
    · exact absurd rfl hmethods

/-- Every method is declared by a member of a tree. -/
theorem Describes.exists_member (hd : Describes ts d) {m : MethodId} {y : Method}
    (hy : d.method m = .ok y) :
    ∃ t ∈ ts, ∃ x ∈ t.members, ∃ params body, x.kind = .method params body ∧
      d.outlineMethod y = MethodOutline.of x.name.text x.isStatic body.isNone (params.map Name.text)
        (body.getD []) := by
  obtain ⟨c, hc, hmem⟩ := hd.regular.built.listed.methods m y hy
  have hdeclared := hd.declared_of_members hc (.inr (List.ne_nil_of_mem hmem))
  obtain ⟨t, ht, houtline⟩ := hd.exists_tree hc hdeclared
  have hmethods : c.methods.map (fun p => d.methodOutline p.2) = t.outline.methods :=
    congrArg ClassOutline.methods houtline
  have hin : d.outlineMethod y ∈ t.outline.methods := by
    rw [← hmethods, ← Draft.methodOutline_of_method hy]
    exact List.mem_map_of_mem (f := fun p : Subsig × MethodId => d.methodOutline p.2) hmem
  obtain ⟨x, hx, hright⟩ := List.mem_filterMap.1 hin
  have hx' := Sum.getRight?_eq_some_iff.1 hright
  rw [Member.outline] at hx'
  split at hx'
  next => cases hx'
  next params body hkind => exact ⟨t, ht, x, hx, params, body, hkind, (Sum.inr.inj hx').symm⟩

/-- Every statement is a command of a tree. -/
theorem Describes.exists_command (hd : Describes ts d) (hts : ∀ t ∈ ts, Spellable t.renderings)
    {s : StmtId} {p : Placed} (hp : d.placed s = .ok p) :
    ∃ k : Command, Spellable k.renderings ∧ p.stmt.command? d.varText d.classText =
      some k.bare := by
  obtain ⟨y, hy, hs⟩ := hd.regular.built.filed.stands s p hp
  obtain ⟨t, ht, x, hx, params, body, hkind, houtline⟩ := hd.exists_member hy
  have hbody : y.stmts.toList.map d.command? = (body.getD []).map fun k => some k.bare :=
    congrArg MethodOutline.body houtline
  have hin : d.command? s ∈ (body.getD []).map fun k => some k.bare := by
    rw [← hbody]
    exact List.mem_map_of_mem (Array.mem_def.1 (Array.mem_of_getElem? hs))
  obtain ⟨k, hk, hcommand⟩ := List.mem_map.1 hin
  refine ⟨k, Member.spellable_commands (ClassTree.spellable_members (hts t ht) x hx) hkind k hk, ?_⟩
  rw [← Draft.command?_of_placed hp, hcommand]

end Methods

end Text

theorem Text.Command.call?_bare (k : Command) : k.bare.call? = k.call?.map CallTree.bare := by
  cases k with
  | assign lhs rhs => cases rhs <;> rfl
  | _ => rfl

/-- The command of a call is a call of the same kind, with a receiver if the call has one, and its
arity is right. -/
theorem Invoke.exists_call? {c : Invoke} {var : VarId → String} {cls : ClassId → String}
    {k : Command} (h : (Stmt.invoke c).command? var cls = some k.bare) :
    c.target.sig.arity = c.args.length ∧
      ∃ t, k.call? = some t ∧ t.kind = c.kind ∧ t.receiver.isSome = c.receiver.isSome := by
  rw [Stmt.command?, Option.map_eq_some_iff] at h
  obtain ⟨t, ht, hk⟩ := h
  have hcall : k.bare.call? = some t := by
    rw [← hk]
    cases c.lhs <;> rfl
  rw [Command.call?_bare, Option.map_eq_some_iff] at hcall
  obtain ⟨t', ht', rfl⟩ := hcall
  rw [tree?] at ht
  split at ht
  next harity =>
    have htree := Option.some.inj ht
    have hkind : c.kind = t'.kind := congrArg CallTree.kind htree
    have hreceiver := congrArg (fun t : CallTree => t.receiver.isSome) htree
    simp only [CallTree.bare, Option.isSome_map] at hreceiver
    exact ⟨harity, t', ht', hkind.symm, hreceiver.symm⟩
  next => cases ht

/-! ## Well-formed programs -/

/-- All ids name something; the variables of a statement belong to the method that has it in its
body; a call has a receiver unless it is static, and asks for a method with as many parameters as it
has arguments; a method has a receiver of its own unless it is static, and no statements if it is
abstract; and classes that are only mentioned have no members. So all arguments of a call meet all
parameters of its callee. -/
structure Draft.WellFormed (d : Draft) : Prop where
  inRange : d.InRange
  stands : ∀ s p, d.placed s = .ok p → d.InBody p.method s
  locals : ∀ m s stmt, d.InBody m s → d.HasStmt s stmt → ∀ v ∈ stmt.vars, d.Owns m v
  receivers : ∀ s call, d.HasStmt s (.invoke call) →
    (call.receiver.isSome = true ↔ call.kind ≠ .static)
  arities : ∀ s call, d.HasStmt s (.invoke call) → call.target.sig.arity = call.args.length
  this : ∀ m y, d.method m = .ok y → (y.this.isSome = true ↔ y.isStatic = false)
  abstracts : ∀ m y, d.method m = .ok y → y.isAbstract = true → y.stmts = #[]
  undeclared : ∀ c x, d.cls c = .ok x → x.declared = false → x.fields = [] ∧ x.methods = []
  fields : ∀ f z, d.field f = .ok z → ∃ x, d.cls z.cls = .ok x ∧ x.declared = true
  methods : ∀ m y, d.method m = .ok y → ∃ x, d.cls y.cls = .ok x ∧ x.declared = true
  callees : ∀ s call receiver, d.HasStmt s (.invoke call) → (∀ c ∈ receiver, d.Has c) →
    ∃ found, d.callee receiver call = .ok found ∧
      ∀ m ∈ found, ∃ y, d.method m = .ok y ∧ y.params.length = call.args.length
  passed : ∀ s call receiver c, d.HasStmt s (.invoke call) →
    d.resolveCall receiver s call = .ok (some c) →
    ∃ y, d.method c.edge.callee = .ok y ∧ c.passed.map Prod.fst = call.args ∧
    c.passed.map Prod.snd = y.params

section WellFormed

variable {ts : List ClassTree} {d : Draft}

theorem Text.Describes.method_shape (hd : Describes ts d) {m : MethodId} {y : Method}
    (hy : d.method m = .ok y) :
    (y.this.isSome = true ↔ y.isStatic = false) ∧ (y.isAbstract = true → y.stmts = #[]) := by
  obtain ⟨t, -, x, -, params, body, -, houtline⟩ := hd.exists_member hy
  simp only [Draft.outlineMethod, MethodOutline.of, MethodOutline.mk.injEq] at houtline
  obtain ⟨-, hstatic, habstract, -, hthis, -, -, hbody⟩ := houtline
  refine ⟨?_, fun h => ?_⟩
  · rw [← Option.isSome_map (f := d.varText), hthis, hstatic]
    cases x.isStatic <;> simp
  · rw [habstract, Option.isNone_iff_eq_none] at h
    rw [h, Option.getD_none, List.map_nil, List.map_eq_nil_iff] at hbody
    exact Array.toList_eq_nil_iff.1 hbody

theorem Text.Describes.call_shape (hd : Describes ts d) (hts : ∀ t ∈ ts, Spellable t.renderings)
    {s : StmtId} {call : Invoke} (hs : d.HasStmt s (.invoke call)) :
    (call.receiver.isSome = true ↔ call.kind ≠ .static) ∧
    call.target.sig.arity = call.args.length := by
  obtain ⟨p, hp, hstmt⟩ := hs
  obtain ⟨k, hspell, hcommand⟩ := hd.exists_command hts hp
  rw [hstmt] at hcommand
  obtain ⟨harity, t, ht, hkind, hreceiver⟩ := Invoke.exists_call? hcommand
  have hiff := CallTree.isSome_receiver_iff (Command.spellable_call hspell ht)
  rw [hkind, hreceiver] at hiff
  exact ⟨hiff, harity⟩

/-- A draft that trees of a text describe is well formed. -/
theorem Text.Describes.wellFormed (hd : Describes ts d) (hts : ∀ t ∈ ts, Spellable t.renderings) :
    d.WellFormed := by
  have hregular := hd.regular
  have hparams : ∀ {s call receiver m}, d.HasStmt s (.invoke call) →
      d.callee receiver call = .ok (some m) →
      ∃ y, d.method m = .ok y ∧ y.params.length = call.args.length := by
    intro s call receiver m hs hm
    obtain ⟨y, hy, hsig⟩ := hregular.built.owned.sig_of_callee hm
    refine ⟨y, hy, ?_⟩
    calc y.params.length = y.sig.arity := rfl
      _ = call.target.sig.arity := by rw [hsig]
      _ = call.args.length := (hd.call_shape hts hs).2
  refine
    { inRange := hregular.inRange
      stands := fun s p hp => hregular.built.filed.inBody hp
      locals :=
        fun m s stmt hm hs v hv => hregular.locals.owns_of_inBody hregular.built.filed hm hs hv
      receivers := fun s call hs => (hd.call_shape hts hs).1
      arities := fun s call hs => (hd.call_shape hts hs).2
      this := fun m y hy => (hd.method_shape hy).1
      abstracts := fun m y hy => (hd.method_shape hy).2
      undeclared := fun c x hx hundeclared => ?_
      fields := fun f z hz => ?_
      methods := fun m y hy => ?_
      callees := fun s call receiver hs hreceiver => ?_
      passed := fun s call receiver c hs hc => ?_ }
  · have hnot : ¬ (x.fields ≠ [] ∨ x.methods ≠ []) := fun hmembers => by
      rw [hd.declared_of_members hx hmembers] at hundeclared
      cases hundeclared
    rwa [not_or, not_not, not_not] at hnot
  · obtain ⟨x, hx, hmem⟩ := hregular.built.listed.fields f z hz
    exact ⟨x, hx, hd.declared_of_members hx (.inl (List.ne_nil_of_mem hmem))⟩
  · obtain ⟨x, hx, hmem⟩ := hregular.built.listed.methods m y hy
    exact ⟨x, hx, hd.declared_of_members hx (.inr (List.ne_nil_of_mem hmem))⟩
  · have htarget : d.Has call.target.cls :=
      (hregular.inRange.within_of_hasStmt hs).classes _ (List.mem_singleton_self _)
    obtain ⟨found, hfound, -⟩ := hregular.inRange.exists_callee hreceiver htarget
    refine ⟨found, hfound, fun m hm => ?_⟩
    have hcallee : d.callee receiver call = .ok (some m) := by rw [hfound, Option.mem_def.1 hm]
    exact hparams hs hcallee
  · obtain ⟨m, y, hm, hy, rfl⟩ := Draft.resolveCall_eq_ok_iff.1 hc
    obtain ⟨y', hy', hlength⟩ := hparams hs hm
    cases hy.symm.trans hy'
    exact ⟨y, hy, List.map_fst_zip hlength.ge, List.map_snd_zip hlength.le⟩

end WellFormed

/-- A text that is accepted gives a well-formed program. -/
theorem Program.wellFormed_of_ofText {text : String} {p : Program}
    (h : Program.ofText text = .ok p) :
    p.toDraft.WellFormed := by
  obtain ⟨ls, items, d, hlex, hparse, hdraft, hseal⟩ := ofText_eq_ok_iff.1 h
  rw [(Draft.seal_spec hseal).1]
  refine (describes_of_draftOf hdraft).1.wellFormed fun t ht => ?_
  exact spellable_of_parseItems hlex hparse (.cls t) (Item.mem_classes_iff.1 ht)

theorem Program.sample_wellFormed_of_ofText :
    ∃ p, Program.ofText sampleText = .ok p ∧ p.toDraft.WellFormed ∧
      ∃ y, p.method ⟨0⟩ = .ok y ∧ (y.this.isSome = true ↔ y.isStatic = false) := by
  obtain ⟨p, htext, hid, -⟩ := sampleText_accepted
  have hwellFormed := Program.wellFormed_of_ofText htext
  obtain ⟨y, hy⟩ := Draft.exists_method_iff.2 hid
  exact ⟨p, htext, hwellFormed, y, hy, hwellFormed.this _ y hy⟩

end PointsTo
