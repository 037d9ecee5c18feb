import PointsTo.Proofs.Facts

/-!
# Effects and reactions

The lists of effects and reactions, told as relations between a statement and what it asks for:
`Asks` says what it asks for as soon as its method is reached, and `Reacts` what it asks for when
its base or receiver has a new object (`mem_bodyEffects_iff`). Records for the log are not asked
for, so the relations let any record about the statement pass (`Records`).
-/

namespace PointsTo

namespace Draft

variable {d : Draft}

theorem hasStmt_of_placed {s : StmtId} {placed : Placed} (h : d.placed s = .ok placed) :
    d.HasStmt s placed.stmt :=
  ⟨placed, h, rfl⟩

/-! ## Calls -/

theorem resolveCall_eq_ok_iff {receiver : Option ClassId} {s : StmtId} {call : Invoke} {c : Call} :
    d.resolveCall receiver s call = .ok (some c) ↔
      ∃ m method, d.callee receiver call = .ok (some m) ∧ d.method m = .ok method ∧
        c = ⟨⟨call.kind, s, m⟩, method.this, call.args.zip method.params, method.returns,
          call.lhs⟩ := by
  rw [resolveCall, bind_eq_ok]
  constructor
  · rintro ⟨found, hfound, h⟩
    cases found with
    | none => cases h
    | some m =>
      obtain ⟨method, hmethod, h⟩ := bind_eq_ok.1 h
      cases h
      exact ⟨m, method, hfound, hmethod, rfl⟩
  · rintro ⟨m, method, hm, hmethod, rfl⟩
    refine ⟨some m, hm, ?_⟩
    simp only [hmethod]
    rfl

/-- A call that the program makes: its site with the callee for some receiver. -/
def IsCall (d : Draft) (c : Call) : Prop :=
  ∃ receiver call, d.HasStmt c.edge.site (.invoke call) ∧
    d.resolveCall receiver c.edge.site call = .ok (some c)

theorem site_of_resolveCall {receiver : Option ClassId} {s : StmtId} {call : Invoke} {c : Call}
    (h : d.resolveCall receiver s call = .ok (some c)) : c.edge.site = s := by
  obtain ⟨m, method, -, -, rfl⟩ := resolveCall_eq_ok_iff.1 h
  rfl

theorem isCall_of_resolveCall {receiver : Option ClassId} {s : StmtId} {call : Invoke} {c : Call}
    (hs : d.HasStmt s (.invoke call)) (h : d.resolveCall receiver s call = .ok (some c)) :
    d.IsCall c := by
  have hsite := site_of_resolveCall h
  exact ⟨receiver, call, hsite ▸ hs, hsite ▸ h⟩

/-- A call is told by its site and its callee. -/
theorem IsCall.eq_of_ends {c c' : Call} (h : d.IsCall c) (h' : d.IsCall c')
    (hsite : c.edge.site = c'.edge.site) (hcallee : c.edge.callee = c'.edge.callee) : c = c' := by
  obtain ⟨receiver, call, hs, hc⟩ := h
  obtain ⟨receiver', call', hs', hc'⟩ := h'
  rw [hsite] at hs hc
  cases hs.unique hs'
  obtain ⟨m, method, -, hmethod, heq⟩ := resolveCall_eq_ok_iff.1 hc
  obtain ⟨m', method', -, hmethod', heq'⟩ := resolveCall_eq_ok_iff.1 hc'
  have hm : c.edge.callee = m := by rw [heq]
  have hm' : c'.edge.callee = m' := by rw [heq']
  obtain rfl : m = m' := by rw [← hm, hcallee, hm']
  rw [hmethod] at hmethod'
  cases hmethod'
  exact heq.trans heq'.symm

/-- A call that names its class enters the same method whatever the receiver. -/
theorem callee_eq_of_named {call : Invoke} (h : call.kind = .static ∨ call.kind = .special)
    (receiver receiver' : Option ClassId) : d.callee receiver call = d.callee receiver' call := by
  rcases h with h | h <;> simp [callee, Invoke.lookupClass, h]

/-- All edges of a static call enter the same method. -/
theorem IsCall.callee_eq_of_static {c c' : Call} {call : Invoke} (h : d.IsCall c) (h' : d.IsCall c')
    (hs : d.HasStmt c.edge.site (.invoke call)) (hstatic : call.kind = .static)
    (hsite : c.edge.site = c'.edge.site) : c.edge.callee = c'.edge.callee := by
  obtain ⟨receiver, call₁, hs₁, hc⟩ := h
  obtain ⟨receiver', call₂, hs₂, hc'⟩ := h'
  cases hs.unique hs₁
  rw [← hsite] at hs₂
  cases hs.unique hs₂
  obtain ⟨m, method, hm, -, heq⟩ := resolveCall_eq_ok_iff.1 hc
  obtain ⟨m', method', hm', -, heq'⟩ := resolveCall_eq_ok_iff.1 hc'
  rw [callee_eq_of_named (.inl hstatic) receiver receiver', hm'] at hm
  rw [heq, heq']
  exact (Option.some.inj (Except.ok.inj hm)).symm

/-! ## Effects -/

theorem fieldFlow_eq_ok {s : StmtId} {ref : FieldRef} {isStatic : Bool} {flow : FieldId → Effect}
    {e : Effect} (h : d.fieldFlow s ref isStatic flow = .ok e) :
    (∃ f, d.Accesses ref f isStatic ∧ e = flow f) ∨
      ((∀ f, ¬ d.Accesses ref f isStatic) ∧ e = .note (.unresolvedField ref s)) := by
  rw [fieldFlow, bind_eq_ok] at h
  obtain ⟨found, hfound, h⟩ := h
  split at h <;> rename_i hf
  · rw [Option.filter_eq_some_iff] at hf
    cases h
    exact .inl ⟨_, ⟨hfound.trans (by rw [hf.1]), by simpa using hf.2⟩, rfl⟩
  · cases h
    refine .inr ⟨fun f hf' => ?_, rfl⟩
    rw [hf'.1] at hfound
    cases hfound
    simp [hf'.2] at hf

/-- An access that finds its field lets objects flow through it. -/
theorem eq_flow_of_accesses {s : StmtId} {ref : FieldRef} {f : FieldId} {isStatic : Bool}
    {flow : FieldId → Effect} {e : Effect} (hf : d.Accesses ref f isStatic)
    (h : d.fieldFlow s ref isStatic flow = .ok e) : e = flow f := by
  rcases fieldFlow_eq_ok h with ⟨f', hf', rfl⟩ | ⟨hnone, -⟩
  · cases hf.1.symm.trans hf'.1
    rfl
  · exact absurd hf (hnone f)

/-- What may be recorded about a statement: that a field or a call in it means nothing. -/
inductive Records (d : Draft) (s : StmtId) : Event → Prop where
  | load {lhs : VarId} {base : Option VarId} {ref : FieldRef} :
      d.HasStmt s (.load lhs base ref) → Records d s (.unresolvedField ref s)
  | store {base : Option VarId} {ref : FieldRef} {rhs : VarId} :
      d.HasStmt s (.store base ref rhs) → Records d s (.unresolvedField ref s)
  | static {call : Invoke} : d.HasStmt s (.invoke call) → Records d s (.unresolvedStatic s)
  | call {call : Invoke} (o : ObjId) : d.HasStmt s (.invoke call) →
      Records d s (.unresolvedCall call.kind s o)

/-- What a statement asks for as soon as its method is reached. -/
inductive Asks (d : Draft) (s : StmtId) : Effect → Prop where
  | alloc {lhs : VarId} {c : ClassId} {isArray : Bool} :
      d.HasStmt s (.new lhs c isArray) → Asks d s (.alloc lhs ⟨s, .of c isArray⟩)
  | copy {lhs rhs : VarId} : d.HasStmt s (.copy lhs rhs) → Asks d s (.flow (.var rhs) (.var lhs))
  | load {lhs : VarId} {ref : FieldRef} {f : FieldId} :
      d.HasStmt s (.load lhs none ref) → d.Accesses ref f true →
      Asks d s (.flow (.static f) (.var lhs))
  | store {ref : FieldRef} {rhs : VarId} {f : FieldId} :
      d.HasStmt s (.store none ref rhs) → d.Accesses ref f true →
      Asks d s (.flow (.var rhs) (.static f))
  | enter {call : Invoke} {c : Call} :
      d.HasStmt s (.invoke call) → call.kind = .static → d.resolveCall none s call = .ok (some c) →
      Asks d s (.enter c)
  | note {event : Event} : d.Records s event → Asks d s (.note event)

theorem asks_of_mem_stmtEffects {s : StmtId} {es : List Effect} (h : d.stmtEffects s = .ok es)
    {e : Effect} (he : e ∈ es) : d.Asks s e := by
  rw [stmtEffects, bind_eq_ok] at h
  obtain ⟨placed, hplaced, h⟩ := h
  have hs := hasStmt_of_placed hplaced
  revert hs h
  cases placed.stmt with
  | new lhs c isArray =>
    intro h hs
    cases h
    rw [List.mem_singleton] at he
    exact he ▸ .alloc hs
  | copy lhs rhs =>
    intro h hs
    cases h
    rw [List.mem_singleton] at he
    exact he ▸ .copy hs
  | load lhs base ref =>
    intro h hs
    cases base with
    | some base =>
      cases h
      cases he
    | none =>
      obtain ⟨e', he', h⟩ := bind_eq_ok.1 h
      cases h
      rw [List.mem_singleton] at he
      subst he
      rcases fieldFlow_eq_ok he' with ⟨f, hf, rfl⟩ | ⟨-, rfl⟩
      · exact .load hs hf
      · exact .note (.load hs)
  | store base ref rhs =>
    intro h hs
    cases base with
    | some base =>
      cases h
      cases he
    | none =>
      obtain ⟨e', he', h⟩ := bind_eq_ok.1 h
      cases h
      rw [List.mem_singleton] at he
      subst he
      rcases fieldFlow_eq_ok he' with ⟨f, hf, rfl⟩ | ⟨-, rfl⟩
      · exact .store hs hf
      · exact .note (.store hs)
  | invoke call =>
    intro h hs
    dsimp only at h
    split at h <;> rename_i hstatic
    · obtain ⟨found, hfound, h⟩ := bind_eq_ok.1 h
      cases found with
      | none =>
        cases h
        rw [List.mem_singleton] at he
        exact he ▸ .note (.static hs)
      | some c =>
        cases h
        rw [List.mem_singleton] at he
        exact he ▸ .enter hs hstatic hfound
    · cases h
      cases he
  | loadArray | storeArray | ret | const =>
    intro h hs
    cases h
    cases he

theorem mem_stmtEffects_of_asks {s : StmtId} {es : List Effect} (h : d.stmtEffects s = .ok es)
    {e : Effect} (he : d.Asks s e) : e ∈ es ∨ ∃ event, e = .note event := by
  rw [stmtEffects, bind_eq_ok] at h
  obtain ⟨placed, hplaced, h⟩ := h
  have hs := hasStmt_of_placed hplaced
  cases he with
  | note _ => exact .inr ⟨_, rfl⟩
  | alloc hs' =>
    rw [hs.unique hs'] at h
    cases h
    exact .inl (List.mem_singleton.2 rfl)
  | copy hs' =>
    rw [hs.unique hs'] at h
    cases h
    exact .inl (List.mem_singleton.2 rfl)
  | load hs' hf =>
    rw [hs.unique hs'] at h
    obtain ⟨e', he', h⟩ := bind_eq_ok.1 h
    cases h
    exact .inl (List.mem_singleton.2 (eq_flow_of_accesses hf he').symm)
  | store hs' hf =>
    rw [hs.unique hs'] at h
    obtain ⟨e', he', h⟩ := bind_eq_ok.1 h
    cases h
    exact .inl (List.mem_singleton.2 (eq_flow_of_accesses hf he').symm)
  | enter hs' hstatic hc =>
    rw [hs.unique hs'] at h
    simp only [hstatic, if_true] at h
    obtain ⟨found, hfound, h⟩ := bind_eq_ok.1 h
    cases hfound.symm.trans hc
    cases h
    exact .inl (List.mem_singleton.2 rfl)

theorem bodyEffects_eq_ok {m : MethodId} {es : List Effect} (h : d.bodyEffects m = .ok es) :
    ∃ method lists, d.method m = .ok method ∧ method.stmts.toList.mapM d.stmtEffects = .ok lists ∧
      lists.flatten = es := by
  obtain ⟨method, hmethod, h⟩ := bind_eq_ok.1 h
  obtain ⟨lists, hlists, h⟩ := bind_eq_ok.1 h
  exact ⟨method, lists, hmethod, hlists, pure_eq_ok.1 h⟩

theorem mem_bodyEffects_iff {m : MethodId} {es : List Effect} (h : d.bodyEffects m = .ok es)
    {e : Effect} : e ∈ es ↔ ∃ s es', d.InBody m s ∧ d.stmtEffects s = .ok es' ∧ e ∈ es' := by
  obtain ⟨method, lists, hmethod, hlists, rfl⟩ := bodyEffects_eq_ok h
  rw [List.mem_flatten]
  constructor
  · rintro ⟨es', hes', he⟩
    obtain ⟨s, hs, heq⟩ := (mem_of_mapM_eq_ok hlists).1 hes'
    exact ⟨s, es', ⟨method, hmethod, hs⟩, heq, he⟩
  · rintro ⟨s, es', ⟨method', hmethod', hs⟩, heq, he⟩
    cases hmethod.symm.trans hmethod'
    exact ⟨es', (mem_of_mapM_eq_ok hlists).2 ⟨s, hs, heq⟩, he⟩

theorem length_stmtEffects_le {s : StmtId} {es : List Effect} (h : d.stmtEffects s = .ok es) :
    es.length ≤ 1 := by
  rw [stmtEffects, bind_eq_ok] at h
  obtain ⟨placed, -, h⟩ := h
  split at h
  · cases h
    simp
  · cases h
    simp
  · obtain ⟨e, -, h⟩ := bind_eq_ok.1 h
    cases h
    simp
  · obtain ⟨e, -, h⟩ := bind_eq_ok.1 h
    cases h
    simp
  · split at h
    · obtain ⟨found, -, h⟩ := bind_eq_ok.1 h
      cases found <;> cases h <;> simp
    · cases h
      simp
  · cases h
    simp

/-- The effects of a body are not more than its statements. -/
theorem length_bodyEffects_le {m : MethodId} {method : Method} {es : List Effect}
    (hmethod : d.method m = .ok method) (h : d.bodyEffects m = .ok es) :
    es.length ≤ method.stmts.size := by
  obtain ⟨method', lists, hmethod', hlists, rfl⟩ := bodyEffects_eq_ok h
  cases hmethod.symm.trans hmethod'
  have hone : ∀ es ∈ lists, es.length ≤ 1 := by
    intro es hes
    obtain ⟨s, -, heq⟩ := (mem_of_mapM_eq_ok hlists).1 hes
    exact length_stmtEffects_le heq
  calc lists.flatten.length ≤ lists.length * 1 := length_flatten_le hone
    _ = lists.length := Nat.mul_one _
    _ = method.stmts.toList.length := length_of_mapM_eq_ok hlists
    _ = method.stmts.size := Array.length_toList

/-! ## Reactions -/

/-- What a statement asks for when its base or receiver has a new object. -/
inductive Reacts (d : Draft) (o : ObjId) (type : ObjType) (s : StmtId) : Reaction → Prop where
  | store {base rhs : VarId} {ref : FieldRef} {f : FieldId} :
      d.HasStmt s (.store (some base) ref rhs) → d.Accesses ref f false →
      Reacts d o type s (.effect (.flow (.var rhs) (.field o f)))
  | load {lhs base : VarId} {ref : FieldRef} {f : FieldId} :
      d.HasStmt s (.load lhs (some base) ref) → d.Accesses ref f false →
      Reacts d o type s (.effect (.flow (.field o f) (.var lhs)))
  | storeArray {base rhs : VarId} :
      d.HasStmt s (.storeArray base rhs) →
      Reacts d o type s (.effect (.flow (.var rhs) (.var base)))
  | loadArray {lhs base : VarId} :
      d.HasStmt s (.loadArray lhs base) → Reacts d o type s (.effect (.flow (.var base) (.var lhs)))
  | receive {call : Invoke} {c : Call} :
      d.HasStmt s (.invoke call) → d.resolveCall type.dispatchClass? s call = .ok (some c) →
      Reacts d o type s (.receive c)
  | note {event : Event} : d.Records s event → Reacts d o type s (.effect (.note event))

theorem reacts_of_mem_stmtReactions {o : ObjId} {type : ObjType} {s : StmtId} {rs : List Reaction}
    (h : d.stmtReactions o type s = .ok rs) {r : Reaction} (hr : r ∈ rs) : d.Reacts o type s r := by
  rw [stmtReactions, bind_eq_ok] at h
  obtain ⟨placed, hplaced, h⟩ := h
  have hs := hasStmt_of_placed hplaced
  revert hs h
  cases placed.stmt with
  | store base ref rhs =>
    intro h hs
    cases base with
    | none =>
      cases h
      cases hr
    | some base =>
      obtain ⟨e, he, h⟩ := bind_eq_ok.1 h
      cases h
      rw [List.mem_singleton] at hr
      subst hr
      rcases fieldFlow_eq_ok he with ⟨f, hf, rfl⟩ | ⟨-, rfl⟩
      · exact .store hs hf
      · exact .note (.store hs)
  | load lhs base ref =>
    intro h hs
    cases base with
    | none =>
      cases h
      cases hr
    | some base =>
      obtain ⟨e, he, h⟩ := bind_eq_ok.1 h
      cases h
      rw [List.mem_singleton] at hr
      subst hr
      rcases fieldFlow_eq_ok he with ⟨f, hf, rfl⟩ | ⟨-, rfl⟩
      · exact .load hs hf
      · exact .note (.load hs)
  | storeArray base rhs =>
    intro h hs
    cases h
    rw [List.mem_singleton] at hr
    exact hr ▸ .storeArray hs
  | loadArray lhs base =>
    intro h hs
    cases h
    rw [List.mem_singleton] at hr
    exact hr ▸ .loadArray hs
  | invoke call =>
    intro h hs
    obtain ⟨found, hfound, h⟩ := bind_eq_ok.1 h
    cases found with
    | none =>
      cases h
      rw [List.mem_singleton] at hr
      exact hr ▸ .note (.call o hs)
    | some c =>
      cases h
      rw [List.mem_singleton] at hr
      exact hr ▸ .receive hs hfound
  | new | copy | ret | const =>
    intro h hs
    cases h
    cases hr

theorem mem_stmtReactions_of_reacts {o : ObjId} {type : ObjType} {s : StmtId} {rs : List Reaction}
    (h : d.stmtReactions o type s = .ok rs) {r : Reaction} (hr : d.Reacts o type s r) :
    r ∈ rs ∨ ∃ event, r = .effect (.note event) := by
  rw [stmtReactions, bind_eq_ok] at h
  obtain ⟨placed, hplaced, h⟩ := h
  have hs := hasStmt_of_placed hplaced
  cases hr with
  | note _ => exact .inr ⟨_, rfl⟩
  | store hs' hf =>
    rw [hs.unique hs'] at h
    obtain ⟨e, he, h⟩ := bind_eq_ok.1 h
    cases h
    rw [eq_flow_of_accesses hf he]
    exact .inl (List.mem_singleton.2 rfl)
  | load hs' hf =>
    rw [hs.unique hs'] at h
    obtain ⟨e, he, h⟩ := bind_eq_ok.1 h
    cases h
    rw [eq_flow_of_accesses hf he]
    exact .inl (List.mem_singleton.2 rfl)
  | storeArray hs' =>
    rw [hs.unique hs'] at h
    cases h
    exact .inl (List.mem_singleton.2 rfl)
  | loadArray hs' =>
    rw [hs.unique hs'] at h
    cases h
    exact .inl (List.mem_singleton.2 rfl)
  | receive hs' hc =>
    rw [hs.unique hs'] at h
    obtain ⟨found, hfound, h⟩ := bind_eq_ok.1 h
    cases hfound.symm.trans hc
    cases h
    exact .inl (List.mem_singleton.2 rfl)

theorem length_stmtReactions_le {o : ObjId} {type : ObjType} {s : StmtId} {rs : List Reaction}
    (h : d.stmtReactions o type s = .ok rs) : rs.length ≤ 1 := by
  rw [stmtReactions, bind_eq_ok] at h
  obtain ⟨placed, -, h⟩ := h
  split at h
  · obtain ⟨e, -, h⟩ := bind_eq_ok.1 h
    cases h
    simp
  · obtain ⟨e, -, h⟩ := bind_eq_ok.1 h
    cases h
    simp
  · cases h
    simp
  · cases h
    simp
  · obtain ⟨found, -, h⟩ := bind_eq_ok.1 h
    cases found <;> cases h <;> simp
  · cases h
    simp

end Draft

end PointsTo
