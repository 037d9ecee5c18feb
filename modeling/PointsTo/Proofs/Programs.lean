import PointsTo.Proofs.Operations

/-!
# Programs

A program is a sealed draft. Building keeps the statements of each method `Filed` under it, whatever
ids the statements mention, and sealing lists for each variable the statements that depend on it
(`DependsOn`, `InRange.exists_seal`). A program that was built and sealed with all its ids in range
is `Proper`; its reactions to an object are those of the statements that depend on the variable
(`Program.Proper.mem_reactions_iff`).
-/

namespace PointsTo

namespace Draft

/-- The statements that a method lists are those that are placed in it, and it returns what they
return. -/
structure Filed (d : Draft) : Prop where
  stands : ∀ s x, d.placed s = .ok x → ∃ method, d.method x.method = .ok method ∧
    method.stmts[x.position]? = some s
  listed : ∀ m method i s, d.method m = .ok method → method.stmts[i]? = some s →
    ∃ stmt, d.placed s = .ok ⟨stmt, m, i⟩
  returned : ∀ s v m i method, d.placed s = .ok ⟨.ret (some v), m, i⟩ → d.method m = .ok method →
    v ∈ method.returns
  returns : ∀ m method, d.method m = .ok method →
    ∀ v ∈ method.returns, ∃ s i, d.placed s = .ok ⟨.ret (some v), m, i⟩

section Filing

variable {d d' : Draft}

theorem Filed.inBody (h : d.Filed) {s : StmtId} {x : Placed} (hx : d.placed s = .ok x) :
    d.InBody x.method s := by
  obtain ⟨method, hmethod, hs⟩ := h.stands s x hx
  exact ⟨method, hmethod, Array.mem_def.1 (Array.mem_of_getElem? hs)⟩

/-- A draft with the same statements stays filed if each method keeps its statements and what it
returns, and each new method has none. -/
theorem Filed.of_stmts_eq (h : d.Filed) (hstmts : d'.stmts = d.stmts)
    (hkept : ∀ m x, d.method m = .ok x → ∃ y, d'.method m = .ok y ∧ y.stmts = x.stmts ∧
      y.returns = x.returns)
    (hnew : ∀ m y, d'.method m = .ok y → d.Has m ∨ y.stmts = #[] ∧ y.returns = []) : d'.Filed := by
  have hplaced : d'.placed = d.placed := by
    funext s
    rw [placed, placed, hstmts]
  have hback : ∀ m y, d'.method m = .ok y →
      (∃ x, d.method m = .ok x ∧ y.stmts = x.stmts ∧ y.returns = x.returns) ∨ y.stmts = #[] ∧
      y.returns = [] := by
    intro m y hy
    refine (hnew m y hy).imp_left fun hm => ?_
    obtain ⟨x, hx⟩ := exists_method_iff.2 hm
    obtain ⟨y', hy', hsame⟩ := hkept m x hx
    cases hy'.symm.trans hy
    exact ⟨x, hx, hsame⟩
  refine ⟨fun s x hs => ?_, fun m y i s hy hs => ?_, fun s v m i y hs hy => ?_,
    fun m y hy v hv => ?_⟩
  · rw [hplaced] at hs
    obtain ⟨x', hx', hmem⟩ := h.stands s x hs
    obtain ⟨y, hy, hsame, -⟩ := hkept _ _ hx'
    exact ⟨y, hy, hsame ▸ hmem⟩
  · rw [hplaced]
    obtain ⟨x, hx, hsame, -⟩ | ⟨hnone, -⟩ := hback m y hy
    · exact h.listed m x i s hx (hsame ▸ hs)
    · simp [hnone] at hs
  · rw [hplaced] at hs
    obtain ⟨x, hx, -⟩ := h.stands s _ hs
    obtain ⟨y', hy', -, hsame⟩ := hkept m x hx
    cases hy'.symm.trans hy
    exact hsame ▸ h.returned s v m i x hs hx
  · rw [hplaced]
    obtain ⟨x, hx, -, hsame⟩ | ⟨-, hnone⟩ := hback m y hy
    · exact h.returns m x hx v (hsame ▸ hv)
    · rw [hnone] at hv
      cases hv

theorem Filed.of_eq (h : d.Filed) (hmethods : d'.methods = d.methods)
    (hstmts : d'.stmts = d.stmts) :
    d'.Filed := by
  have hmethod : d'.method = d.method := by
    funext m
    rw [method, method, hmethods]
  refine h.of_stmts_eq hstmts (fun m x hx => ⟨x, hmethod ▸ hx, rfl, rfl⟩) fun m y hy => ?_
  exact .inl (exists_method_iff.1 ⟨y, hmethod ▸ hy⟩)

theorem Filed.internClass (h : d.Filed) (name : String) : (d.internClass name).2.Filed := by
  rw [internClass_snd]
  exact h.of_eq rfl rfl

theorem mem_returnsWith {x : Method} {stmt : Stmt} {v : VarId} :
    v ∈ x.returnsWith stmt ↔ v ∈ x.returns ∨ stmt = .ret (some v) := by
  cases stmt with
  | ret value =>
    cases value with
    | none => simp [Method.returnsWith]
    | some w =>
      simp only [Method.returnsWith, Stmt.ret.injEq, Option.some.injEq]
      split <;> rename_i hw
      · constructor
        · exact .inl
        · rintro (hv | rfl)
          · exact hv
          · exact hw
      · simp [eq_comm]
  | _ => simp [Method.returnsWith]

theorem Filed.pushStmt (h : d.Filed) {m : MethodId} {stmt : Stmt} {s : StmtId}
    (hpush : d.pushStmt m stmt = .ok (s, d')) : d'.Filed := by
  obtain ⟨rfl, x, hx, rfl⟩ := pushStmt_eq_ok_iff.1 hpush
  refine ⟨fun s y hs => ?_, fun m' y i s hy hs => ?_, fun s v m' i y hs hy => ?_,
    fun m' y hy v hv => ?_⟩
  · obtain hs | ⟨rfl, rfl⟩ := fetch_push_cases hs
    · obtain ⟨z, hz, hmem⟩ := h.stands s y hs
      refine ⟨_, fetch_modify hz, ?_⟩
      split
      · have hlt : y.position < z.stmts.size := (Array.getElem?_eq_some_iff.1 hmem).1
        dsimp only
        rw [Array.getElem?_push, if_neg (by omega)]
        exact hmem
      · exact hmem
    · exact ⟨_, fetch_modify_self hx, Array.getElem?_push_size⟩
  · -- a statement of the body stood there before, or is the new one in the last place
    have hold : ∀ z, d.method m' = .ok z → z.stmts[i]? = some s →
        ∃ stmt', fetch (d.stmts.push ⟨stmt, m, x.stmts.size⟩) s = .ok ⟨stmt', m', i⟩ := by
      intro z hz hs
      obtain ⟨stmt', hstmt'⟩ := h.listed m' z i s hz hs
      exact ⟨stmt', fetch_push_of_ok hstmt'⟩
    obtain ⟨z, hz, rfl | ⟨hm', rfl⟩⟩ := exists_fetch_of_modify hy
    · exact hold y hz hs
    · cases Id.ext_index hm'
      cases hx.symm.trans hz
      dsimp only at hs
      rw [Array.getElem?_push] at hs
      split at hs
      next hi =>
        cases hs
        exact ⟨stmt, hi ▸ fetch_push_new⟩
      next => exact hold x hx hs
  · obtain hs | ⟨rfl, heq⟩ := fetch_push_cases hs
    · obtain ⟨z, hz, rfl | ⟨-, rfl⟩⟩ := exists_fetch_of_modify hy
      · exact h.returned s v m' i y hs hz
      · exact mem_returnsWith.2 (.inl (h.returned s v m' i z hs hz))
    · cases heq
      cases (fetch_modify_self hx).symm.trans hy
      exact mem_returnsWith.2 (.inr rfl)
  · have hold : ∀ z, d.method m' = .ok z → v ∈ z.returns →
        ∃ (s : StmtId) (i : Nat), fetch (d.stmts.push ⟨stmt, m, x.stmts.size⟩) s =
        .ok ⟨.ret (some v), m', i⟩ := by
      intro z hz hv
      obtain ⟨s, i, hs⟩ := h.returns m' z hz v hv
      exact ⟨s, i, fetch_push_of_ok hs⟩
    obtain ⟨z, hz, rfl | ⟨hm', rfl⟩⟩ := exists_fetch_of_modify hy
    · exact hold y hz hv
    · cases Id.ext_index hm'
      obtain hv | rfl := mem_returnsWith.1 hv
      · exact hold z hz hv
      · exact ⟨⟨d.stmts.size⟩, x.stmts.size, fetch_push_new⟩

theorem Filed.grows (h : d.Filed) (hgrows : d.Grows d') : d'.Filed := by
  cases hgrows with
  | internClass name => exact h.internClass name
  | declareClass heq =>
    obtain ⟨-, -, rfl⟩ := declareClass_eq_ok_iff.1 heq
    exact (h.internClass _).of_eq rfl rfl
  | addField heq =>
    obtain ⟨-, -, rfl⟩ := addField_eq_ok_iff.1 heq
    exact h.of_eq rfl rfl
  | addMethod heq =>
    obtain ⟨-, -, -, rfl⟩ := addMethod_eq_ok_iff.1 heq
    refine h.of_stmts_eq rfl (fun m x hx => ⟨x, fetch_push_of_ok hx, rfl, rfl⟩) fun m y hy => ?_
    obtain hy | ⟨-, rfl⟩ := fetch_push_cases hy
    · exact .inl (exists_method_iff.1 ⟨y, hy⟩)
    · exact .inr ⟨rfl, rfl⟩
  | internVar heq =>
    obtain ⟨-, ⟨-, rfl⟩ | ⟨-, -, rfl⟩⟩ := internVar_eq_ok_iff.1 heq
    · exact h
    · refine h.of_stmts_eq rfl (fun m x hx => ⟨_, fetch_modify hx, by split <;> rfl, by
        split <;> rfl⟩) fun m y hy => ?_
      obtain ⟨x, hx, -⟩ := exists_fetch_of_modify hy
      exact .inl (exists_method_iff.1 ⟨x, hx⟩)
  | pushStmt heq => exact h.pushStmt heq
  | setEntry m => exact h.of_eq rfl rfl

theorem Built.filed (h : d.Built) : d.Filed := by
  have hempty : ({} : Draft).Filed := by
    refine ⟨fun s y hs => ?_, fun m y i s hm => ?_, fun s v m i y hs => ?_, fun m y hm => ?_⟩
    · simp [placed, fetch] at hs
    · simp [method, fetch] at hm
    · simp [placed, fetch] at hs
    · simp [method, fetch] at hm
  induction h with
  | refl => exact hempty
  | tail _ hgrows ih => exact ih.grows hgrows

/-- A statement stands in one body only. -/
theorem Filed.method_of_inBody (h : d.Filed) {m : MethodId} {s : StmtId} {x : Placed}
    (hs : d.InBody m s) (hx : d.placed s = .ok x) : x.method = m := by
  obtain ⟨method, hm, hs⟩ := hs
  obtain ⟨i, hi⟩ := List.mem_iff_getElem?.1 hs
  rw [Array.getElem?_toList] at hi
  obtain ⟨stmt, hstmt⟩ := h.listed m method i s hm hi
  cases hx.symm.trans hstmt
  rfl

theorem Filed.mem_returns (h : d.Filed) {m : MethodId} {s : StmtId} {v : VarId} {method : Method}
    (hs : d.InBody m s) (hv : d.HasStmt s (.ret (some v))) (hm : d.method m = .ok method) :
    v ∈ method.returns := by
  obtain ⟨⟨stmt, m', i⟩, hx, rfl⟩ := hv
  obtain rfl : m' = m := h.method_of_inBody hs hx
  exact h.returned s v m' i method hx hm

theorem Filed.exists_ret (h : d.Filed) {m : MethodId} {v : VarId} {method : Method}
    (hm : d.method m = .ok method) (hv : v ∈ method.returns) :
    ∃ s, d.InBody m s ∧ d.HasStmt s (.ret (some v)) := by
  obtain ⟨s, i, hs⟩ := h.returns m method hm v hv
  exact ⟨s, h.inBody hs, hasStmt_of_placed hs⟩

theorem Filed.nodup_stmts (h : d.Filed) {m : MethodId} {method : Method}
    (hm : d.method m = .ok method) : method.stmts.toList.Nodup := by
  rw [List.nodup_iff_getElem?_ne_getElem?]
  intro i j hij hj heq
  obtain ⟨s, hs⟩ : ∃ s, method.stmts.toList[j]? = some s := ⟨_, List.getElem?_eq_getElem hj⟩
  rw [hs] at heq
  rw [Array.getElem?_toList] at hs heq
  obtain ⟨stmt, hi⟩ := h.listed m method i s hm heq
  obtain ⟨stmt', hj'⟩ := h.listed m method j s hm hs
  cases hi.symm.trans hj'
  omega

end Filing

end Draft

/-! ## The index of uses -/

/-- The way in which a statement depends on the objects of a variable. -/
def Stmt.useOf? (v : VarId) (stmt : Stmt) : Option Use :=
  stmt.use?.bind fun e => if e.2 = v then some e.1 else none

theorem Stmt.useOf?_eq_some_iff {v : VarId} {stmt : Stmt} {u : Use} :
    stmt.useOf? v = some u ↔ stmt.use? = some (u, v) := by
  rw [useOf?, Option.bind_eq_some_iff]
  constructor
  · rintro ⟨⟨u', v'⟩, huse, h⟩
    rw [huse]
    split at h <;> rename_i hv
    · cases h
      rw [← hv]
    · cases h
  · intro h
    exact ⟨(u, v), h, if_pos rfl⟩

/-- The uses of a variable among some numbered statements. -/
def usesAmong (v : VarId) (stmts : List (Placed × Nat)) : Uses :=
  stmts.filterMap fun e => (e.1.stmt.useOf? v).map (·, ⟨e.2⟩)

theorem recordUse_spec {s : StmtId} {stmt : Stmt} {uses uses' : Array Uses}
    (h : recordUse s stmt uses = .ok uses') :
    uses'.size = uses.size ∧ ∀ v : VarId, uses'[v.index]? = uses[v.index]?.map fun us =>
      ((stmt.useOf? v).map fun u => (u, s)).toList ++ us := by
  rw [recordUse] at h
  split at h <;> rename_i huse
  · cases h
    refine ⟨rfl, fun v => ?_⟩
    simp [Stmt.useOf?, huse]
  · rename_i u w
    split at h
    · cases h
      refine ⟨Array.size_modify, fun v => ?_⟩
      rw [Array.getElem?_modify]
      by_cases hv : w = v
      · subst hv
        simp [Stmt.useOf?, huse]
      · have hne : w.index ≠ v.index := fun heq => hv (Id.ext_index heq)
        simp [Stmt.useOf?, huse, hv, hne]
    · cases h

theorem foldrM_recordUse {stmts : List (Placed × Nat)} {n : Nat} {uses : Array Uses}
    (h : stmts.foldrM (fun (x, i) uses => recordUse ⟨i⟩ x.stmt uses) (Array.replicate n []) =
      .ok uses) :
    uses.size = n ∧ ∀ v : VarId, v.index < n → uses[v.index]? = some (usesAmong v stmts) := by
  induction stmts generalizing uses with
  | nil =>
    cases h
    refine ⟨Array.size_replicate, fun v hv => ?_⟩
    rw [Array.getElem?_replicate, if_pos hv]
    rfl
  | cons e stmts ih =>
    rw [List.foldrM_cons, bind_eq_ok] at h
    obtain ⟨rest, hrest, h⟩ := h
    obtain ⟨hsize, hall⟩ := ih hrest
    obtain ⟨hsize', hall'⟩ := recordUse_spec h
    refine ⟨hsize'.trans hsize, fun v hv => ?_⟩
    rw [hall' v, hall v hv]
    simp only [usesAmong, List.filterMap_cons]
    cases e.1.stmt.useOf? v with
    | none => rfl
    | some u => rfl

theorem Stmt.mem_vars_of_use? {stmt : Stmt} {u : Use} {v : VarId} (h : stmt.use? = some (u, v)) :
    v ∈ stmt.vars := by
  cases stmt with
  | load lhs base ref =>
    cases base with
    | none => cases h
    | some base => cases h; exact .tail _ (.head [])
  | store base ref rhs =>
    cases base with
    | none => cases h
    | some base => cases h; exact .head _
  | loadArray lhs base => cases h; exact .tail _ (.head [])
  | storeArray base rhs => cases h; exact .head _
  | invoke call =>
    obtain ⟨receiver, hreceiver, ⟨⟩⟩ := Option.map_eq_some_iff.1 h
    simp [Stmt.vars, Invoke.vars, hreceiver]
  | _ => cases h

/-- The uses of statements that mention only variables in range are recorded. -/
theorem exists_foldrM_recordUse {stmts : List (Placed × Nat)} {n : Nat}
    (h : ∀ e ∈ stmts, ∀ v ∈ e.1.stmt.vars, v.index < n) :
    ∃ uses, stmts.foldrM (fun (x, i) uses => recordUse ⟨i⟩ x.stmt uses) (Array.replicate n []) =
      .ok uses := by
  induction stmts with
  | nil => exact ⟨_, rfl⟩
  | cons e stmts ih =>
    obtain ⟨he, hstmts⟩ := List.forall_mem_cons.1 h
    obtain ⟨rest, hrest⟩ := ih hstmts
    obtain ⟨uses, huses⟩ : ∃ uses, recordUse ⟨e.2⟩ e.1.stmt rest = .ok uses := by
      rw [recordUse]
      split
      next => exact ⟨_, rfl⟩
      next u v huse =>
        have hlt : v.index < rest.size := by
          rw [(foldrM_recordUse hrest).1]
          exact he v (Stmt.mem_vars_of_use? huse)
        exact ⟨_, if_pos hlt⟩
    exact ⟨uses, by rw [List.foldrM_cons, bind_eq_ok]; exact ⟨rest, hrest, huses⟩⟩

namespace Draft

/-- A statement depends on the objects of a variable. -/
def DependsOn (d : Draft) (s : StmtId) (v : VarId) : Prop :=
  ∃ stmt u, d.HasStmt s stmt ∧ stmt.use? = some (u, v)

theorem seal_spec {d : Draft} {p : Program} (h : d.seal = .ok p) :
    p.toDraft = d ∧ p.uses.size = d.vars.size ∧
      ∀ v : VarId, d.Has v → p.uses[v.index]? = some (usesAmong v d.stmts.toList.zipIdx) := by
  rw [Draft.seal] at h
  obtain ⟨uses, huses, h⟩ := bind_eq_ok.1 h
  cases h
  obtain ⟨hsize, hall⟩ := foldrM_recordUse huses
  exact ⟨rfl, hsize, hall⟩

/-- A draft whose ids are in range can be sealed. -/
theorem InRange.exists_seal {d : Draft} (h : d.InRange) : ∃ p, d.seal = .ok p := by
  have hvars : ∀ e ∈ d.stmts.toList.zipIdx, ∀ v ∈ e.1.stmt.vars, v.index < d.vars.size := by
    intro e he v hv
    exact (h.stmts e.1 (List.fst_mem_of_mem_zipIdx he)).2.vars v hv
  obtain ⟨uses, huses⟩ := exists_foldrM_recordUse hvars
  exact ⟨_, bind_eq_ok.2 ⟨uses, huses, rfl⟩⟩

theorem mem_usesAmong_iff {d : Draft} {v : VarId} {u : Use} {s : StmtId} :
    (u, s) ∈ usesAmong v d.stmts.toList.zipIdx ↔
      ∃ stmt, d.HasStmt s stmt ∧ stmt.use? = some (u, v) := by
  simp only [usesAmong, List.mem_filterMap, List.mem_zipIdx_iff_getElem?, Option.map_eq_some_iff,
    Stmt.useOf?_eq_some_iff, Prod.mk.injEq]
  constructor
  · rintro ⟨⟨x, i⟩, hx, u', huse, rfl, rfl⟩
    exact ⟨x.stmt, ⟨x, fetch_eq_ok_iff.2 (by simpa using hx), rfl⟩, huse⟩
  · rintro ⟨-, ⟨x, hx, rfl⟩, huse⟩
    exact ⟨(x, s.index), by simpa using fetch_eq_ok_iff.1 hx, u, huse, rfl, rfl⟩

end Draft

theorem Uses.mem_inOrder {uses : Uses} {s : StmtId} : s ∈ uses.inOrder ↔ ∃ u, (u, s) ∈ uses := by
  simp only [inOrder, List.mem_flatMap, select, List.mem_map, List.mem_filter, decide_eq_true_eq]
  constructor
  · rintro ⟨u, -, ⟨u', s'⟩, ⟨hmem, -⟩, rfl⟩
    exact ⟨u', hmem⟩
  · rintro ⟨u, hmem⟩
    exact ⟨u, by cases u <;> decide, (u, s), ⟨hmem, rfl⟩, rfl⟩

theorem Uses.length_inOrder (uses : Uses) : uses.inOrder.length = uses.length := by
  induction uses with
  | nil => rfl
  | cons e uses ih =>
    obtain ⟨u, s⟩ := e
    simp only [inOrder, Use.order, List.flatMap_cons, List.flatMap_nil, List.length_append, select,
      List.length_map, List.filter_cons, List.length_nil, List.length_cons] at ih ⊢
    cases u <;> simp <;> omega

/-- A program that was built and sealed, and in which every id names something. -/
structure Program.Proper (p : Program) : Prop where
  built : p.toDraft.Built
  inRange : p.toDraft.InRange
  sealed : p.toDraft.seal = .ok p

namespace Program.Proper

variable {p : Program} (h : p.Proper)

include h

theorem fetch_uses {v : VarId} (hv : p.Has v) :
    fetch p.uses v = .ok (usesAmong v p.stmts.toList.zipIdx) :=
  fetch_eq_ok_iff.2 ((Draft.seal_spec h.sealed).2.2 v hv)

theorem has_of_fetch_uses {v : VarId} {uses : Uses} (huses : fetch p.uses v = .ok uses) :
    p.Has v := by
  have hlt : v.index < p.uses.size := fetch_isOk_iff.1 ⟨uses, huses⟩
  rwa [(Draft.seal_spec h.sealed).2.1] at hlt

theorem reactions_eq_ok {v : VarId} {o : ObjId} {type : ObjType} {rs : List Reaction}
    (hrs : p.reactions v o type = .ok rs) :
    ∃ lists, (usesAmong v p.stmts.toList.zipIdx).inOrder.mapM (p.stmtReactions o type) = .ok lists ∧
      lists.flatten = rs := by
  obtain ⟨uses, huses, hrs⟩ := bind_eq_ok.1 hrs
  cases huses.symm.trans (h.fetch_uses (h.has_of_fetch_uses huses))
  obtain ⟨lists, hlists, hrs⟩ := bind_eq_ok.1 hrs
  exact ⟨lists, hlists, pure_eq_ok.1 hrs⟩

/-- The reactions of a variable are those of the statements that depend on it. -/
theorem mem_reactions_iff {v : VarId} {o : ObjId} {type : ObjType} {rs : List Reaction}
    (hrs : p.reactions v o type = .ok rs) {r : Reaction} :
    r ∈ rs ↔ ∃ s rs', p.DependsOn s v ∧ p.stmtReactions o type s = .ok rs' ∧ r ∈ rs' := by
  obtain ⟨lists, hlists, rfl⟩ := h.reactions_eq_ok hrs
  simp only [List.mem_flatten, mem_of_mapM_eq_ok hlists, Uses.mem_inOrder, Draft.mem_usesAmong_iff]
  constructor
  · rintro ⟨rs', ⟨s, ⟨u, stmt, hstmt, huse⟩, hrs'⟩, hr⟩
    exact ⟨s, rs', ⟨stmt, u, hstmt, huse⟩, hrs', hr⟩
  · rintro ⟨s, rs', ⟨stmt, u, hstmt, huse⟩, hrs', hr⟩
    exact ⟨rs', ⟨s, ⟨u, stmt, hstmt, huse⟩, hrs'⟩, hr⟩

theorem exists_reactions {v : VarId} {o : ObjId} {type : ObjType} (hv : p.Has v)
    (htype : ∀ c ∈ type.dispatchClass?, p.Has c) : ∃ rs, p.reactions v o type = .ok rs := by
  have hstmts : ∀ s ∈ (usesAmong v p.stmts.toList.zipIdx).inOrder, ∃ rs,
      p.stmtReactions o type s = .ok rs := by
    intro s hs
    obtain ⟨u, hu⟩ := Uses.mem_inOrder.1 hs
    obtain ⟨stmt, ⟨x, hx, -⟩, -⟩ := Draft.mem_usesAmong_iff.1 hu
    exact h.inRange.exists_stmtReactions (Draft.exists_placed_iff.1 ⟨x, hx⟩) htype
  obtain ⟨lists, hlists⟩ := exists_mapM_eq_ok hstmts
  refine ⟨lists.flatten, ?_⟩
  rw [Program.reactions, h.fetch_uses hv]
  simp only [bind, Except.bind, hlists]
  rfl

/-- The reactions of a variable are not more than the statements of the program. -/
theorem length_reactions_le {v : VarId} {o : ObjId} {type : ObjType} {rs : List Reaction}
    (hrs : p.reactions v o type = .ok rs) : rs.length ≤ p.stmts.size := by
  obtain ⟨lists, hlists, rfl⟩ := h.reactions_eq_ok hrs
  have hone : ∀ l ∈ lists, l.length ≤ 1 := by
    intro l hl
    obtain ⟨s, -, heq⟩ := (mem_of_mapM_eq_ok hlists).1 hl
    exact Draft.length_stmtReactions_le heq
  calc lists.flatten.length ≤ lists.length * 1 := length_flatten_le hone
    _ = lists.length := Nat.mul_one _
    _ = (usesAmong v p.stmts.toList.zipIdx).inOrder.length := length_of_mapM_eq_ok hlists
    _ = (usesAmong v p.stmts.toList.zipIdx).length := Uses.length_inOrder _
    _ ≤ p.stmts.toList.zipIdx.length := List.length_filterMap_le _ _
    _ = p.stmts.size := by simp

end Program.Proper

end PointsTo
