import PointsTo.Proofs.Reading

/-!
# The uses of variables

A program lists for every variable the statements that depend on its objects, apart for each way of
depending on them (`Stmt.UsesAs`). The lists are filled by going through the statements from the
last to the first. They are the exact inverse of the statements: a statement stands in the list of
the variable that is its base or its receiver, once, in the order of statements, and nowhere else
(`uses_inverse_of_statements`). Sealing a draft fails only for a base or a receiver that is no
variable (`exists_foldrM_recordUse_iff`).
-/

namespace PointsTo

/-- A statement uses a variable as the base of an access or as the receiver of a call. -/
inductive Stmt.UsesAs : Stmt → Use → VarId → Prop where
  /-- `base.f = rhs` -/
  | storeField {base rhs : VarId} {ref : FieldRef} :
      UsesAs (.store (some base) ref rhs) .storeField base
  /-- `lhs = base.f` -/
  | loadField {lhs base : VarId} {ref : FieldRef} :
      UsesAs (.load lhs (some base) ref) .loadField base
  /-- `base[] = rhs` -/
  | storeArray {base rhs : VarId} : UsesAs (.storeArray base rhs) .storeArray base
  /-- `lhs = base[]` -/
  | loadArray {lhs base : VarId} : UsesAs (.loadArray lhs base) .loadArray base
  /-- a call on a receiver -/
  | invoke {call : Invoke} {receiver : VarId} : call.receiver = some receiver →
      UsesAs (.invoke call) .invoke receiver

theorem Stmt.use?_eq_some_iff {stmt : Stmt} {u : Use} {v : VarId} :
    stmt.use? = some (u, v) ↔ stmt.UsesAs u v := by
  constructor
  · intro h
    cases stmt with
    | store base ref rhs =>
      cases base with
      | none => cases h
      | some base => cases h; exact .storeField
    | load lhs base ref =>
      cases base with
      | none => cases h
      | some base => cases h; exact .loadField
    | storeArray base rhs => cases h; exact .storeArray
    | loadArray lhs base => cases h; exact .loadArray
    | invoke call =>
      obtain ⟨receiver, hreceiver, ⟨⟩⟩ := Option.map_eq_some_iff.1 h
      exact .invoke hreceiver
    | new | copy | ret | const => cases h
  · intro h
    cases h with
    | storeField | loadField | storeArray | loadArray => rfl
    | invoke hreceiver => rw [use?, hreceiver]; rfl

/-- A statement uses one variable at most, in one way. -/
theorem Stmt.UsesAs.unique {stmt : Stmt} {u u' : Use} {v v' : VarId} (h : stmt.UsesAs u v)
    (h' : stmt.UsesAs u' v') : v = v' ∧ u = u' := by
  have heq := (use?_eq_some_iff.2 h).symm.trans (use?_eq_some_iff.2 h')
  rw [Option.some.injEq, Prod.mk.injEq] at heq
  exact ⟨heq.2, heq.1⟩

/-! ## Recording uses -/

/-- A use is recorded unless its variable is out of range. -/
theorem exists_recordUse_iff {s : StmtId} {stmt : Stmt} {uses : Array Uses} :
    (∃ uses', recordUse s stmt uses = .ok uses') ↔
      ∀ u v, stmt.UsesAs u v → v.index < uses.size := by
  simp only [← Stmt.use?_eq_some_iff]
  rw [recordUse]
  split
  next hnone => simp [hnone]
  next u v huse =>
    rw [huse]
    split
    next hlt =>
      refine ⟨fun _ u' v' heq => ?_, fun _ => ⟨_, rfl⟩⟩
      cases heq
      exact hlt
    next hge =>
      constructor
      · rintro ⟨uses', h⟩
        cases h
      · exact fun h => absurd (h u v rfl) hge

/-- The uses of statements are recorded if the variables that are used are in range. -/
theorem exists_foldrM_recordUse_iff {stmts : List (Placed × Nat)} {n : Nat} :
    (∃ uses, stmts.foldrM (fun e uses => recordUse ⟨e.2⟩ e.1.stmt uses) (Array.replicate n []) =
      .ok uses) ↔
      ∀ e ∈ stmts, ∀ u v, e.1.stmt.UsesAs u v → v.index < n := by
  induction stmts with
  | nil => exact ⟨fun _ e he => absurd he List.not_mem_nil, fun _ => ⟨_, rfl⟩⟩
  | cons e stmts ih =>
    rw [List.forall_mem_cons, ← ih]
    simp only [List.foldrM_cons, bind_eq_ok]
    constructor
    · rintro ⟨uses, rest, hrest, huses⟩
      refine ⟨?_, rest, hrest⟩
      have hrange := exists_recordUse_iff.1 ⟨uses, huses⟩
      rwa [(foldrM_recordUse hrest).1] at hrange
    · rintro ⟨hrange, rest, hrest⟩
      rw [← (foldrM_recordUse hrest).1] at hrange
      obtain ⟨uses, huses⟩ := exists_recordUse_iff.2 hrange
      exact ⟨uses, rest, hrest, huses⟩

/-! ## The lists -/

theorem Uses.mem_select {uses : Uses} {u : Use} {s : StmtId} :
    s ∈ uses.select u ↔ (u, s) ∈ uses := by
  simp only [select, List.mem_map, List.mem_filter, decide_eq_true_eq]
  constructor
  · rintro ⟨⟨u', s'⟩, ⟨hmem, rfl⟩, rfl⟩
    exact hmem
  · intro hmem
    exact ⟨(u, s), ⟨hmem, rfl⟩, rfl⟩

/-- The uses of a variable come in the order of the statements. -/
theorem ascending_usesAmong (v : VarId) (stmts : List Placed) :
    (usesAmong v stmts.zipIdx).Pairwise fun a b => a.2 < b.2 := by
  have hnumbers : stmts.zipIdx.Pairwise fun a b => a.2 < b.2 := by
    rw [← List.pairwise_map, List.zipIdx_map_snd]
    exact List.pairwise_lt_range'
  refine List.pairwise_filterMap.2 (hnumbers.imp fun {a b} hlt e he e' he' => ?_)
  obtain ⟨u, -, rfl⟩ := Option.map_eq_some_iff.1 he
  obtain ⟨u', -, rfl⟩ := Option.map_eq_some_iff.1 he'
  exact hlt

theorem ascending_select {uses : Uses} (h : uses.Pairwise fun a b => a.2 < b.2) (u : Use) :
    (uses.select u).Pairwise (· < ·) :=
  List.pairwise_map.2 (h.filter _)

namespace Draft

variable {d : Draft}

theorem exists_seal_iff :
    (∃ p, d.seal = .ok p) ↔ ∀ s stmt u v, d.HasStmt s stmt → stmt.UsesAs u v → d.Has v := by
  have hseal : (∃ p, d.seal = .ok p) ↔
      ∃ uses, d.stmts.toList.zipIdx.foldrM (fun e uses => recordUse ⟨e.2⟩ e.1.stmt uses)
        (Array.replicate d.vars.size []) = .ok uses := by
    rw [Draft.seal]
    simp only [bind_eq_ok]
    constructor
    · rintro ⟨p, uses, huses, -⟩
      exact ⟨uses, huses⟩
    · rintro ⟨uses, huses⟩
      exact ⟨_, uses, huses, rfl⟩
  rw [hseal, exists_foldrM_recordUse_iff]
  constructor
  · rintro h s _ u v ⟨x, hx, rfl⟩ huse
    refine h (x, s.index) ?_ u v huse
    simpa [List.mem_zipIdx_iff_getElem?] using fetch_eq_ok_iff.1 hx
  · rintro h ⟨x, i⟩ hmem u v huse
    refine h ⟨i⟩ x.stmt u v ⟨x, fetch_eq_ok_iff.2 ?_, rfl⟩ huse
    simpa [List.mem_zipIdx_iff_getElem?] using hmem

/-- What is listed under a variable are the statements that use it, for each way of using it apart
and in order. -/
theorem listed_of_seal {p : Program} (hseal : d.seal = .ok p) {v : VarId} {uses : Uses}
    (huses : fetch p.uses v = .ok uses) (u : Use) :
    (uses.select u).Pairwise (· < ·) ∧ ∀ s, s ∈ uses.select u ↔
      ∃ stmt, d.HasStmt s stmt ∧ stmt.UsesAs u v := by
  obtain ⟨-, hsize, hall⟩ := seal_spec hseal
  have hv : d.Has v := Nat.lt_of_lt_of_eq (fetch_isOk_iff.1 ⟨uses, huses⟩) hsize
  rw [fetch_eq_ok_iff, hall v hv] at huses
  cases huses
  refine ⟨ascending_select (ascending_usesAmong v _) u, fun s => ?_⟩
  simp only [Uses.mem_select, mem_usesAmong_iff, Stmt.use?_eq_some_iff]

/-- Sealing succeeds if the bases of accesses and the receivers of calls are variables. It keeps the
draft, and lists the uses of each variable: a statement is listed where the statement itself says,
and nowhere else. -/
theorem uses_inverse_of_statements (d : Draft) :
    ((∃ p, d.seal = .ok p) ↔ ∀ s stmt u v, d.HasStmt s stmt → stmt.UsesAs u v → d.Has v) ∧
    ∀ p, d.seal = .ok p →
      p.toDraft = d ∧ (∀ v : VarId, (∃ uses, fetch p.uses v = .ok uses) ↔ d.Has v) ∧
      (∀ v uses, fetch p.uses v = .ok uses → ∀ u, (uses.select u).Pairwise (· < ·) ∧
        ∀ s, s ∈ uses.select u ↔ ∃ stmt, d.HasStmt s stmt ∧ stmt.UsesAs u v) ∧
      ∀ (v v' : VarId) uses uses' u u' s, fetch p.uses v = .ok uses → fetch p.uses v' = .ok uses' →
        s ∈ uses.select u → s ∈ uses'.select u' → v = v' ∧ u = u' := by
  refine ⟨exists_seal_iff, fun p hseal => ?_⟩
  obtain ⟨hsame, hsize, -⟩ := seal_spec hseal
  refine ⟨hsame, fun v => ?_, fun v uses huses => listed_of_seal hseal huses, ?_⟩
  · rw [fetch_isOk_iff, hsize]
    rfl
  · intro v v' uses uses' u u' s huses huses' hs hs'
    obtain ⟨stmt, hstmt, huse⟩ := ((listed_of_seal hseal huses u).2 s).1 hs
    obtain ⟨stmt', hstmt', huse'⟩ := ((listed_of_seal hseal huses' u').2 s).1 hs'
    cases hstmt.unique hstmt'
    exact huse.unique huse'

end Draft

/-- The variable `x` is used in three ways, in one of them twice. -/
def sampleUses : String :=
  "class A { field f; method m(x) { x.A::f = x; y = x[0]; x.A::f = y; x[1] = y; } }"

theorem Draft.sample_uses_inverse_of_statements :
    ∃ p uses, Program.ofText sampleUses = .ok p ∧ fetch p.uses (⟨1⟩ : VarId) = .ok uses ∧
      uses.select .storeField = [⟨0⟩, ⟨2⟩] ∧ uses.select .storeArray = [⟨3⟩] ∧
      (∀ s, s ∈ uses.select .storeField ↔ ∃ stmt, p.HasStmt s stmt ∧ stmt.UsesAs .storeField ⟨1⟩) ∧
      ∀ s, s ∈ uses.select .storeArray ↔
        ∃ stmt, p.HasStmt s stmt ∧ stmt.UsesAs .storeArray ⟨1⟩ := by
  obtain ⟨p, htext, uses, huses, hfields, harrays⟩ :
      ∃ p, Program.ofText sampleUses = .ok p ∧ ∃ uses ∈ (fetch p.uses (⟨1⟩ : VarId)).toOption,
        uses.select .storeField = [⟨0⟩, ⟨2⟩] ∧ uses.select .storeArray = [⟨3⟩] :=
    Program.exists_ofText (by decide +kernel)
  have huses := toOption_eq_some_iff.1 huses
  obtain ⟨-, -, hlisted, -⟩ :=
    (uses_inverse_of_statements p.toDraft).2 p (Program.Proper.of_ofText htext).sealed
  exact ⟨p, uses, htext, huses, hfields, harrays, (hlisted ⟨1⟩ uses huses .storeField).2,
    (hlisted ⟨1⟩ uses huses .storeArray).2⟩

end PointsTo
