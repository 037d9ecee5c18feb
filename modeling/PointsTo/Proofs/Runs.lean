import PointsTo.Proofs.Passes

/-!
# Runs of the solver

A `Run` starts the analysis at methods, adds edges between pointers, and handles entries of the work
list, any one of them at a time and in any order. Between two such calls the solver `Rests`: no
method is pending, and all that the reached methods and the objects of the variables ask for is
there (`Run.spec`). `Run.invariant` is the rule by which everything else about runs is shown.
-/

namespace PointsTo

namespace State

variable {κ : Type} [Ord κ] [Std.TransOrd κ]

/-- The state between two reactions. -/
structure Ready (d : Draft) (model : HeapModel κ) (st : State κ) : Prop where
  supported : st.Supported d model (Fact.InScope d)
  pending : st.pending = []
  settled : st.Settled d model none

/-- The state between two calls of the solver. -/
structure Rests (d : Draft) (model : HeapModel κ) (st : State κ) :
    Prop extends Ready d model st where
  carries : st.Carries
  visited : ∀ i v o, st.pointers.pointer? i = some (.var v) → o ∈ st.pointers.pts i →
    st.Visited d model v o

theorem Rests.empty {d : Draft} {model : HeapModel κ} : Rests d model ({} : State κ) where
  supported := .empty
  pending := rfl
  settled :=
    { covers := fun m hm => absurd hm List.not_mem_nil
      binds := fun c _ hcall => by
        obtain ⟨e, he, -⟩ := CallGraph.hasEdge_iff.1 hcall
        exact absurd he List.not_mem_nil }
  carries :=
    { flow := fun i j o hij => absurd (FlowGraph.mem_succs.2 hij) List.not_mem_nil
      callee := fun e he => absurd he List.not_mem_nil }
  visited i v o hi := absurd (PointerTable.pointer?_isSome_iff.1 ⟨_, hi⟩) (Nat.not_lt_zero _)

/-- The receiver of a call enters the callee. -/
def handOver (st : State κ) (o : ObjId) (c : Call) : State κ :=
  match c.this with
  | none => st
  | some v => st.send (.var v) {o}

section Reactions

variable [Std.LawfulEqOrd κ] {p : Program} {model : HeapModel κ} {given : Fact κ → Prop}
  {st : State κ}

/-- A loop of passes: if each leaves the state ready and achieves something that lasts, then so does
the loop. -/
theorem foldlM_spec {α : Type} {f : State κ → α → Except Dangling (State κ)} {d : Draft} {n : Nat}
    (Q : α → State κ → Prop) (hQ : ∀ x st st', Le st st' → Q x st → Q x st') (l : List α)
    (hst : st.Ready d model)
    (hstep : ∀ x ∈ l, ∀ st₁, Le st st₁ → st₁.Ready d model →
      ∃ st₂, f st₁ x = .ok st₂ ∧ Moves d model given n st₁ st₂ ∧ st₂.Ready d model ∧ Q x st₂) :
    ∃ st', l.foldlM f st = .ok st' ∧ Moves d model given (l.length * n : Nat) st st' ∧
      st'.Ready d model ∧
      ∀ x ∈ l, Q x st' := by
  induction l generalizing st with
  | nil => exact ⟨st, rfl, .refl (by omega), hst, fun x hx => absurd hx List.not_mem_nil⟩
  | cons x l ih =>
    obtain ⟨st₁, hok₁, hmoves₁, hst₁, hx⟩ := hstep x (List.mem_cons_self ..) st (Le.refl st) hst
    obtain ⟨st', hok, hmoves, hst', hall⟩ := ih hst₁ fun y hy st₂ hle =>
      hstep y (List.mem_cons_of_mem _ hy) st₂ (hmoves₁.le.trans hle)
    have hcost : (x :: l).length * n = n + l.length * n := by
      rw [List.length_cons, Nat.succ_mul, Nat.add_comm]
    refine ⟨st', ?_, hmoves₁.trans hmoves (by omega), hst', fun y hy => ?_⟩
    · rw [List.foldlM_cons, hok₁]
      exact hok
    · rcases List.mem_cons.1 hy with rfl | hy
      · exact hQ y _ _ hmoves.le hx
      · exact hall y hy

theorem handOver_spec {d : Draft} {o : ObjId} {k : κ} {c : Call} (ho : st.heap.keyOf o = some k)
    (hthis : ∀ v ∈ c.this, st.Warrants d model given (.holds (.var v) k)) :
    Moves d model given 1 st (st.handOver o c) ∧ (st.handOver o c).calls = st.calls ∧
      (st.handOver o c).pending = st.pending ∧ ∀ v ∈ c.this, (st.handOver o c).Reaches o v := by
  rw [handOver]
  cases hv : c.this with
  | none => exact ⟨.refl (by omega), rfl, rfl, fun v hv => by cases hv⟩
  | some v =>
    refine ⟨moves_send ho (hthis v hv), rfl, rfl, fun v' hv' => ?_⟩
    cases hv'
    exact reaches_send v o

theorem receive_eq (o : ObjId) (c : Call) : receive model p o st c =
    if (st.handOver o c).hasCall c.edge then return st.handOver o c
    else do
      let st ← settle model p ((st.handOver o c).addCall c.edge)
      return st.bind c :=
  rfl

variable (hp : p.InRange) (hgiven : ∀ f, given f → Fact.InScope p.toDraft f)

include hp hgiven

/-- An object arrives at a receiver: the callee and what it leads to is settled before the arguments
are bound. -/
theorem receive_spec {o : ObjId} {k : κ} {c : Call} (hst : st.Ready p.toDraft model)
    (hc : p.IsCall c) (hw : st.Warrants p.toDraft model given (.called c.edge))
    (ho : st.heap.keyOf o = some k)
    (hthis : ∀ v ∈ c.this, st.Warrants p.toDraft model given (.holds (.var v) k)) :
    ∃ st', receive model p o st c = .ok st' ∧ Moves p.toDraft model given 1 st st' ∧
      st'.Ready p.toDraft model ∧
      st'.Handles model o (.receive c) := by
  obtain ⟨hmoves₁, hcalls₁, hpending₁, hreaches⟩ := handOver_spec ho hthis
  rw [receive_eq]
  generalize st.handOver o c = st₁ at hmoves₁ hcalls₁ hpending₁ hreaches ⊢
  have hsettled₁ := hmoves₁.le.settled hst.settled hcalls₁
  have hsupported₁ := hst.supported.moves hp.closed_inScope hgiven hmoves₁
  split <;> rename_i hcall
  · exact ⟨st₁, rfl, hmoves₁, ⟨hsupported₁, hpending₁.trans hst.pending, hsettled₁⟩,
      hcall, hreaches⟩
  · have hw₁ := hmoves₁.le.warrants hw
    have hmove : Move p.toDraft model given 0 st₁ (st₁.addCall c.edge) :=
      .call hw₁ (by simpa using hcall)
    have hopen : (st₁.addCall c.edge).Settled p.toDraft model (some c) := by
      refine ⟨fun m hm => ?_, hsettled₁.binds.addCall hc⟩
      rw [addCall, CallGraph.reachable_addEdge] at hm
      exact hmove.le.covers (hsettled₁.covers m hm)
    obtain ⟨st₂, hok, hmoves₂, hdone, hsettled₂⟩ :=
      settle_spec hp hgiven (hsupported₁.move hp.closed_inScope hgiven hmove)
    have hle₂ := hmove.le.trans hmoves₂.le
    obtain ⟨hmoves₃, hbound, hcalls₃, hpending₃⟩ := bind_spec hc (hle₂.warrants hw₁)
    have hmoves : Moves p.toDraft model given 1 st (st₂.bind c) :=
      hmoves₁.trans (.cons hmove (hmoves₂.trans hmoves₃ (Int.le_refl 0))) (by omega)
    have hsupported := hst.supported.moves hp.closed_inScope hgiven hmoves
    refine ⟨st₂.bind c, ?_, hmoves, ⟨hsupported, hpending₃.trans hdone, ?_⟩, ?_⟩
    · rw [hok]
      rfl
    · refine ⟨fun m hm => ?_, Binds.bind (fun c' hc' hcall' _ hne => ?_) hc (hle₂.warrants hw₁)⟩
      · rw [hcalls₃] at hm
        exact hmoves₃.le.covers ((hsettled₂ _ hopen).covers m hm)
      · exact (hsettled₂ _ hopen).binds c' hc' hcall' fun heq => hne (Option.some.inj heq)
    · refine ⟨?_, fun v hv => (hle₂.trans hmoves₃.le).reaches (hreaches v hv)⟩
      exact (hmoves₂.le.trans hmoves₃.le).hasCall (hasCall_addCall.2 (.inr ⟨rfl, rfl⟩))

omit hp hgiven in
theorem dependsOn_unique {d : Draft} {s : StmtId} {stmt : Stmt} {u : Use} {v v' : VarId}
    (h : d.DependsOn s v) (hs : d.HasStmt s stmt) (huse : stmt.use? = some (u, v')) : v = v' := by
  obtain ⟨stmt', u', hs', huse'⟩ := h
  cases hs.unique hs'
  cases huse.symm.trans huse'
  rfl

omit [Std.LawfulEqOrd κ] hp hgiven in
/-- An object at a receiver warrants the call that it leads to, and arrives at the receiver of the
callee. -/
theorem Warrants.receive {d : Draft} {v : VarId} {o : ObjId} {k : κ} {type : ObjType} {s : StmtId}
    {c : Call} (hw : st.Warrants d model given (.holds (.var v) k)) (htype : model.HasType d k type)
    (hs : d.DependsOn s v) (hr : d.Reacts o type s (.receive c)) :
    d.IsCall c ∧ st.Warrants d model given (.called c.edge) ∧
      ∀ this ∈ c.this, st.Warrants d model given (.holds (.var this) k) := by
  cases hr with
  | @receive call c hstmt hc =>
    obtain ⟨stmt, u, hstmt', huse⟩ := hs
    cases hstmt.unique hstmt'
    have hreceiver : call.receiver = some v := by
      rw [Stmt.use?, Option.map_eq_some_iff] at huse
      obtain ⟨v', hv', heq⟩ := huse
      cases heq
      exact hv'
    have hcall := Draft.isCall_of_resolveCall hstmt hc
    obtain ⟨m, method, hm, hmethod, rfl⟩ := Draft.resolveCall_eq_ok_iff.1 hc
    exact ⟨hcall, .one (.dispatch hstmt hreceiver htype hm) hw, fun this hthis =>
      .one (.receive hstmt hreceiver htype hm hmethod hthis) hw⟩

/-- A reaction to an object of a variable. -/
theorem react_spec {v : VarId} {o : ObjId} {k : κ} {type : ObjType} {s : StmtId} {r : Reaction}
    (hst : st.Ready p.toDraft model) (hw : st.Warrants p.toDraft model given (.holds (.var v) k))
    (ho : st.heap.keyOf o = some k) (htype : model.HasType p.toDraft k type) (hs : p.DependsOn s v)
    (hr : p.Reacts o type s r) :
    ∃ st', react model p o st r = .ok st' ∧ Moves p.toDraft model given 1 st st' ∧
      st'.Ready p.toDraft model ∧
      st'.Handles model o r := by
  -- all effects among the reactions are flows and records
  have hflow : ∀ a b, st.Justifies p.toDraft model given (.flow a b) →
      ∃ st', react model p o st (.effect (.flow a b)) = .ok st' ∧
      Moves p.toDraft model given 1 st st' ∧
        st'.Ready p.toDraft model ∧ st'.Handles model o (.effect (.flow a b)) := by
    intro a b hab
    have hmoves := moves_apply hab
    have hsupported := hst.supported.moves hp.closed_inScope hgiven hmoves
    exact ⟨_, rfl, hmoves, ⟨hsupported, (pending_connect a b).trans hst.pending,
      hmoves.le.settled hst.settled (calls_connect a b)⟩, satisfies_apply hab⟩
  have hfield : ∀ f, st.heap.place (.field o f) = some (.field k f) :=
    fun f => by rw [Heap.place, ho]; rfl
  cases hr with
  | store hstmt hf =>
    cases dependsOn_unique hs hstmt rfl
    exact hflow _ _ ⟨_, _, rfl, hfield _, .one (.store hstmt hf) hw⟩
  | load hstmt hf =>
    cases dependsOn_unique hs hstmt rfl
    exact hflow _ _ ⟨_, _, hfield _, rfl, .one (.load hstmt hf) hw⟩
  | storeArray hstmt =>
    cases dependsOn_unique hs hstmt rfl
    exact hflow _ _ ⟨_, _, rfl, rfl, .one (.storeArray hstmt) hw⟩
  | loadArray hstmt =>
    cases dependsOn_unique hs hstmt rfl
    exact hflow _ _ ⟨_, _, rfl, rfl, .one (.loadArray hstmt) hw⟩
  | receive hstmt hc =>
    obtain ⟨hcall, hwarrants, hthis⟩ := hw.receive (o := o) htype hs (.receive hstmt hc)
    exact receive_spec hp hgiven hst hcall hwarrants ho hthis
  | @note event he =>
    have hmoves : Moves p.toDraft model given 1 st (st.note event) :=
      (Move.note he).moves.mono (by omega)
    exact ⟨_, rfl, hmoves, ⟨hst.supported.moves hp.closed_inScope hgiven hmoves, hst.pending,
      hmoves.le.settled hst.settled rfl⟩, trivial⟩

end Reactions

/-! ## Entries of the work list -/

section Entries

variable [Std.LawfulEqOrd κ] {p : Program} {model : HeapModel κ} {given : Fact κ → Prop}
  {st : State κ} (hp : p.Proper) (hgiven : ∀ f, given f → Fact.InScope p.toDraft f)

include hp hgiven

omit [Std.LawfulEqOrd κ] hgiven in
/-- The reactions to an object of a variable are found, and each is a reaction of a statement that
depends on it. -/
theorem exists_reactions_of_mem_pts {i : PointerId} {v : VarId} {o : ObjId}
    (hst : st.Ready p.toDraft model) (hi : st.pointers.pointer? i = some (.var v))
    (ho : o ∈ st.pointers.pts i) :
    ∃ k obj rs, st.Shows (.holds (.var v) k) ∧ st.heap.keyOf o = some k ∧ st.heap.get o = .ok obj ∧
      model.HasType p.toDraft k obj.type ∧ p.reactions v o obj.type = .ok rs ∧
      ∀ r ∈ rs, ∃ s, p.DependsOn s v ∧ p.Reacts o obj.type s r := by
  obtain ⟨a, k, ha, hk, hscope⟩ := hst.supported.holds i o (.inl ho)
  have hplace : st.placeOf i = some (.var v) := Option.bind_eq_some_iff.2 ⟨_, hi, rfl⟩
  cases ha.symm.trans hplace
  obtain ⟨⟨k', obj⟩, hentry, rfl⟩ := Option.map_eq_some_iff.1 hk
  have htype := hst.supported.hasType hentry
  obtain ⟨rs, hrs⟩ :=
    hp.exists_reactions (v := v) (o := o) hscope (hp.inRange.has_dispatchClass htype)
  refine ⟨k', obj, rs, ⟨i, o, hplace, ho, hk⟩, hk, Heap.get_eq_ok_iff.2 ⟨k', hentry⟩, htype, hrs,
    fun r hr => ?_⟩
  obtain ⟨s, rs', hs, hrs', hr⟩ := (hp.mem_reactions_iff hrs).1 hr
  exact ⟨s, hs, Draft.reacts_of_mem_stmtReactions hrs' hr⟩

theorem visit_spec {i : PointerId} {v : VarId} {o : ObjId} (hst : st.Ready p.toDraft model)
    (hi : st.pointers.pointer? i = some (.var v)) (ho : o ∈ st.pointers.pts i) :
    ∃ st', visit model p v st o = .ok st' ∧ Moves p.toDraft model given p.stmts.size st st' ∧
      st'.Ready p.toDraft model ∧ st'.Visited p.toDraft model v o := by
  obtain ⟨k, obj, rs, hholds, hk, hget, htype, hrs, hreacts⟩ :=
    exists_reactions_of_mem_pts hp hst hi ho
  obtain ⟨st', hok, hmoves, hst', hall⟩ :=
    foldlM_spec (f := react model p o) (fun r st => st.Handles model o r)
    (fun r _ _ hle hr => hle.handles hr) rs hst fun r hr st₁ hle hst₁ => by
      obtain ⟨s, hs, hr⟩ := hreacts r hr
      exact react_spec hp.inRange hgiven hst₁ (.of_shows (hle.shows hholds))
        (hle.keyOf hk) htype hs hr
  have hcost : rs.length * 1 ≤ p.stmts.size := (Nat.mul_one _).trans_le (hp.length_reactions_le hrs)
  refine ⟨st', ?_, hmoves.mono (Int.ofNat_le.2 hcost), hst', obj, hmoves.le.get hget,
    fun s r hs hr => ?_⟩
  · rw [visit, hget]
    simp only [Bind.bind, Except.bind, hrs]
    exact hok
  · obtain ⟨stmt, u, ⟨x, hx, -⟩, -⟩ := id hs
    obtain ⟨rs', hrs'⟩ :=
      hp.inRange.exists_stmtReactions (o := o) (Draft.exists_placed_iff.1 ⟨x, hx⟩)
      (hp.inRange.has_dispatchClass htype)
    rcases Draft.mem_stmtReactions_of_reacts hrs' hr with hmem | ⟨event, rfl⟩
    · exact hall r ((hp.mem_reactions_iff hrs).2 ⟨s, rs', hs, hrs', hmem⟩)
    · trivial

omit hp hgiven in
/-- After a taken entry, the state is at rest again as soon as the new objects are visited. -/
theorem rests_of_take {d : Draft} {i : PointerId} {delta : ObjSet} {mid st' : State κ} {n : Nat}
    {n' : Int} (hst : st.Rests d model) (htake : Take n st mid)
    (hmoves : Moves d model given n' mid st') (hready : st'.Ready d model)
    (hpts : ∀ j o, o ∈ mid.pointers.pts j → o ∈ st.pointers.pts j ∨ (j = i ∧ o ∈ delta))
    (hvisited : ∀ v o, mid.pointers.pointer? i = some (.var v) → o ∈ delta →
      st'.Visited d model v o) :
    st'.Rests d model where
  toReady := hready
  carries := (hst.carries.take htake).moves hmoves
  visited j v o hj ho := by
    rw [hmoves.pts_eq] at ho
    obtain ⟨q, hq⟩ := PointerTable.pointer?_of_mem_pts ho
    cases (hmoves.le.pointer? hq).symm.trans hj
    rcases hpts j o ho with ho | ⟨rfl, ho⟩
    · obtain ⟨q', hq'⟩ := PointerTable.pointer?_of_mem_pts ho
      cases (htake.le.pointer? hq').symm.trans hq
      exact (htake.le.trans hmoves.le).visited (hst.visited j v o hq' ho)
    · exact hvisited v o hq ho

/-- Handling an entry: it is taken off the work list, and then its new objects are visited. -/
theorem process_spec {i : PointerId} {objs : ObjSet} {rest : Worklist}
    (hst : st.Rests p.toDraft model) (hperm : st.worklist.toList.Perm ((i, objs) :: rest.toList)) :
    ∃ n mid st', process model p { st with worklist := rest } (i, objs) = .ok st' ∧ Take n st mid ∧
      Moves p.toDraft model given (n * p.stmts.size : Nat) mid st' ∧ st'.Rests p.toDraft model := by
  have hclosed : Closed p.toDraft model (Fact.InScope p.toDraft) := hp.inRange.closed_inScope
  obtain ⟨q, hq, hget⟩ :=
    hst.supported.exists_get_of_waiting (hperm.mem_iff.2 (List.mem_cons_self ..))
  have hi : i.index < st.pointers.size := PointerTable.pointer?_isSome_iff.1 ⟨q, hq⟩
  rw [process]
  simp only [hget, Bind.bind, Except.bind]
  cases hdelta : (objs \ st.pointers.pts i).isEmpty with
  | true =>
    have htake : Take 0 st { st with worklist := rest, pops := st.pops + 1, idle := st.idle + 1 } :=
      .idle hperm hi hdelta
    have hready : Ready p.toDraft model
        { st with worklist := rest, pops := st.pops + 1, idle := st.idle + 1 } :=
      ⟨hst.supported.take hclosed htake, hst.pending, htake.le.settled hst.settled rfl⟩
    exact ⟨_, _, _, rfl, htake, .refl (by omega),
      { hready with
        carries := hst.carries.take htake
        visited := fun j v o hj ho => htake.le.visited (hst.visited j v o hj ho) }⟩
  | false =>
    simp only [Bool.false_eq_true, if_false]
    have htake : Take _ st ({ st with worklist := rest, pops := st.pops + 1 }.grow i
        (objs \ st.pointers.pts i)) :=
      .grow hperm hi hdelta
    have hready : Ready p.toDraft model
        ({ st with worklist := rest, pops := st.pops + 1 }.grow i (objs \ st.pointers.pts i)) :=
      ⟨hst.supported.take hclosed htake, hst.pending, htake.le.settled hst.settled rfl⟩
    have hq' := htake.le.pointer? hq
    cases q with
    | var v =>
      obtain ⟨st', hok, hmoves, hready', hall⟩ := foldlM_spec (f := visit model p v)
        (fun o st => st.Visited p.toDraft model v o) (fun o _ _ hle ho => hle.visited ho)
        (objs \ st.pointers.pts i).toList hready fun o ho st₁ hle hst₁ =>
          visit_spec hp hgiven hst₁ (hle.pointer? hq')
            (hle.pts i o ((mem_pts_grow hi).2 (.inr ⟨rfl, Std.ExtTreeSet.mem_toList.1 ho⟩)))
      refine ⟨_, _, st', hok, htake, by rwa [Std.ExtTreeSet.length_toList] at hmoves,
        rests_of_take hst htake hmoves hready' (fun _ _ => (mem_pts_grow hi).1)
        fun v' o hv' ho => ?_⟩
      cases hq'.symm.trans hv'
      exact hall o (Std.ExtTreeSet.mem_toList.2 ho)
    | static | field =>
      have hnone : Moves p.toDraft model given
          ((objs \ st.pointers.pts i).size * p.stmts.size : Nat)
          ({ st with worklist := rest, pops := st.pops + 1 }.grow i (objs \ st.pointers.pts i)) _ :=
            .refl (by omega)
      exact ⟨_, _, _, rfl, htake, hnone,
        rests_of_take hst htake hnone hready (fun _ _ => (mem_pts_grow hi).1)
        fun v o hv _ => by cases hq'.symm.trans hv⟩

omit hp hgiven in
/-- Moves that leave nothing pending and no call unbound keep a state at rest. -/
theorem Rests.moves {d : Draft} {st' : State κ} {n : Int} (hst : st.Rests d model)
    (hmoves : Moves d model given n st st') (hready : st'.Ready d model) : st'.Rests d model where
  toReady := hready
  carries := hst.carries.moves hmoves
  visited i v o hi ho := by
    rw [hmoves.pts_eq] at ho
    obtain ⟨q, hq⟩ := PointerTable.pointer?_of_mem_pts ho
    cases (hmoves.le.pointer? hq).symm.trans hi
    exact hmoves.le.visited (hst.visited i v o hq ho)

theorem start_spec {m : MethodId} (hst : st.Rests p.toDraft model) (hm : given (.reached m)) :
    ∃ st', start model p m st = .ok st' ∧ Moves p.toDraft model given 0 st st' ∧
      st'.Rests p.toDraft model ∧
      st'.Shows (.reached m) := by
  have hmove : Move p.toDraft model given 0 st
      { st with calls := st.calls.addEntry m, pending := m :: st.pending } := .entry hm
  have hsettled : Settled p.toDraft model none
      { st with calls := st.calls.addEntry m, pending := m :: st.pending } := by
    refine ⟨fun m' hm' => ?_, hmove.le.binds hst.settled.binds fun e he => ?_⟩
    · rw [CallGraph.reachable_addEntry] at hm'
      exact hmove.le.covers (hst.settled.covers m' hm')
    · rw [hasCall, CallGraph.hasEdge_iff, CallGraph.edges_addEntry] at he
      exact CallGraph.hasEdge_iff.2 he
  have hsupported := hst.supported.move hp.inRange.closed_inScope hgiven hmove
  obtain ⟨st', hok, hmoves, hpending, hsettled'⟩ := settle_spec hp.inRange hgiven hsupported
  have hall : Moves p.toDraft model given 0 st st' := .cons hmove hmoves
  refine ⟨st', hok, hall, hst.moves hall
    ⟨hst.supported.moves hp.inRange.closed_inScope hgiven hall, hpending,
      hsettled' none hsettled⟩, ?_⟩
  -- a method that was due is reached when nothing is pending
  rcases hmoves.le.due m (.inr (List.mem_cons_self ..)) with hreached | hleft
  · exact hreached
  · exact absurd hleft (by rw [hpending]; exact List.not_mem_nil)

omit [Std.LawfulEqOrd κ] hp hgiven in
theorem eq_addEdge_of_addFlow {i j : PointerId} {st' : State κ} (hok : addFlow i j st = .ok st') :
    st' = st.addEdge i j := by
  rw [addFlow] at hok
  split at hok
  next hij =>
    cases hok
    rw [addEdge, if_pos hij]
  next =>
    obtain ⟨-, -, hok⟩ := bind_eq_ok.1 hok
    exact (Except.ok.inj hok).symm

theorem addFlow_spec {i j : PointerId} {a b : Place κ} (hst : st.Rests p.toDraft model)
    (hi : st.placeOf i = some a) (hj : st.placeOf j = some b) (hab : given (.flows a b)) :
    addFlow i j st = .ok (st.addEdge i j) ∧ Moves p.toDraft model given 0 st (st.addEdge i j) ∧
      (st.addEdge i j).Rests p.toDraft model ∧ (st.addEdge i j).Shows (.flows a b) := by
  have hmoves : Moves p.toDraft model given 0 st (st.addEdge i j) :=
    (Move.edge hi hj (.given (.inl hab))).moves
  refine ⟨?_, hmoves, hst.moves hmoves ⟨hst.supported.moves hp.inRange.closed_inScope hgiven hmoves,
    (pending_addEdge i j).trans hst.pending, hmoves.le.settled hst.settled (calls_addEdge i j)⟩,
    i, j, hmoves.le.placeOf hi, hmoves.le.placeOf hj, hasEdge_addEdge.2 (.inr ⟨rfl, rfl⟩)⟩
  obtain ⟨q, hq, -⟩ := Option.bind_eq_some_iff.1 hi
  have hget : st.pointers.get i = .ok (q, st.pointers.pts i) :=
    PointerTable.get_eq_ok_iff.2 ⟨hq, rfl⟩
  rw [addFlow]
  split <;> rename_i hij
  · rw [addEdge, if_pos hij]
    rfl
  · rw [hget]
    rfl

end Entries

/-! ## Runs -/

section Runs

variable [Std.LawfulEqOrd κ]

/-- `Run model p facts st`: the solver comes to `st`. The facts are what it was given, the last one
first: methods at which the analysis was started, and edges that were added between existing
pointers. An entry is taken from anywhere in the work list. -/
inductive Run (model : HeapModel κ) (p : Program) : List (Fact κ) → State κ → Prop where
  | empty : Run model p [] {}
  | start {facts : List (Fact κ)} {st st' : State κ} {m : MethodId} :
      Run model p facts st → p.Has m → State.start model p m st = .ok st' →
      Run model p (.reached m :: facts) st'
  | link {facts : List (Fact κ)} {st st' : State κ} {i j : PointerId} {a b : Place κ} :
      Run model p facts st → st.placeOf i = some a → st.placeOf j = some b →
      State.addFlow i j st = .ok st' →
      Run model p (.flows a b :: facts) st'
  | take {facts : List (Fact κ)} {st st' : State κ} {older newer : List (PointerId × ObjSet)}
      {e : PointerId × ObjSet} {rest : Worklist} :
      Run model p facts st → st.worklist.toList = older ++ e :: newer →
      rest.toList = older ++ newer →
      State.process model p { st with worklist := rest } e = .ok st' → Run model p facts st'

variable {model : HeapModel κ} {p : Program} {facts : List (Fact κ)} {st st' : State κ}

theorem perm_of_taken {α : Type} {l rest older newer : List α} {a : α}
    (hl : l = older ++ a :: newer) (hrest : rest = older ++ newer) : l.Perm (a :: rest) := by
  rw [hl, hrest]
  exact List.perm_middle

variable (hp : p.Proper)

include hp

/-- What every run preserves: the solver is at rest, what it was given is in scope and shown, and
any closed set with the given facts supports it. -/
theorem Run.spec (h : Run model p facts st) :
    st.Rests p.toDraft model ∧ (∀ f ∈ facts, Fact.InScope p.toDraft f ∧ st.Shows f) ∧
      ∀ S, Closed p.toDraft model S → (∀ f ∈ facts, S f) → st.Supported p.toDraft model S := by
  induction h with
  | empty => exact ⟨.empty, fun f hf => absurd hf List.not_mem_nil, fun S _ _ => .empty⟩
  | @start facts st st' m _ hm hok ih =>
    obtain ⟨hrests, hfacts, hsupported⟩ := ih
    have hreached : (Fact.reached m : Fact κ).InScope p.toDraft := hm
    have hscope := List.forall_mem_cons.2 ⟨hreached, fun f hf => (hfacts f hf).1⟩
    obtain ⟨st₁, hok₁, hmoves, hrests₁, hshows⟩ :=
      start_spec hp hscope hrests (List.mem_cons_self ..)
    cases hok₁.symm.trans hok
    refine ⟨hrests₁, List.forall_mem_cons.2 ⟨⟨hm, hshows⟩, fun f hf => ?_⟩, fun S hS hgiven => ?_⟩
    · exact ⟨(hfacts f hf).1, hmoves.le.shows (hfacts f hf).2⟩
    · exact (hsupported S hS fun f hf => hgiven f (List.mem_cons_of_mem _ hf)).moves
        hS hgiven hmoves
  | @link facts st st' i j a b _ hi hj hok ih =>
    obtain ⟨hrests, hfacts, hsupported⟩ := ih
    have hab : Fact.InScope p.toDraft (.flows a b) :=
      ⟨hrests.supported.of_placeOf hi, hrests.supported.of_placeOf hj⟩
    have hscope := List.forall_mem_cons.2 ⟨hab, fun f hf => (hfacts f hf).1⟩
    obtain ⟨hok₁, hmoves, hrests₁, hshows⟩ :=
      addFlow_spec hp hscope hrests hi hj (List.mem_cons_self ..)
    cases hok₁.symm.trans hok
    refine ⟨hrests₁, List.forall_mem_cons.2 ⟨⟨hab, hshows⟩, fun f hf => ?_⟩, fun S hS hgiven => ?_⟩
    · exact ⟨(hfacts f hf).1, hmoves.le.shows (hfacts f hf).2⟩
    · exact (hsupported S hS fun f hf => hgiven f (List.mem_cons_of_mem _ hf)).moves
        hS hgiven hmoves
  | @take facts st st' older newer e rest _ hlist hrest hok ih =>
    obtain ⟨hrests, hfacts, hsupported⟩ := ih
    obtain ⟨n, mid, st₁, hok₁, htake, hmoves, hrests₁⟩ :=
      process_spec hp (fun f hf => (hfacts f hf).1) hrests (perm_of_taken hlist hrest)
    cases hok₁.symm.trans hok
    refine ⟨hrests₁, fun f hf => ?_, fun S hS hgiven => ?_⟩
    · exact ⟨(hfacts f hf).1, (htake.le.trans hmoves.le).shows (hfacts f hf).2⟩
    · exact ((hsupported S hS hgiven).take hS htake).moves hS hgiven hmoves

/-- What holds of the empty state, and is kept by moves and by the taking of an entry, holds of
every state of a run. -/
theorem Run.invariant {I : State κ → Prop} (hempty : I {})
    (hmove : ∀ {given : Fact κ → Prop} {n : Int} {st st' : State κ},
      Move p.toDraft model given n st st' → I st → I st')
    (htake : ∀ {n : Nat} {st st' : State κ}, Take n st st' → I st → I st')
    (h : Run model p facts st) : I st := by
  have hmoves : ∀ {given : Fact κ → Prop} {n : Int} {st st' : State κ},
      Moves p.toDraft model given n st st' →
      I st → I st' := fun h => by
    induction h with
    | refl => exact id
    | head hstep _ _ ih => exact fun hI => ih (hmove hstep hI)
  induction h with
  | empty => exact hempty
  | @start facts st st' m hrun hm hok ih =>
    obtain ⟨hrests, -, -⟩ := hrun.spec hp
    have hscope : ∀ f : Fact κ, f = .reached m → f.InScope p.toDraft := fun f hf => hf ▸ hm
    obtain ⟨st₁, hok₁, hstart, -⟩ := start_spec hp hscope hrests rfl
    cases hok₁.symm.trans hok
    exact hmoves hstart ih
  | @link facts st st' i j a b hrun hi hj hok ih =>
    obtain ⟨hrests, -, -⟩ := hrun.spec hp
    have hab : Fact.InScope p.toDraft (.flows a b) :=
      ⟨hrests.supported.of_placeOf hi, hrests.supported.of_placeOf hj⟩
    have hscope : ∀ f, f = .flows a b → Fact.InScope p.toDraft f := fun f hf => hf ▸ hab
    obtain ⟨hok₁, hlink, -⟩ := addFlow_spec hp hscope hrests hi hj rfl
    cases hok₁.symm.trans hok
    exact hmoves hlink ih
  | @take facts st st' older newer e rest hrun hlist hrest hok ih =>
    obtain ⟨hrests, hfacts, -⟩ := hrun.spec hp
    obtain ⟨n, mid, st₁, hok₁, htaken, hmoved, -⟩ :=
      process_spec hp (fun f hf => (hfacts f hf).1) hrests (perm_of_taken hlist hrest)
    cases hok₁.symm.trans hok
    exact hmoves hmoved (htake htaken ih)

end Runs

end State

end PointsTo
