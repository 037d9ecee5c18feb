import PointsTo.Proofs.Acts
import PointsTo.Proofs.Consistency
import PointsTo.Proofs.Reachability
import PointsTo.Proofs.WellFormedness

/-!
# Receivers are precise

The receiver of a method gets its objects one by one, each from a call that the object itself leads
to the method (`Delivers`). An object may wait for its turn long after the call that sent it, so
what is kept is about objects on their way as well: `Guards` says that no edge leads to a variable,
and that whatever arrives there was received. `Run.receivers_precise` follows for every method that
does not assign to its receiver.
-/

namespace PointsTo

/-- The callee of a call that does not name its class is what the class of the receiver dispatches
to. -/
theorem Draft.dispatch_of_callee {d : Draft} {receiver : Option ClassId} {call : Invoke}
    {m : MethodId} (hstatic : call.kind ≠ .static) (hspecial : call.kind ≠ .special)
    (h : d.callee receiver call = .ok (some m)) :
    ∃ c, receiver = some c ∧ d.dispatch c call.target.sig = .ok (some m) := by
  have hlookup : call.lookupClass receiver = receiver := by
    rw [Invoke.lookupClass]
    cases hkind : call.kind with
    | static => exact absurd hkind hstatic
    | special => exact absurd hkind hspecial
    | virtual | interface | dynamic | other => rfl
  rw [callee, hlookup] at h
  cases receiver with
  | none => cases h
  | some c =>
    obtain ⟨found, hfound, h⟩ := bind_eq_ok.1 h
    obtain ⟨rfl, -⟩ := Option.filter_eq_some_iff.1 (pure_eq_ok.1 h)
    exact ⟨c, rfl, hfound⟩

/-- Nothing fills the receiver of a method whose body does not assign to it. -/
theorem Draft.not_fills_this {d : Draft} (hd : d.Regular) {m : MethodId} {y : Method} {v : VarId}
    (hm : d.method m = .ok y) (hthis : y.this = some v)
    (hbody : ∀ s stmt, d.InBody m s → d.HasStmt s stmt → v ∉ stmt.sinks) : ¬ d.Fills (.var v) := by
  have howns : d.Owns m v := hd.locals.methods m y hm v (by simp [Method.ends, hthis])
  rintro (⟨s, stmt, hs, hv⟩ | ⟨m', y', hm', hv⟩)
  · exact hbody s stmt (hd.locals.inBody_of_owns hd.built.filed hs
      (stmt.sinks_subset_vars hv) howns) hs hv
  · have howns' : d.Owns m' v := hd.locals.methods m' y' hm' v (by simp [Method.ends, hv])
    cases howns.unique howns'
    cases hm.symm.trans hm'
    exact ((hd.built.headed hm).params v hv).2 hthis

namespace State

variable {κ : Type} [Ord κ] [Std.TransOrd κ]

/-- The receiver of a call holds an object, and the class of the object leads the call to its
callee. -/
def Delivers (d : Draft) (st : State κ) (e : CallEdge) (o : ObjId) : Prop :=
  ∃ call r j obj, d.HasStmt e.site (.invoke call) ∧ e.kind = call.kind ∧ call.receiver = some r ∧
    st.pointers.pointer? j = some (.var r) ∧ o ∈ st.pointers.pts j ∧ st.heap.get o = .ok obj ∧
    d.callee obj.type.dispatchClass? call = .ok (some e.callee)

/-- Some call delivers an object to a method. -/
def Received (d : Draft) (m : MethodId) (st : State κ) (o : ObjId) : Prop :=
  ∃ e, e.callee = m ∧ st.Delivers d e o

/-- No edge leads to a variable, and the objects in it and on their way to it are those that `R`
says. -/
structure Guards (v : VarId) (R : ObjId → Prop) (st : State κ) : Prop where
  edges : ∀ i j, st.flow.hasEdge i j = true → ∃ q, st.pointers.pointer? j = some q ∧ q ≠ .var v
  waiting : ∀ e ∈ st.worklist.toList, ∃ q, st.pointers.pointer? e.1 = some q ∧
    (q = .var v → ∀ o ∈ e.2, R o)
  held : ∀ i, st.pointers.pointer? i = some (.var v) → ∀ o ∈ st.pointers.pts i, R o

namespace Guards

variable {d : Draft} {v : VarId} {R R' : ObjId → Prop} {st st' : State κ}

theorem empty : Guards v R ({} : State κ) where
  edges _ _ hij := absurd (FlowGraph.mem_succs.2 hij) List.not_mem_nil
  waiting _ he := absurd he List.not_mem_nil
  held _ hi := absurd (PointerTable.pointer?_isSome_iff.1 ⟨_, hi⟩) (Nat.not_lt_zero _)

theorem mono (h : Guards v R st) (hR : ∀ o, R o → R' o) : Guards v R' st where
  edges := h.edges
  waiting e he := by
    obtain ⟨q, hq, hall⟩ := h.waiting e he
    exact ⟨q, hq, fun heq o ho => hR o (hall heq o ho)⟩
  held i hi o ho := hR o (h.held i hi o ho)

theorem addEdge (h : Guards v R st) {i j : PointerId} {q : Pointer}
    (hj : st.pointers.pointer? j = some q) (hq : q ≠ .var v) : Guards v R (st.addEdge i j) where
  edges i' j' hij := by
    rw [pointers_addEdge]
    rcases hasEdge_addEdge.1 hij with hij | ⟨-, rfl⟩
    · exact h.edges i' j' hij
    · exact ⟨q, hj, hq⟩
  waiting e he := by
    rw [pointers_addEdge]
    rcases mem_worklist_addEdge.1 he with he | ⟨-, -, rfl⟩
    · exact h.waiting e he
    · exact ⟨q, hj, fun heq => absurd heq hq⟩
  held i' hi' o ho := by
    rw [pointers_addEdge] at hi' ho
    exact h.held i' hi' o ho

theorem push (h : Guards v R st) {i : PointerId} {q : Pointer} {o : ObjId}
    (hi : st.pointers.pointer? i = some q) (ho : q = .var v → R o) :
    Guards v R { st with worklist := st.worklist.push (i, {o}) } where
  edges := h.edges
  waiting e he := by
    rw [Queue.toList_push, List.mem_append, List.mem_singleton] at he
    rcases he with he | rfl
    · exact h.waiting e he
    · refine ⟨q, hi, fun heq o' ho' => ?_⟩
      rw [IdSet.mem_singleton.1 ho']
      exact ho heq
  held := h.held

theorem intern (h : Guards v R st) (q : Pointer) : Guards v R (st.intern q).2 where
  edges i j hij := by
    obtain ⟨q', hq', hne⟩ := h.edges i j hij
    exact ⟨q', PointerTable.pointer?_intern_of_some q hq', hne⟩
  waiting e he := by
    obtain ⟨q', hq', hall⟩ := h.waiting e he
    exact ⟨q', PointerTable.pointer?_intern_of_some q hq', hall⟩
  held i hi o ho := by
    have ho : o ∈ (st.pointers.intern q).2.pts i := ho
    rw [PointerTable.pts_intern] at ho
    -- a pointer that is new holds nothing
    obtain ⟨q', hq'⟩ := PointerTable.pointer?_of_mem_pts ho
    cases (PointerTable.pointer?_intern_of_some q hq').symm.trans hi
    exact h.held i hq' o ho

theorem act {S : VarId → ObjId → Prop} {N : Event → Prop} (h : Guards v R st)
    (hv : ¬ d.Fills (.var v)) (hS : ∀ o, S v o → R o) (hact : Act d S N st st') :
    Guards v R st' := by
  cases hact with
  | note _ => exact ⟨h.edges, h.waiting, h.held⟩
  | know => exact h.intern _
  | edge hj hq => exact h.addEdge hj fun heq => hv (heq ▸ hq)
  | push hi hsent =>
    refine h.push hi fun heq => ?_
    cases heq
    exact hS _ (hsent.resolve_left hv)
  | keep hpointers hflow hworklist =>
    refine ⟨fun i j hij => ?_, fun e he => ?_, fun i hi o ho => ?_⟩
    · rw [hflow] at hij
      rw [hpointers]
      exact h.edges i j hij
    · rw [hworklist] at he
      rw [hpointers]
      exact h.waiting e he
    · rw [hpointers] at hi ho
      exact h.held i hi o ho

theorem acts {S : VarId → ObjId → Prop} {N : Event → Prop} (h : Guards v R st)
    (hv : ¬ d.Fills (.var v)) (hS : ∀ o, S v o → R o) (hacts : Acts d S N st st') :
    Guards v R st' := by
  induction hacts with
  | refl => exact h
  | tail _ hact ih => exact ih.act hv hS hact

/-- New objects of a pointer go on to its successors, none of which is guarded. -/
theorem grow (h : Guards v R st) {i : PointerId} {q : Pointer} {delta : ObjSet}
    (hi : st.pointers.pointer? i = some q) (hdelta : q = .var v → ∀ o ∈ delta, R o) :
    Guards v R (st.grow i delta) := by
  have hpointer : ∀ j, (st.grow i delta).pointers.pointer? j = st.pointers.pointer? j :=
    fun j => PointerTable.pointer?_absorb _ _ j _
  refine ⟨fun i' j' hij => ?_, fun e he => ?_, fun i' hi' o ho => ?_⟩
  · rw [hpointer]
    exact h.edges i' j' hij
  · rw [hpointer]
    rcases mem_worklist_grow.1 he with he | ⟨hedge, -⟩
    · exact h.waiting e he
    · obtain ⟨q', hq', hne⟩ := h.edges i e.1 hedge
      exact ⟨q', hq', fun heq => absurd heq hne⟩
  · rw [hpointer] at hi'
    rcases (mem_pts_grow (PointerTable.pointer?_isSome_iff.1 ⟨q, hi⟩)).1 ho with hold | ⟨rfl, hnew⟩
    · exact h.held i' hi' o hold
    · exact hdelta (Option.some.inj (hi.symm.trans hi')) o hnew

end Guards

/-! ## What a run keeps -/

section Runs

variable {d : Draft} {m : MethodId} {v : VarId} {st st' : State κ}

theorem Received.of_grown {o : ObjId}
    (hpointer : ∀ {i q}, st.pointers.pointer? i = some q → st'.pointers.pointer? i = some q)
    (hpts : ∀ i, ∀ o ∈ st.pointers.pts i, o ∈ st'.pointers.pts i)
    (hget : ∀ {o obj}, st.heap.get o = .ok obj → st'.heap.get o = .ok obj) (h : st.Received d m o) :
    st'.Received d m o := by
  obtain ⟨e, hm, call, r, j, obj, hs, hkind, hr, hj, ho, hobj, hcallee⟩ := h
  exact ⟨e, hm, call, r, j, obj, hs, hkind, hr, hpointer hj, hpts j o ho, hget hobj, hcallee⟩

theorem Received.acts {S : VarId → ObjId → Prop} {N : Event → Prop} {o : ObjId}
    (hacts : Acts d S N st st') (h : st.Received d m o) : st'.Received d m o :=
  h.of_grown hacts.pointer? (fun i o ho => by rwa [hacts.pts_eq]) hacts.get

variable [Std.LawfulEqOrd κ] {model : HeapModel κ} {p : Program} (hp : p.Proper)
  (hv : ¬ p.Fills (.var v)) (hthis : ∀ m' y, p.method m' = .ok y → y.this = some v → m' = m)

include hp hv hthis

/-- A visit sends its object to a guarded receiver only from a call that leads to the method of the
receiver. -/
theorem Guards.visit {r : VarId} {i : PointerId} {o : ObjId}
    (hst : st.Guards v (st.Received p.toDraft m)) (hi : st.pointers.pointer? i = some (.var r))
    (ho : o ∈ st.pointers.pts i) (hok : State.visit model p r st o = .ok st') :
    st'.Guards v (st'.Received p.toDraft m) ∧ ∀ q o', st'.pointers.Holds q o' ↔
      st.pointers.Holds q o' := by
  rw [State.visit] at hok
  obtain ⟨obj, hobj, hok⟩ := bind_eq_ok.1 hok
  obtain ⟨rs, hrs, hok⟩ := bind_eq_ok.1 hok
  have hacts : Acts p.toDraft (fun v' o' => v' = v → st.Received p.toDraft m o')
      (fun _ => True) st st' := by
    refine .foldlM hok fun reaction hreaction st₁ st₂ hreact => ?_
    obtain ⟨s, rs', ⟨stmt, u, hstmt, huse⟩, hrs', hreaction⟩ :=
      (hp.mem_reactions_iff hrs).1 hreaction
    have hreacts := Draft.reacts_of_mem_stmtReactions hrs' hreaction
    refine .react (fun _ _ => trivial) hreacts ?_ (fun _ _ => trivial) hreact
    rintro c v' rfl hc rfl
    cases hreacts with
    | @receive call c hcall hresolve =>
      cases hstmt.unique hcall
      obtain ⟨callee, y, hcallee, hy, rfl⟩ := Draft.resolveCall_eq_ok_iff.1 hresolve
      obtain ⟨r', hr', heq⟩ := Option.map_eq_some_iff.1 huse
      cases heq
      rw [hthis callee y hy hc] at hcallee
      exact ⟨⟨call.kind, s, m⟩, rfl, call, r, i, obj, hcall, rfl, hr', hi, ho, hobj, hcallee⟩
  exact ⟨(hst.acts hv (fun o hS => hS rfl) hacts).mono fun o' => Received.acts hacts,
    fun _ _ => hacts.holds_iff⟩

omit [Std.LawfulEqOrd κ] hp hv hthis in
theorem Guards.takeIn {e : PointerId × ObjSet} {q : Pointer} (hst : st.Guards v (st.Received d m))
    (hq : st.pointers.pointer? e.1 = some q) (he : q = .var v → ∀ o ∈ e.2, st.Received d m o) :
    (st.takeIn e).Guards v ((st.takeIn e).Received d m) := by
  rw [State.takeIn]
  split
  next => exact ⟨hst.edges, hst.waiting, hst.held⟩
  next =>
    have hlt : e.1.index < st.pointers.size := PointerTable.pointer?_isSome_iff.1 ⟨q, hq⟩
    have hsame : Guards v (st.Received d m) { st with pops := st.pops + 1 } :=
      ⟨hst.edges, hst.waiting, hst.held⟩
    refine (hsame.grow hq fun heq o ho => he heq o (Std.ExtTreeSet.mem_diff_iff.1 ho).1).mono
      fun o ho => ?_
    exact ho.of_grown (fun hi => (PointerTable.pointer?_absorb _ _ _ _).trans hi)
      (fun i o ho => (mem_pts_grow hlt).2 (.inl ho)) id

theorem Guards.process {e : PointerId × ObjSet} {q : Pointer}
    (hst : st.Guards v (st.Received p.toDraft m)) (hq : st.pointers.pointer? e.1 = some q)
    (he : q = .var v → ∀ o ∈ e.2, st.Received p.toDraft m o)
    (hok : State.process model p st e = .ok st') : st'.Guards v (st'.Received p.toDraft m) := by
  rw [process_eq model p hq] at hok
  -- the new objects are in the set of the variable before the first of them is visited
  refine (foldlM_invariant (I := fun st₁ : State κ => st₁.Guards v (st₁.Received p.toDraft m) ∧
    ∀ x ∈ st.visitsOf e, st₁.pointers.Holds (.var x.1) x.2) hok ?_ ⟨hst.takeIn hq he, ?_⟩).1
  · rintro ⟨r, o⟩ hx st₁ st₂ ⟨hst₁, hheld⟩ hvisit
    obtain ⟨i, hi, ho⟩ := hheld _ hx
    obtain ⟨hst₂, hkept⟩ := hst₁.visit hp hv hthis hi ho hvisit
    exact ⟨hst₂, fun x hx => (hkept _ _).2 (hheld x hx)⟩
  · rintro ⟨r, o⟩ hx
    obtain ⟨hr, ho⟩ := mem_visitsOf.1 hx
    exact (holds_takeIn hq).2 (.inr ⟨Option.some.inj (hr.symm.trans hq), ho⟩)

theorem Run.guards {facts : List (Fact κ)} (hrun : Run model p facts st)
    (hfacts : ∀ a, .flows a (.var v) ∉ facts) : st.Guards v (st.Received p.toDraft m) := by
  induction hrun with
  | empty => exact .empty
  | start _ _ hok ih =>
    have hst := ih fun a ha => hfacts a (List.mem_cons_of_mem _ ha)
    have hacts : Acts p.toDraft (fun _ _ => False) (fun _ => True) _ _ :=
      .start (fun _ _ => trivial) hok
    exact (hst.acts hv (fun _ => False.elim) hacts).mono fun o => Received.acts hacts
  | @link facts st st' i j a b hrun hi hj hok ih =>
    have hst := ih fun a ha => hfacts a (List.mem_cons_of_mem _ ha)
    obtain ⟨q, hq, hb⟩ := Option.bind_eq_some_iff.1 hj
    have hne : q ≠ .var v := by
      rintro rfl
      cases hb
      exact hfacts a List.mem_cons_self
    cases eq_addEdge_of_addFlow hok
    refine (hst.addEdge hq hne).mono
      fun o ho => ho.of_grown (fun hi => ?_) (fun i o ho => ?_) fun ho => ?_
    · rwa [pointers_addEdge]
    · rwa [pointers_addEdge]
    · rwa [heap_addEdge]
  | @take facts st st' older newer e rest hrun hlist hrest hok ih =>
    have hst := ih hfacts
    have hmem : ∀ e', e' ∈ st.worklist.toList ↔ e' = e ∨ e' ∈ rest.toList := fun e' => by
      rw [(perm_of_taken hlist hrest).mem_iff, List.mem_cons]
    obtain ⟨q, hq, he⟩ := hst.waiting e ((hmem e).2 (.inl rfl))
    have htaken : Guards v (Received p.toDraft m { st with worklist := rest })
        { st with worklist := rest } :=
      ⟨hst.edges, fun e' he' => hst.waiting e' ((hmem e').2 (.inr he')), hst.held⟩
    exact htaken.process hp hv hthis hq he hok

end Runs

/-- An object is visited at the receiver of a call before the solver rests, so a call that delivers
is there. -/
theorem Rests.mem_edges_of_delivers {d : Draft} {model : HeapModel κ} {st : State κ} {e : CallEdge}
    {o : ObjId} (hst : st.Rests d model) (hd : d.Has e.callee) (h : st.Delivers d e o) :
    e ∈ st.calls.edges := by
  obtain ⟨call, r, j, obj, hs, hkind, hr, hj, ho, hobj, hcallee⟩ := h
  obtain ⟨y, hy⟩ := Draft.exists_method_iff.2 hd
  have hresolve := (Draft.resolveCall_eq_ok_iff (s := e.site)).2 ⟨e.callee, y, hcallee, hy, rfl⟩
  obtain ⟨obj', hobj', hall⟩ := hst.visited j r o hj ho
  cases hobj.symm.trans hobj'
  obtain ⟨hcall, -⟩ :=
    hall e.site _ ⟨_, .invoke, hs, by rw [Stmt.use?, hr]; rfl⟩ (.receive hs hresolve)
  rw [← hkind] at hcall hresolve
  exact hst.mem_edges_of_hasCall (Draft.isCall_of_resolveCall hs hresolve) hcall

/-- Between the calls of a run, every object of the receiver of a method was delivered to the method
by a call that is there: the receiver of the call holds the object, and the class of the object
leads the call to the method. This holds of every method that does not assign to its receiver. If
only calls that are dispatched on their receivers enter the method, then its receiver holds no
arrays, and the classes of its objects dispatch to the method. -/
theorem Run.receivers_precise [Std.LawfulEqOrd κ] {model : HeapModel κ} {text : String}
    {p : Program} {facts : List (Fact κ)} {st : State κ} (htext : Program.ofText text = .ok p)
    (hrun : Run model p facts st) {m : MethodId} {y : Method} {v : VarId} (hm : p.method m = .ok y)
    (hthis : y.this = some v) (hbody : ∀ s stmt, p.InBody m s → p.HasStmt s stmt → v ∉ stmt.sinks)
    (hfacts : ∀ a, .flows a (.var v) ∉ facts) :
    (∀ i o, st.pointers.pointer? i = some (.var v) → o ∈ st.pointers.pts i →
      ∃ e ∈ st.calls.edges, e.callee = m ∧ st.Delivers p.toDraft e o) ∧
    ((∀ e ∈ st.calls.edges, e.callee = m → e.kind ≠ .static ∧ e.kind ≠ .special) →
      ∀ i o, st.pointers.pointer? i = some (.var v) → o ∈ st.pointers.pts i →
        ∃ obj c, st.heap.get o = .ok obj ∧ obj.type = .plain c ∧
          p.dispatch c y.sig = .ok (some m)) := by
  have hp := Program.Proper.of_ofText htext
  have hregular := (Program.regular_of_ofText htext).1
  obtain ⟨hrests, -, -⟩ := hrun.spec hp
  have hunique : ∀ m' y', p.method m' = .ok y' → y'.this = some v →
      m' = m := fun m' y' hm' hthis' =>
    (hregular.locals.methods m' y' hm' v (by simp [Method.ends, hthis'])).unique
      (hregular.locals.methods m y hm v (by simp [Method.ends, hthis]))
  have hguards := hrun.guards hp (Draft.not_fills_this hregular hm hthis hbody) hunique hfacts
  have hedge : ∀ i o, st.pointers.pointer? i = some (.var v) → o ∈ st.pointers.pts i →
      ∃ e ∈ st.calls.edges, e.callee = m ∧ st.Delivers p.toDraft e o := by
    intro i o hi ho
    obtain ⟨e, rfl, hdelivers⟩ := hguards.held i hi o ho
    exact ⟨e, hrests.mem_edges_of_delivers (Draft.exists_method_iff.1 ⟨y, hm⟩) hdelivers,
      rfl, hdelivers⟩
  refine ⟨hedge, fun hkinds i o hi ho => ?_⟩
  obtain ⟨e, he, rfl, call, r, j, obj, hs, hkind, hr, hj, hoj, hobj, hcallee⟩ := hedge i o hi ho
  obtain ⟨hstatic, hspecial⟩ := hkinds e he rfl
  rw [hkind] at hstatic hspecial
  obtain ⟨y', hy', hsig⟩ := hregular.built.owned.sig_of_callee hcallee
  cases hm.symm.trans hy'
  obtain ⟨c, hclass, hdispatch⟩ := Draft.dispatch_of_callee hstatic hspecial hcallee
  rw [← hsig] at hdispatch
  cases htype : obj.type with
  | plain c' =>
    rw [htype] at hclass
    cases hclass
    exact ⟨obj, c, hobj, htype, hdispatch⟩
  | array c' =>
    rw [htype] at hclass
    cases hclass

/-- A call on objects of two classes, each with a method of its own. -/
def samplePolymorphic : String :=
  "class A { method m() { } }
    class B extends A { method m() { }
      static method main() { x = new A; y = new B; x = y; invokevirtual x.A::m(); } }"

theorem Run.sample_receivers_precise :
    ∃ p st i obj, Program.ofText samplePolymorphic = .ok p ∧ Run .bySite p [.reached ⟨2⟩] st ∧
      st.pointers.pointer? i = some (.var ⟨1⟩) ∧ (st.pointers.pts i).toList = [⟨1⟩] ∧
      (∃ e ∈ st.calls.edges, e.callee = ⟨1⟩ ∧ st.Delivers p.toDraft e ⟨1⟩) ∧
      st.heap.get ⟨1⟩ = .ok obj ∧
      ∃ c, obj.type = .plain c ∧ p.dispatch c ⟨"m", 0⟩ = .ok (some ⟨1⟩) := by
  obtain ⟨p, htext, hmain, ⟨y, hy, hthis, hstmts, hsig⟩, ⟨r, log⟩, hsolve, ⟨i, hi, hpts⟩, hkinds⟩ :
      ∃ p, Program.ofText samplePolymorphic = .ok p ∧ p.Has (⟨2⟩ : MethodId) ∧
        (∃ y ∈ (p.method ⟨1⟩).toOption, y.this = some ⟨1⟩ ∧ y.stmts = #[] ∧ y.sig = ⟨"m", 0⟩) ∧
        ∃ x ∈ (p.solve .bySite ⟨2⟩).toOption,
          (∃ i ∈ x.1.pointers.find? (.var ⟨1⟩), (x.1.pointers.pts i).toList = [⟨1⟩]) ∧
          ∀ e ∈ x.1.calls.edges, e.callee = ⟨1⟩ → e.kind ≠ .static ∧ e.kind ≠ .special :=
    Program.exists_ofText (by decide +kernel)
  have hy := toOption_eq_some_iff.1 hy
  have hbody : ∀ s stmt, p.InBody ⟨1⟩ s → p.HasStmt s stmt → (⟨1⟩ : VarId) ∉ stmt.sinks := by
    rintro s stmt ⟨y', hy', hs⟩
    cases hy.symm.trans hy'
    simp [hstmts] at hs
  obtain ⟨st, log', hsolve', hrun, -⟩ := Run.solve .bySite (.of_ofText htext) hmain
  cases (toOption_eq_some_iff.1 hsolve).symm.trans hsolve'
  have hfacts : ∀ a : Place StmtId, .flows a (.var ⟨1⟩) ∉ [Fact.reached ⟨2⟩] := fun a => by simp
  obtain ⟨hedge, hclass⟩ := Run.receivers_precise htext hrun hy hthis hbody hfacts
  have hi := PointerTable.find?_eq_some_iff.1 hi
  have ho : (⟨1⟩ : ObjId) ∈ st.pointers.pts i := by
    rw [← Std.ExtTreeSet.mem_toList, hpts]
    exact List.mem_singleton_self _
  obtain ⟨obj, c, hobj, htype, hdispatch⟩ := hclass hkinds i ⟨1⟩ hi ho
  rw [hsig] at hdispatch
  exact ⟨p, st, i, obj, htext, hrun, hi, hpts, hedge i ⟨1⟩ hi ho, hobj, c, htype, hdispatch⟩

end State

end PointsTo
