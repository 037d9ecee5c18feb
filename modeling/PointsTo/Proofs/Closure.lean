import PointsTo.Proofs.Reading
import PointsTo.Proofs.Runs

/-!
# Every rule is satisfied or pending

In a state that `Rests`, whatever follows by one rule from what the state shows is shown too or is
on its way (`Rests.shows_or_awaits`). When the work list is empty, nothing is on its way, and what
the state shows is closed under the rules (`Rests.closed`).

`Run.rules_satisfied_or_pending` says so after each call of a run. It also says that the next call
returns, since every start, every edge and every entry that is taken leads on with the run.
-/

namespace PointsTo

/-- Allocations with the same key allocate objects of the same type. -/
def HeapModel.Consistent {κ : Type} (model : HeapModel κ) (d : Draft) : Prop :=
  ∀ k type type', model.HasType d k type → model.HasType d k type' → type = type'

theorem HeapModel.bySite_consistent (d : Draft) : HeapModel.bySite.Consistent d := by
  rintro k type type' ⟨s, hs, hk⟩ ⟨s', hs', hk'⟩
  cases hk
  cases hk'
  exact hs.unique hs'

theorem Draft.IsCall.eq_mk {d : Draft} {c : Call} {call : Invoke} {method : Method}
    (hc : d.IsCall c) (hs : d.HasStmt c.edge.site (.invoke call))
    (hmethod : d.method c.edge.callee = .ok method) :
    c = ⟨c.edge, method.this, call.args.zip method.params, method.returns, call.lhs⟩ := by
  obtain ⟨receiver, call', hs', hc⟩ := hc
  cases hs.unique hs'
  obtain ⟨m, method', -, hmethod', heq⟩ := Draft.resolveCall_eq_ok_iff.1 hc
  have hm : c.edge.callee = m := by rw [heq]
  rw [hm] at hmethod
  cases hmethod.symm.trans hmethod'
  rw [heq]

namespace Heap

variable {κ : Type} [Ord κ] [Std.TransOrd κ] {h : Heap κ}

theorem place_injective {q q' : Pointer} {a : Place κ} (hq : h.place q = some a)
    (hq' : h.place q' = some a) : q = q' := by
  cases q with
  | var v =>
    cases hq
    cases q' with
    | var v' =>
      cases hq'
      rfl
    | static f => cases hq'
    | field o f =>
      obtain ⟨k, -, heq⟩ := Option.map_eq_some_iff.1 hq'
      cases heq
  | static f =>
    cases hq
    cases q' with
    | var v => cases hq'
    | static f' =>
      cases hq'
      rfl
    | field o f =>
      obtain ⟨k, -, heq⟩ := Option.map_eq_some_iff.1 hq'
      cases heq
  | field o f =>
    obtain ⟨k, hk, rfl⟩ := Option.map_eq_some_iff.1 hq
    cases q' with
    | var v => cases hq'
    | static f' => cases hq'
    | field o' f' =>
      obtain ⟨k', hk', heq⟩ := Option.map_eq_some_iff.1 hq'
      cases heq
      rw [Heap.keyOf_injective hk hk']

end Heap

namespace State

variable {κ : Type} [Ord κ] [Std.TransOrd κ] {st : State κ}

theorem placeOf_injective {i j : PointerId} {a : Place κ} (hi : st.placeOf i = some a)
    (hj : st.placeOf j = some a) : i = j := by
  obtain ⟨q, hq, ha⟩ := Option.bind_eq_some_iff.1 hi
  obtain ⟨q', hq', ha'⟩ := Option.bind_eq_some_iff.1 hj
  cases Heap.place_injective ha ha'
  exact PointerTable.pointer?_injective hq hq'

theorem pointer?_of_placeOf_var {i : PointerId} {v : VarId} (hi : st.placeOf i = some (.var v)) :
    st.pointers.pointer? i = some (.var v) := by
  obtain ⟨q, hq, ha⟩ := Option.bind_eq_some_iff.1 hi
  cases Heap.place_injective ha (rfl : st.heap.place (.var v) = _)
  exact hq

theorem Arrives.shows_or_awaits {i : PointerId} {o : ObjId} {a : Place κ} {k : κ}
    (h : st.Arrives i o) (hi : st.placeOf i = some a) (hk : st.heap.keyOf o = some k) :
    st.Shows (.holds a k) ∨ st.Awaits (.holds a k) := by
  rcases h with ho | ⟨objs, hmem, ho⟩
  · exact .inl ⟨i, o, hi, ho, hk⟩
  · exact .inr ⟨i, objs, o, hi, hmem, ho, hk⟩

theorem Reaches.shows_or_awaits {o : ObjId} {v : VarId} {k : κ} (h : st.Reaches o v)
    (hk : st.heap.keyOf o = some k) :
    st.Shows (.holds (.var v) k) ∨ st.Awaits (.holds (.var v) k) := by
  obtain ⟨i, hi, ho⟩ := h
  exact ho.shows_or_awaits (Option.bind_eq_some_iff.2 ⟨_, hi, rfl⟩) hk

theorem Connected.shows {q q' : Pointer} {a b : Place κ} (h : st.Connected q q')
    (ha : st.heap.place q = some a) (hb : st.heap.place q' = some b) : st.Shows (.flows a b) := by
  obtain ⟨i, j, hi, hj, hij⟩ := h
  exact ⟨i, j, Option.bind_eq_some_iff.2 ⟨q, hi, ha⟩, Option.bind_eq_some_iff.2 ⟨q', hj, hb⟩, hij⟩

namespace Rests

variable {d : Draft} {model : HeapModel κ} (hst : st.Rests d model)

include hst

theorem mem_edges_of_hasCall {c : Call} (hc : d.IsCall c) (hcall : st.hasCall c.edge = true) :
    c.edge ∈ st.calls.edges := by
  obtain ⟨e, he, hsite, hcallee⟩ := CallGraph.hasEdge_iff.1 hcall
  obtain ⟨c', hc', rfl⟩ := hst.supported.called e he
  rw [← hc'.eq_of_ends hc hsite hcallee]
  exact he

theorem bound_of_mem_edges {e : CallEdge} {call : Invoke} (he : e ∈ st.calls.edges)
    (hs : d.HasStmt e.site (.invoke call)) :
    ∃ method, d.method e.callee = .ok method ∧
      st.Bound ⟨e, method.this, call.args.zip method.params, method.returns, call.lhs⟩ := by
  obtain ⟨c, hc, rfl⟩ := hst.supported.called e he
  obtain ⟨method, hmethod⟩ := Draft.exists_method_iff.2 hc.has_callee
  refine ⟨method, hmethod, ?_⟩
  rw [← hc.eq_mk hs hmethod]
  exact hst.settled.binds c hc (CallGraph.hasEdge_of_mem he) (by simp)

theorem handles {v : VarId} {k : κ} (h : st.Shows (.holds (.var v) k)) :
    ∃ o type, st.heap.keyOf o = some k ∧ model.HasType d k type ∧
      ∀ s r, d.DependsOn s v → d.Reacts o type s r → st.Handles model o r := by
  obtain ⟨i, o, hi, ho, hk⟩ := h
  obtain ⟨obj, hget, hall⟩ := hst.visited i v o (pointer?_of_placeOf_var hi) ho
  obtain ⟨k', hentry⟩ := Heap.get_eq_ok_iff.1 hget
  cases (Heap.keyOf_of_record? hentry).symm.trans hk
  exact ⟨o, obj.type, hk, hst.supported.hasType hentry, hall⟩

theorem flow_of_holds {v : VarId} {k : κ} {s : StmtId} {source target : ObjId → Pointer}
    {a b : Place κ} (h : st.Shows (.holds (.var v) k)) (hs : d.DependsOn s v)
    (hr : ∀ o type, d.Reacts o type s (.effect (.flow (source o) (target o))))
    (hsource : ∀ o, st.heap.keyOf o = some k → st.heap.place (source o) = some a)
    (htarget : ∀ o, st.heap.keyOf o = some k → st.heap.place (target o) = some b) :
    st.Shows (.flows a b) := by
  obtain ⟨o, type, hk, -, hall⟩ := hst.handles h
  exact Connected.shows (hall s _ hs (hr o type)) (hsource o hk) (htarget o hk)

/-- A call on a receiver is handled for each object of the receiver. -/
theorem handles_call (hmodel : model.Consistent d) {v : VarId} {k : κ} {s : StmtId} {call : Invoke}
    {type : ObjType} {c : Call} (h : st.Shows (.holds (.var v) k)) (hs : d.HasStmt s (.invoke call))
    (hreceiver : call.receiver = some v) (htype : model.HasType d k type)
    (hc : d.resolveCall type.dispatchClass? s call = .ok (some c)) :
    ∃ o, st.heap.keyOf o = some k ∧ st.Handles model o (.receive c) := by
  obtain ⟨o, type', hk, htype', hall⟩ := hst.handles h
  cases hmodel k type type' htype htype'
  exact ⟨o, hk, hall s _ ⟨_, .invoke, hs, by rw [Stmt.use?, hreceiver]; rfl⟩ (.receive hs hc)⟩

/-- A flow between variables and static fields that a reached method asks for is there. -/
theorem flow_of_reached {m : MethodId} {s : StmtId} {source target : Pointer} {a b : Place κ}
    (h : st.Shows (.reached m)) (hs : d.InBody m s) (hasks : d.Asks s (.flow source target))
    (hsource : st.heap.place source = some a) (htarget : st.heap.place target = some b) :
    st.Shows (.flows a b) :=
  Connected.shows (hst.settled.covers m h s _ hs hasks) hsource htarget

/-- In a state at rest, what follows by one rule from what is shown is shown or on its way. -/
theorem shows_or_awaits (hd : d.InRange) (hmodel : model.Consistent d) {premises : List (Fact κ)}
    {f : Fact κ} (hrule : Rule d model premises f) (hpremises : ∀ g ∈ premises, st.Shows g) :
    st.Shows f ∨ st.Awaits f := by
  have hfield : ∀ {k : κ} (f : FieldId) (o : ObjId), st.heap.keyOf o = some k →
      st.heap.place (.field o f) = some (.field k f) := fun f o ho => by rw [Heap.place, ho]; rfl
  have hone : ∀ {g : Fact κ}, (∀ g' ∈ [g], st.Shows g') → st.Shows g := List.forall_mem_singleton.1
  cases hrule with
  | @new m s lhs c isArray k hs hstmt hk =>
    obtain ⟨o, ho, hreaches⟩ := hst.settled.covers m (hone hpremises) s _ hs (.alloc hstmt) k hk
    exact hreaches.shows_or_awaits ho
  | copy hs hstmt => exact .inl (hst.flow_of_reached (hone hpremises) hs (.copy hstmt) rfl rfl)
  | loadStatic hs hstmt hf =>
    exact .inl (hst.flow_of_reached (hone hpremises) hs (.load hstmt hf) rfl rfl)
  | storeStatic hs hstmt hf =>
    exact .inl (hst.flow_of_reached (hone hpremises) hs (.store hstmt hf) rfl rfl)
  | @enter m callee s call hs hstmt hstatic hcallee =>
    obtain ⟨method, hmethod⟩ := hd.exists_method_of_callee hstmt (fun c hc => by cases hc) hcallee
    have hc := (Draft.resolveCall_eq_ok_iff (s := s)).2 ⟨callee, method, hcallee, hmethod, rfl⟩
    have hcall := hst.settled.covers m (hone hpremises) s _ hs (.enter hstmt hstatic hc)
    exact .inl (hst.mem_edges_of_hasCall (Draft.isCall_of_resolveCall hstmt hc) hcall)
  | store hstmt hf =>
    exact .inl (hst.flow_of_holds (hone hpremises) ⟨_, _, hstmt, rfl⟩
      (fun o type => .store hstmt hf) (fun _ _ => rfl) (hfield _))
  | load hstmt hf =>
    exact .inl (hst.flow_of_holds (hone hpremises) ⟨_, _, hstmt, rfl⟩
      (fun o type => .load hstmt hf) (hfield _) (fun _ _ => rfl))
  | storeArray hstmt =>
    exact .inl (hst.flow_of_holds (hone hpremises) ⟨_, _, hstmt, rfl⟩
      (fun o type => .storeArray hstmt) (fun _ _ => rfl) (fun _ _ => rfl))
  | loadArray hstmt =>
    exact .inl (hst.flow_of_holds (hone hpremises) ⟨_, _, hstmt, rfl⟩
      (fun o type => .loadArray hstmt) (fun _ _ => rfl) (fun _ _ => rfl))
  | @dispatch s call v k type callee hstmt hreceiver htype hcallee =>
    obtain ⟨method, hmethod⟩ :=
      hd.exists_method_of_callee hstmt (hd.has_dispatchClass htype) hcallee
    have hc := (Draft.resolveCall_eq_ok_iff (s := s)).2 ⟨callee, method, hcallee, hmethod, rfl⟩
    obtain ⟨o, -, hhandles⟩ := hst.handles_call hmodel (hone hpremises) hstmt hreceiver htype hc
    exact .inl (hst.mem_edges_of_hasCall (Draft.isCall_of_resolveCall hstmt hc) hhandles.1)
  | @receive s call v this k type callee method hstmt hreceiver htype hcallee hmethod hthis =>
    have hc := (Draft.resolveCall_eq_ok_iff (s := s)).2 ⟨callee, method, hcallee, hmethod, rfl⟩
    obtain ⟨o, hk, hhandles⟩ := hst.handles_call hmodel (hone hpremises) hstmt hreceiver htype hc
    exact (hhandles.2 this hthis).shows_or_awaits hk
  | @reach e =>
    rcases hst.carries.callee e (hone hpremises) with hm | hm
    · exact .inl hm
    · exact absurd hm (by rw [hst.pending]; exact List.not_mem_nil)
  | pass hstmt hmethod hmem =>
    obtain ⟨method, hmethod', hbound⟩ := hst.bound_of_mem_edges (hone hpremises) hstmt
    cases hmethod.symm.trans hmethod'
    exact .inl ((hbound.passed _ hmem).shows rfl rfl)
  | ret hstmt hmethod hv hlhs =>
    obtain ⟨method, hmethod', hbound⟩ := hst.bound_of_mem_edges (hone hpremises) hstmt
    cases hmethod.symm.trans hmethod'
    exact .inl ((hbound.returned _ hlhs _ hv).shows rfl rfl)
  | result hstmt hlhs =>
    obtain ⟨method, -, hbound⟩ := hst.bound_of_mem_edges (hone hpremises) hstmt
    obtain ⟨i, hi⟩ := hbound.result _ hlhs
    exact .inl ⟨i, Option.bind_eq_some_iff.2 ⟨_, hi, rfl⟩⟩
  | @flow a b k =>
    obtain ⟨i, j, hi, hj, hij⟩ := hpremises (.flows a b) (List.mem_cons_self ..)
    obtain ⟨i', o, hi', ho, hk⟩ :=
      hpremises (.holds a k) (List.mem_cons_of_mem _ (List.mem_singleton.2 rfl))
    cases placeOf_injective hi hi'
    exact (hst.carries.flow i j o hij ho).shows_or_awaits hj hk
  | source =>
    obtain ⟨i, j, hi, -, -⟩ := hone hpremises
    exact .inl ⟨i, hi⟩
  | target =>
    obtain ⟨i, j, -, hj, -⟩ := hone hpremises
    exact .inl ⟨j, hj⟩
  | holder =>
    obtain ⟨i, o, hi, -, -⟩ := hone hpremises
    exact .inl ⟨i, hi⟩

end Rests

/-- With an empty work list, what a state at rest shows is closed under the rules. -/
theorem Rests.closed {d : Draft} {model : HeapModel κ} (hst : st.Rests d model) (hd : d.InRange)
    (hmodel : model.Consistent d) (hdone : st.worklist.toList = []) : Closed d model st.Shows := by
  intro premises f hrule hpremises
  rcases hst.shows_or_awaits hd hmodel hrule hpremises with hf | hf
  · exact hf
  · cases f with
    | holds a k =>
      obtain ⟨i, objs, o, -, hmem, -⟩ := hf
      rw [hdone] at hmem
      exact absurd hmem List.not_mem_nil
    | reached | called | known | flows => exact hf.elim

/-! ## The solver never gets stuck -/

section Progress

variable [Std.LawfulEqOrd κ] {model : HeapModel κ} {p : Program} {facts : List (Fact κ)}
  (hp : p.Proper)

include hp

theorem Run.exists_start (h : Run model p facts st) {m : MethodId} (hm : p.Has m) :
    ∃ st', State.start model p m st = .ok st' ∧ Run model p (.reached m :: facts) st' := by
  obtain ⟨hrests, hfacts, -⟩ := h.spec hp
  have hreached : (Fact.reached m : Fact κ).InScope p.toDraft := hm
  have hscope := List.forall_mem_cons.2 ⟨hreached, fun f hf => (hfacts f hf).1⟩
  obtain ⟨st', hok, -⟩ := start_spec hp hscope hrests (List.mem_cons_self ..)
  exact ⟨st', hok, h.start hm hok⟩

theorem Run.exists_addFlow (h : Run model p facts st) {i j : PointerId}
    (hi : i.index < st.pointers.size) (hj : j.index < st.pointers.size) :
    ∃ a b st', st.placeOf i = some a ∧ st.placeOf j = some b ∧ State.addFlow i j st = .ok st' ∧
      Run model p (.flows a b :: facts) st' := by
  obtain ⟨hrests, -, -⟩ := h.spec hp
  obtain ⟨q, hq⟩ := PointerTable.pointer?_isSome_iff.2 hi
  obtain ⟨q', hq'⟩ := PointerTable.pointer?_isSome_iff.2 hj
  obtain ⟨a, ha, hka⟩ := hrests.supported.known i q hq
  obtain ⟨b, hb, hkb⟩ := hrests.supported.known j q' hq'
  have ha' : st.placeOf i = some a := Option.bind_eq_some_iff.2 ⟨q, hq, ha⟩
  have hb' : st.placeOf j = some b := Option.bind_eq_some_iff.2 ⟨q', hq', hb⟩
  have hscope : ∀ f, f = Fact.flows a b → Fact.InScope p.toDraft f := fun f hf => hf ▸ ⟨hka, hkb⟩
  obtain ⟨hok, -⟩ := addFlow_spec hp hscope hrests ha' hb' rfl
  exact ⟨a, b, _, ha', hb', hok, h.link ha' hb' hok⟩

theorem Run.exists_take (h : Run model p facts st) {older newer : List (PointerId × ObjSet)}
    {e : PointerId × ObjSet} {rest : Worklist} (hlist : st.worklist.toList = older ++ e :: newer)
    (hrest : rest.toList = older ++ newer) :
    ∃ st', State.process model p { st with worklist := rest } e = .ok st' ∧
      Run model p facts st' := by
  obtain ⟨hrests, hfacts, -⟩ := h.spec hp
  obtain ⟨n, mid, st', hok, -⟩ :=
    process_spec hp (fun f hf => (hfacts f hf).1) hrests (perm_of_taken hlist hrest)
  exact ⟨st', hok, h.take hlist hrest hok⟩

omit hp in
/-- A step handles the oldest entry. -/
theorem exists_process_of_step {st' : State κ} (hstep : State.step model p st = .ok (some st')) :
    ∃ e rest, st.worklist.toList = [] ++ e :: rest.toList ∧
      State.process model p { st with worklist := rest } e = .ok st' := by
  rw [State.step] at hstep
  split at hstep
  next => cases hstep
  next e rest hpop =>
    obtain ⟨st₁, hok, heq⟩ := bind_eq_ok.1 hstep
    cases heq
    exact ⟨e, rest, Queue.toList_eq_cons_of_pop? hpop, hok⟩

/-- There is a step as long as the work list is not empty; it takes the oldest entry. -/
theorem Run.exists_step (h : Run model p facts st) :
    (st.worklist.toList = [] ∧ State.step model p st = .ok none) ∨
      ∃ st', State.step model p st = .ok (some st') ∧ Run model p facts st' := by
  rw [State.step]
  split <;> rename_i hpop
  · exact .inl ⟨Queue.pop?_eq_none_iff.1 hpop, rfl⟩
  · rename_i e rest
    have hlist : st.worklist.toList = [] ++ e :: rest.toList := Queue.toList_eq_cons_of_pop? hpop
    obtain ⟨st', hok, hrun⟩ := h.exists_take hp hlist rfl
    rw [hok]
    exact .inr ⟨st', rfl, hrun⟩

end Progress

/-- After each call of a run, whatever follows by a rule from what the state shows is shown too or
on its way; what the solver was given is shown; and the next call, whichever it is, returns and goes
on with the run. -/
theorem Run.rules_satisfied_or_pending {p : Program} {facts : List (Fact StmtId)}
    {st : State StmtId} (hp : p.Proper) (hrun : Run .bySite p facts st) :
    (∀ premises f, Rule p.toDraft .bySite premises f → (∀ g ∈ premises, st.Shows g) →
      st.Shows f ∨ st.Awaits f) ∧
    (∀ f ∈ facts, st.Shows f) ∧
    (∀ m, p.Has m → ∃ st', State.start .bySite p m st = .ok st' ∧
      Run .bySite p (.reached m :: facts) st') ∧
    (∀ i j : PointerId, i.index < st.pointers.size → j.index < st.pointers.size →
      ∃ a b st', st.placeOf i = some a ∧ st.placeOf j = some b ∧ State.addFlow i j st = .ok st' ∧
        Run .bySite p (.flows a b :: facts) st') ∧
    ((st.worklist.toList = [] ∧ State.step .bySite p st = .ok none) ∨
      ∃ st', State.step .bySite p st = .ok (some st') ∧ Run .bySite p facts st') := by
  obtain ⟨hrests, hfacts, -⟩ := hrun.spec hp
  refine ⟨fun premises f hrule hpremises => ?_, fun f hf => (hfacts f hf).2,
    fun m hm => hrun.exists_start hp hm,
    fun i j hi hj => hrun.exists_addFlow hp hi hj, hrun.exists_step hp⟩
  exact hrests.shows_or_awaits hp.inRange (HeapModel.bySite_consistent _) hrule hpremises

theorem Run.sample_rules_satisfied_or_pending :
    ∃ p st, Program.ofText sampleText = .ok p ∧ Run .bySite p [.reached ⟨1⟩] st ∧
      st.Shows (.reached ⟨1⟩) ∧
      ∀ premises f, Rule p.toDraft .bySite premises f → (∀ g ∈ premises, st.Shows g) →
        st.Shows f ∨ st.Awaits f := by
  obtain ⟨p, htext, -, hmain⟩ := sampleText_accepted
  have hp := Program.Proper.of_ofText htext
  have hempty : Run .bySite p [] {} := .empty
  obtain ⟨st, -, hrun⟩ := hempty.exists_start hp hmain
  obtain ⟨hrules, hshows, -⟩ := hrun.rules_satisfied_or_pending hp
  exact ⟨p, st, htext, hrun, hshows _ (List.mem_singleton.2 rfl), hrules⟩

end State

end PointsTo
