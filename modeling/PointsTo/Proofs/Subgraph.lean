import PointsTo.Proofs.Execution
import PointsTo.Proofs.HierarchyCalls

/-!
# Points-to call graphs are subgraphs

Two searches give the calls of a program: one knows the objects of each receiver, the other only the
class that a call names. If all objects on which calls are made have classes below the named ones
(`ReceiversTyped`), then the first search finds nothing that the second does not
(`pointsTo_calls_subgraph`). The facts of the first are followed along its rules: wherever a
variable appears, the method that owns it is one that the second search visits
(`Fact.Visited.of_rule`).
-/

namespace PointsTo

namespace Solution

variable {κ : Type} [Ord κ] [Std.TransOrd κ]

/-- The objects on which a call is made, arrays apart, have classes below the one that the call
names. -/
def ReceiverTyped (r : Solution κ) (d : Draft) (call : Invoke) : Prop :=
  ∀ v objs o obj, call.receiver = some v → r.pointsTo? (.var v) = some objs → o ∈ objs →
    r.heap.get o = .ok obj →
    obj.type.isArray = false → ∃ cs, d.subtypes call.target.cls = .ok cs ∧ obj.type.cls ∈ cs

/-- All calls that are dispatched on their receivers are made on objects of the right classes. -/
def ReceiversTyped (r : Solution κ) (d : Draft) : Prop :=
  ∀ s call, d.HasStmt s (.invoke call) → call.kind ≠ .static → call.kind ≠ .special →
    r.ReceiverTyped d call

instance (r : Solution κ) (d : Draft) (call : Invoke) : Decidable (r.ReceiverTyped d call) :=
  decidable_of_iff
    (∀ v ∈ call.receiver, ∀ objs ∈ r.pointsTo? (.var v), ∀ o ∈ objs.toList,
      ∀ obj ∈ (r.heap.get o).toOption,
      obj.type.isArray = false → ∃ cs ∈ (d.subtypes call.target.cls).toOption,
      obj.type.cls ∈ cs) <| by
    simp only [Option.mem_def, toOption_eq_some_iff, Std.ExtTreeSet.mem_toList]
    exact ⟨fun h v objs o obj hv hobjs ho hobj => h v hv objs hobjs o ho obj hobj,
      fun h v hv objs hobjs o ho obj hobj => h v objs o obj hv hobjs ho hobj⟩

instance (r : Solution κ) (d : Draft) : Decidable (r.ReceiversTyped d) :=
  decidable_of_iff
    (∀ s ∈ Id.upTo .stmt d.stmts.size, ∀ found ∈ (d.invoke? s).toOption, ∀ call ∈ found,
      call.kind ≠ .static → call.kind ≠ .special → r.ReceiverTyped d call) <| by
    simp only [Option.mem_def, toOption_eq_some_iff]
    refine ⟨fun h s call hs => ?_, fun h s _ found hfound call hcall => h s call ?_⟩
    · have hmem : s ∈ Id.upTo .stmt d.stmts.size :=
        Id.mem_upTo.2 (Draft.exists_placed_iff.1 (hs.imp fun _ hx => hx.1))
      exact h s hmem (some call) (Draft.invoke?_eq_ok.2 hs) call rfl
    · exact Draft.invoke?_eq_ok.1 (hcall ▸ hfound)

end Solution

namespace Draft

variable {d : Draft}

/-- The variables of one statement belong to one method, which has the statement in its body. -/
theorem Scoped.inBody_of_owns (h : d.Scoped) (hfiled : d.Filed) {s : StmtId} {stmt : Stmt}
    {m : MethodId} {v : VarId} (hs : d.HasStmt s stmt) (hv : v ∈ stmt.vars) (hm : d.Owns m v) :
    d.InBody m s := by
  obtain ⟨x, hx, rfl⟩ := hs
  rw [hm.unique (h.stmts x (mem_toList_of_fetch hx) v hv)]
  exact hfiled.inBody hx

theorem Scoped.owns_of_inBody (h : d.Scoped) (hfiled : d.Filed) {s : StmtId} {stmt : Stmt}
    {m : MethodId} {v : VarId} (hm : d.InBody m s) (hs : d.HasStmt s stmt) (hv : v ∈ stmt.vars) :
    d.Owns m v := by
  obtain ⟨x, hx, rfl⟩ := hs
  rw [← hfiled.method_of_inBody hm hx]
  exact h.stmts x (mem_toList_of_fetch hx) v hv

end Draft

section Visits

variable {d : Draft} {g : CallGraph} {entry m : MethodId} {s : StmtId} {stmt : Stmt} {v w : VarId}
  (hd : d.Regular)

/-- A variable belongs to a method of a call graph. -/
def Draft.Visits (d : Draft) (g : CallGraph) (v : VarId) : Prop := ∃ m ∈ g.reachable, d.Owns m v

namespace Draft.Visits

include hd

theorem of_inBody (hm : m ∈ g.reachable) (hbody : d.InBody m s) (hs : d.HasStmt s stmt)
    (hv : v ∈ stmt.vars) : d.Visits g v :=
  ⟨m, hm, hd.locals.owns_of_inBody hd.built.filed hbody hs hv⟩

theorem of_stmt (hs : d.HasStmt s stmt) (hv : v ∈ stmt.vars) (hw : w ∈ stmt.vars)
    (h : d.Visits g v) :
    d.Visits g w := by
  obtain ⟨m, hm, howns⟩ := h
  exact of_inBody hd hm (hd.locals.inBody_of_owns hd.built.filed hs hv howns) hs hw

variable (hg : d.Searched entry [] g)

include hg

theorem of_callee {e : CallEdge} {method : Method} (he : e ∈ g.edges)
    (hmethod : d.method e.callee = .ok method) (hv : v ∈ method.ends) : d.Visits g v :=
  ⟨e.callee, (hg.callees e he).resolve_right List.not_mem_nil,
    hd.locals.methods e.callee method hmethod v hv⟩

theorem of_site {e : CallEdge} (he : e ∈ g.edges) (hs : d.HasStmt e.site stmt)
    (hv : v ∈ stmt.vars) :
    d.Visits g v := by
  obtain ⟨m, hm, hcall⟩ := (hg.edges e).1 he
  exact of_inBody hd hm hcall.1 hs hv

/-- A call on a variable of a visited method is a call of that method. -/
theorem mem_edges {call : Invoke} (hs : d.HasStmt s (.invoke call))
    (hreceiver : call.receiver = some v) (hv : d.Visits g v) (hm : d.MayEnter call m) :
    ⟨call.kind, s, m⟩ ∈ g.edges := by
  obtain ⟨m', hm', howns⟩ := hv
  have hmem : v ∈ (Stmt.invoke call).vars := by simp [Stmt.vars, Invoke.vars, hreceiver]
  have hbody := hd.locals.inBody_of_owns hd.built.filed hs hmem howns
  exact (hg.edges _).2 ⟨m', hm', hbody, call, hs, rfl, hm⟩

end Draft.Visits

end Visits

section Visited

open Draft

variable {κ : Type} {d : Draft} {g : CallGraph}

/-- A place that is not a variable of a method outside a call graph. -/
def Place.Visited (d : Draft) (g : CallGraph) : Place κ → Prop
  | .var v => d.Visits g v
  | .static _ | .field .. => True

/-- A fact about methods, calls and variables of a call graph. -/
def Fact.Visited (d : Draft) (g : CallGraph) : Fact κ → Prop
  | .reached m => m ∈ g.reachable
  | .called e => e ∈ g.edges
  | .known a => a.Visited d g
  | .flows a b => a.Visited d g ∧ b.Visited d g
  | .holds a _ => a.Visited d g

/-- What follows by a rule from facts about visited methods is such a fact, if calls on receivers
enter only what the class hierarchy shows. -/
theorem Fact.Visited.of_rule {model : HeapModel κ} {entry : MethodId} (hd : d.Regular)
    (hg : d.Searched entry [] g) {premises : List (Fact κ)} {f : Fact κ}
    (hrule : Rule d model premises f) (hpremises : ∀ f ∈ premises, Fact.Visited d g f)
    (hreceiver : ∀ s call v k type m, d.HasStmt s (.invoke call) → call.receiver = some v →
      .holds (.var v) k ∈ premises → model.HasType d k type →
        d.callee type.dispatchClass? call = .ok (some m) → d.MayEnter call m) :
    Fact.Visited d g f := by
  cases hrule with
  | @new m _ _ _ _ _ hbody hs _ =>
    have hm : m ∈ g.reachable := hpremises _ List.mem_cons_self
    exact Visits.of_inBody hd hm hbody hs (by simp [Stmt.vars])
  | copy hbody hs =>
    have hm := hpremises _ List.mem_cons_self
    exact ⟨Visits.of_inBody hd hm hbody hs (by simp [Stmt.vars]),
      Visits.of_inBody hd hm hbody hs (by simp [Stmt.vars])⟩
  | loadStatic hbody hs _ =>
    have hm := hpremises _ List.mem_cons_self
    exact ⟨trivial, Visits.of_inBody hd hm hbody hs (by simp [Stmt.vars])⟩
  | storeStatic hbody hs _ =>
    have hm := hpremises _ List.mem_cons_self
    exact ⟨Visits.of_inBody hd hm hbody hs (by simp [Stmt.vars]), trivial⟩
  | enter hbody hs hkind hcallee =>
    have henter := hd.inRange.mayEnter_of_callee hs (.named (.inl hkind)) hcallee
    exact (hg.edges _).2 ⟨_, hpremises _ List.mem_cons_self, hbody, _, hs, rfl, henter⟩
  | store hs _ =>
    have hbase := hpremises _ List.mem_cons_self
    exact ⟨Visits.of_stmt hd hs (by simp [Stmt.vars]) (by simp [Stmt.vars]) hbase, trivial⟩
  | load hs _ =>
    have hbase := hpremises _ List.mem_cons_self
    exact ⟨trivial, Visits.of_stmt hd hs (by simp [Stmt.vars]) (by simp [Stmt.vars]) hbase⟩
  | storeArray hs =>
    have hbase := hpremises _ List.mem_cons_self
    exact ⟨Visits.of_stmt hd hs (by simp [Stmt.vars]) (by simp [Stmt.vars]) hbase, hbase⟩
  | loadArray hs =>
    have hbase := hpremises _ List.mem_cons_self
    exact ⟨hbase, Visits.of_stmt hd hs (by simp [Stmt.vars]) (by simp [Stmt.vars]) hbase⟩
  | dispatch hs hv htype hcallee =>
    have henter := hreceiver _ _ _ _ _ _ hs hv List.mem_cons_self htype hcallee
    exact Visits.mem_edges hd hg hs hv (hpremises _ List.mem_cons_self) henter
  | receive hs hv htype hcallee hmethod hthis =>
    have henter := hreceiver _ _ _ _ _ _ hs hv List.mem_cons_self htype hcallee
    have he := Visits.mem_edges hd hg hs hv (hpremises _ List.mem_cons_self) henter
    exact Visits.of_callee hd hg he hmethod (by simp [Method.ends, hthis])
  | reach => exact (hg.callees _ (hpremises _ List.mem_cons_self)).resolve_right List.not_mem_nil
  | pass hs hmethod hmem =>
    obtain ⟨harg, hparam⟩ := List.of_mem_zip hmem
    have he := hpremises _ List.mem_cons_self
    exact ⟨Visits.of_site hd hg he hs (by simp [Stmt.vars, Invoke.vars, harg]),
      Visits.of_callee hd hg he hmethod (by simp [Method.ends, hparam])⟩
  | ret hs hmethod hv hlhs =>
    have he := hpremises _ List.mem_cons_self
    exact ⟨Visits.of_callee hd hg he hmethod (by simp [Method.ends, hv]),
      Visits.of_site hd hg he hs (by simp [Stmt.vars, Invoke.vars, hlhs])⟩
  | result hs hlhs =>
    have he := hpremises _ List.mem_cons_self
    exact Visits.of_site hd hg he hs (by simp [Stmt.vars, Invoke.vars, hlhs])
  | flow => exact (hpremises _ List.mem_cons_self).2
  | source => exact (hpremises _ List.mem_cons_self).1
  | target => exact (hpremises _ List.mem_cons_self).2
  | @holder a k => exact hpremises (.holds a k) List.mem_cons_self

end Visited

section Receivers

variable {κ : Type} [Ord κ] [Std.TransOrd κ] {d : Draft} {model : HeapModel κ} {S : Fact κ → Prop}
  {st : State κ}

/-- A call on an object of a right class enters a method that the class hierarchy shows. -/
theorem Solution.ReceiversTyped.mayEnter (h : st.toSolution.ReceiversTyped d) (hd : d.InRange)
    (hmodel : model.Consistent d) (hst : st.Supported d model S) {s : StmtId} {call : Invoke}
    {v : VarId} {k : κ} {type : ObjType} {m : MethodId} (hs : d.HasStmt s (.invoke call))
    (hreceiver : call.receiver = some v) (hshows : st.Shows (.holds (.var v) k))
    (htype : model.HasType d k type) (hm : d.callee type.dispatchClass? call = .ok (some m)) :
    d.MayEnter call m := by
  by_cases hnamed : call.kind = .static ∨ call.kind = .special
  · rw [Draft.callee_eq_of_named hnamed _ none] at hm
    exact hd.mayEnter_of_callee hs (.named hnamed) hm
  rw [not_or] at hnamed
  cases type with
  | array c =>
    -- a call that does not name its class finds nothing on an array
    have hnone : call.lookupClass none = none := by
      rw [Invoke.lookupClass]
      split
      · exact absurd ‹_› hnamed.1
      · exact absurd ‹_› hnamed.2
      all_goals rfl
    rw [ObjType.dispatchClass?, Draft.callee, hnone] at hm
    cases hm
  | plain c =>
    obtain ⟨objs, o, hpoints, hfind, ho⟩ := Solution.mayPointTo_of_shows (q := .var v) rfl hshows
    obtain ⟨⟨k', obj⟩, he, rfl⟩ := Option.map_eq_some_iff.1 (Heap.find?_eq_some_iff.1 hfind)
    have hobj : obj.type = .plain c := hmodel k' _ _ (hst.hasType he) htype
    obtain ⟨cs, hcs, hc⟩ := h s call hs hnamed.1 hnamed.2 v objs o obj hreceiver hpoints ho
      (Heap.get_eq_ok_iff.2 ⟨k', he⟩) (by rw [hobj]; rfl)
    rw [hobj] at hc
    exact hd.mayEnter_of_callee hs (.subtype hnamed.1 hnamed.2 hcs hc) hm

end Receivers

/-- From any entry of a program that was read from a text, both searches return, and all that the
points-to analysis reaches and calls is in the call graph of the class hierarchy, if the objects on
which calls are dispatched have classes below the ones that the calls name. -/
theorem pointsTo_calls_subgraph {κ : Type} [Ord κ] [Std.TransOrd κ] [Std.LawfulEqOrd κ]
    {text : String} {p : Program} {model : HeapModel κ} {entry : MethodId}
    (htext : Program.ofText text = .ok p) (hmodel : model.Consistent p.toDraft)
    (hentry : p.Has entry) :
    ∃ r log g log', p.solve model entry = .ok (r, log) ∧ p.hierarchyCalls entry = .ok (g, log') ∧
      (r.ReceiversTyped p.toDraft →
        (∀ e ∈ r.calls.edges, e ∈ g.edges) ∧ ∀ m ∈ r.calls.reachable, m ∈ g.reachable) := by
  have hp := Program.Proper.of_ofText htext
  have hd := (Program.regular_of_ofText htext).1
  obtain ⟨st, log, hsolve, hrun, hdone⟩ := State.Run.solve model hp hentry
  obtain ⟨g, log', hsearch, hg, -⟩ := Draft.exists_hierarchyCalls hp.built.filed hp.inRange hentry
  refine ⟨st.toSolution, log, g, log', hsolve, hsearch, fun htyped => ?_⟩
  have hiff : ∀ f, st.Shows f ↔ Derives p.toDraft model (· ∈ [.reached entry]) f :=
    fun f => hrun.shows_iff_derives hp hmodel hdone
  -- facts that are shown and are about visited methods are closed under the rules
  have hclosed : Closed p.toDraft model fun f => st.Shows f ∧ Fact.Visited p.toDraft g f := by
    intro premises f hrule hpremises
    refine ⟨(hiff f).2 (.rule hrule fun f' hf' => (hiff f').1 (hpremises f' hf').1),
      .of_rule hd hg hrule (fun f' hf' => (hpremises f' hf').2) ?_⟩
    intro s call v k type m hs hreceiver hmem htype hm
    exact htyped.mayEnter hp.inRange hmodel (hrun.supported hp) hs hreceiver
      (hpremises _ hmem).1 htype hm
  have hvisited : ∀ f, st.Shows f → Fact.Visited p.toDraft g f := by
    intro f hf
    refine (((hiff f).1 hf).least hclosed fun f' hf' => ?_).2
    cases List.mem_singleton.1 hf'
    exact ⟨(hiff _).2 (.given (List.mem_singleton.2 rfl)), hg.begun.resolve_right List.not_mem_nil⟩
  exact ⟨fun e he => hvisited (.called e) he, fun m hm => hvisited (.reached m) hm⟩

/-- A call on an object of a subclass that overrides the method. -/
def sampleHierarchy : String :=
  "class A { method m() { } }
    class B extends A { method m() { } static method main()
      { x = new B; invokevirtual x.A::m(); } }"

theorem sampleHierarchy_typed :
    ∃ p, Program.ofText sampleHierarchy = .ok p ∧ p.Has (⟨2⟩ : MethodId) ∧
      ∃ x ∈ (p.solve .bySite ⟨2⟩).toOption, x.1.ReceiversTyped p.toDraft ∧
        x.1.calls.edges = [⟨.virtual, ⟨1⟩, ⟨1⟩⟩] :=
  Program.exists_ofText (by decide +kernel)

theorem sample_pointsTo_calls_subgraph :
    ∃ p r log g log', Program.ofText sampleHierarchy = .ok p ∧ p.solve .bySite ⟨2⟩ = .ok (r, log) ∧
      p.hierarchyCalls ⟨2⟩ = .ok (g, log') ∧ r.ReceiversTyped p.toDraft ∧
        r.calls.edges = [⟨.virtual, ⟨1⟩, ⟨1⟩⟩] ∧
      (∀ e ∈ r.calls.edges, e ∈ g.edges) ∧ ∀ m ∈ r.calls.reachable, m ∈ g.reachable := by
  obtain ⟨p, htext, hmain, ⟨r, log⟩, hsolve, htyped, hcalls⟩ := sampleHierarchy_typed
  have hsolve := toOption_eq_some_iff.1 hsolve
  obtain ⟨r', log', g, log'', hsolve', hsearch, hsub⟩ :=
    pointsTo_calls_subgraph htext (HeapModel.bySite_consistent _) hmain
  cases hsolve.symm.trans hsolve'
  exact ⟨p, r, log, g, log'', htext, hsolve, hsearch, htyped, hcalls, hsub htyped⟩

end PointsTo
