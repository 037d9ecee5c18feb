import PointsTo.Proofs.Moves
import PointsTo.Proofs.Programs

/-!
# Nothing without a warrant

A set of facts that is closed under the rules supports a state if it has all that the state shows,
all that is pending and all that is on its way (`Supported`). Moves keep the support, so every state
that a run reaches is supported by every closed set that has the given facts; the derivable facts
are the least of these sets. The facts `InScope` of a program are another one (`closed_inScope`).
-/

namespace PointsTo

namespace State

variable {κ : Type} [Ord κ] [Std.TransOrd κ]

/-- All of a state lies in a set of facts, and nothing in it dangles: every pointer has a place,
edges and entries are between pointers that exist, and every object is allocated by a reached
method. -/
structure Supported (d : Draft) (model : HeapModel κ) (S : Fact κ → Prop) (st : State κ) :
    Prop where
  reached : ∀ m, st.Due m → S (.reached m)
  called : ∀ e ∈ st.calls.edges, S (.called e)
  known : ∀ i q, st.pointers.pointer? i = some q → ∃ a, st.heap.place q = some a ∧ S (.known a)
  flows : ∀ i j, st.flow.hasEdge i j = true →
    ∃ a b, st.placeOf i = some a ∧ st.placeOf j = some b ∧ S (.flows a b)
  holds : ∀ i o, st.Arrives i o → ∃ a k, st.placeOf i = some a ∧ st.heap.keyOf o = some k ∧
    S (.holds a k)
  waiting : ∀ e ∈ st.worklist.toList, ∃ a, st.placeOf e.1 = some a
  objects : ∀ o k obj, st.heap.record? o = some (k, obj) → st.Allocated d model k obj

namespace Supported

variable {d : Draft} {model : HeapModel κ} {given S : Fact κ → Prop} {st st' : State κ}

theorem empty : Supported d model S ({} : State κ) where
  reached m hm := by
    rcases hm with hm | hm
    · exact absurd hm (List.not_mem_nil)
    · exact absurd hm (List.not_mem_nil)
  called e he := absurd he List.not_mem_nil
  known i q hi := by
    have hlt := PointerTable.pointer?_isSome_iff.1 ⟨q, hi⟩
    exact absurd hlt (Nat.not_lt_zero _)
  flows i j hij := by
    rw [← FlowGraph.mem_succs] at hij
    exact absurd hij List.not_mem_nil
  holds i o ho := by
    rcases ho with ho | ⟨objs, hmem, -⟩
    · obtain ⟨q, hi⟩ := PointerTable.pointer?_of_mem_pts ho
      have hlt := PointerTable.pointer?_isSome_iff.1 ⟨q, hi⟩
      exact absurd hlt (Nat.not_lt_zero _)
    · exact absurd hmem List.not_mem_nil
  waiting e he := absurd he List.not_mem_nil
  objects o k obj he := by
    have hlt := Heap.record?_isSome_iff.1 ⟨(k, obj), he⟩
    exact absurd hlt (Nat.not_lt_zero _)

section

variable (hst : Supported d model S st)

include hst

theorem of_placeOf {i : PointerId} {a : Place κ} (hi : st.placeOf i = some a) : S (.known a) := by
  obtain ⟨q, hq, ha⟩ := Option.bind_eq_some_iff.1 hi
  obtain ⟨a', ha', hS⟩ := hst.known i q hq
  cases ha.symm.trans ha'
  exact hS

theorem of_arrives {i : PointerId} {o : ObjId} {a : Place κ} {k : κ} (ho : st.Arrives i o)
    (hi : st.placeOf i = some a) (hk : st.heap.keyOf o = some k) : S (.holds a k) := by
  obtain ⟨a', k', ha, hk', hS⟩ := hst.holds i o ho
  cases hi.symm.trans ha
  cases hk.symm.trans hk'
  exact hS

theorem of_shows {f : Fact κ} (hf : st.Shows f) : S f := by
  cases f with
  | reached m => exact hst.reached m (.inl hf)
  | called e => exact hst.called e hf
  | known a =>
    obtain ⟨i, hi⟩ := hf
    exact hst.of_placeOf hi
  | flows a b =>
    obtain ⟨i, j, hi, hj, hij⟩ := hf
    obtain ⟨a', b', ha, hb, hS⟩ := hst.flows i j hij
    cases hi.symm.trans ha
    cases hj.symm.trans hb
    exact hS
  | holds a k =>
    obtain ⟨i, o, hi, ho, hk⟩ := hf
    exact hst.of_arrives (.inl ho) hi hk

theorem of_awaits {f : Fact κ} (hf : st.Awaits f) : S f := by
  cases f with
  | holds a k =>
    obtain ⟨i, objs, o, hi, hmem, ho, hk⟩ := hf
    exact hst.of_arrives (.inr ⟨objs, hmem, ho⟩) hi hk
  | reached | called | known | flows => exact hf.elim

theorem of_warrants (hS : Closed d model S) (hgiven : ∀ f, given f → S f) {f : Fact κ}
    (hf : st.Warrants d model given f) : S f :=
  hf.least hS fun g hg => hg.elim (hgiven g) hst.of_shows

/-- An entry that waits is for a pointer of the table. -/
theorem exists_get_of_waiting {i : PointerId} {objs : ObjSet}
    (he : (i, objs) ∈ st.worklist.toList) :
    ∃ q, st.pointers.pointer? i = some q ∧ st.pointers.get i = .ok (q, st.pointers.pts i) := by
  obtain ⟨a, ha⟩ := hst.waiting (i, objs) he
  obtain ⟨q, hq, -⟩ := Option.bind_eq_some_iff.1 ha
  exact ⟨q, hq, PointerTable.get_eq_ok_iff.2 ⟨hq, rfl⟩⟩

theorem hasType {o : ObjId} {k : κ} {obj : Obj} (ho : st.heap.record? o = some (k, obj)) :
    model.HasType d k obj.type := by
  obtain ⟨m, lhs, c, isArray, -, -, hstmt, htype, hk⟩ := hst.objects o k obj ho
  exact ⟨obj.site, ⟨lhs, c, isArray, hstmt, htype⟩, hk⟩

/-- The support of a larger state: only what is new has to be supported. -/
theorem extend (hle : Le st st') (reached : ∀ m, st'.Due m → st.Due m ∨ S (.reached m))
    (called : ∀ e ∈ st'.calls.edges, e ∈ st.calls.edges ∨ S (.called e))
    (known : ∀ i q, st'.pointers.pointer? i = some q → st.pointers.pointer? i = some q ∨
      ∃ a, st'.heap.place q = some a ∧ S (.known a))
    (flows : ∀ i j, st'.flow.hasEdge i j = true → st.flow.hasEdge i j = true ∨
      ∃ a b, st'.placeOf i = some a ∧ st'.placeOf j = some b ∧ S (.flows a b))
    (holds : ∀ i o, st'.Arrives i o → st.Arrives i o ∨ ∃ a k, st'.placeOf i = some a ∧
      st'.heap.keyOf o = some k ∧ S (.holds a k))
    (waiting : ∀ e ∈ st'.worklist.toList, e ∈ st.worklist.toList ∨ ∃ a, st'.placeOf e.1 = some a)
    (objects : ∀ o k obj, st'.heap.record? o = some (k, obj) → st.heap.record? o = some (k, obj) ∨
      st'.Allocated d model k obj) :
    Supported d model S st' where
  reached m hm := (reached m hm).elim (hst.reached m) id
  called e he := (called e he).elim (hst.called e) id
  known i q hi := by
    rcases known i q hi with hi | hnew
    · obtain ⟨a, ha, hS⟩ := hst.known i q hi
      exact ⟨a, hle.place ha, hS⟩
    · exact hnew
  flows i j hij := by
    rcases flows i j hij with hij | hnew
    · obtain ⟨a, b, ha, hb, hS⟩ := hst.flows i j hij
      exact ⟨a, b, hle.placeOf ha, hle.placeOf hb, hS⟩
    · exact hnew
  holds i o ho := by
    rcases holds i o ho with ho | hnew
    · obtain ⟨a, k, ha, hk, hS⟩ := hst.holds i o ho
      exact ⟨a, k, hle.placeOf ha, hle.keyOf hk, hS⟩
    · exact hnew
  waiting e he := by
    rcases waiting e he with he | hnew
    · obtain ⟨a, ha⟩ := hst.waiting e he
      exact ⟨a, hle.placeOf ha⟩
    · exact hnew
  objects o k obj he := by
    rcases objects o k obj he with he | hnew
    · exact hle.allocated (hst.objects o k obj he)
    · exact hnew

end

/-- Taking an entry moves facts from the work list into the solution. -/
theorem take (hS : Closed d model S) (hst : Supported d model S st) {n : Nat} (h : Take n st st') :
    Supported d model S st' := by
  have hle := h.le
  cases h with
  | idle hperm _ _ =>
    refine hst.extend hle (fun _ => .inl) (fun _ => .inl) (fun _ _ => .inl) (fun _ _ => .inl)
      (fun i o ho => ?_)
      (fun e he => .inl (hperm.mem_iff.2 (List.mem_cons_of_mem _ he))) (fun _ _ _ => .inl)
    exact .inl (ho.imp_right fun ⟨objs, hmem, ho⟩ =>
      ⟨objs, hperm.mem_iff.2 (List.mem_cons_of_mem _ hmem), ho⟩)
  | @grow _ i objs rest hperm hi _ =>
    have hentry : (i, objs) ∈ st.worklist.toList := hperm.mem_iff.2 (List.mem_cons_self ..)
    have hdelta : ∀ o ∈ objs \ st.pointers.pts i, st.Arrives i o := by
      intro o ho
      have hobjs : o ∈ objs := by simp at ho; exact ho.1
      exact .inr ⟨objs, hentry, hobjs⟩
    refine hst.extend hle (fun _ => .inl) (fun _ => .inl) (fun j q hj => .inl ?_) (fun _ _ => .inl)
      (fun j o ho => ?_) (fun e he => ?_) (fun _ _ _ => .inl)
    · rwa [State.grow, State.note, PointerTable.pointer?_absorb] at hj
    · rcases ho with ho | ⟨objs', hmem, ho⟩
      · rcases (mem_pts_grow hi).1 ho with ho | ⟨rfl, ho⟩
        · exact .inl (.inl ho)
        · exact .inl (hdelta o ho)
      · rcases mem_worklist_grow.1 hmem with hmem | ⟨hij, rfl⟩
        · exact .inl (.inr ⟨objs', hperm.mem_iff.2 (List.mem_cons_of_mem _ hmem), ho⟩)
        · -- what the pointer passes on follows along the edge
          obtain ⟨a, b, ha, hb, hflows⟩ := hst.flows i j hij
          obtain ⟨a', k, ha', hk, hholds⟩ := hst.holds i o (hdelta o ho)
          cases ha.symm.trans ha'
          exact .inr ⟨b, k, hle.placeOf hb, hle.keyOf hk, hS.flow hflows hholds⟩
    · rcases mem_worklist_grow.1 he with he | ⟨hij, -⟩
      · exact .inl (hperm.mem_iff.2 (List.mem_cons_of_mem _ he))
      · obtain ⟨a, b, -, hb, -⟩ := hst.flows i e.1 hij
        exact .inr ⟨b, hle.placeOf hb⟩

/-- An edge that the set has may be added, since the set is closed under flow along it. -/
theorem addEdge (hS : Closed d model S) (hst : Supported d model S st) {i j : PointerId}
    {a b : Place κ} (hle : Le st (st.addEdge i j)) (hi : st.placeOf i = some a)
    (hj : st.placeOf j = some b) (hflows : S (.flows a b)) :
    Supported d model S (st.addEdge i j) := by
  refine hst.extend hle (fun m hm => .inl ?_) (fun e he => .inl ?_) (fun i' q hq => .inl ?_)
    (fun i' j' hij => ?_) (fun i' o ho => ?_) (fun e he => ?_) (fun o k obj he => .inl ?_)
  · rwa [Due, calls_addEdge, pending_addEdge] at hm
  · rwa [calls_addEdge] at he
  · rwa [pointers_addEdge] at hq
  · rcases hasEdge_addEdge.1 hij with hij | ⟨rfl, rfl⟩
    · exact .inl hij
    · exact .inr ⟨a, b, hle.placeOf hi, hle.placeOf hj, hflows⟩
  · rw [Arrives, pointers_addEdge] at ho
    rcases ho with ho | ⟨objs, hmem, ho⟩
    · exact .inl (.inl ho)
    · rcases mem_worklist_addEdge.1 hmem with hmem | ⟨-, -, heq⟩
      · exact .inl (.inr ⟨objs, hmem, ho⟩)
      · cases heq
        obtain ⟨a', k, ha', hk, hholds⟩ := hst.holds i o (.inl ho)
        cases hi.symm.trans ha'
        exact .inr ⟨b, k, hle.placeOf hj, hle.keyOf hk, hS.flow hflows hholds⟩
  · rcases mem_worklist_addEdge.1 he with he | ⟨-, -, rfl⟩
    · exact .inl he
    · exact .inr ⟨b, hle.placeOf hj⟩
  · rwa [heap_addEdge] at he

/-- An object that the set has at a place may be sent there. -/
theorem push (hst : Supported d model S st) {i : PointerId} {o : ObjId} {a : Place κ} {k : κ}
    (hle : Le st { st with worklist := st.worklist.push (i, {o}) }) (hi : st.placeOf i = some a)
    (ho : st.heap.keyOf o = some k) (hholds : S (.holds a k)) :
    Supported d model S { st with worklist := st.worklist.push (i, {o}) } := by
  refine hst.extend hle (fun _ => .inl) (fun _ => .inl) (fun _ _ => .inl) (fun _ _ => .inl)
    (fun i' o' ho' => ?_) (fun e he => ?_) (fun _ _ _ => .inl)
  · rcases ho' with ho' | ⟨objs, hmem, ho'⟩
    · exact .inl (.inl ho')
    · rw [Queue.toList_push, List.mem_append, List.mem_singleton] at hmem
      rcases hmem with hmem | heq
      · exact .inl (.inr ⟨objs, hmem, ho'⟩)
      · cases heq
        rw [IdSet.mem_singleton] at ho'
        subst ho'
        exact .inr ⟨a, k, hi, ho, hholds⟩
  · rw [Queue.toList_push, List.mem_append, List.mem_singleton] at he
    rcases he with he | rfl
    · exact .inl he
    · exact .inr ⟨a, hi⟩

variable [Std.LawfulEqOrd κ]

theorem move (hS : Closed d model S) (hgiven : ∀ f, given f → S f) (hst : Supported d model S st)
    {n : Int} (h : Move d model given n st st') : Supported d model S st' := by
  have hle := h.le
  cases h with
  | note _ => exact { hst with }
  | @entry _ m hm =>
    refine hst.extend hle (fun m' hm' => ?_) (fun e he => .inl ?_) (fun _ _ => .inl)
      (fun _ _ => .inl) (fun _ _ => .inl) (fun _ => .inl) (fun _ _ _ => .inl)
    · rw [Due, CallGraph.reachable_addEntry, List.mem_cons] at hm'
      rcases hm' with hm' | rfl | hm'
      · exact .inl (.inl hm')
      · exact .inr (hgiven _ hm)
      · exact .inl (.inr hm')
    · rwa [CallGraph.edges_addEntry] at he
  | skip hpending _ =>
    refine hst.extend hle (fun m' hm' => .inl ?_) (fun _ => .inl) (fun _ _ => .inl)
      (fun _ _ => .inl) (fun _ _ => .inl) (fun _ => .inl) (fun _ _ _ => .inl)
    exact hm'.imp_right fun hm' => hpending ▸ List.mem_cons_of_mem _ hm'
  | reach hpending _ _ =>
    refine hst.extend hle (fun m' hm' => .inl ?_) (fun _ => .inl) (fun _ _ => .inl)
      (fun _ _ => .inl) (fun _ _ => .inl) (fun _ => .inl) (fun _ _ _ => .inl)
    rcases hm' with hm' | hm'
    · rcases CallGraph.mem_reachable_addReachable.1 hm' with hm' | rfl
      · exact .inl hm'
      · exact .inr (hpending ▸ List.mem_cons_self ..)
    · exact .inr (hpending ▸ List.mem_cons_of_mem _ hm')
  | @call _ e he _ =>
    have hcalled : S (.called e) := hst.of_warrants hS hgiven he
    refine hst.extend hle (fun m' hm' => ?_) (fun e' he' => ?_) (fun _ _ => .inl) (fun _ _ => .inl)
      (fun _ _ => .inl) (fun _ => .inl) (fun _ _ _ => .inl)
    · rw [Due, addCall, CallGraph.reachable_addEdge, List.mem_cons] at hm'
      rcases hm' with hm' | rfl | hm'
      · exact .inl (.inl hm')
      · exact .inr (hS.one .reach hcalled)
      · exact .inl (.inr hm')
    · rcases CallGraph.mem_edges_addEdge.1 he' with he' | ⟨rfl, -⟩
      · exact .inl he'
      · exact .inr hcalled
  | @alloc _ k obj hobj =>
    refine hst.extend hle (fun _ => .inl) (fun _ => .inl) (fun _ _ => .inl) (fun _ _ => .inl)
      (fun _ _ => .inl) (fun _ => .inl) (fun o k' obj' he => ?_)
    rcases Heap.record?_of_intern he with he | heq
    · exact .inl he
    · cases heq
      exact .inr hobj
  | @know _ q a hq ha =>
    refine hst.extend hle (fun _ => .inl) (fun _ => .inl) (fun i q' hi => ?_) (fun _ _ => .inl)
      (fun i o ho => .inl ?_) (fun _ => .inl) (fun _ _ _ => .inl)
    · rcases PointerTable.pointer?_of_intern hi with hi | ⟨-, rfl⟩
      · exact .inl hi
      · exact .inr ⟨a, hq, hst.of_warrants hS hgiven ha⟩
    · rwa [Arrives, intern, PointerTable.pts_intern] at ho
  | edge hi hj hab => exact hst.addEdge hS hle hi hj (hst.of_warrants hS hgiven hab)
  | push hi ho hholds => exact hst.push hle hi ho (hst.of_warrants hS hgiven hholds)

theorem moves (hS : Closed d model S) (hgiven : ∀ f, given f → S f) (hst : Supported d model S st)
    {n : Int} (h : Moves d model given n st st') : Supported d model S st' := by
  induction h with
  | refl => exact hst
  | head hmove _ _ ih => exact ih (hst.move hS hgiven hmove)

end Supported

end State

/-! ## Facts of a program -/

section Scope

variable {κ : Type} {d : Draft} {model : HeapModel κ}

/-- A place that a program has. -/
def Place.InScope (d : Draft) : Place κ → Prop
  | .var v => d.Has v
  | .static f => d.Has f ∧ d.isStaticField f = true
  | .field _ f => d.Has f ∧ d.isStaticField f = false

/-- A fact about places, methods and calls that a program has. -/
def Fact.InScope (d : Draft) : Fact κ → Prop
  | .reached m => d.Has m
  | .called e => ∃ c, d.IsCall c ∧ c.edge = e
  | .known a => a.InScope d
  | .flows a b => a.InScope d ∧ b.InScope d
  | .holds a _ => a.InScope d

namespace Draft.InRange

variable (h : d.InRange)

include h

theorem has_var {s : StmtId} {stmt : Stmt} {v : VarId} (hs : d.HasStmt s stmt)
    (hv : v ∈ stmt.vars) :
    d.Has v :=
  (h.within_of_hasStmt hs).vars v hv

theorem has_field {s : StmtId} {stmt : Stmt} {ref : FieldRef} {f : FieldId} {isStatic : Bool}
    (hs : d.HasStmt s stmt) (href : ref.cls ∈ stmt.classes) (hf : d.Accesses ref f isStatic) :
    d.Has f ∧ d.isStaticField f = isStatic := by
  obtain ⟨r, hr, hhas⟩ := h.exists_resolveField ((h.within_of_hasStmt hs).classes _ href)
  exact ⟨hhas f (Except.ok.inj (hr.symm.trans hf.1)), hf.2⟩

theorem exists_method_of_callee {receiver : Option ClassId} {s : StmtId} {call : Invoke}
    {m : MethodId} (hs : d.HasStmt s (.invoke call)) (hreceiver : ∀ c ∈ receiver, d.Has c)
    (hm : d.callee receiver call = .ok (some m)) : ∃ method, d.method m = .ok method := by
  obtain ⟨r, hr, hhas⟩ :=
    h.exists_callee hreceiver ((h.within_of_hasStmt hs).classes _ (List.mem_singleton.2 rfl))
  exact exists_method_iff.2 (hhas m (Except.ok.inj (hr.symm.trans hm)))

theorem isCall_of_callee {receiver : Option ClassId} {s : StmtId} {call : Invoke} {m : MethodId}
    (hs : d.HasStmt s (.invoke call)) (hreceiver : ∀ c ∈ receiver, d.Has c)
    (hm : d.callee receiver call = .ok (some m)) :
    ∃ c, d.IsCall c ∧ c.edge = ⟨call.kind, s, m⟩ := by
  obtain ⟨method, hmethod⟩ := h.exists_method_of_callee hs hreceiver hm
  exact ⟨_, isCall_of_resolveCall hs (resolveCall_eq_ok_iff.2 ⟨m, method, hm, hmethod, rfl⟩), rfl⟩

theorem has_dispatchClass {k : κ} {type : ObjType} (htype : model.HasType d k type) :
    ∀ c ∈ type.dispatchClass?, d.Has c := by
  obtain ⟨s, ⟨lhs, c, isArray, hs, rfl⟩, -⟩ := htype
  intro c' hc'
  have hc : c' = c := by
    cases isArray with
    | true => cases hc'
    | false => exact (Option.some.inj hc').symm
  exact hc ▸ (h.within_of_hasStmt hs).classes c (List.mem_singleton.2 rfl)

/-- What follows from facts of a program is a fact of the program. -/
theorem closed_inScope : Closed d model (Fact.InScope d) := by
  intro premises f hrule hpremises
  cases hrule with
  | new _ hs _ => exact h.has_var hs (by simp [Stmt.vars])
  | copy _ hs => exact ⟨h.has_var hs (by simp [Stmt.vars]), h.has_var hs (by simp [Stmt.vars])⟩
  | loadStatic _ hs hf =>
    exact ⟨h.has_field hs (List.mem_singleton.2 rfl) hf, h.has_var hs (by simp [Stmt.vars])⟩
  | storeStatic _ hs hf =>
    exact ⟨h.has_var hs (by simp [Stmt.vars]), h.has_field hs (List.mem_singleton.2 rfl) hf⟩
  | enter _ hs _ hm => exact h.isCall_of_callee hs (fun c hc => by cases hc) hm
  | store hs hf =>
    exact ⟨h.has_var hs (by simp [Stmt.vars]), h.has_field hs (List.mem_singleton.2 rfl) hf⟩
  | load hs hf =>
    exact ⟨h.has_field hs (List.mem_singleton.2 rfl) hf, h.has_var hs (by simp [Stmt.vars])⟩
  | storeArray hs => exact ⟨h.has_var hs (by simp [Stmt.vars]), h.has_var hs (by simp [Stmt.vars])⟩
  | loadArray hs => exact ⟨h.has_var hs (by simp [Stmt.vars]), h.has_var hs (by simp [Stmt.vars])⟩
  | dispatch hs _ htype hm => exact h.isCall_of_callee hs (h.has_dispatchClass htype) hm
  | receive _ _ _ _ hmethod hthis => exact (h.within_of_method hmethod).this _ hthis
  | reach =>
    obtain ⟨c, hc, rfl⟩ := hpremises _ (List.mem_singleton.2 rfl)
    exact hc.has_callee
  | pass hs hmethod hmem =>
    obtain ⟨harg, hparam⟩ := List.of_mem_zip hmem
    exact ⟨h.has_var hs (by simp [Stmt.vars, Invoke.vars, harg]),
      (h.within_of_method hmethod).params _ hparam⟩
  | ret hs hmethod hv hlhs =>
    exact ⟨(h.within_of_method hmethod).returns _ hv,
      h.has_var hs (by simp [Stmt.vars, Invoke.vars, hlhs])⟩
  | result hs hlhs => exact h.has_var hs (by simp [Stmt.vars, Invoke.vars, hlhs])
  | flow => exact (hpremises _ (List.mem_cons_self ..)).2
  | source => exact (hpremises _ (List.mem_singleton.2 rfl)).1
  | target => exact (hpremises _ (List.mem_singleton.2 rfl)).2
  | @holder a k => exact hpremises (.holds a k) (List.mem_singleton.2 rfl)

end Draft.InRange

end Scope

end PointsTo
