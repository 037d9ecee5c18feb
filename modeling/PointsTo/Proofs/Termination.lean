import Mathlib.Data.Finset.Prod
import Mathlib.Data.List.ProdSigma
import PointsTo.Proofs.Closure

/-!
# Termination

The objects of a state are not more than the statements of the program (`Supported.heap_size_le`),
and its pointers are not more than `pointerBound`. So there is a finite number of edges, of
statements of unreached methods, and of pairs of a pointer and an object that a state may still get
(`potential`), and each entry of the work list that is handled uses up more of them than it brings
new entries (`Run.potential_lt`). The bound that `drain` computes is therefore never reached
(`Run.drain`).
-/

namespace PointsTo

/-! ## The size of the tables -/

/-- The pointers that an analysis of a program may ask for. -/
def Draft.pointerUniverse (d : Draft) : List Pointer :=
  (Id.upTo .var d.vars.size).map .var ++ (Id.upTo .field d.fields.size).map .static ++
    (Id.upTo .obj d.stmts.size ×ˢ Id.upTo .field d.fields.size).map fun x => .field x.1 x.2

theorem Draft.length_pointerUniverse_le (d : Draft) :
    d.pointerUniverse.length ≤ d.pointerBound := by
  simp only [pointerUniverse, Id.upTo, List.length_append, List.length_map, List.length_range,
    List.length_product, pointerBound]
  omega

namespace State

variable {κ : Type} [Ord κ] [Std.TransOrd κ] {d : Draft} {model : HeapModel κ} {S : Fact κ → Prop}
  {st st' : State κ}

/-- Objects have different allocation statements, since the key depends on the statement alone. -/
theorem Supported.heap_size_le (hst : st.Supported d model S) : st.heap.size ≤ d.stmts.size := by
  have hobj : ∀ e ∈ st.heap.objs.toList, st.Allocated d model e.1 e.2 := by
    intro e he
    obtain ⟨i, hi⟩ := Catalog.mem_toList_iff.1 he
    exact hst.objects ⟨i⟩ e.1 e.2 hi
  have hnodup : (st.heap.objs.toList.map fun e => e.2.site).Nodup := by
    refine List.Nodup.map_on ?_ (List.Nodup.of_map _ (Catalog.nodup_map_key st.heap.objs))
    rintro ⟨k, obj⟩ he ⟨k', obj'⟩ he' hsite
    obtain ⟨m, lhs, c, isArray, -, -, hs, htype, hk⟩ := hobj _ he
    obtain ⟨m', lhs', c', isArray', -, -, hs', htype', hk'⟩ := hobj _ he'
    dsimp only at hsite hs hs' htype htype' hk hk'
    rw [← hsite] at hs' hk'
    cases hs.unique hs'
    rw [htype'] at hk'
    rw [htype] at hk
    cases hk.symm.trans hk'
    obtain ⟨site, type⟩ := obj
    obtain ⟨site', type'⟩ := obj'
    cases hsite
    cases htype
    cases htype'
    rfl
  have hsub : (st.heap.objs.toList.map fun e => e.2.site) ⊆ Id.upTo .stmt d.stmts.size := by
    intro s hs
    obtain ⟨e, he, rfl⟩ := List.mem_map.1 hs
    obtain ⟨m, lhs, c, isArray, -, -, ⟨x, hx, -⟩, -⟩ := hobj e he
    exact Id.mem_upTo.2 (Draft.exists_placed_iff.1 ⟨x, hx⟩)
  have hle := (hnodup.subperm hsub).length_le
  simpa [Id.upTo, Heap.size, Catalog.size, Catalog.toList] using hle

theorem Supported.pointers_size_le (hst : st.Supported d model (Fact.InScope d)) :
    st.pointers.size ≤ d.pointerBound := by
  have hsub : st.pointers.pointers ⊆ d.pointerUniverse := by
    intro q hq
    obtain ⟨i, hi⟩ := List.mem_iff_getElem?.1 hq
    have hi' : st.pointers.pointer? ⟨i⟩ = some q := by rw [← PointerTable.getElem?_pointers, hi]
    obtain ⟨a, ha, hscope⟩ := hst.known ⟨i⟩ q hi'
    rw [Draft.pointerUniverse, List.mem_append, List.mem_append]
    cases q with
    | var v =>
      cases ha
      exact .inl (.inl (List.mem_map.2 ⟨v, Id.mem_upTo.2 hscope, rfl⟩))
    | static f =>
      cases ha
      exact .inl (.inr (List.mem_map.2 ⟨f, Id.mem_upTo.2 hscope.1, rfl⟩))
    | field o f =>
      obtain ⟨k, hk, rfl⟩ := Option.map_eq_some_iff.1 ha
      have ho : o.index < st.heap.size := Heap.keyOf_isSome_iff.1 ⟨k, hk⟩
      exact .inr (List.mem_map.2 ⟨(o, f), List.mem_product.2
        ⟨Id.mem_upTo.2 (ho.trans_le hst.heap_size_le), Id.mem_upTo.2 hscope.1⟩, rfl⟩)
  have hle := ((Catalog.nodup_map_key st.pointers.entries).subperm hsub).length_le
  rw [List.length_map, Catalog.toList, Array.length_toList] at hle
  exact hle.trans d.length_pointerUniverse_le

end State

/-! ## What is left to do -/

theorem card_filter_add_card_le {α : Type} [DecidableEq α] {s t : Finset α} {P Q : α → Prop}
    [DecidablePred P] [DecidablePred Q] (hQ : ∀ a ∈ s, Q a → P a)
    (ht : ∀ a ∈ t, a ∈ s ∧ P a ∧ ¬ Q a) : (s.filter Q).card + t.card ≤ (s.filter P).card := by
  have hdisj : Disjoint (s.filter Q) t := by
    rw [Finset.disjoint_left]
    intro a ha hat
    exact (ht a hat).2.2 (Finset.mem_filter.1 ha).2
  rw [← Finset.card_union_of_disjoint hdisj]
  refine Finset.card_le_card fun a ha => ?_
  rcases Finset.mem_union.1 ha with ha | ha
  · obtain ⟨hs, hq⟩ := Finset.mem_filter.1 ha
    exact Finset.mem_filter.2 ⟨hs, hQ a hs hq⟩
  · exact Finset.mem_filter.2 ⟨(ht a ha).1, (ht a ha).2.1⟩

/-- The statements of the methods outside a list. -/
def Draft.sitesBeyond (d : Draft) (ms : List MethodId) : Finset Nat :=
  (Finset.range d.stmts.size).filter fun s => ∀ x ∈ d.stmts[s]?, x.method ∉ ms

/-- A method that joins the list takes all its statements with it. -/
theorem Draft.card_sitesBeyond_le {d : Draft} (hfiled : d.Filed) (hd : d.InRange) {m : MethodId}
    {method : Method} {ms ms' : List MethodId} (hmethod : d.method m = .ok method) (hm : m ∉ ms)
    (hms : ∀ m', m' ∈ ms' ↔ m' ∈ ms ∨ m' = m) :
    (d.sitesBeyond ms').card + method.stmts.size ≤ (d.sitesBeyond ms).card := by
  have hcard : (method.stmts.toList.map Id.index).toFinset.card = method.stmts.size := by
    rw [List.toFinset_card_of_nodup, List.length_map, Array.length_toList]
    exact (hfiled.nodup_stmts hmethod).map fun a b hab => Id.ext_index hab
  rw [← hcard]
  refine card_filter_add_card_le (fun s _ hs x hx hmem => ?_) fun s hs => ?_
  · exact hs x hx ((hms _).2 (.inl hmem))
  · obtain ⟨s, hmem, rfl⟩ := List.mem_map.1 (List.mem_toFinset.1 hs)
    have hbody : d.InBody m s := ⟨method, hmethod, hmem⟩
    obtain ⟨x, hx⟩ := Draft.exists_placed_iff.2 (hd.has_of_inBody hbody)
    have hxm := hfiled.method_of_inBody hbody hx
    rw [Draft.placed, fetch_eq_ok_iff] at hx
    refine ⟨Finset.mem_range.2 (hd.has_of_inBody hbody), fun x' hx' => ?_, fun hall => ?_⟩
    · cases hx.symm.trans hx'
      rwa [hxm]
    · exact hall x hx ((hms _).2 (.inr hxm))

theorem Draft.card_sitesBeyond_le_size (d : Draft) (ms : List MethodId) :
    (d.sitesBeyond ms).card ≤ d.stmts.size := by
  refine (Finset.card_filter_le _ _).trans ?_
  rw [Finset.card_range]

namespace State

variable {κ : Type} [Ord κ] [Std.TransOrd κ]

/-- The edges that may still be added. -/
def edgeRoom (d : Draft) (st : State κ) : Finset (Nat × Nat) :=
  (Finset.range d.pointerBound ×ˢ Finset.range d.pointerBound).filter
    fun x => st.flow.hasEdge ⟨x.1⟩ ⟨x.2⟩ = false

/-- The statements of methods that may still be reached. -/
def stmtRoom (d : Draft) (st : State κ) : Finset Nat := d.sitesBeyond st.calls.reachable

/-- The pairs of a pointer and an object that it may still get. -/
def holdRoom (d : Draft) (st : State κ) : Finset (Nat × Nat) :=
  (Finset.range d.pointerBound ×ˢ Finset.range d.stmts.size).filter
    fun x => ⟨x.2⟩ ∉ st.pointers.pts ⟨x.1⟩

/-- The entries of the work list, and those that edges and allocations may still bring. -/
def work (d : Draft) (st : State κ) : Nat :=
  st.worklist.length + (st.edgeRoom d).card + (st.stmtRoom d).card

/-- All entries that may still have to be handled: besides these, each new object of a pointer is
passed on along all its edges, and received by all calls on it. -/
def potential (d : Draft) (st : State κ) : Nat :=
  st.work d + (d.pointerBound + d.stmts.size) * (st.holdRoom d).card

theorem potential_le (d : Draft) (st : State κ) :
    st.potential d ≤ st.worklist.length + d.workBound := by
  have hedge : (st.edgeRoom d).card ≤ d.pointerBound * d.pointerBound := by
    refine (Finset.card_filter_le _ _).trans ?_
    rw [Finset.card_product, Finset.card_range]
  have hstmt : (st.stmtRoom d).card ≤ d.stmts.size := d.card_sitesBeyond_le_size _
  have hhold : (st.holdRoom d).card ≤ d.pointerBound * d.stmts.size := by
    refine (Finset.card_filter_le _ _).trans ?_
    rw [Finset.card_product, Finset.card_range, Finset.card_range]
  have hmul := Nat.mul_le_mul_left (d.pointerBound + d.stmts.size) hhold
  rw [potential, work, Draft.workBound]
  omega

section Cost

variable {d : Draft} {model : HeapModel κ} {given : Fact κ → Prop} {st st' : State κ}

theorem placeOf_lt {i : PointerId} {a : Place κ} (hi : st.placeOf i = some a) :
    i.index < st.pointers.size := by
  obtain ⟨q, hq, -⟩ := Option.bind_eq_some_iff.1 hi
  exact PointerTable.pointer?_isSome_iff.1 ⟨q, hq⟩

theorem work_addEdge_le {i j : PointerId} (hi : i.index < d.pointerBound)
    (hj : j.index < d.pointerBound) : (st.addEdge i j).work d ≤ st.work d := by
  by_cases hij : st.flow.hasEdge i j = true
  · rw [addEdge, if_pos hij]
  · have hroom : ((st.addEdge i j).edgeRoom d).card +
        ({(i.index, j.index)} : Finset (Nat × Nat)).card ≤ (st.edgeRoom d).card := by
      refine card_filter_add_card_le (fun x _ hx => ?_) fun x hx => ?_
      · by_contra hedge
        rw [Bool.not_eq_false] at hedge
        rw [hasEdge_addEdge.2 (.inl hedge)] at hx
        cases hx
      · cases Finset.mem_singleton.1 hx
        have hnew : (st.addEdge i j).flow.hasEdge ⟨i.index⟩ ⟨j.index⟩ = true :=
          hasEdge_addEdge.2 (.inr ⟨rfl, rfl⟩)
        refine ⟨Finset.mem_product.2 ⟨Finset.mem_range.2 hi, Finset.mem_range.2 hj⟩, by
          simpa using hij, ?_⟩
        rw [hnew]
        exact Bool.noConfusion
    have hlength : (st.addEdge i j).worklist.length ≤ st.worklist.length + 1 := by
      rw [addEdge, if_neg hij]
      dsimp only
      split
      · omega
      · rw [← Queue.length_toList, Queue.toList_push, List.length_append, Queue.length_toList]
        exact Nat.le_refl _
    have hstmt : (st.addEdge i j).stmtRoom d = st.stmtRoom d := by
      rw [stmtRoom, calls_addEdge, stmtRoom]
    rw [Finset.card_singleton] at hroom
    rw [work, work, hstmt]
    omega

/-- A method that is reached uses up all its statements. -/
theorem work_reach_le {m : MethodId} {method : Method} {rest : List MethodId} (hfiled : d.Filed)
    (hd : d.InRange) (hm : m ∉ st.calls.reachable) (hmethod : d.method m = .ok method) :
    ({ st with pending := rest }.reach m).work d + method.stmts.size ≤ st.work d := by
  have hroom : (({ st with pending := rest }.reach m).stmtRoom d).card + method.stmts.size ≤
      (st.stmtRoom d).card :=
    Draft.card_sitesBeyond_le hfiled hd hmethod hm fun m' => CallGraph.mem_reachable_addReachable
  have hedge : ({ st with pending := rest }.reach m).edgeRoom d = st.edgeRoom d := rfl
  have hlength : ({ st with pending := rest }.reach m).worklist = st.worklist := rfl
  rw [work, work, hedge, hlength]
  omega

variable [Std.LawfulEqOrd κ]

omit [Std.LawfulEqOrd κ] in
theorem work_eq {n : Nat} (hflow : st'.flow = st.flow)
    (hcalls : st'.calls.reachable = st.calls.reachable)
    (hlength : st'.worklist.length = st.worklist.length + n) : st'.work d = st.work d + n := by
  rw [work, work, edgeRoom, edgeRoom, stmtRoom, stmtRoom, hflow, hcalls, hlength]
  omega

/-- Moves use up what they cost. -/
theorem Move.work_le {n : Int} (hfiled : d.Filed) (hd : d.InRange)
    (hst : st.Supported d model (Fact.InScope d)) (h : Move d model given n st st') :
    (st'.work d : Int) ≤ st.work d + n := by
  have hfree : st'.flow = st.flow → st'.calls.reachable = st.calls.reachable →
      st'.worklist = st.worklist →
      st'.work d = st.work d :=
        fun hflow hcalls hlist => work_eq (n := 0) hflow hcalls (by rw [hlist]; rfl)
  cases h with
  | entry _ => rw [hfree rfl (CallGraph.reachable_addEntry _ _) rfl, Int.add_zero]
  | call _ _ => rw [hfree rfl (CallGraph.reachable_addEdge _ _) rfl, Int.add_zero]
  | @reach _ m rest method _ hm hmethod =>
    have hwork : ({ st with pending := rest }.reach m).work d + method.stmts.size ≤ st.work d :=
      work_reach_le hfiled hd hm hmethod
    omega
  | @edge _ i j a b hi hj _ =>
    have hbound := hst.pointers_size_le
    have hwork : (st.addEdge i j).work d ≤ st.work d :=
      work_addEdge_le ((placeOf_lt hi).trans_le hbound) ((placeOf_lt hj).trans_le hbound)
    omega
  | push _ _ _ =>
    refine Int.le_of_eq (congrArg Nat.cast (work_eq (n := 1) rfl rfl ?_))
    rw [← Queue.length_toList, Queue.toList_push, List.length_append, Queue.length_toList]
    rfl
  | note | skip | alloc | know => rw [hfree rfl rfl rfl, Int.add_zero]

theorem Moves.work_le {n : Int} (hfiled : d.Filed) (hd : d.InRange)
    (hgiven : ∀ f, given f → Fact.InScope d f) (hst : st.Supported d model (Fact.InScope d))
    (h : Moves d model given n st st') : (st'.work d : Int) ≤ st.work d + n := by
  induction h with
  | refl hn => omega
  | head hmove _ hcost ih =>
    have hfirst := hmove.work_le hfiled hd hst
    have hrest := ih (hst.move hd.closed_inScope hgiven hmove)
    omega

omit [Std.LawfulEqOrd κ] in
theorem length_succs_le (hst : st.Supported d model (Fact.InScope d)) (i : PointerId) :
    (st.flow.succs i).length ≤ d.pointerBound := by
  have hsub : st.flow.succs i ⊆ Id.upTo .pointer d.pointerBound := by
    intro j hj
    obtain ⟨a, b, -, hb, -⟩ := hst.flows i j (FlowGraph.mem_succs.1 hj)
    exact Id.mem_upTo.2 ((placeOf_lt hb).trans_le hst.pointers_size_le)
  have hle := ((FlowGraph.nodup_succs st.flow i).subperm hsub).length_le
  rwa [Id.upTo, List.length_map, List.length_range] at hle

omit [Std.LawfulEqOrd κ] in
/-- A pointer that gets new objects uses up as many pairs. -/
theorem card_holdRoom_grow_le {i : PointerId} {delta : ObjSet}
    (hst : st.Supported d model (Fact.InScope d)) (hi : i.index < st.pointers.size)
    (rest : Worklist) (harrives : ∀ o ∈ delta, st.Arrives i o)
    (hnew : ∀ o ∈ delta, o ∉ st.pointers.pts i) :
    (({ st with worklist := rest, pops := st.pops + 1 }.grow i delta).holdRoom d).card +
      delta.size ≤ (st.holdRoom d).card := by
  have hcard : (delta.toList.map fun o => (i.index, o.index)).toFinset.card = delta.size := by
    rw [List.toFinset_card_of_nodup, List.length_map, Std.ExtTreeSet.length_toList]
    exact (IdSet.nodup_toList delta).map fun a b hab => Id.ext_index (Prod.ext_iff.1 hab).2
  rw [← hcard]
  refine card_filter_add_card_le (fun x _ hx hmem => ?_) fun x hx => ?_
  · exact hx ((mem_pts_grow hi).2 (.inl hmem))
  · obtain ⟨o, ho, rfl⟩ := List.mem_map.1 (List.mem_toFinset.1 hx)
    rw [Std.ExtTreeSet.mem_toList] at ho
    obtain ⟨a, k, -, hk, -⟩ := hst.holds i o (harrives o ho)
    have hobj : o.index < d.stmts.size :=
      (Heap.keyOf_isSome_iff.1 ⟨k, hk⟩).trans_le hst.heap_size_le
    refine ⟨?_, hnew o ho, fun hnot => hnot ((mem_pts_grow hi).2 (.inr ⟨rfl, ho⟩))⟩
    exact Finset.mem_product.2 ⟨Finset.mem_range.2 (hi.trans_le hst.pointers_size_le),
      Finset.mem_range.2 hobj⟩

omit [Std.LawfulEqOrd κ] in
/-- An entry that is taken makes room for what handling its new objects costs. -/
theorem Take.potential_lt {n : Nat} (hst : st.Supported d model (Fact.InScope d))
    (h : Take n st st') : st'.potential d + n * d.stmts.size < st.potential d := by
  cases h with
  | @idle _ i objs rest hperm hi _ =>
    have hlength : st.worklist.length = rest.length + 1 := by
      rw [← Queue.length_toList, hperm.length_eq, List.length_cons, Queue.length_toList]
    have hwork : st.work d = State.work d
        { st with worklist := rest, pops := st.pops + 1, idle := st.idle + 1 } + 1 :=
      work_eq rfl rfl hlength
    have hhold : holdRoom d { st with worklist := rest, pops := st.pops + 1, idle := st.idle + 1 } =
        st.holdRoom d :=
      rfl
    rw [potential, potential, hhold, hwork]
    omega
  | @grow _ i objs rest hperm hi hnew =>
    have hlength : st.worklist.length = rest.length + 1 := by
      rw [← Queue.length_toList, hperm.length_eq, List.length_cons, Queue.length_toList]
    have hentry : (i, objs) ∈ st.worklist.toList := hperm.mem_iff.2 (List.mem_cons_self ..)
    have hdelta : ∀ o ∈ objs \ st.pointers.pts i, o ∈ objs ∧ o ∉ st.pointers.pts i :=
      fun o ho => by simpa using ho
    have hroom :=
      card_holdRoom_grow_le hst hi rest (fun o ho => .inr ⟨objs, hentry, (hdelta o ho).1⟩)
      fun o ho => (hdelta o ho).2
    have hsuccs := length_succs_le hst i
    have hpos := IdSet.size_pos hnew
    generalize objs \ st.pointers.pts i = delta at hroom hpos ⊢
    have hwork : State.work d ({ st with worklist := rest, pops := st.pops + 1 }.grow i delta) + 1 =
        st.work d + (st.flow.succs i).length := by
      have hgrown : ({ st with worklist := rest, pops :=
          st.pops + 1 }.grow i delta).worklist.length = rest.length + (st.flow.succs i).length := by
        show (rest.pushAll ((st.flow.succs i).map (·, delta))).length = _
        rw [← Queue.length_toList, Queue.toList_pushAll, List.length_append, List.length_map,
          Queue.length_toList]
      have hrest : st.work d = State.work d { st with worklist := rest } + 1 :=
        work_eq rfl rfl hlength
      have hgrow : State.work d ({ st with worklist := rest, pops := st.pops + 1 }.grow i delta) =
          State.work d { st with worklist := rest } + (st.flow.succs i).length :=
            work_eq rfl rfl hgrown
      omega
    rw [potential, potential]
    have hmul := Nat.mul_le_mul_left (d.pointerBound + d.stmts.size) hroom
    have hbound := Nat.le_mul_of_pos_right d.pointerBound hpos
    rw [Nat.mul_add, Nat.add_mul _ _ delta.size, Nat.mul_comm d.stmts.size delta.size] at hmul
    omega

end Cost

/-! ## Draining the work list -/

section Drain

variable [Std.LawfulEqOrd κ] {model : HeapModel κ} {p : Program} {facts : List (Fact κ)}
  {st st' : State κ} (hp : p.Proper)

include hp

/-- Every entry that is handled lowers the potential. -/
theorem Run.potential_lt (h : Run model p facts st) {older newer : List (PointerId × ObjSet)}
    {e : PointerId × ObjSet} {rest : Worklist} (hlist : st.worklist.toList = older ++ e :: newer)
    (hrest : rest.toList = older ++ newer)
    (hok : State.process model p { st with worklist := rest } e = .ok st') :
    st'.potential p.toDraft < st.potential p.toDraft := by
  obtain ⟨hrests, hfacts, -⟩ := h.spec hp
  have hscope : ∀ f ∈ facts, Fact.InScope p.toDraft f := fun f hf => (hfacts f hf).1
  obtain ⟨n, mid, st₁, hok₁, htake, hmoves, -⟩ :=
    process_spec hp hscope hrests (perm_of_taken hlist hrest)
  cases hok₁.symm.trans hok
  have hsupported := hrests.supported.take hp.inRange.closed_inScope htake
  have hlt := htake.potential_lt hrests.supported
  have hwork := hmoves.work_le hp.built.filed hp.inRange hscope hsupported
  have hhold : st'.holdRoom p.toDraft = mid.holdRoom p.toDraft := by
    simp only [holdRoom, hmoves.pts_eq]
  rw [potential, hhold]
  rw [potential] at hlt
  omega

/-- Handling some entries of any state of a run returns. None is left if there were not too many. -/
theorem Run.drainWithin (n : Nat) (h : Run model p facts st) :
    ∃ st', State.drainWithin model p n st = .ok st' ∧ Run model p facts st' ∧
      (st.potential p.toDraft ≤ n → st'.worklist.toList = []) := by
  induction n generalizing st with
  | zero =>
    refine ⟨st, rfl, h, fun hn => List.eq_nil_of_length_eq_zero ?_⟩
    rw [potential, work] at hn
    rw [Queue.length_toList]
    omega
  | succ n ih =>
    rw [State.drainWithin]
    split <;> rename_i hpop
    · exact ⟨st, rfl, h, fun _ => Queue.pop?_eq_none_iff.1 hpop⟩
    · rename_i e rest
      have hlist : st.worklist.toList = [] ++ e :: rest.toList := Queue.toList_eq_cons_of_pop? hpop
      obtain ⟨st₁, hok, hrun₁⟩ := h.exists_take hp hlist rfl
      have hlt := h.potential_lt hp hlist rfl hok
      obtain ⟨st', hok', hrun, hdone⟩ := ih hrun₁
      refine ⟨st', ?_, hrun, fun hn => hdone (by omega)⟩
      rw [hok]
      exact hok'

/-- Draining any state of a run returns, with an empty work list. -/
theorem Run.drain (h : Run model p facts st) :
    ∃ st', State.drain model p st = .ok st' ∧ Run model p facts st' ∧ st'.worklist.toList = [] := by
  obtain ⟨st', hok, hrun, hdone⟩ := h.drainWithin hp (st.worklist.length + p.workBound)
  exact ⟨st', hok, hrun, hdone (potential_le _ _)⟩

variable (model) in
/-- The analysis of a proper program returns, with what a drained run ends with. -/
theorem Run.exists_finish {entry : MethodId} (hentry : p.Has entry) :
    ∃ st, p.solve model entry = .ok st.finish ∧ Run model p [.reached entry] st ∧
      st.worklist.toList = [] := by
  have hempty : Run model p [] ({} : State κ) := .empty
  obtain ⟨st₁, hstart, hrun₁⟩ := hempty.exists_start hp hentry
  obtain ⟨st, hdrain, hrun, hdone⟩ := hrun₁.drain hp
  refine ⟨st, ?_, hrun, hdone⟩
  rw [Program.solve, hstart]
  simp only [Bind.bind, Except.bind, hdrain]
  rfl

variable (model) in
theorem Run.solve {entry : MethodId} (hentry : p.Has entry) :
    ∃ st log, p.solve model entry = .ok (st.toSolution, log) ∧ Run model p [.reached entry] st ∧
      st.worklist.toList = [] := by
  obtain ⟨st, hsolve, hrun, hdone⟩ := Run.exists_finish model hp hentry
  exact ⟨st, _, hsolve, hrun, hdone⟩

end Drain

end State

end PointsTo
