import PointsTo.Proofs.Effects

/-!
# The moves of the solver

Whatever the solver does with an entry of the work list, after it has taken the entry, is a sequence
of `Moves`. A `Move` changes about one table of the state, and a move that brings a new fact has a
warrant for it: the fact follows by the rules from what the state shows and from what was given from
outside (`Warrants`). Every invariant of the solver is therefore shown for the moves and for the
taking of an entry (`Take`), and then holds of all runs. The first of them is that states only grow
(`Le`).
-/

namespace PointsTo

namespace State

variable {κ : Type} [Ord κ] [Std.TransOrd κ]

/-- An object is in the set of a pointer, or on its way there. -/
def Arrives (st : State κ) (i : PointerId) (o : ObjId) : Prop :=
  o ∈ st.pointers.pts i ∨ ∃ objs, (i, objs) ∈ st.worklist.toList ∧ o ∈ objs

/-- A method is reached or will be. -/
def Due (st : State κ) (m : MethodId) : Prop := m ∈ st.calls.reachable ∨ m ∈ st.pending

/-- An object is allocated by a statement of a reached method, and has the key of that
allocation. -/
def Allocated (d : Draft) (model : HeapModel κ) (st : State κ) (k : κ) (obj : Obj) : Prop :=
  ∃ m lhs c isArray, m ∈ st.calls.reachable ∧ d.InBody m obj.site ∧
    d.HasStmt obj.site (.new lhs c isArray) ∧
    obj.type = .of c isArray ∧ model.key? obj.site obj.type = some k

/-- A fact follows from what is given and what a state shows. -/
def Warrants (d : Draft) (model : HeapModel κ) (given : Fact κ → Prop) (st : State κ) :
    Fact κ → Prop :=
  Derives d model fun g => given g ∨ st.Shows g

variable [Std.LawfulEqOrd κ]

/-- One move, with what it costs: an object that is sent costs one, and a method that is reached
pays for all its statements. -/
inductive Move (d : Draft) (model : HeapModel κ) (given : Fact κ → Prop) :
    Int → State κ → State κ → Prop where
  | note {st : State κ} {s : StmtId} {e : Event} : d.Records s e →
      Move d model given 0 st (st.note e)
  | entry {st : State κ} {m : MethodId} : given (.reached m) →
      Move d model given 0 st { st with calls := st.calls.addEntry m, pending := m :: st.pending }
  | skip {st : State κ} {m : MethodId} {rest : List MethodId} : st.pending = m :: rest →
      m ∈ st.calls.reachable →
      Move d model given 0 st { st with pending := rest }
  | reach {st : State κ} {m : MethodId} {rest : List MethodId} {method : Method} :
      st.pending = m :: rest →
      m ∉ st.calls.reachable → d.method m = .ok method →
      Move d model given (-method.stmts.size) st ({ st with pending := rest }.reach m)
  | call {st : State κ} {e : CallEdge} : st.Warrants d model given (.called e) →
      st.hasCall e = false →
      Move d model given 0 st (st.addCall e)
  | alloc {st : State κ} {k : κ} {obj : Obj} : st.Allocated d model k obj →
      Move d model given 0 st { st with heap := (st.heap.intern k obj).2 }
  | know {st : State κ} {q : Pointer} {a : Place κ} : st.heap.place q = some a →
      st.Warrants d model given (.known a) → Move d model given 0 st (st.intern q).2
  | edge {st : State κ} {i j : PointerId} {a b : Place κ} : st.placeOf i = some a →
      st.placeOf j = some b →
      st.Warrants d model given (.flows a b) → Move d model given 0 st (st.addEdge i j)
  | push {st : State κ} {i : PointerId} {o : ObjId} {a : Place κ} {k : κ} : st.placeOf i = some a →
      st.heap.keyOf o = some k → st.Warrants d model given (.holds a k) →
      Move d model given 1 st { st with worklist := st.worklist.push (i, {o}) }

/-- A sequence of moves that costs `n` at most. -/
inductive Moves (d : Draft) (model : HeapModel κ) (given : Fact κ → Prop) :
    Int → State κ → State κ → Prop where
  | refl {n : Int} {st : State κ} : 0 ≤ n → Moves d model given n st st
  | head {n n₁ n₂ : Int} {st₁ st₂ st₃ : State κ} : Move d model given n₁ st₁ st₂ →
      Moves d model given n₂ st₂ st₃ →
      n₁ + n₂ ≤ n → Moves d model given n st₁ st₃

/-- An entry is taken off the work list, any one of them. What is new in it goes into the set of its
pointer and on to the successors of the pointer; the number says how many objects are new. -/
inductive Take : Nat → State κ → State κ → Prop where
  | idle {st : State κ} {i : PointerId} {objs : ObjSet} {rest : Worklist} :
      st.worklist.toList.Perm ((i, objs) :: rest.toList) → i.index < st.pointers.size →
      (objs \ st.pointers.pts i).isEmpty = true →
      Take 0 st { st with worklist := rest, pops := st.pops + 1, idle := st.idle + 1 }
  | grow {st : State κ} {i : PointerId} {objs : ObjSet} {rest : Worklist} :
      st.worklist.toList.Perm ((i, objs) :: rest.toList) → i.index < st.pointers.size →
      (objs \ st.pointers.pts i).isEmpty = false →
      Take (objs \ st.pointers.pts i).size st
        ({ st with worklist := rest, pops := st.pops + 1 }.grow i (objs \ st.pointers.pts i))

end State

/-! ## Growth -/

theorem PointerTable.getElem?_pointers (t : PointerTable) (i : PointerId) :
    t.pointers[i.index]? = t.pointer? i := by
  rw [pointers, List.getElem?_map, Catalog.toList, Array.getElem?_toList]
  rfl

namespace State

variable {κ : Type} [Ord κ] [Std.TransOrd κ]

/-- One state grows into another: lists only get longer at their end, sets only get more members,
and what is due or on its way is not lost. -/
structure Le (st st' : State κ) : Prop where
  pointers : st.pointers.pointers <+: st'.pointers.pointers
  objects : st.heap.objs.toList <+: st'.heap.objs.toList
  reachable : st.calls.reachable <+: st'.calls.reachable
  edges : st.calls.edges <+: st'.calls.edges
  succs : ∀ i, st.flow.succs i <+: st'.flow.succs i
  pts : ∀ i, ∀ o ∈ st.pointers.pts i, o ∈ st'.pointers.pts i
  arrives : ∀ i o, st.Arrives i o → st'.Arrives i o
  due : ∀ m, st.Due m → st'.Due m

namespace Le

@[refl] theorem refl (st : State κ) : Le st st where
  pointers := List.prefix_rfl
  objects := List.prefix_rfl
  reachable := List.prefix_rfl
  edges := List.prefix_rfl
  succs _ := List.prefix_rfl
  pts _ _ h := h
  arrives _ _ h := h
  due _ h := h

theorem trans {st₁ st₂ st₃ : State κ} (h : Le st₁ st₂) (h' : Le st₂ st₃) : Le st₁ st₃ where
  pointers := h.pointers.trans h'.pointers
  objects := h.objects.trans h'.objects
  reachable := h.reachable.trans h'.reachable
  edges := h.edges.trans h'.edges
  succs i := (h.succs i).trans (h'.succs i)
  pts i o ho := h'.pts i o (h.pts i o ho)
  arrives i o ho := h'.arrives i o (h.arrives i o ho)
  due m hm := h'.due m (h.due m hm)

variable {st st' : State κ} (h : Le st st')

include h

theorem pointer? {i : PointerId} {q : Pointer} (hi : st.pointers.pointer? i = some q) :
    st'.pointers.pointer? i = some q := by
  rw [← PointerTable.getElem?_pointers] at hi ⊢
  exact getElem?_of_prefix h.pointers hi

theorem record? {o : ObjId} {e : κ × Obj} (ho : st.heap.record? o = some e) :
    st'.heap.record? o = some e :=
  Heap.record?_mono h.objects ho

theorem keyOf {o : ObjId} {k : κ} (ho : st.heap.keyOf o = some k) : st'.heap.keyOf o = some k := by
  obtain ⟨⟨k', obj⟩, he, rfl⟩ := Option.map_eq_some_iff.1 ho
  exact Heap.keyOf_of_record? (h.record? he)

theorem get {o : ObjId} {obj : Obj} (ho : st.heap.get o = .ok obj) : st'.heap.get o = .ok obj := by
  obtain ⟨k, he⟩ := Heap.get_eq_ok_iff.1 ho
  exact Heap.get_eq_ok_iff.2 ⟨k, h.record? he⟩

theorem place {q : Pointer} {a : Place κ} (hq : st.heap.place q = some a) :
    st'.heap.place q = some a := by
  cases q with
  | var v => exact hq
  | static f => exact hq
  | field o f =>
    obtain ⟨k, hk, rfl⟩ := Option.map_eq_some_iff.1 hq
    exact Option.map_eq_some_iff.2 ⟨k, h.keyOf hk, rfl⟩

theorem placeOf {i : PointerId} {a : Place κ} (hi : st.placeOf i = some a) :
    st'.placeOf i = some a := by
  obtain ⟨q, hq, ha⟩ := Option.bind_eq_some_iff.1 hi
  exact Option.bind_eq_some_iff.2 ⟨q, h.pointer? hq, h.place ha⟩

theorem hasEdge {i j : PointerId} (hij : st.flow.hasEdge i j = true) :
    st'.flow.hasEdge i j = true := by
  rw [← FlowGraph.mem_succs] at hij ⊢
  exact (h.succs i).subset hij

theorem hasCall {e : CallEdge} (he : st.hasCall e = true) : st'.hasCall e = true := by
  obtain ⟨e', he', hends⟩ := CallGraph.hasEdge_iff.1 he
  exact CallGraph.hasEdge_iff.2 ⟨e', h.edges.subset he', hends⟩

/-- A larger state shows more. -/
theorem shows {f : Fact κ} (hf : st.Shows f) : st'.Shows f := by
  cases f with
  | reached m => exact h.reachable.subset hf
  | called e => exact h.edges.subset hf
  | known a =>
    obtain ⟨i, hi⟩ := hf
    exact ⟨i, h.placeOf hi⟩
  | flows a b =>
    obtain ⟨i, j, hi, hj, hij⟩ := hf
    exact ⟨i, j, h.placeOf hi, h.placeOf hj, h.hasEdge hij⟩
  | holds a k =>
    obtain ⟨i, o, hi, ho, hk⟩ := hf
    exact ⟨i, o, h.placeOf hi, h.pts i o ho, h.keyOf hk⟩

theorem allocated {d : Draft} {model : HeapModel κ} {k : κ} {obj : Obj}
    (hobj : st.Allocated d model k obj) : st'.Allocated d model k obj := by
  obtain ⟨m, lhs, c, isArray, hm, hrest⟩ := hobj
  exact ⟨m, lhs, c, isArray, h.reachable.subset hm, hrest⟩

theorem warrants {d : Draft} {model : HeapModel κ} {given : Fact κ → Prop} {f : Fact κ}
    (hf : st.Warrants d model given f) : st'.Warrants d model given f :=
  hf.mono fun _ hg => hg.imp id h.shows

end Le

variable {st st' : State κ}

theorem hasEdge_addEdge {i j i' j' : PointerId} :
    (st.addEdge i j).flow.hasEdge i' j' = true ↔
      st.flow.hasEdge i' j' = true ∨ (i' = i ∧ j' = j) := by
  rw [addEdge]
  split <;> rename_i hij
  · constructor
    · exact .inl
    · rintro (h | ⟨rfl, rfl⟩)
      · exact h
      · exact hij
  · exact FlowGraph.hasEdge_addEdge

theorem mem_worklist_addEdge {i j : PointerId} {e : PointerId × ObjSet} :
    e ∈ (st.addEdge i j).worklist.toList ↔ e ∈ st.worklist.toList ∨
      (st.flow.hasEdge i j = false ∧ (st.pointers.pts i).isEmpty = false ∧
        e = (j, st.pointers.pts i)) := by
  rw [addEdge]
  split <;> rename_i hij
  · simp [hij]
  · by_cases hempty : (st.pointers.pts i).isEmpty = true <;> simp [hij, hempty]

@[simp] theorem pointers_addEdge (i j : PointerId) : (st.addEdge i j).pointers = st.pointers := by
  rw [addEdge]
  split <;> rfl

@[simp] theorem heap_addEdge (i j : PointerId) : (st.addEdge i j).heap = st.heap := by
  rw [addEdge]
  split <;> rfl

@[simp] theorem calls_addEdge (i j : PointerId) : (st.addEdge i j).calls = st.calls := by
  rw [addEdge]
  split <;> rfl

@[simp] theorem pending_addEdge (i j : PointerId) : (st.addEdge i j).pending = st.pending := by
  rw [addEdge]
  split <;> rfl

theorem prefix_succs_addEdge (i j i' : PointerId) :
    st.flow.succs i' <+: (st.addEdge i j).flow.succs i' := by
  rw [addEdge]
  split
  · exact List.prefix_rfl
  · exact FlowGraph.prefix_addEdge _ _ _ _

theorem le_intern (st : State κ) (q : Pointer) : Le st (st.intern q).2 :=
  { Le.refl st with
    pointers := PointerTable.prefix_intern st.pointers q
    pts := fun i o ho => by rwa [intern, PointerTable.pts_intern]
    arrives := fun i o ho => by rwa [Arrives, intern, PointerTable.pts_intern] }

theorem mem_pts_grow {i j : PointerId} {delta : ObjSet} (hi : i.index < st.pointers.size)
    {o : ObjId} :
    o ∈ (st.grow i delta).pointers.pts j ↔ o ∈ st.pointers.pts j ∨ (j = i ∧ o ∈ delta) := by
  show o ∈ (st.pointers.absorb i delta).pts j ↔ _
  by_cases hij : j = i
  · subst hij
    rw [PointerTable.pts_absorb_self hi]
    simp
  · rw [PointerTable.pts_absorb_of_ne (Ne.symm hij)]
    simp [hij]

theorem mem_worklist_grow {i : PointerId} {delta : ObjSet} {e : PointerId × ObjSet} :
    e ∈ (st.grow i delta).worklist.toList ↔
      e ∈ st.worklist.toList ∨ (st.flow.hasEdge i e.1 = true ∧ e.2 = delta) := by
  show e ∈ (st.worklist.pushAll ((st.flow.succs i).map (·, delta))).toList ↔ _
  rw [Queue.toList_pushAll, List.mem_append, List.mem_map]
  refine or_congr_right ⟨?_, ?_⟩
  · rintro ⟨j, hj, rfl⟩
    exact ⟨FlowGraph.mem_succs.1 hj, rfl⟩
  · rintro ⟨hj, hdelta⟩
    exact ⟨e.1, FlowGraph.mem_succs.2 hj, by rw [← hdelta]⟩

theorem Take.le {n : Nat} (h : Take n st st') : Le st st' := by
  cases h with
  | @idle _ i objs rest hperm hi hempty =>
    refine { Le.refl st with arrives := fun j o ho => ?_ }
    rcases ho with ho | ⟨objs', hmem, ho⟩
    · exact .inl ho
    · rcases List.mem_cons.1 (hperm.mem_iff.1 hmem) with heq | hmem
      · cases heq
        left
        by_contra hnot
        exact IdSet.isEmpty_iff.1 hempty o (by simp [ho, hnot])
      · exact .inr ⟨objs', hmem, ho⟩
  | @grow _ i objs rest hperm hi _ =>
    refine
      { Le.refl st with
        pointers := prefix_of_eq (PointerTable.pointers_absorb _ _ _)
        pts := fun j o ho => (mem_pts_grow hi).2 (.inl ho)
        arrives := fun j o ho => ?_ }
    rcases ho with ho | ⟨objs', hmem, ho⟩
    · exact .inl ((mem_pts_grow hi).2 (.inl ho))
    · rcases List.mem_cons.1 (hperm.mem_iff.1 hmem) with heq | hmem
      · cases heq
        refine .inl ((mem_pts_grow hi).2 ?_)
        by_cases hknown : o ∈ st.pointers.pts i
        · exact .inl hknown
        · exact .inr ⟨rfl, by simp [ho, hknown]⟩
      · exact .inr ⟨objs', mem_worklist_grow.2 (.inl hmem), ho⟩

variable [Std.LawfulEqOrd κ] {d : Draft} {model : HeapModel κ} {given : Fact κ → Prop} {n : Int}

theorem Moves.trans {n n₁ n₂ : Int} {st₁ st₂ st₃ : State κ} (h₁ : Moves d model given n₁ st₁ st₂)
    (h₂ : Moves d model given n₂ st₂ st₃) (hn : n₁ + n₂ ≤ n) : Moves d model given n st₁ st₃ := by
  induction h₁ generalizing n with
  | refl hn₁ =>
    cases h₂ with
    | refl hn₂ => exact .refl (by omega)
    | head hmove hmoves hcost => exact .head hmove hmoves (by omega)
  | head hmove _ hcost ih => exact .head hmove (ih h₂ (Int.le_refl _)) (by omega)

theorem Moves.mono {n' : Int} (h : Moves d model given n st st') (hn : n ≤ n') :
    Moves d model given n' st st' :=
  h.trans (.refl (Int.le_refl 0)) (by omega)

theorem Move.moves (h : Move d model given n st st') : Moves d model given n st st' :=
  .head h (.refl (Int.le_refl 0)) (by omega)

theorem Moves.cons {st₁ st₂ st₃ : State κ} (h : Move d model given 0 st₁ st₂)
    (h' : Moves d model given n st₂ st₃) : Moves d model given n st₁ st₃ :=
  .head h h' (by omega)

theorem Move.le (h : Move d model given n st st') : Le st st' := by
  cases h with
  | note _ => exact { Le.refl st with }
  | entry _ =>
    exact
      { Le.refl st with
        reachable := prefix_of_eq (CallGraph.reachable_addEntry _ _)
        edges := prefix_of_eq (CallGraph.edges_addEntry _ _)
        due := fun m hm => by
          rw [Due, CallGraph.reachable_addEntry]
          exact hm.imp_right (List.mem_cons_of_mem _) }
  | skip hpending hm =>
    refine { Le.refl st with due := fun m' hm' => ?_ }
    rcases hm' with hm' | hm'
    · exact .inl hm'
    · rw [hpending, List.mem_cons] at hm'
      rcases hm' with rfl | hm'
      · exact .inl hm
      · exact .inr hm'
  | reach hpending _ _ =>
    refine { Le.refl st with reachable := CallGraph.prefix_addReachable _ _, due :=
      fun m' hm' => ?_ }
    rcases hm' with hm' | hm'
    · exact .inl (CallGraph.mem_reachable_addReachable.2 (.inl hm'))
    · rw [hpending, List.mem_cons] at hm'
      rcases hm' with rfl | hm'
      · exact .inl (CallGraph.mem_reachable_addReachable.2 (.inr rfl))
      · exact .inr hm'
  | call _ _ =>
    exact
      { Le.refl st with
        reachable := prefix_of_eq (CallGraph.reachable_addEdge _ _)
        edges := CallGraph.prefix_addEdge _ _
        due := fun m hm => by
          rw [Due, addCall, CallGraph.reachable_addEdge]
          exact hm.imp_right (List.mem_cons_of_mem _) }
  | alloc _ => exact { Le.refl st with objects := Heap.prefix_intern _ _ _ }
  | know _ _ => exact le_intern st _
  | edge _ _ _ =>
    exact
      { pointers := prefix_of_eq (congrArg PointerTable.pointers (pointers_addEdge ..))
        objects := prefix_of_eq (congrArg (fun h : Heap κ => h.objs.toList) (heap_addEdge ..))
        reachable := prefix_of_eq (congrArg CallGraph.reachable (calls_addEdge ..))
        edges := prefix_of_eq (congrArg CallGraph.edges (calls_addEdge ..))
        succs := prefix_succs_addEdge _ _
        pts := fun i o ho => by rwa [pointers_addEdge]
        arrives := fun i o ho => by
          rw [Arrives, pointers_addEdge]
          exact ho.imp_right fun ⟨objs, hmem, ho⟩ => ⟨objs, mem_worklist_addEdge.2 (.inl hmem), ho⟩
        due := fun m hm => by rwa [Due, calls_addEdge, pending_addEdge] }
  | push _ _ _ =>
    refine { Le.refl st with arrives :=
      fun i o ho => ho.imp_right fun ⟨objs, hmem, ho⟩ => ⟨objs, ?_, ho⟩ }
    rw [Queue.toList_push]
    exact List.mem_append_left _ hmem

theorem Moves.le (h : Moves d model given n st st') : Le st st' := by
  induction h with
  | refl => exact Le.refl _
  | head hmove _ _ ih => exact hmove.le.trans ih

/-- Moves send objects on their way, but change no points-to set. -/
theorem Move.pts_eq (h : Move d model given n st st') (i : PointerId) :
    st'.pointers.pts i = st.pointers.pts i := by
  cases h with
  | know _ _ => rw [intern, PointerTable.pts_intern]
  | edge _ _ _ => rw [pointers_addEdge]
  | note | entry | skip | reach | call | alloc | push => rfl

theorem Moves.pts_eq (h : Moves d model given n st st') (i : PointerId) :
    st'.pointers.pts i = st.pointers.pts i := by
  induction h with
  | refl => rfl
  | head hmove _ _ ih => exact ih.trans (hmove.pts_eq i)

/-! ## Nothing is lost on the way -/

/-- What a pointer holds arrives at its successors, and the callee of every call is due. -/
structure Carries (st : State κ) : Prop where
  flow : ∀ i j o, st.flow.hasEdge i j = true → o ∈ st.pointers.pts i → st.Arrives j o
  callee : ∀ e ∈ st.calls.edges, st.Due e.callee

theorem Carries.move (hst : Carries st) (h : Move d model given n st st') : Carries st' where
  flow i j o hij ho := by
    rw [h.pts_eq] at ho
    have hold : st.flow.hasEdge i j = true → st'.Arrives j o :=
      fun hij => h.le.arrives j o (hst.flow i j o hij ho)
    cases h with
    | edge _ _ _ =>
      by_cases hst' : st.flow.hasEdge i j = true
      · exact hold hst'
      · rcases hasEdge_addEdge.1 hij with hij | ⟨rfl, rfl⟩
        · exact absurd hij hst'
        · -- the new edge starts with what its source already holds
          refine .inr ⟨st.pointers.pts i,
            mem_worklist_addEdge.2 (.inr ⟨by simpa using hst', ?_, rfl⟩), ho⟩
          exact IdSet.isEmpty_eq_false_iff.2 ⟨o, ho⟩
    | note | entry | skip | reach | call | alloc | know | push => exact hold hij
  callee e he := by
    have hold : e ∈ st.calls.edges → st'.Due e.callee := fun he => h.le.due _ (hst.callee e he)
    cases h with
    | call _ _ =>
      rcases CallGraph.mem_edges_addEdge.1 he with he | ⟨rfl, -⟩
      · exact hold he
      · exact .inr (List.mem_cons_self ..)
    | entry _ =>
      rw [CallGraph.edges_addEntry] at he
      exact hold he
    | edge _ _ _ =>
      rw [calls_addEdge] at he
      exact hold he
    | note | skip | reach | alloc | know | push => exact hold he

theorem Carries.moves (hst : Carries st) (h : Moves d model given n st st') : Carries st' := by
  induction h with
  | refl => exact hst
  | head hmove _ _ ih => exact ih (hst.move hmove)

omit [Std.LawfulEqOrd κ] in
theorem Carries.take {n : Nat} (hst : Carries st) (h : Take n st st') : Carries st' where
  flow i j o hij ho := by
    have hle := h.le
    cases h with
    | idle _ _ _ => exact hle.arrives j o (hst.flow i j o hij ho)
    | grow _ hi _ =>
      rcases (mem_pts_grow hi).1 ho with ho | ⟨rfl, ho⟩
      · exact hle.arrives j o (hst.flow i j o hij ho)
      · exact .inr ⟨_, mem_worklist_grow.2 (.inr ⟨hij, rfl⟩), ho⟩
  callee e he := by
    have hle := h.le
    cases h with
    | idle => exact hle.due _ (hst.callee e he)
    | grow => exact hle.due _ (hst.callee e he)

end State

end PointsTo
