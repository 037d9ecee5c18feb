import PointsTo.Proofs.Loops

/-!
# Nothing is taken back

A call of the solver only adds to what the states hold: the state after it `Extends` the one before
(`Run.calls_extend`). Lists get longer at their end, points-to sets get more members, ids stay with
what they name, and counters do not fall. All of this is shown for a single move and for the taking
of an entry, of which every call consists. Without an entry to take, a step and a drain change
nothing.
-/

namespace PointsTo

/-! ## The calls by their sites and callees -/

namespace CallGraph

variable {g : CallGraph} {e : CallEdge}

theorem calleesOf_addEdge (h : g.hasEdge e.site e.callee = false) (s : StmtId) :
    (g.addEdge e).calleesOf s = g.calleesOf s ++ if e.site = s then [e.callee] else [] := by
  rw [addEdge, if_neg (by simp [h])]
  simp only [calleesOf, Std.ExtTreeMap.getD_alter, Std.LawfulEqOrd.compare_eq_iff_eq]
  split
  next hsite =>
    subst hsite
    rw [Option.getD_some, Array.toList_push, ← Std.ExtTreeMap.getD_eq_getD_getElem?]
  next => rw [List.append_nil]

theorem callersOf_addEdge (h : g.hasEdge e.site e.callee = false) (m : MethodId) :
    (g.addEdge e).callersOf m = g.callersOf m ++ if e.callee = m then [e.site] else [] := by
  rw [addEdge, if_neg (by simp [h])]
  simp only [callersOf, Std.ExtTreeMap.getD_alter, Std.LawfulEqOrd.compare_eq_iff_eq]
  split
  next hcallee =>
    subst hcallee
    rw [Option.getD_some, Array.toList_push, ← Std.ExtTreeMap.getD_eq_getD_getElem?]
  next => rw [List.append_nil]

@[simp] theorem calleesOf_addEntry (g : CallGraph) (m : MethodId) :
    (g.addEntry m).calleesOf = g.calleesOf := by
  rw [addEntry]
  split <;> rfl

@[simp] theorem callersOf_addEntry (g : CallGraph) (m : MethodId) :
    (g.addEntry m).callersOf = g.callersOf := by
  rw [addEntry]
  split <;> rfl

end CallGraph

namespace State

variable {κ : Type} [Ord κ] [Std.TransOrd κ]

/-! ## States that hold more -/

/-- A state holds all that an earlier one holds, in the same order and under the same ids. -/
structure Extends (st st' : State κ) : Prop where
  pointers : st.pointers.pointers <+: st'.pointers.pointers
  objects : st.heap.objs.toList <+: st'.heap.objs.toList
  reachable : st.calls.reachable <+: st'.calls.reachable
  edges : st.calls.edges <+: st'.calls.edges
  callees : ∀ s, st.calls.calleesOf s <+: st'.calls.calleesOf s
  callers : ∀ m, st.calls.callersOf m <+: st'.calls.callersOf m
  succs : ∀ i, st.flow.succs i <+: st'.flow.succs i
  pts : ∀ i, ∀ o ∈ st.pointers.pts i, o ∈ st'.pointers.pts i
  pointerIds : ∀ q i, st.pointers.find? q = some i → st'.pointers.find? q = some i
  objectIds : ∀ k o, st.heap.find? k = some o → st'.heap.find? k = some o
  pops : st.pops ≤ st'.pops
  idle : st.idle ≤ st'.idle

namespace Extends

@[refl] theorem refl (st : State κ) : Extends st st where
  pointers := List.prefix_rfl
  objects := List.prefix_rfl
  reachable := List.prefix_rfl
  edges := List.prefix_rfl
  callees _ := List.prefix_rfl
  callers _ := List.prefix_rfl
  succs _ := List.prefix_rfl
  pts _ _ h := h
  pointerIds _ _ h := h
  objectIds _ _ h := h
  pops := Nat.le_refl _
  idle := Nat.le_refl _

theorem trans {st₁ st₂ st₃ : State κ} (h : Extends st₁ st₂) (h' : Extends st₂ st₃) :
    Extends st₁ st₃ where
  pointers := h.pointers.trans h'.pointers
  objects := h.objects.trans h'.objects
  reachable := h.reachable.trans h'.reachable
  edges := h.edges.trans h'.edges
  callees s := (h.callees s).trans (h'.callees s)
  callers m := (h.callers m).trans (h'.callers m)
  succs i := (h.succs i).trans (h'.succs i)
  pts i o ho := h'.pts i o (h.pts i o ho)
  pointerIds q i hi := h'.pointerIds q i (h.pointerIds q i hi)
  objectIds k o ho := h'.objectIds k o (h.objectIds k o ho)
  pops := h.pops.trans h'.pops
  idle := h.idle.trans h'.idle

variable {st st' : State κ}

/-- A state that has grown keeps its ids, since ids are positions in its lists. -/
theorem of_le (h : Le st st') (hcallees : ∀ s, st.calls.calleesOf s <+: st'.calls.calleesOf s)
    (hcallers : ∀ m, st.calls.callersOf m <+: st'.calls.callersOf m) (hpops : st.pops ≤ st'.pops)
    (hidle : st.idle ≤ st'.idle) : Extends st st' where
  pointers := h.pointers
  objects := h.objects
  reachable := h.reachable
  edges := h.edges
  callees := hcallees
  callers := hcallers
  succs := h.succs
  pts := h.pts
  pointerIds _ _ hi :=
    PointerTable.find?_eq_some_iff.2 (h.pointer? (PointerTable.find?_eq_some_iff.1 hi))
  objectIds _ _ ho := Heap.find?_eq_some_iff.2 (h.keyOf (Heap.find?_eq_some_iff.1 ho))
  pops := hpops
  idle := hidle

/-- Where no call is added, the callees and callers stay as they are. -/
theorem of_calls_eq (h : Le st st') (hcalls : st'.calls = st.calls) (hpops : st.pops ≤ st'.pops)
    (hidle : st.idle ≤ st'.idle) : Extends st st' := by
  refine of_le h (fun s => ?_) (fun m => ?_) hpops hidle
  · exact prefix_of_eq (congrArg (fun g : CallGraph => g.calleesOf s) hcalls)
  · exact prefix_of_eq (congrArg (fun g : CallGraph => g.callersOf m) hcalls)

end Extends

theorem Take.extends {n : Nat} {st st' : State κ} (h : Take n st st') : Extends st st' := by
  have hle := h.le
  cases h with
  | idle => exact .of_calls_eq hle rfl (Nat.le_succ _) (Nat.le_succ _)
  | grow => exact .of_calls_eq hle rfl (Nat.le_succ _) (Nat.le_refl _)

theorem counters_addEdge (st : State κ) (i j : PointerId) :
    (st.addEdge i j).pops = st.pops ∧ (st.addEdge i j).idle = st.idle := by
  rw [addEdge]
  split <;> exact ⟨rfl, rfl⟩

variable [Std.LawfulEqOrd κ] {model : HeapModel κ}

theorem Move.extends {d : Draft} {given : Fact κ → Prop} {n : Int} {st st' : State κ}
    (h : Move d model given n st st') : Extends st st' := by
  have hle := h.le
  cases h with
  | entry _ =>
    refine .of_le hle (fun s => ?_) (fun m => ?_) (Nat.le_refl _) (Nat.le_refl _)
    · exact prefix_of_eq (congrFun (CallGraph.calleesOf_addEntry _ _) s)
    · exact prefix_of_eq (congrFun (CallGraph.callersOf_addEntry _ _) m)
  | call _ hnew =>
    refine .of_le hle (fun s => ?_) (fun m => ?_) (Nat.le_refl _) (Nat.le_refl _)
    · exact ⟨_, (CallGraph.calleesOf_addEdge hnew s).symm⟩
    · exact ⟨_, (CallGraph.callersOf_addEdge hnew m).symm⟩
  | reach _ _ _ =>
    exact .of_le hle (fun _ => List.prefix_rfl) (fun _ => List.prefix_rfl) (Nat.le_refl _)
      (Nat.le_refl _)
  | @edge st i j _ _ _ _ _ =>
    obtain ⟨hpops, hidle⟩ := st.counters_addEdge i j
    exact .of_calls_eq hle (calls_addEdge i j) hpops.ge hidle.ge
  | note | skip | alloc | know | push => exact .of_calls_eq hle rfl (Nat.le_refl _) (Nat.le_refl _)

theorem Moves.extends {d : Draft} {given : Fact κ → Prop} {n : Int} {st st' : State κ}
    (h : Moves d model given n st st') : Extends st st' := by
  induction h with
  | refl _ => exact Extends.refl _
  | head hmove _ _ ih => exact hmove.extends.trans ih

/-! ## The calls of a run -/

section Calls

variable {p : Program} {facts : List (Fact κ)} {st st' : State κ} (hp : p.Proper)

include hp

theorem Run.extends_start (h : Run model p facts st) {m : MethodId} (hm : p.Has m)
    (hok : State.start model p m st = .ok st') : Extends st st' := by
  obtain ⟨hrests, -, -⟩ := h.spec hp
  have hscope : ∀ f : Fact κ, f = .reached m → f.InScope p.toDraft := fun f hf => hf ▸ hm
  obtain ⟨st₁, hok₁, hmoves, -⟩ := start_spec hp hscope hrests rfl
  cases hok₁.symm.trans hok
  exact hmoves.extends

theorem Run.extends_addFlow (h : Run model p facts st) {i j : PointerId} {a b : Place κ}
    (hi : st.placeOf i = some a) (hj : st.placeOf j = some b)
    (hok : State.addFlow i j st = .ok st') :
    Extends st st' := by
  obtain ⟨hrests, -, -⟩ := h.spec hp
  have hab : Fact.InScope p.toDraft (.flows a b) :=
    ⟨hrests.supported.of_placeOf hi, hrests.supported.of_placeOf hj⟩
  have hscope : ∀ f, f = .flows a b → Fact.InScope p.toDraft f := fun f hf => hf ▸ hab
  obtain ⟨hok₁, hmoves, -⟩ := addFlow_spec hp hscope hrests hi hj rfl
  cases hok₁.symm.trans hok
  exact hmoves.extends

theorem Run.extends_process (h : Run model p facts st) {older newer : List (PointerId × ObjSet)}
    {e : PointerId × ObjSet} {rest : Worklist} (hlist : st.worklist.toList = older ++ e :: newer)
    (hrest : rest.toList = older ++ newer)
    (hok : State.process model p { st with worklist := rest } e = .ok st') : Extends st st' := by
  obtain ⟨hrests, hfacts, -⟩ := h.spec hp
  obtain ⟨n, mid, st₁, hok₁, htake, hmoves, -⟩ :=
    process_spec hp (fun f hf => (hfacts f hf).1) hrests (perm_of_taken hlist hrest)
  cases hok₁.symm.trans hok
  exact htake.extends.trans hmoves.extends

theorem Run.extends_step (h : Run model p facts st) (hstep : step model p st = .ok (some st')) :
    Extends st st' := by
  obtain ⟨e, rest, hlist, hok⟩ := exists_process_of_step hstep
  exact h.extends_process hp hlist rfl hok

theorem Run.extends_steps {n : Nat} (h : Run model p facts st) (hsteps : Steps model p n st st') :
    Extends st st' := by
  induction hsteps with
  | none => exact Extends.refl _
  | more hstep _ ih =>
    obtain ⟨-, hrun⟩ := h.potential_lt_of_step hp hstep
    exact (h.extends_step hp hstep).trans (ih hrun)

end Calls

/-- Draining an empty work list is no work, whatever the bound. -/
theorem drainWithin_of_done {p : Program} {st : State κ}
    (hdone : st.worklist.toList = []) (n : Nat) :
    State.drainWithin model p n st = .ok st := by
  cases n with
  | zero => rfl
  | succ n =>
    rw [State.drainWithin, Queue.pop?_eq_none_iff.2 hdone]
    rfl

/-- From every state of a run, each call of the solver returns and goes on with the run, and the
state that it comes to extends the one before. With an empty work list, a step and a drain leave the
state as it is. -/
theorem Run.calls_extend {p : Program} {facts : List (Fact κ)} {st : State κ} (hp : p.Proper)
    (hrun : Run model p facts st) :
    (∀ m, p.Has m → ∃ st', State.start model p m st = .ok st' ∧
      Run model p (.reached m :: facts) st' ∧
      Extends st st') ∧
    (∀ i j : PointerId, i.index < st.pointers.size → j.index < st.pointers.size →
      ∃ a b st', st.placeOf i = some a ∧ st.placeOf j = some b ∧ State.addFlow i j st = .ok st' ∧
        Run model p (.flows a b :: facts) st' ∧ Extends st st') ∧
    ((st.worklist.toList = [] ∧ step model p st = .ok none) ∨
      ∃ st', step model p st = .ok (some st') ∧ Run model p facts st' ∧ Extends st st') ∧
    (∃ st', State.drain model p st = .ok st' ∧ Run model p facts st' ∧ st'.worklist.toList = [] ∧
      Extends st st') ∧
    (st.worklist.toList = [] → step model p st = .ok none ∧ State.drain model p st = .ok st) := by
  refine ⟨fun m hm => ?_, fun i j hi hj => ?_, ?_, ?_,
    fun hdone => ⟨step_eq_none hdone, drainWithin_of_done hdone _⟩⟩
  · obtain ⟨st', hok, hrun'⟩ := hrun.exists_start hp hm
    exact ⟨st', hok, hrun', hrun.extends_start hp hm hok⟩
  · obtain ⟨a, b, st', ha, hb, hok, hrun'⟩ := hrun.exists_addFlow hp hi hj
    exact ⟨a, b, st', ha, hb, hok, hrun', hrun.extends_addFlow hp ha hb hok⟩
  · rcases hrun.exists_step hp with hdone | ⟨st', hok, hrun'⟩
    · exact .inl hdone
    · exact .inr ⟨st', hok, hrun', hrun.extends_step hp hok⟩
  · obtain ⟨st', hok, hrun', hdone⟩ := hrun.drain hp
    obtain ⟨n, hsteps⟩ := exists_steps_of_drainWithin hok
    exact ⟨st', hok, hrun', hdone, hrun.extends_steps hp hsteps⟩

theorem Run.sample_calls_extend :
    ∃ p st st', Program.ofText sampleText = .ok p ∧ Run .bySite p [.reached ⟨1⟩] st ∧
      State.drain .bySite p st = .ok st' ∧ Extends st st' ∧ step .bySite p st' = .ok none ∧
      State.drain .bySite p st' = .ok st' := by
  obtain ⟨p, htext, -, hmain⟩ := sampleText_accepted
  have hp := Program.Proper.of_ofText htext
  have hempty : Run .bySite p [] {} := .empty
  obtain ⟨hstarts, -⟩ := Run.calls_extend hp hempty
  obtain ⟨st, -, hrun, -⟩ := hstarts ⟨1⟩ hmain
  obtain ⟨-, -, -, ⟨st', hdrain, hrun', hdone, hextends⟩, -⟩ := Run.calls_extend hp hrun
  obtain ⟨-, -, -, -, hlast⟩ := Run.calls_extend hp hrun'
  obtain ⟨hstep, hdrain'⟩ := hlast hdone
  exact ⟨p, st, st', htext, hrun, hdrain, hextends, hstep, hdrain'⟩

end State

end PointsTo
