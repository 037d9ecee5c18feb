import PointsTo.Proofs.Termination

/-!
# No loop is cut short

Both loops of the solver are bounded: the one over pending methods and the one over the work list.
They are compared with loops that have no bound. `Settles` is the loop over pending methods without
a bound, and `stepBy` is a step that leaves this loop to a parameter. A step of a run does not
depend on the parameter, as long as it answers what the unbounded loop answers wherever that ends
(`Run.stepBy_eq`). So every call of the loop that a step makes does end, and the bound does not
show.

The work list is drained in as many `Steps` as it takes, and a measure of states bounds their number
(`Run.steps_le`). `Run.steps_terminate` says both.
-/

namespace PointsTo

namespace State

variable {κ : Type} [Ord κ] [Std.TransOrd κ] [Std.LawfulEqOrd κ]

/-- Processing pending methods, with no bound, ends with a state in which none is left. -/
inductive Settles (model : HeapModel κ) (p : Program) : State κ → State κ → Prop where
  | done {st : State κ} : st.pending = [] → Settles model p st st
  | skip {st st' : State κ} {m : MethodId} {rest : List MethodId} :
      st.pending = m :: rest → st.calls.reaches m = true →
      Settles model p { st with pending := rest } st' →
      Settles model p st st'
  | body {st st' : State κ} {m : MethodId} {rest : List MethodId} {effects : List Effect} :
      st.pending = m :: rest → st.calls.reaches m = false → p.bodyEffects m = .ok effects →
      Settles model p (effects.foldl (apply model) ({ st with pending := rest }.reach m)) st' →
      Settles model p st st'

/-! ## Steps with any loop over pending methods -/

section Parameters

variable (model : HeapModel κ) (p : Program) (loop : State κ → Except Dangling (State κ))

def receiveBy (o : ObjId) (st : State κ) (c : Call) : Except Dangling (State κ) :=
  if (st.handOver o c).hasCall c.edge then return st.handOver o c
  else do
    let st ← loop ((st.handOver o c).addCall c.edge)
    return st.bind c

def reactBy (o : ObjId) (st : State κ) : Reaction → Except Dangling (State κ)
  | .effect e => return st.apply model e
  | .receive c => receiveBy loop o st c

def visitBy (v : VarId) (st : State κ) (o : ObjId) : Except Dangling (State κ) := do
  let obj ← st.heap.get o
  let reactions ← p.reactions v o obj.type
  reactions.foldlM (reactBy model loop o) st

def processBy (st : State κ) (entry : PointerId × ObjSet) : Except Dangling (State κ) := do
  let (pointer, known) ← st.pointers.get entry.1
  let delta := entry.2 \ known
  let st := { st with pops := st.pops + 1 }
  if delta.isEmpty then return { st with idle := st.idle + 1 }
  let st := st.grow entry.1 delta
  match pointer with
  | .var v => delta.toList.foldlM (visitBy model p loop v) st
  | .static _ | .field _ _ => return st

/-- A step of the solver that leaves pending methods to `loop`. -/
def stepBy (st : State κ) : Except Dangling (Option (State κ)) :=
  match st.worklist.pop? with
  | none => return none
  | some (entry, worklist) => return some (← processBy model p loop { st with worklist } entry)

/-- A start at a method that leaves pending methods to `loop`. -/
def startBy (m : MethodId) (st : State κ) : Except Dangling (State κ) :=
  loop { st with calls := st.calls.addEntry m, pending := m :: st.pending }

end Parameters

variable {model : HeapModel κ} {p : Program} {loop : State κ → Except Dangling (State κ)}
  {st st' : State κ}

theorem settles_of_settleWithin {n : Nat} (hok : settleWithin model p n st = .ok st')
    (hdone : st'.pending = []) : Settles model p st st' := by
  induction n generalizing st with
  | zero =>
    cases hok
    exact .done hdone
  | succ n ih =>
    rw [settleWithin] at hok
    split at hok
    next hpending =>
      cases hok
      exact .done hdone
    next m rest hpending =>
      dsimp only at hok
      split at hok
      next hm => exact .skip hpending hm (ih hok)
      next hm =>
        obtain ⟨effects, heffects, hok⟩ := bind_eq_ok.1 hok
        exact .body hpending (by simpa using hm) heffects (ih hok)

omit [Std.LawfulEqOrd κ] in
/-- Two loops of passes agree if their passes agree in all states that the second one comes to. -/
theorem foldlM_congr {α : Type} {f g : State κ → α → Except Dangling (State κ)} (I : State κ → Prop)
    (l : List α) (hst : I st)
    (hstep : ∀ x ∈ l, ∀ st₁, I st₁ → f st₁ x = g st₁ x ∧ ∃ st₂, g st₁ x = .ok st₂ ∧ I st₂) :
    l.foldlM f st = l.foldlM g st := by
  induction l generalizing st with
  | nil => rfl
  | cons x l ih =>
    obtain ⟨heq, st₁, hok, hst₁⟩ := hstep x (List.mem_cons_self ..) st hst
    rw [List.foldlM_cons, List.foldlM_cons, heq, hok]
    exact ih hst₁ fun y hy => hstep y (List.mem_cons_of_mem _ hy)

section Agreement

variable {given : Fact κ → Prop} (hp : p.Proper) (hgiven : ∀ f, given f → Fact.InScope p.toDraft f)
  (hloop : ∀ st : State κ, st.Supported p.toDraft model (Fact.InScope p.toDraft) →
  loop st = settle model p st)

include hp hgiven hloop

theorem receiveBy_eq {o : ObjId} {k : κ} {c : Call} (hst : st.Ready p.toDraft model)
    (hw : st.Warrants p.toDraft model given (.called c.edge)) (ho : st.heap.keyOf o = some k)
    (hthis : ∀ v ∈ c.this, st.Warrants p.toDraft model given (.holds (.var v) k)) :
    receiveBy loop o st c = receive model p o st c := by
  obtain ⟨hmoves, -, -, -⟩ := handOver_spec ho hthis
  have hsupported := hst.supported.moves hp.inRange.closed_inScope hgiven hmoves
  rw [receive_eq, receiveBy]
  split <;> rename_i hcall
  · rfl
  · have hmove : Move p.toDraft model given 0 (st.handOver o c)
        ((st.handOver o c).addCall c.edge) :=
      .call (hmoves.le.warrants hw) (by simpa using hcall)
    rw [hloop _ (hsupported.move hp.inRange.closed_inScope hgiven hmove)]

theorem reactBy_eq {v : VarId} {o : ObjId} {k : κ} {type : ObjType} {s : StmtId} {r : Reaction}
    (hst : st.Ready p.toDraft model) (hw : st.Warrants p.toDraft model given (.holds (.var v) k))
    (ho : st.heap.keyOf o = some k) (htype : model.HasType p.toDraft k type) (hs : p.DependsOn s v)
    (hr : p.Reacts o type s r) : reactBy model loop o st r = react model p o st r := by
  cases r with
  | effect e => rfl
  | receive c =>
    obtain ⟨-, hwarrants, hthis⟩ := hw.receive htype hs hr
    exact receiveBy_eq hp hgiven hloop hst hwarrants ho hthis

theorem visitBy_eq {i : PointerId} {v : VarId} {o : ObjId} (hst : st.Ready p.toDraft model)
    (hi : st.pointers.pointer? i = some (.var v)) (ho : o ∈ st.pointers.pts i) :
    visitBy model p loop v st o = visit model p v st o := by
  obtain ⟨k, obj, rs, hholds, hk, hget, htype, hrs, hreacts⟩ :=
    exists_reactions_of_mem_pts hp hst hi ho
  have hfold : rs.foldlM (reactBy model loop o) st = rs.foldlM (react model p o) st := by
    refine foldlM_congr (fun st₁ => Le st st₁ ∧ st₁.Ready p.toDraft model) rs ⟨Le.refl st, hst⟩ ?_
    rintro r hr st₁ ⟨hle, hst₁⟩
    obtain ⟨s, hs, hr⟩ := hreacts r hr
    have hw : st₁.Warrants p.toDraft model given (.holds (.var v) k) := .of_shows (hle.shows hholds)
    obtain ⟨st₂, hok, hmoves, hst₂, -⟩ :=
      react_spec hp.inRange hgiven hst₁ hw (hle.keyOf hk) htype hs hr
    exact ⟨reactBy_eq hp hgiven hloop hst₁ hw (hle.keyOf hk) htype hs hr, st₂, hok,
      hle.trans hmoves.le, hst₂⟩
  rw [visitBy, visit, hget]
  simp only [Bind.bind, Except.bind, hrs]
  exact hfold

theorem processBy_eq {i : PointerId} {objs : ObjSet} {rest : Worklist}
    (hst : st.Rests p.toDraft model) (hperm : st.worklist.toList.Perm ((i, objs) :: rest.toList)) :
    processBy model p loop { st with worklist := rest } (i, objs) =
      process model p { st with worklist := rest } (i, objs) := by
  obtain ⟨q, hq, hget⟩ :=
    hst.supported.exists_get_of_waiting (hperm.mem_iff.2 (List.mem_cons_self ..))
  have hi : i.index < st.pointers.size := PointerTable.pointer?_isSome_iff.1 ⟨q, hq⟩
  rw [processBy, process]
  simp only [hget, Bind.bind, Except.bind]
  split
  · rfl
  · rename_i hdelta
    cases q with
    | static | field => rfl
    | var v =>
      have htake : Take _ st ({ st with worklist := rest, pops := st.pops + 1 }.grow i
          (objs \ st.pointers.pts i)) :=
        .grow hperm hi (by simpa using hdelta)
      have hready : Ready p.toDraft model
          ({ st with worklist := rest, pops := st.pops + 1 }.grow i (objs \ st.pointers.pts i)) :=
        ⟨hst.supported.take hp.inRange.closed_inScope htake, hst.pending,
          htake.le.settled hst.settled rfl⟩
      refine foldlM_congr (fun st₁ => Le _ st₁ ∧ st₁.Ready p.toDraft model) _ ⟨Le.refl _, hready⟩ ?_
      rintro o ho st₁ ⟨hle, hst₁⟩
      have hv := hle.pointer? (htake.le.pointer? hq)
      have hmem := hle.pts i o ((mem_pts_grow hi).2 (.inr ⟨rfl, Std.ExtTreeSet.mem_toList.1 ho⟩))
      obtain ⟨st₂, hok, hmoves, hst₂, -⟩ := visit_spec hp hgiven hst₁ hv hmem
      exact ⟨visitBy_eq hp hgiven hloop hst₁ hv hmem, st₂, hok, hle.trans hmoves.le, hst₂⟩

end Agreement

section Runs

variable {facts : List (Fact κ)} (hp : p.Proper)

include hp

/-- In the states of a run, a loop over pending methods is asked only in states that are supported
by facts in scope. -/
theorem Run.stepBy_eq (h : Run model p facts st)
    (hloop : ∀ st : State κ, st.Supported p.toDraft model (Fact.InScope p.toDraft) →
      loop st = settle model p st) :
    stepBy model p loop st = step model p st ∧
      ∀ m, p.Has m → startBy loop m st = State.start model p m st := by
  obtain ⟨hrests, hfacts, -⟩ := h.spec hp
  refine ⟨?_, fun m hm => ?_⟩
  · rw [stepBy, step]
    cases hpop : st.worklist.pop? with
    | none => rfl
    | some x =>
      obtain ⟨e, rest⟩ := x
      have hlist : st.worklist.toList = [] ++ e :: rest.toList := Queue.toList_eq_cons_of_pop? hpop
      dsimp only
      rw [processBy_eq hp (fun f hf => (hfacts f hf).1) hloop hrests (perm_of_taken hlist rfl)]
  · have hmove : Move p.toDraft model (· = .reached m) 0 st
        { st with calls := st.calls.addEntry m, pending := m :: st.pending } := .entry rfl
    have hscope : ∀ f : Fact κ, f = .reached m → f.InScope p.toDraft := fun f hf => hf ▸ hm
    exact hloop _ (hrests.supported.move hp.inRange.closed_inScope hscope hmove)

omit hp in
/-- Settling a supported state is the same with and without a bound. -/
theorem Supported.exists_settle (hp : p.InRange)
    (hst : st.Supported p.toDraft model (Fact.InScope p.toDraft)) :
    ∃ st', settle model p st = .ok st' ∧ Settles model p st st' := by
  have hnone : ∀ f : Fact κ, False → f.InScope p.toDraft := fun f hf => hf.elim
  obtain ⟨st', hok, -, hdone, -⟩ := settle_spec hp hnone hst
  exact ⟨st', hok, settles_of_settleWithin hok hdone⟩

/-- `Steps model p n st st'`: `n` steps lead from `st` to `st'`. -/
inductive Steps (model : HeapModel κ) (p : Program) : Nat → State κ → State κ → Prop where
  | none (st : State κ) : Steps model p 0 st st
  | more {n : Nat} {st st' st'' : State κ} :
      step model p st = .ok (some st') → Steps model p n st' st'' → Steps model p (n + 1) st st''

theorem Run.potential_lt_of_step (h : Run model p facts st)
    (hstep : step model p st = .ok (some st')) :
    st'.potential p.toDraft < st.potential p.toDraft ∧ Run model p facts st' := by
  obtain ⟨e, rest, hlist, hok⟩ := exists_process_of_step hstep
  exact ⟨h.potential_lt hp hlist rfl hok, h.take hlist rfl hok⟩

/-- Steps are bounded by what they use up of the potential. -/
theorem Run.steps_le (h : Run model p facts st) {n : Nat} (hsteps : Steps model p n st st') :
    n + st'.potential p.toDraft ≤ st.potential p.toDraft := by
  induction hsteps with
  | none => omega
  | more hstep _ ih =>
    obtain ⟨hlt, hrun⟩ := h.potential_lt_of_step hp hstep
    have hle := ih hrun
    omega

omit hp in
/-- Draining the work list is making steps. -/
theorem exists_steps_of_drainWithin {n : Nat} (hok : State.drainWithin model p n st = .ok st') :
    ∃ k, Steps model p k st st' := by
  induction n generalizing st with
  | zero =>
    cases hok
    exact ⟨0, .none _⟩
  | succ n ih =>
    rw [State.drainWithin] at hok
    cases hpop : st.worklist.pop? with
    | none =>
      rw [hpop] at hok
      cases hok
      exact ⟨0, .none _⟩
    | some x =>
      obtain ⟨e, rest⟩ := x
      rw [hpop] at hok
      obtain ⟨st₁, hok₁, hrest⟩ := bind_eq_ok.1 hok
      obtain ⟨k, hsteps⟩ := ih hrest
      have hstep : step model p st = .ok (some st₁) := by
        rw [step, hpop]
        exact bind_eq_ok.2 ⟨st₁, hok₁, rfl⟩
      exact ⟨k + 1, .more hstep hsteps⟩

omit hp in
theorem step_eq_none (hdone : st.worklist.toList = []) : step model p st = .ok none := by
  rw [step, Queue.pop?_eq_none_iff.2 hdone]
  rfl

end Runs

/-- There is a measure of states that every step of a run lowers. So from every state of a run only
finitely many steps can be made; draining makes them until the work list is empty. Neither a step
nor a start at a method depends on how pending methods are processed, as long as that answers what
the unbounded loop answers wherever it ends: all the calls of this loop that they make do end. -/
theorem Run.steps_terminate {p : Program} (hp : p.Proper) (model : HeapModel κ) :
    ∃ μ : State κ → Nat, ∀ facts st, Run model p facts st →
      (∀ st', step model p st = .ok (some st') → μ st' < μ st) ∧
      (∀ n st', Steps model p n st st' → n + μ st' ≤ μ st) ∧
      (∃ n st', Steps model p n st st' ∧ step model p st' = .ok none ∧ st'.worklist.toList = [] ∧
        State.drain model p st = .ok st') ∧
      ∀ loop, (∀ st₁ st₂, Settles model p st₁ st₂ → loop st₁ = .ok st₂) →
        (∃ next, step model p st = .ok next ∧ stepBy model p loop st = .ok next) ∧
        ∀ m, p.Has m → ∃ st', State.start model p m st = .ok st' ∧ startBy loop m st = .ok st' := by
  refine ⟨potential p.toDraft,
    fun facts st hrun => ⟨fun st' hstep => (hrun.potential_lt_of_step hp hstep).1,
    fun n st' hsteps => hrun.steps_le hp hsteps, ?_, fun loop hloop => ?_⟩⟩
  · obtain ⟨st', hdrain, -, hdone⟩ := hrun.drain hp
    obtain ⟨n, hsteps⟩ := exists_steps_of_drainWithin hdrain
    exact ⟨n, st', hsteps, step_eq_none hdone, hdone, hdrain⟩
  have hsettle : ∀ st₁ : State κ, st₁.Supported p.toDraft model (Fact.InScope p.toDraft) →
      loop st₁ = settle model p st₁ := fun st₁ hst₁ => by
    obtain ⟨st₂, hok, hsettles⟩ := hst₁.exists_settle hp.inRange
    rw [hok, hloop st₁ st₂ hsettles]
  obtain ⟨hstep, hstart⟩ := hrun.stepBy_eq hp hsettle
  refine ⟨?_, fun m hm => ?_⟩
  · rw [hstep]
    rcases hrun.exists_step hp with ⟨-, hok⟩ | ⟨st', hok, -⟩
    · exact ⟨_, hok, hok⟩
    · exact ⟨_, hok, hok⟩
  · obtain ⟨st', hok, -⟩ := hrun.exists_start hp hm
    exact ⟨st', hok, (hstart m hm).trans hok⟩

theorem Run.sample_steps_terminate :
    ∃ p st n st', Program.ofText sampleText = .ok p ∧ Run .bySite p [.reached ⟨1⟩] st ∧
      Steps .bySite p n st st' ∧ step .bySite p st' = .ok none ∧
        State.drain .bySite p st = .ok st' := by
  obtain ⟨p, htext, -, hmain⟩ := sampleText_accepted
  have hp := Program.Proper.of_ofText htext
  have hempty : Run .bySite p [] {} := .empty
  obtain ⟨st, -, hrun⟩ := hempty.exists_start hp hmain
  obtain ⟨μ, hμ⟩ := Run.steps_terminate hp .bySite
  obtain ⟨-, -, ⟨n, st', hsteps, hlast, -, hdrain⟩, -⟩ := hμ _ st hrun
  exact ⟨p, st, n, st', htext, hrun, hsteps, hlast, hdrain⟩

end State

end PointsTo
