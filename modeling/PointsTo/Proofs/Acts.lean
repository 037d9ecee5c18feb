import Mathlib.Logic.Relation
import PointsTo.Proofs.Runs

/-!
# What the solver does between two visits

`Moves` say which facts a pass of the solver brings. `Acts` say more closely where objects may go
and what is recorded on the way: an edge or an allocation leads to a variable only if a statement or
the head of a method says so (`Draft.Fills`), all other objects are sent to the receivers of
callees, and records of unresolved calls are made by reactions alone. An entry of the work list is
first taken in (`takeIn`), and then its new objects are visited one by one (`visitsOf`,
`process_eq`).
-/

namespace PointsTo

/-- The variables into which a statement lets objects flow. The elements of an array are one with
the variable that holds it. -/
def Stmt.sinks : Stmt → List VarId
  | .new lhs _ _ | .copy lhs _ | .load lhs _ _ | .loadArray lhs _ => [lhs]
  | .storeArray base _ => [base]
  | .invoke call => call.lhs.toList
  | .store .. | .ret _ | .const _ => []

theorem Stmt.sinks_subset_vars (stmt : Stmt) : stmt.sinks ⊆ stmt.vars := by
  cases stmt with
  | invoke call =>
    intro v hv
    simp only [sinks, vars, Invoke.vars, List.mem_append] at hv ⊢
    exact .inl (.inl hv)
  | _ => simp [sinks, vars]

/-- Objects flow into fields, and into those variables that a statement fills or that are
parameters. -/
def Draft.Fills (d : Draft) : Pointer → Prop
  | .var v =>
    (∃ s stmt, d.HasStmt s stmt ∧ v ∈ stmt.sinks) ∨ ∃ m y, d.method m = .ok y ∧ v ∈ y.params
  | .static _ | .field .. => True

theorem Draft.Fills.of_stmt {d : Draft} {s : StmtId} {stmt : Stmt} {v : VarId}
    (hs : d.HasStmt s stmt) (hv : v ∈ stmt.sinks) : d.Fills (.var v) :=
  .inl ⟨s, stmt, hs, hv⟩

/-- The call without a callee that a record is about. -/
def Event.unresolved? : Event → Option (StmtId × ObjId)
  | .unresolvedCall _ site o => some (site, o)
  | _ => none

/-- The call without a callee that is recorded in reaction to an object. -/
def Reaction.unresolved? : Reaction → Option (StmtId × ObjId)
  | .effect (.note event) => event.unresolved?
  | _ => none

namespace Draft

variable {d : Draft} {s : StmtId}

/-- The effects of a statement record no call on an object. -/
theorem unresolved?_of_mem_stmtEffects {es : List Effect} (h : d.stmtEffects s = .ok es)
    {event : Event} (he : .note event ∈ es) : event.unresolved? = none := by
  have hfield : ∀ {ref : FieldRef} {e : Effect} {flow : FieldId → Effect},
      (∀ f, flow f ≠ .note event) →
      d.fieldFlow s ref true flow = .ok e → .note event = e → event.unresolved? = none := by
    rintro ref e flow hflow hok rfl
    rcases fieldFlow_eq_ok hok with ⟨f, -, heq⟩ | ⟨-, heq⟩
    · exact absurd heq.symm (hflow f)
    · cases heq
      rfl
  rw [stmtEffects, bind_eq_ok] at h
  obtain ⟨placed, -, h⟩ := h
  split at h
  · cases h
    simp at he
  · cases h
    simp at he
  · obtain ⟨e, hok, h⟩ := bind_eq_ok.1 h
    cases h
    exact hfield (by simp) hok (List.mem_singleton.1 he)
  · obtain ⟨e, hok, h⟩ := bind_eq_ok.1 h
    cases h
    exact hfield (by simp) hok (List.mem_singleton.1 he)
  · split at h
    · obtain ⟨found, -, h⟩ := bind_eq_ok.1 h
      cases found with
      | none =>
        cases h
        cases List.mem_singleton.1 he
        rfl
      | some c =>
        cases h
        simp at he
    · cases h
      simp at he
  · cases h
    simp at he

/-- A statement records at most one call in reaction to an object, the one that it makes on the
object. -/
theorem filterMap_stmtReactions {o : ObjId} {type : ObjType} {rs : List Reaction}
    (h : d.stmtReactions o type s = .ok rs) :
    (rs.filterMap Reaction.unresolved?).Sublist [(s, o)] := by
  have hfield : ∀ {ref : FieldRef} {e : Effect} {flow : FieldId → Effect},
      (∀ f, (Reaction.effect (flow f)).unresolved? = none) → d.fieldFlow s ref false flow = .ok e →
      ([Reaction.effect e].filterMap Reaction.unresolved?).Sublist [(s, o)] := by
    intro ref e flow hflow hok
    rcases fieldFlow_eq_ok hok with ⟨f, -, rfl⟩ | ⟨-, rfl⟩
    · simp [hflow f]
    · simp [Reaction.unresolved?, Event.unresolved?]
  rw [stmtReactions, bind_eq_ok] at h
  obtain ⟨placed, -, h⟩ := h
  split at h
  · obtain ⟨e, hok, h⟩ := bind_eq_ok.1 h
    cases h
    exact hfield (fun _ => rfl) hok
  · obtain ⟨e, hok, h⟩ := bind_eq_ok.1 h
    cases h
    exact hfield (fun _ => rfl) hok
  · cases h
    exact List.nil_sublist _
  · cases h
    exact List.nil_sublist _
  · obtain ⟨found, -, h⟩ := bind_eq_ok.1 h
    cases found with
    | none =>
      cases h
      exact List.Sublist.refl _
    | some c =>
      cases h
      exact List.nil_sublist _
  · cases h
    exact List.nil_sublist _

end Draft

/-- A pointer points to an object. -/
def PointerTable.Holds (t : PointerTable) (q : Pointer) (o : ObjId) : Prop :=
  ∃ i, t.pointer? i = some q ∧ o ∈ t.pts i

namespace State

variable {κ : Type} [Ord κ] [Std.TransOrd κ]

/-- One act. An edge leads to a pointer into which objects flow, an object is sent to such a
variable or to one that `S` says, and records are those that `N` says. All else stays as it is, but
for more objects, calls and pending methods. -/
inductive Act (d : Draft) (S : VarId → ObjId → Prop) (N : Event → Prop) :
    State κ → State κ → Prop where
  | note {st : State κ} {e : Event} : N e → Act d S N st (st.note e)
  | know (st : State κ) (q : Pointer) : Act d S N st (st.intern q).2
  | edge {st : State κ} {i j : PointerId} {q : Pointer} : st.pointers.pointer? j =
      some q → d.Fills q →
      Act d S N st (st.addEdge i j)
  | push {st : State κ} {i : PointerId} {v : VarId} {o : ObjId} : st.pointers.pointer? i =
      some (.var v) →
      d.Fills (.var v) ∨ S v o → Act d S N st { st with worklist := st.worklist.push (i, {o}) }
  | keep {st st' : State κ} : st'.pointers = st.pointers → st'.flow = st.flow →
      st'.worklist = st.worklist →
      st'.log = st.log → st.heap.objs.toList <+: st'.heap.objs.toList → Act d S N st st'

/-- Acts one after the other. -/
def Acts (d : Draft) (S : VarId → ObjId → Prop) (N : Event → Prop) : State κ → State κ → Prop :=
  Relation.ReflTransGen (Act d S N)

variable {d : Draft} {S : VarId → ObjId → Prop} {N : Event → Prop} {st st' : State κ}

/-! ## Passes are sequences of acts -/

theorem Act.addCall (e : CallEdge) : Act d S N st (st.addCall e) :=
  .keep rfl rfl rfl rfl List.prefix_rfl

namespace Acts

theorem connect {a b : Pointer} (hb : d.Fills b) : Acts d S N st (st.connect a b) := by
  have hj : ((st.intern a).2.intern b).2.pointers.pointer? ((st.intern a).2.intern b).1 = some b :=
    PointerTable.pointer?_intern_self _ b
  exact .head (.know st a) (.head (.know _ b) (.single (.edge hj hb)))

theorem send {v : VarId} {o : ObjId} (hv : d.Fills (.var v) ∨ S v o) :
    Acts d S N st (st.send (.var v) {o}) :=
  .head (.know st (.var v)) (.single (.push (PointerTable.pointer?_intern_self _ _) hv))

theorem foldl {α : Type} {f : State κ → α → State κ} {l : List α}
    (hstep : ∀ x ∈ l, ∀ st, Acts d S N st (f st x)) : Acts d S N st (l.foldl f st) := by
  refine List.foldlRecOn l f .refl fun st₁ h x hx => ?_
  exact h.trans (hstep x hx st₁)

theorem foldlM {α : Type} {f : State κ → α → Except Dangling (State κ)} {l : List α}
    (hok : l.foldlM f st = .ok st')
    (hstep : ∀ x ∈ l, ∀ st₁ st₂, f st₁ x = .ok st₂ → Acts d S N st₁ st₂) : Acts d S N st st' := by
  refine foldlM_invariant hok (fun x hx st₁ st₂ h hok₁ => ?_) .refl
  exact h.trans (hstep x hx st₁ st₂ hok₁)

theorem bind {c : Call} (hc : d.IsCall c) : Acts d S N st (st.bind c) := by
  obtain ⟨receiver, call, hs, hc⟩ := hc
  obtain ⟨m, method, -, hmethod, heq⟩ := Draft.resolveCall_eq_ok_iff.1 hc
  have hpass : Acts d S N st
      (c.passed.foldl (fun st e => st.connect (.var e.1) (.var e.2)) st) := by
    refine foldl fun e he st₁ => connect (.inr ⟨m, method, hmethod, ?_⟩)
    rw [heq] at he
    exact (List.of_mem_zip he).2
  rw [State.bind]
  split
  next => exact hpass
  next lhs hlhs =>
    have hresult : lhs ∈ (Stmt.invoke call).sinks := by
      rw [heq] at hlhs
      exact Option.mem_toList.2 hlhs
    refine (hpass.tail (.know _ (.var lhs))).trans (foldl fun v _ st₁ => ?_)
    exact connect (.of_stmt hs hresult)

variable [Std.LawfulEqOrd κ] {model : HeapModel κ}

theorem apply {s : StmtId} {e : Effect} (he : d.Asks s e)
    (hnote : ∀ event, e = .note event → N event) : Acts d S N st (st.apply model e) := by
  cases he with
  | @alloc lhs c isArray hstmt =>
    rw [State.apply]
    cases hkey : model.key? s (.of c isArray) with
    | none =>
      rw [Heap.alloc, hkey]
      exact .refl
    | some k =>
      rw [Heap.alloc, hkey]
      have hheap : Act d S N st { st with heap := (st.heap.intern k ⟨s, .of c isArray⟩).2 } :=
        .keep rfl rfl rfl rfl (Heap.prefix_intern _ _ _)
      have hlhs : d.Fills (.var lhs) := .of_stmt hstmt (by simp [Stmt.sinks])
      exact .head hheap (send (.inl hlhs))
  | copy hstmt => exact connect (.of_stmt hstmt (by simp [Stmt.sinks]))
  | load hstmt _ => exact connect (.of_stmt hstmt (by simp [Stmt.sinks]))
  | store _ _ => exact connect trivial
  | enter hstmt _ hc =>
    rw [State.apply]
    split
    next => exact .refl
    next => exact .head (.addCall _) (bind (Draft.isCall_of_resolveCall hstmt hc))
  | note _ => exact .single (.note (hnote _ rfl))

variable {p : Program} (hN : ∀ e : Event, e.unresolved? = none → N e)

include hN

theorem settleWithin {n : Nat} (hok : State.settleWithin model p n st = .ok st') :
    Acts p.toDraft S N st st' := by
  induction n generalizing st with
  | zero =>
    cases hok
    exact .refl
  | succ n ih =>
    rw [State.settleWithin] at hok
    split at hok
    next =>
      cases hok
      exact .refl
    next m rest hpending =>
      have hdrop : Act p.toDraft S N st { st with pending := rest } :=
        .keep rfl rfl rfl rfl List.prefix_rfl
      dsimp only at hok
      split at hok
      next => exact .head hdrop (ih hok)
      next =>
        obtain ⟨effects, heffects, hok⟩ := bind_eq_ok.1 hok
        have hreach : Acts p.toDraft S N { st with pending := rest }
            ({ st with pending := rest }.reach m) := by
          have hkeep : Act p.toDraft S N { st with pending := rest }
              { st with pending := rest, calls := st.calls.addReachable m } :=
                .keep rfl rfl rfl rfl List.prefix_rfl
          exact .head hkeep (.single (.note (hN _ rfl)))
        refine (Relation.ReflTransGen.head hdrop hreach).trans
          ((foldl fun e he st₁ => ?_).trans (ih hok))
        obtain ⟨s, es, -, hes, he⟩ := (Draft.mem_bodyEffects_iff heffects).1 he
        refine apply (Draft.asks_of_mem_stmtEffects hes he) fun event heq => hN event ?_
        subst heq
        exact Draft.unresolved?_of_mem_stmtEffects hes he

theorem receive {o : ObjId} {c : Call} (hc : p.IsCall c) (hS : ∀ v ∈ c.this, S v o)
    (hok : State.receive model p o st c = .ok st') : Acts p.toDraft S N st st' := by
  have hhand : Acts p.toDraft S N st (st.handOver o c) := by
    rw [handOver]
    split
    next => exact .refl
    next v hv => exact send (.inr (hS v hv))
  rw [receive_eq] at hok
  split at hok
  next =>
    cases hok
    exact hhand
  next =>
    obtain ⟨st₁, hsettle, hok⟩ := bind_eq_ok.1 hok
    cases hok
    exact (hhand.tail (.addCall _)).trans ((settleWithin hN hsettle).trans (bind hc))

/-- A reaction sends the object to the receiver of the callee alone. -/
theorem react {o : ObjId} {type : ObjType} {s : StmtId} {r : Reaction} (hr : p.Reacts o type s r)
    (hS : ∀ c v, r = .receive c → v ∈ c.this → S v o)
    (hnote : ∀ event, r = .effect (.note event) → N event)
    (hok : State.react model p o st r = .ok st') : Acts p.toDraft S N st st' := by
  cases hr with
  | store _ _ =>
    cases hok
    exact connect trivial
  | load hstmt _ =>
    cases hok
    exact connect (.of_stmt hstmt (by simp [Stmt.sinks]))
  | storeArray hstmt =>
    cases hok
    exact connect (.of_stmt hstmt (by simp [Stmt.sinks]))
  | loadArray hstmt =>
    cases hok
    exact connect (.of_stmt hstmt (by simp [Stmt.sinks]))
  | receive hstmt hc =>
    exact receive hN (Draft.isCall_of_resolveCall hstmt hc) (fun v hv => hS _ v rfl hv) hok
  | note _ =>
    cases hok
    exact .single (.note (hnote _ rfl))

theorem start {m : MethodId} (hok : State.start model p m st = .ok st') :
    Acts p.toDraft S N st st' := by
  have hentry : Act p.toDraft S N st
      { st with calls := st.calls.addEntry m, pending := m :: st.pending } :=
    .keep rfl rfl rfl rfl List.prefix_rfl
  exact .head hentry (settleWithin hN hok)

end Acts

/-! ## What acts leave alone -/

theorem Act.pointer? (h : Act d S N st st') {i : PointerId} {q : Pointer}
    (hi : st.pointers.pointer? i = some q) : st'.pointers.pointer? i = some q := by
  cases h with
  | note _ => exact hi
  | know => exact PointerTable.pointer?_intern_of_some _ hi
  | edge _ _ => rwa [pointers_addEdge]
  | push _ _ => exact hi
  | keep hpointers => rwa [hpointers]

theorem Act.pts_eq (h : Act d S N st st') (i : PointerId) :
    st'.pointers.pts i = st.pointers.pts i := by
  cases h with
  | note _ => rfl
  | know => exact PointerTable.pts_intern _ _ i
  | edge _ _ => rw [pointers_addEdge]
  | push _ _ => rfl
  | keep hpointers => rw [hpointers]

theorem Act.get (h : Act d S N st st') {o : ObjId} {obj : Obj} (ho : st.heap.get o = .ok obj) :
    st'.heap.get o = .ok obj := by
  cases h with
  | note | know | push => exact ho
  | edge _ _ => rwa [heap_addEdge]
  | keep _ _ _ _ hheap =>
    obtain ⟨k, he⟩ := Heap.get_eq_ok_iff.1 ho
    exact Heap.get_eq_ok_iff.2 ⟨k, Heap.record?_mono hheap he⟩

namespace Acts

variable (h : Acts d S N st st')

include h

theorem pointer? {i : PointerId} {q : Pointer} (hi : st.pointers.pointer? i = some q) :
    st'.pointers.pointer? i = some q := by
  induction h with
  | refl => exact hi
  | tail _ hact ih => exact hact.pointer? ih

theorem pts_eq (i : PointerId) : st'.pointers.pts i = st.pointers.pts i := by
  induction h with
  | refl => rfl
  | tail _ hact ih => exact (hact.pts_eq i).trans ih

theorem get {o : ObjId} {obj : Obj} (ho : st.heap.get o = .ok obj) : st'.heap.get o = .ok obj := by
  induction h with
  | refl => exact ho
  | tail _ hact ih => exact hact.get ih

theorem holds_iff {q : Pointer} {o : ObjId} :
    st'.pointers.Holds q o ↔ st.pointers.Holds q o := by
  constructor
  · rintro ⟨i, hi, ho⟩
    rw [h.pts_eq] at ho
    obtain ⟨q', hq'⟩ := PointerTable.pointer?_of_mem_pts ho
    cases (h.pointer? hq').symm.trans hi
    exact ⟨i, hq', ho⟩
  · rintro ⟨i, hi, ho⟩
    exact ⟨i, h.pointer? hi, by rwa [h.pts_eq]⟩

end Acts

/-! ## Entries of the work list -/

/-- The objects of an entry that its pointer does not have yet. -/
def news (st : State κ) (e : PointerId × ObjSet) : ObjSet := e.2 \ st.pointers.pts e.1

/-- An entry is handled, but for the visits. -/
def takeIn (st : State κ) (e : PointerId × ObjSet) : State κ :=
  if (st.news e).isEmpty then { st with pops := st.pops + 1, idle := st.idle + 1 }
  else { st with pops := st.pops + 1 }.grow e.1 (st.news e)

/-- The visits that an entry leads to. -/
def visitsOf (st : State κ) (e : PointerId × ObjSet) : List (VarId × ObjId) :=
  match st.pointers.pointer? e.1 with
  | some (.var v) => (st.news e).toList.map (v, ·)
  | _ => []

theorem mem_visitsOf {e : PointerId × ObjSet} {v : VarId} {o : ObjId} :
    (v, o) ∈ st.visitsOf e ↔ st.pointers.pointer? e.1 = some (.var v) ∧ o ∈ st.news e := by
  rw [visitsOf]
  split
  next v' hv' => simp [hv', and_comm, eq_comm]
  next hnone =>
    constructor
    · intro h
      exact absurd h List.not_mem_nil
    · rintro ⟨hv, -⟩
      exact absurd hv (hnone v)

/-- The objects that the pointers have when an entry is taken in: besides the old ones, the new ones
of the entry. -/
theorem holds_takeIn {e : PointerId × ObjSet} {q : Pointer} (hq : st.pointers.pointer? e.1 = some q)
    {q' : Pointer} {o : ObjId} :
    (st.takeIn e).pointers.Holds q' o ↔ st.pointers.Holds q' o ∨ (q' = q ∧ o ∈ st.news e) := by
  rw [takeIn]
  split
  next hempty =>
    have hnone : o ∉ st.news e := IdSet.isEmpty_iff.1 hempty o
    simp [hnone]
  next =>
    have hlt : e.1.index < st.pointers.size := PointerTable.pointer?_isSome_iff.1 ⟨q, hq⟩
    have hpts : ∀ i o, o ∈ ({ st with pops := st.pops + 1 }.grow e.1 (st.news e)).pointers.pts i ↔
        o ∈ st.pointers.pts i ∨ (i = e.1 ∧ o ∈ st.news e) := fun i o => mem_pts_grow hlt
    have hpointer : ∀ i, ({ st with pops :=
        st.pops + 1 }.grow e.1 (st.news e)).pointers.pointer? i =
        st.pointers.pointer? i := fun i => PointerTable.pointer?_absorb _ _ i _
    simp only [PointerTable.Holds, hpts, hpointer]
    constructor
    · rintro ⟨i, hi, ho | ⟨rfl, ho⟩⟩
      · exact .inl ⟨i, hi, ho⟩
      · exact .inr ⟨Option.some.inj (hi.symm.trans hq), ho⟩
    · rintro (⟨i, hi, ho⟩ | ⟨rfl, ho⟩)
      · exact ⟨i, hi, .inl ho⟩
      · exact ⟨e.1, hq, .inr ⟨rfl, ho⟩⟩

section Process

variable [Std.LawfulEqOrd κ] (model : HeapModel κ) (p : Program)

/-- To handle an entry is to take it in and then to make its visits, in order. -/
theorem process_eq {e : PointerId × ObjSet} {q : Pointer} (hq : st.pointers.pointer? e.1 = some q) :
    process model p st e = (st.visitsOf e).foldlM (fun st x => visit model p x.1 st x.2)
      (st.takeIn e) := by
  have hget : st.pointers.get e.1 = .ok (q, st.pointers.pts e.1) :=
    PointerTable.get_eq_ok_iff.2 ⟨hq, rfl⟩
  have hnews : e.2 \ st.pointers.pts e.1 = st.news e := rfl
  rw [process, visitsOf, takeIn, hq]
  simp only [hget, Bind.bind, Except.bind, hnews]
  cases hempty : (st.news e).isEmpty with
  | true =>
    have hnil : (st.news e).toList = [] := List.eq_nil_iff_forall_not_mem.2 fun o ho =>
      IdSet.isEmpty_iff.1 hempty o (Std.ExtTreeSet.mem_toList.1 ho)
    cases q with
    | var v =>
      rw [hnil]
      rfl
    | static | field => rfl
  | false =>
    cases q with
    | var v =>
      rw [List.foldlM_map]
      rfl
    | static | field => rfl

theorem exists_pointer?_of_process {e : PointerId × ObjSet} (hok : process model p st e = .ok st') :
    ∃ q, st.pointers.pointer? e.1 = some q := by
  rw [process] at hok
  obtain ⟨⟨q, objs⟩, hget, -⟩ := bind_eq_ok.1 hok
  exact ⟨q, (PointerTable.get_eq_ok_iff.1 hget).1⟩

end Process

end State

end PointsTo
