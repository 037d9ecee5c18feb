import PointsTo.Proofs.Subgraph

/-!
# Only reachable code is analysed

A state is `Confined` to the methods that are due if every variable that it knows belongs to such a
method, every call that it knows leads from a statement of such a method to such a method, and calls
lead from an entry to all of them (`CallGraph.LeadsTo`). Each function of the solver keeps a state
confined (`Confines`), since all it asks for is written in a statement of a method that is due or
belongs to the callee of a call. Between two calls of the solver nothing is pending, and what is due
is reached: `Run.only_reached_code_analysed`.
-/

namespace PointsTo

namespace CallGraph

variable {d : Draft} {g g' : CallGraph} {m : MethodId}

/-- A method calls another one from a statement of its body. -/
def Calls (g : CallGraph) (d : Draft) (m m' : MethodId) : Prop :=
  ∃ e ∈ g.edges, d.InBody m e.site ∧ e.callee = m'

/-- Calls lead from an entry to a method. -/
def LeadsTo (g : CallGraph) (d : Draft) (m : MethodId) : Prop :=
  ∃ entry ∈ g.entries, Relation.ReflTransGen (g.Calls d) entry m

theorem LeadsTo.mono (h : g.LeadsTo d m) (hentries : ∀ m ∈ g.entries, m ∈ g'.entries)
    (hedges : ∀ e ∈ g.edges, e ∈ g'.edges) : g'.LeadsTo d m := by
  obtain ⟨entry, hentry, hpath⟩ := h
  refine ⟨entry, hentries entry hentry, hpath.lift id fun a b hab => ?_⟩
  obtain ⟨e, he, hends⟩ := hab
  exact ⟨e, hedges e he, hends⟩

theorem LeadsTo.callee (h : g.LeadsTo d m) {e : CallEdge} (he : e ∈ g.edges)
    (hs : d.InBody m e.site) : g.LeadsTo d e.callee := by
  obtain ⟨entry, hentry, hpath⟩ := h
  exact ⟨entry, hentry, hpath.tail ⟨e, he, hs, rfl⟩⟩

theorem mem_entries_addEntry {m' : MethodId} :
    m' ∈ (g.addEntry m).entries ↔ m' ∈ g.entries ∨ m' = m := by
  rw [addEntry]
  split
  next hm =>
    constructor
    · exact .inl
    · rintro (h | rfl)
      · exact h
      · exact hm
  next => rw [List.mem_append, List.mem_singleton]

theorem reachable_addReachable (hm : m ∉ g.reachable) :
    (g.addReachable m).reachable = g.reachable ++ [m] := by
  have hnew : ¬ g.methods.contains (id m) = true := fun h => hm (reaches_iff.1 h)
  show (g.methods.add m).toList = _
  rw [Catalog.toList_add, if_neg hnew]
  rfl

@[simp] theorem entries_addEdge (g : CallGraph) (e : CallEdge) :
    (g.addEdge e).entries = g.entries := by
  rw [addEdge]
  split <;> rfl

end CallGraph

namespace State

variable {κ : Type} [Ord κ] [Std.TransOrd κ] {d : Draft} {st st' : State κ}

/-- A pointer that is not a variable of a method that is not due. -/
def Admits (d : Draft) (st : State κ) : Pointer → Prop
  | .var v => ∃ m, st.Due m ∧ d.Owns m v
  | .static _ | .field .. => True

/-- All that a state knows is about methods that are due, and calls lead to these from an entry. -/
structure Confined (d : Draft) (st : State κ) : Prop where
  known : ∀ i q, st.pointers.pointer? i = some q → st.Admits d q
  sites : ∀ e ∈ st.calls.edges, ∃ m, st.Due m ∧ d.InBody m e.site
  callees : ∀ e ∈ st.calls.edges, st.Due e.callee
  linked : ∀ m, st.Due m → st.calls.LeadsTo d m

theorem Confined.empty : Confined d ({} : State κ) where
  known i q hi := absurd (PointerTable.pointer?_isSome_iff.1 ⟨q, hi⟩) (Nat.not_lt_zero _)
  sites e he := absurd he List.not_mem_nil
  callees e he := absurd he List.not_mem_nil
  linked m hm := by
    rcases hm with hm | hm
    · exact absurd hm List.not_mem_nil
    · exact absurd hm List.not_mem_nil

/-- What happens between two states keeps a confined state confined, loses no method that is due,
and adds no entry. -/
structure Confines (d : Draft) (st st' : State κ) : Prop where
  confined : st.Confined d → st'.Confined d
  due : ∀ m, st.Due m → st'.Due m
  entries : st'.calls.entries = st.calls.entries

theorem admits_mono (hdue : ∀ m, st.Due m → st'.Due m) {q : Pointer} (hq : st.Admits d q) :
    st'.Admits d q := by
  cases q with
  | var v =>
    obtain ⟨m, hm, hv⟩ := hq
    exact ⟨m, hdue m hm, hv⟩
  | static | field => trivial

namespace Confines

theorem refl (st : State κ) : Confines d st st := ⟨id, fun _ h => h, rfl⟩

theorem trans {st₁ st₂ st₃ : State κ} (h : Confines d st₁ st₂) (h' : Confines d st₂ st₃) :
    Confines d st₁ st₃ :=
  ⟨fun hst => h'.confined (h.confined hst), fun m hm => h'.due m (h.due m hm),
    h'.entries.trans h.entries⟩

theorem admits (h : Confines d st st') {q : Pointer} (hq : st.Admits d q) : st'.Admits d q :=
  admits_mono h.due hq

/-- The methods that are due stay the same, be they reached or pending. -/
theorem of_due_iff (hpointers : ∀ i, st'.pointers.pointer? i = st.pointers.pointer? i)
    (hedges : st'.calls.edges = st.calls.edges) (hentries : st'.calls.entries = st.calls.entries)
    (hdue : ∀ m, st'.Due m ↔ st.Due m) : Confines d st st' := by
  refine ⟨fun h => ⟨fun i q hi => ?_, fun e he => ?_, fun e he => ?_, fun m hm => ?_⟩,
    fun m hm => (hdue m).2 hm, hentries⟩
  · rw [hpointers] at hi
    exact admits_mono (fun m hm => (hdue m).2 hm) (h.known i q hi)
  · rw [hedges] at he
    obtain ⟨m, hm, hs⟩ := h.sites e he
    exact ⟨m, (hdue m).2 hm, hs⟩
  · rw [hedges] at he
    exact (hdue _).2 (h.callees e he)
  · exact (h.linked m ((hdue m).1 hm)).mono (fun m hm => hentries ▸ hm) fun e he => hedges ▸ he

/-- Objects, flows, the work list and the log do not matter. -/
theorem of_eq (hpointers : ∀ i, st'.pointers.pointer? i = st.pointers.pointer? i)
    (hcalls : st'.calls = st.calls) (hpending : st'.pending = st.pending) : Confines d st st' := by
  refine of_due_iff hpointers (by rw [hcalls]) (by rw [hcalls]) fun m => ?_
  rw [Due, Due, hcalls, hpending]

theorem intern {q : Pointer} (hq : st.Admits d q) : Confines d st (st.intern q).2 := by
  refine ⟨fun h => ⟨fun i q' hi => ?_, h.sites, h.callees, h.linked⟩, fun _ h => h, rfl⟩
  rcases PointerTable.pointer?_of_intern hi with hi | ⟨-, rfl⟩
  · exact h.known i q' hi
  · exact hq

theorem send {q : Pointer} (hq : st.Admits d q) (objs : ObjSet) : Confines d st (st.send q objs) :=
  (intern hq).trans (of_eq (fun _ => rfl) rfl rfl)

theorem addEdge (i j : PointerId) : Confines d st (st.addEdge i j) :=
  of_eq (fun _ => by rw [pointers_addEdge]) (calls_addEdge i j) (pending_addEdge i j)

theorem connect {a b : Pointer} (ha : st.Admits d a) (hb : st.Admits d b) :
    Confines d st (st.connect a b) := by
  have hfirst : Confines d st (st.intern a).2 := intern ha
  have hsecond : Confines d (st.intern a).2 ((st.intern a).2.intern b).2 :=
    intern (hfirst.admits hb)
  exact (hfirst.trans hsecond).trans (addEdge _ _)

theorem foldl {α : Type} {f : State κ → α → State κ} (l : List α)
    (hstep : ∀ x ∈ l, ∀ st₁, Confines d st st₁ → Confines d st₁ (f st₁ x)) :
    Confines d st (l.foldl f st) := by
  refine List.foldlRecOn l f (refl st) fun st₁ h x hx => ?_
  exact h.trans (hstep x hx st₁ h)

theorem foldlM {α : Type} {f : State κ → α → Except Dangling (State κ)} {l : List α}
    (hok : l.foldlM f st = .ok st')
    (hstep : ∀ x ∈ l, ∀ st₁ st₂, Confines d st st₁ → f st₁ x = .ok st₂ → Confines d st₁ st₂) :
    Confines d st st' := by
  refine foldlM_invariant hok (fun x hx st₁ st₂ h hok₁ => ?_) (refl st)
  exact h.trans (hstep x hx st₁ st₂ h hok₁)

/-- A new call from a method that is due makes its callee due. -/
theorem addCall {e : CallEdge} {m : MethodId} (hnew : st.hasCall e = false) (hm : st.Due m)
    (hs : d.InBody m e.site) : Confines d st (st.addCall e) := by
  have hdue : ∀ m, (st.addCall e).Due m ↔ st.Due m ∨ m = e.callee := fun m => by
    rw [Due, Due, State.addCall, CallGraph.reachable_addEdge, List.mem_cons,
      or_comm (a := m = e.callee), or_assoc]
  have hentries : (st.addCall e).calls.entries = st.calls.entries := CallGraph.entries_addEdge _ _
  have hold : ∀ m, st.Due m → (st.addCall e).Due m := fun m hm => (hdue m).2 (.inl hm)
  have hedge : ∀ e', e' ∈ (st.addCall e).calls.edges ↔ e' ∈ st.calls.edges ∨ e' = e := fun e' => by
    rw [State.addCall, CallGraph.mem_edges_addEdge]
    exact or_congr_right (and_iff_left hnew)
  have hlinked : ∀ m, st.calls.LeadsTo d m → (st.addCall e).calls.LeadsTo d m := fun m h =>
    h.mono (fun m hm => hentries ▸ hm) fun e' he' => (hedge e').2 (.inl he')
  refine ⟨fun h => ⟨fun i q hi => ?_, fun e' he' => ?_, fun e' he' => ?_, fun m' hm' => ?_⟩,
    hold, hentries⟩
  · exact admits_mono hold (h.known i q hi)
  · rcases (hedge e').1 he' with he' | rfl
    · obtain ⟨m', hm', hs'⟩ := h.sites e' he'
      exact ⟨m', hold m' hm', hs'⟩
    · exact ⟨m, hold m hm, hs⟩
  · rcases (hedge e').1 he' with he' | rfl
    · exact hold _ (h.callees e' he')
    · exact (hdue _).2 (.inr rfl)
  · rcases (hdue m').1 hm' with hm' | rfl
    · exact hlinked m' (h.linked m' hm')
    · exact (hlinked m (h.linked m hm)).callee ((hedge e).2 (.inr rfl)) hs

end Confines

/-! ## Statements of methods that are due -/

section Statements

variable (hd : d.Regular) {m : MethodId} {s : StmtId}

include hd

theorem admits_of_inBody {stmt : Stmt} {v : VarId} (hm : st.Due m) (hs : d.InBody m s)
    (hstmt : d.HasStmt s stmt) (hv : v ∈ stmt.vars) : st.Admits d (.var v) :=
  ⟨m, hm, hd.locals.owns_of_inBody hd.built.filed hs hstmt hv⟩

/-- The variables of a call belong to its site or to its callee. -/
theorem admits_of_call {c : Call} (hc : d.IsCall c) (hm : st.Due m) (hs : d.InBody m c.edge.site)
    (hcallee : st.Due c.edge.callee) :
    (∀ v ∈ c.this, st.Admits d (.var v)) ∧
    (∀ e ∈ c.passed, st.Admits d (.var e.1) ∧ st.Admits d (.var e.2)) ∧
      (∀ v ∈ c.result, st.Admits d (.var v)) ∧ ∀ v ∈ c.returned, st.Admits d (.var v) := by
  obtain ⟨receiver, call, hstmt, hc⟩ := hc
  obtain ⟨callee, method, -, hmethod, heq⟩ := Draft.resolveCall_eq_ok_iff.1 hc
  have hsite : ∀ v ∈ call.vars, st.Admits d (.var v) :=
    fun v hv => admits_of_inBody hd hm hs hstmt hv
  have hends : ∀ v ∈ method.ends, st.Admits d (.var v) := fun v hv => by
    rw [heq] at hcallee
    exact ⟨callee, hcallee, hd.locals.methods callee method hmethod v hv⟩
  simp only [Invoke.vars, Method.ends, List.mem_append, Option.mem_toList] at hsite hends
  rw [heq]
  refine ⟨fun v hv => hends v (.inl (.inl hv)), fun e he => ⟨?_, ?_⟩,
    fun v hv => hsite v (.inl (.inl hv)), fun v hv => hends v (.inr hv)⟩
  · exact hsite _ (.inr (List.of_mem_zip he).1)
  · exact hends _ (.inl (.inr (List.of_mem_zip he).2))

theorem Confines.bind {c : Call} (hc : d.IsCall c) (hm : st.Due m) (hs : d.InBody m c.edge.site)
    (hcallee : st.Due c.edge.callee) : Confines d st (st.bind c) := by
  obtain ⟨-, hpassed, hresult, hreturned⟩ := admits_of_call hd hc hm hs hcallee
  have hpass : Confines d st (c.passed.foldl (fun st e => st.connect (.var e.1) (.var e.2)) st) :=
    foldl c.passed fun e he st₁ h => connect (h.admits (hpassed e he).1) (h.admits (hpassed e he).2)
  rw [State.bind]
  split
  next => exact hpass
  next lhs hlhs =>
    have hknow := hpass.trans (intern (hpass.admits (hresult lhs hlhs)))
    refine hknow.trans (foldl c.returned fun v hv st₁ h => ?_)
    exact connect ((hknow.trans h).admits (hreturned v hv))
      ((hknow.trans h).admits (hresult lhs hlhs))

variable [Std.LawfulEqOrd κ] {model : HeapModel κ}

theorem Confines.apply {e : Effect} (hm : st.Due m) (hs : d.InBody m s) (he : d.Asks s e) :
    Confines d st (st.apply model e) := by
  have hvars : ∀ {stmt v}, d.HasStmt s stmt → v ∈ stmt.vars → st.Admits d (.var v) :=
    fun hstmt hv => admits_of_inBody hd hm hs hstmt hv
  cases he with
  | @alloc lhs c isArray hstmt =>
    rw [State.apply]
    split
    next => exact refl st
    next o heap _ =>
      have hheap : Confines d st { st with heap } := of_eq (fun _ => rfl) rfl rfl
      exact hheap.trans (send (hheap.admits (hvars hstmt (by simp [Stmt.vars]))) _)
  | copy hstmt =>
    exact connect (hvars hstmt (by simp [Stmt.vars])) (hvars hstmt (by simp [Stmt.vars]))
  | load hstmt _ => exact connect trivial (hvars hstmt (by simp [Stmt.vars]))
  | store hstmt _ => exact connect (hvars hstmt (by simp [Stmt.vars])) trivial
  | @enter call c hstmt _ hc =>
    have hcall := Draft.isCall_of_resolveCall hstmt hc
    rw [← Draft.site_of_resolveCall hc] at hs
    rw [State.apply]
    split
    next => exact refl st
    next hnew =>
      have hadd : Confines d st (st.addCall c.edge) := addCall (by simpa using hnew) hm hs
      exact hadd.trans (bind hd hcall (hadd.due m hm) hs (.inr (List.mem_cons_self ..)))
  | note _ => exact of_eq (fun _ => rfl) rfl rfl

end Statements

/-! ## Passes of the solver -/

section Passes

variable [Std.LawfulEqOrd κ] {model : HeapModel κ} {p : Program} (hd : p.toDraft.Regular)

include hd

theorem Confines.settleWithin {n : Nat} (hok : State.settleWithin model p n st = .ok st') :
    Confines p.toDraft st st' := by
  induction n generalizing st with
  | zero =>
    cases hok
    exact refl _
  | succ n ih =>
    rw [State.settleWithin] at hok
    split at hok
    next =>
      cases hok
      exact refl _
    next m rest hpending =>
      dsimp only at hok
      split at hok
      next hm =>
        have hskip : Confines p.toDraft st { st with pending := rest } := by
          refine of_due_iff (fun _ => rfl) rfl rfl fun m' => ?_
          have hreached : m ∈ st.calls.reachable := CallGraph.reaches_iff.1 hm
          rw [Due, Due, hpending, List.mem_cons]
          constructor
          · exact Or.imp_right .inr
          · rintro (hm' | rfl | hm')
            · exact .inl hm'
            · exact .inl hreached
            · exact .inr hm'
        exact hskip.trans (ih hok)
      next =>
        obtain ⟨effects, heffects, hok⟩ := bind_eq_ok.1 hok
        have hreach : Confines p.toDraft st ({ st with pending := rest }.reach m) := by
          refine of_due_iff (fun _ => rfl) rfl rfl fun m' => ?_
          rw [Due, Due, hpending, List.mem_cons, ← or_assoc]
          exact or_congr_left CallGraph.mem_reachable_addReachable
        have hm : ({ st with pending := rest }.reach m).Due m :=
          .inl (CallGraph.mem_reachable_addReachable.2 (.inr rfl))
        refine (hreach.trans (foldl effects fun e he st₁ h => ?_)).trans (ih hok)
        obtain ⟨s, es, hs, hes, he⟩ := (Draft.mem_bodyEffects_iff heffects).1 he
        exact apply hd (h.due m hm) hs (Draft.asks_of_mem_stmtEffects hes he)

/-- The receiver enters the callee before the call is added; the callee is due in either case. -/
theorem Confines.receive {m : MethodId} {o : ObjId} {c : Call} (hst : st.Confined p.toDraft)
    (hc : p.IsCall c) (hm : st.Due m) (hs : p.InBody m c.edge.site)
    (hok : State.receive model p o st c = .ok st') : Confines p.toDraft st st' := by
  have hhand : ∀ st₁ : State κ, st₁.Due m → st₁.Due c.edge.callee →
      Confines p.toDraft st₁ (st₁.handOver o c) := by
    intro st₁ hm hcallee
    obtain ⟨hthis, -⟩ := admits_of_call hd hc hm hs hcallee
    rw [handOver]
    split
    next => exact refl st₁
    next v hv => exact send (hthis v hv) _
  have hcalls : (st.handOver o c).hasCall c.edge = st.hasCall c.edge := by
    rw [handOver]
    split <;> rfl
  have hswap : (st.handOver o c).addCall c.edge = (st.addCall c.edge).handOver o c := by
    rw [handOver, handOver]
    split <;> rfl
  rw [receive_eq, hcalls, hswap] at hok
  split at hok
  next hcall =>
    cases hok
    obtain ⟨e, he, -, hcallee⟩ := CallGraph.hasEdge_iff.1 hcall
    exact hhand st hm (hcallee ▸ hst.callees e he)
  next hnew =>
    obtain ⟨st₁, hsettle, hok⟩ := bind_eq_ok.1 hok
    cases hok
    have hadd : Confines p.toDraft st (st.addCall c.edge) := addCall (by simpa using hnew) hm hs
    have hcallee : (st.addCall c.edge).Due c.edge.callee := .inr (List.mem_cons_self ..)
    have hrest := (hhand _ (hadd.due m hm) hcallee).trans (settleWithin hd hsettle)
    exact hadd.trans (hrest.trans
      (bind hd hc (hrest.due m (hadd.due m hm)) hs (hrest.due _ hcallee)))

theorem Confines.react {m : MethodId} {s : StmtId} {o : ObjId} {type : ObjType} {r : Reaction}
    (hst : st.Confined p.toDraft) (hm : st.Due m) (hs : p.InBody m s) (hr : p.Reacts o type s r)
    (hok : State.react model p o st r = .ok st') : Confines p.toDraft st st' := by
  have hvars : ∀ {stmt v}, p.HasStmt s stmt → v ∈ stmt.vars → st.Admits p.toDraft (.var v) :=
    fun hstmt hv => admits_of_inBody hd hm hs hstmt hv
  cases hr with
  | store hstmt _ =>
    cases hok
    exact connect (hvars hstmt (by simp [Stmt.vars])) trivial
  | load hstmt _ =>
    cases hok
    exact connect trivial (hvars hstmt (by simp [Stmt.vars]))
  | storeArray hstmt =>
    cases hok
    exact connect (hvars hstmt (by simp [Stmt.vars])) (hvars hstmt (by simp [Stmt.vars]))
  | loadArray hstmt =>
    cases hok
    exact connect (hvars hstmt (by simp [Stmt.vars])) (hvars hstmt (by simp [Stmt.vars]))
  | @receive call c hstmt hc =>
    have hcall := Draft.isCall_of_resolveCall hstmt hc
    exact receive hd hst hcall hm (Draft.site_of_resolveCall hc ▸ hs) hok
  | note _ =>
    cases hok
    exact of_eq (fun _ => rfl) rfl rfl

variable (hp : p.Proper)

include hp

/-- The statements that use a variable stand in the method of the variable. -/
theorem Confines.visit {v : VarId} {o : ObjId} (hst : st.Confined p.toDraft)
    (hv : st.Admits p.toDraft (.var v)) (hok : State.visit model p v st o = .ok st') :
    Confines p.toDraft st st' := by
  obtain ⟨m, hm, howns⟩ := hv
  rw [State.visit] at hok
  obtain ⟨obj, -, hok⟩ := bind_eq_ok.1 hok
  obtain ⟨rs, hrs, hok⟩ := bind_eq_ok.1 hok
  refine foldlM hok fun r hr st₁ st₂ h hok₁ => ?_
  obtain ⟨s, rs', ⟨stmt, u, hstmt, huse⟩, hrs', hr⟩ := (hp.mem_reactions_iff hrs).1 hr
  have hs := hd.locals.inBody_of_owns hd.built.filed hstmt (Stmt.mem_vars_of_use? huse) howns
  exact react hd (h.confined hst) (h.due m hm) hs (Draft.reacts_of_mem_stmtReactions hrs' hr) hok₁

theorem Confines.process {e : PointerId × ObjSet} (hst : st.Confined p.toDraft)
    (hok : State.process model p st e = .ok st') : Confines p.toDraft st st' := by
  rw [State.process] at hok
  obtain ⟨⟨q, objs⟩, hget, hok⟩ := bind_eq_ok.1 hok
  obtain ⟨hq, -⟩ := PointerTable.get_eq_ok_iff.1 hget
  dsimp only at hok
  split at hok
  next =>
    cases hok
    exact of_eq (fun _ => rfl) rfl rfl
  next =>
    have hgrow : ∀ delta, Confines p.toDraft st
        ({ st with pops := st.pops + 1 }.grow e.1 delta) := fun delta =>
      of_eq (fun i => PointerTable.pointer?_absorb _ _ i _) rfl rfl
    cases q with
    | var v =>
      refine (hgrow _).trans (foldlM hok fun o _ st₁ st₂ h hok₁ => ?_)
      have hall := (hgrow _).trans h
      exact visit hd hp (hall.confined hst) (hall.admits (hst.known _ _ hq)) hok₁
    | static | field =>
      cases hok
      exact hgrow _

omit hp in
/-- The method at which the analysis is started becomes an entry, to which no calls have to lead. -/
theorem Confined.start {m : MethodId} (hst : st.Confined p.toDraft)
    (hok : State.start model p m st = .ok st') :
    st'.Confined p.toDraft ∧ ∀ m', m' ∈ st'.calls.entries ↔ m' ∈ st.calls.entries ∨ m' = m := by
  rw [State.start] at hok
  have hrest := Confines.settleWithin hd hok
  have hedges : (st.calls.addEntry m).edges = st.calls.edges := CallGraph.edges_addEntry _ _
  have hdue : ∀ m', Due { st with calls := st.calls.addEntry m, pending := m :: st.pending } m' ↔
      st.Due m' ∨ m' = m := fun m' => by
    rw [Due, Due, CallGraph.reachable_addEntry, List.mem_cons, or_comm (a := m' = m), or_assoc]
  have hold : ∀ m', st.Due m' →
      Due { st with calls := st.calls.addEntry m, pending := m :: st.pending } m' :=
    fun m' hm' => (hdue m').2 (.inl hm')
  refine ⟨hrest.confined ⟨fun i q hi => ?_, fun e he => ?_, fun e he => ?_, fun m' hm' => ?_⟩,
    fun m' => ?_⟩
  · exact admits_mono hold (hst.known i q hi)
  · obtain ⟨m', hm', hs⟩ := hst.sites e (hedges ▸ he)
    exact ⟨m', hold m' hm', hs⟩
  · exact hold _ (hst.callees e (hedges ▸ he))
  · rcases (hdue m').1 hm' with hm' | rfl
    · exact (hst.linked m' hm').mono (fun m' hm' => CallGraph.mem_entries_addEntry.2 (.inl hm'))
        fun e he => hedges.symm ▸ he
    · exact ⟨m', CallGraph.mem_entries_addEntry.2 (.inr rfl), .refl⟩
  · rw [hrest.entries]
    exact CallGraph.mem_entries_addEntry

theorem Run.confined {facts : List (Fact κ)} (hrun : Run model p facts st) :
    st.Confined p.toDraft ∧ ∀ m, m ∈ st.calls.entries ↔ .reached m ∈ facts := by
  induction hrun with
  | empty =>
    exact ⟨.empty, fun m => ⟨fun h => absurd h List.not_mem_nil,
      fun h => absurd h List.not_mem_nil⟩⟩
  | @start facts st st' m _ _ hok ih =>
    obtain ⟨hconfined, hentries⟩ := ih.1.start hd hok
    refine ⟨hconfined, fun m' => ?_⟩
    rw [hentries, ih.2, List.mem_cons, Fact.reached.injEq, or_comm]
  | @link facts st st' i j a b _ _ _ hok ih =>
    cases eq_addEdge_of_addFlow hok
    have hlink : Confines p.toDraft st (st.addEdge i j) := .addEdge i j
    refine ⟨hlink.confined ih.1, fun m => ?_⟩
    rw [hlink.entries, ih.2, List.mem_cons]
    simp
  | @take facts st st' older newer e rest _ _ _ hok ih =>
    have htake : Confines p.toDraft st { st with worklist := rest } := .of_eq (fun _ => rfl) rfl rfl
    have hprocess := htake.trans (.process hd hp (htake.confined ih.1) hok)
    refine ⟨hprocess.confined ih.1, fun m => ?_⟩
    rw [hprocess.entries, ih.2]

end Passes

end State

/-! ## Each method once -/

/-- The method whose statements are processed when an event is recorded. -/
def Event.reached? : Event → Option MethodId
  | .reached m => some m
  | _ => none

/-- The methods whose statements were processed, in order. -/
def Log.reached (log : Log) : List MethodId := log.toList.filterMap Event.reached?

theorem Log.filterMap_push {α : Type} (f : Event → Option α) (log : Log) (e : Event) :
    (log.push e).toList.filterMap f = log.toList.filterMap f ++ (f e).toList := by
  rw [Array.toList_push, List.filterMap_append]
  cases h : f e with
  | none => simp [h]
  | some a => simp [h]

theorem Log.reached_push (log : Log) (e : Event) :
    Log.reached (log.push e) = Log.reached log ++ e.reached?.toList :=
  filterMap_push _ log e

namespace State

variable {κ : Type} [Ord κ] [Std.TransOrd κ] [Std.LawfulEqOrd κ] {model : HeapModel κ} {p : Program}
  {st : State κ}

/-- Each method is processed when it is reached and never again. -/
theorem Run.reached_log (hp : p.Proper) {facts : List (Fact κ)} (hrun : Run model p facts st) :
    Log.reached st.log = st.calls.reachable := by
  refine hrun.invariant (I := fun st => Log.reached st.log = st.calls.reachable) hp rfl
    (fun {_ _ st₁ _} h hst => ?_) fun h hst => ?_
  · cases h with
    | note he =>
      rw [State.note, Log.reached_push, hst]
      cases he <;> exact List.append_nil _
    | entry _ => rw [hst, CallGraph.reachable_addEntry]
    | @reach _ m _ _ _ hm _ =>
      show Log.reached (st₁.log.push (.reached m)) = (st₁.calls.addReachable m).reachable
      rw [Log.reached_push, hst, CallGraph.reachable_addReachable hm]
      rfl
    | call _ _ => rw [addCall, CallGraph.reachable_addEdge, hst]
    | edge _ _ _ =>
      rw [calls_addEdge, ← hst, addEdge]
      split <;> rfl
    | skip | alloc | know | push => exact hst
  · cases h with
    | idle => exact hst
    | grow =>
      rw [grow, State.note, Log.reached_push, hst]
      exact List.append_nil _

/-- Between the calls of a run on a program that was read from a text, all that the solver knows is
about the methods that it has reached. Their variables are the only ones with pointers, calls are
made from their statements and enter them, and their statements allocate all objects. Calls lead to
each of them from one of the methods at which the analysis was started, and the statements of each
are processed once. -/
theorem Run.only_reached_code_analysed {model : HeapModel κ} {text : String} {p : Program}
    {facts : List (Fact κ)} {st : State κ} (htext : Program.ofText text = .ok p)
    (hrun : Run model p facts st) :
    (∀ i v, st.pointers.pointer? i = some (.var v) → ∃ m ∈ st.calls.reachable, p.Owns m v) ∧
    (∀ e ∈ st.calls.edges, (∃ m ∈ st.calls.reachable, p.InBody m e.site) ∧
      e.callee ∈ st.calls.reachable) ∧
    (∀ o obj, st.heap.get o = .ok obj →
      ∃ m ∈ st.calls.reachable, p.InBody m obj.site ∧ p.Allocates obj.site obj.type) ∧
    (∀ m, m ∈ st.calls.entries ↔ .reached m ∈ facts) ∧
    (∀ m ∈ st.calls.reachable, st.calls.LeadsTo p.toDraft m) ∧
    st.calls.reachable.Nodup ∧ Log.reached st.log = st.calls.reachable := by
  have hp := Program.Proper.of_ofText htext
  obtain ⟨hconfined, hentries⟩ := hrun.confined (Program.regular_of_ofText htext).1 hp
  obtain ⟨hrests, -, -⟩ := hrun.spec hp
  have hdue : ∀ m, st.Due m → m ∈ st.calls.reachable := fun m hm =>
    hm.resolve_right (by rw [hrests.pending]; exact List.not_mem_nil)
  refine ⟨fun i v hi => ?_, fun e he => ⟨?_, hdue _ (hconfined.callees e he)⟩,
    fun o obj ho => ?_, hentries,
    fun m hm => hconfined.linked m (.inl hm), DistinctList.nodup_toList _, hrun.reached_log hp⟩
  · obtain ⟨m, hm, hv⟩ := hconfined.known i _ hi
    exact ⟨m, hdue m hm, hv⟩
  · obtain ⟨m, hm, hs⟩ := hconfined.sites e he
    exact ⟨m, hdue m hm, hs⟩
  · obtain ⟨k, hrecord⟩ := Heap.get_eq_ok_iff.1 ho
    obtain ⟨m, lhs, c, isArray, hm, hs, hstmt, htype, -⟩ := hrests.supported.objects o k obj hrecord
    exact ⟨m, hm, hs, lhs, c, isArray, hstmt, htype⟩

theorem Run.sample_only_reached_code_analysed :
    ∃ p st, Program.ofText sampleText = .ok p ∧ Run .bySite p [.reached ⟨1⟩] st ∧
      st.worklist.toList = [] ∧
      (∀ m, m ∈ st.calls.entries ↔ m = ⟨1⟩) ∧
      (∀ m ∈ st.calls.reachable, st.calls.LeadsTo p.toDraft m) ∧
      Log.reached st.log = st.calls.reachable := by
  obtain ⟨p, htext, -, hmain⟩ := sampleText_accepted
  have hempty : Run .bySite p [] {} := .empty
  obtain ⟨st₁, -, hrun₁⟩ := hempty.exists_start (.of_ofText htext) hmain
  obtain ⟨st, -, hrun, hdone⟩ := hrun₁.drain (.of_ofText htext)
  obtain ⟨-, -, -, hentries, hleads, -, hlog⟩ := Run.only_reached_code_analysed htext hrun
  refine ⟨p, st, htext, hrun, hdone, fun m => ?_, hleads, hlog⟩
  rw [hentries, List.mem_singleton, Fact.reached.injEq]

end State

end PointsTo
