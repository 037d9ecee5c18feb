import Mathlib.Data.Finset.Card
import Mathlib.Data.Finset.Range
import PointsTo.Proofs.Support

/-!
# What the passes of the solver achieve

One statement for each function of the solver: it returns, it makes only moves, and what it was
asked for is there when it is done (`Satisfies`, `Handles`, `Covers`). A call that is found while an
object is handled is *open* until the methods that it leads to have been settled; only then its
arguments are bound (`Binds`). After `settle` nothing is pending, and the state is `Settled`
(`settle_spec`).
-/

namespace PointsTo

namespace State

variable {κ : Type} [Ord κ] [Std.TransOrd κ]

/-! ## What is asked for, and when it is there -/

/-- There is an edge between two pointers. -/
def Connected (st : State κ) (a b : Pointer) : Prop :=
  ∃ i j, st.pointers.pointer? i = some a ∧ st.pointers.pointer? j = some b ∧
    st.flow.hasEdge i j = true

/-- An object is at a variable or on its way there. -/
def Reaches (st : State κ) (o : ObjId) (v : VarId) : Prop :=
  ∃ i, st.pointers.pointer? i = some (.var v) ∧ st.Arrives i o

/-- Arguments flow into parameters and returned values into the result. -/
structure Bound (st : State κ) (c : Call) : Prop where
  passed : ∀ e ∈ c.passed, st.Connected (.var e.1) (.var e.2)
  result : ∀ lhs ∈ c.result, ∃ i, st.pointers.pointer? i = some (.var lhs)
  returned : ∀ lhs ∈ c.result, ∀ v ∈ c.returned, st.Connected (.var v) (.var lhs)

/-- What an effect asks for is there. -/
def Satisfies (model : HeapModel κ) (st : State κ) : Effect → Prop
  | .alloc lhs obj =>
    ∀ k, model.key? obj.site obj.type = some k → ∃ o, st.heap.keyOf o = some k ∧ st.Reaches o lhs
  | .flow a b => st.Connected a b
  | .enter c => st.hasCall c.edge = true
  | .note _ => True

/-- What a reaction to an object asks for is there. -/
def Handles (model : HeapModel κ) (st : State κ) (o : ObjId) : Reaction → Prop
  | .effect e => st.Satisfies model e
  | .receive c => st.hasCall c.edge = true ∧ ∀ v ∈ c.this, st.Reaches o v

/-- All calls but an open one are bound. -/
def Binds (d : Draft) (open? : Option Call) (st : State κ) : Prop :=
  ∀ c, d.IsCall c → st.hasCall c.edge = true → some c ≠ open? → st.Bound c

/-- All that a method asks for is there. -/
def Covers (d : Draft) (model : HeapModel κ) (st : State κ) (m : MethodId) : Prop :=
  ∀ s e, d.InBody m s → d.Asks s e → st.Satisfies model e

/-- All that the reached methods ask for is there, and all calls but an open one are bound. -/
structure Settled (d : Draft) (model : HeapModel κ) (open? : Option Call) (st : State κ) :
    Prop where
  covers : ∀ m ∈ st.calls.reachable, st.Covers d model m
  binds : st.Binds d open?

/-- All that an object of a variable asks for is there. -/
def Visited (d : Draft) (model : HeapModel κ) (st : State κ) (v : VarId) (o : ObjId) : Prop :=
  ∃ obj, st.heap.get o = .ok obj ∧ ∀ s r, d.DependsOn s v → d.Reacts o obj.type s r →
    st.Handles model o r

namespace Le

variable {st st' : State κ} (h : Le st st')

include h

theorem connected {a b : Pointer} (hab : st.Connected a b) : st'.Connected a b := by
  obtain ⟨i, j, hi, hj, hij⟩ := hab
  exact ⟨i, j, h.pointer? hi, h.pointer? hj, h.hasEdge hij⟩

theorem reaches {o : ObjId} {v : VarId} (ho : st.Reaches o v) : st'.Reaches o v := by
  obtain ⟨i, hi, ho⟩ := ho
  exact ⟨i, h.pointer? hi, h.arrives i o ho⟩

theorem bound {c : Call} (hc : st.Bound c) : st'.Bound c where
  passed e he := h.connected (hc.passed e he)
  result lhs hlhs := by
    obtain ⟨i, hi⟩ := hc.result lhs hlhs
    exact ⟨i, h.pointer? hi⟩
  returned lhs hlhs v hv := h.connected (hc.returned lhs hlhs v hv)

theorem satisfies {model : HeapModel κ} {e : Effect} (he : st.Satisfies model e) :
    st'.Satisfies model e := by
  cases e with
  | alloc lhs obj =>
    intro k hk
    obtain ⟨o, ho, hreaches⟩ := he k hk
    exact ⟨o, h.keyOf ho, h.reaches hreaches⟩
  | flow a b => exact h.connected he
  | enter c => exact h.hasCall he
  | note e => trivial

theorem covers {d : Draft} {model : HeapModel κ} {m : MethodId} (hm : st.Covers d model m) :
    st'.Covers d model m :=
  fun s e hs he => h.satisfies (hm s e hs he)

/-- What is bound stays so, as long as there are no new calls. -/
theorem binds {d : Draft} {open? : Option Call} (hst : st.Binds d open?)
    (hcalls : ∀ e, st'.hasCall e = true → st.hasCall e = true) : st'.Binds d open? :=
  fun c hc hcall hopen => h.bound (hst c hc (hcalls _ hcall) hopen)

theorem settled {d : Draft} {model : HeapModel κ} {open? : Option Call}
    (hst : st.Settled d model open?) (hcalls : st'.calls = st.calls) :
    st'.Settled d model open? where
  covers m hm := h.covers (hst.covers m (hcalls ▸ hm))
  binds := h.binds hst.binds fun e he => by rwa [State.hasCall, hcalls] at he

theorem handles {model : HeapModel κ} {o : ObjId} {r : Reaction} (hr : st.Handles model o r) :
    st'.Handles model o r := by
  cases r with
  | effect e => exact h.satisfies hr
  | receive c => exact ⟨h.hasCall hr.1, fun v hv => h.reaches (hr.2 v hv)⟩

theorem visited {d : Draft} {model : HeapModel κ} {v : VarId} {o : ObjId}
    (ho : st.Visited d model v o) : st'.Visited d model v o := by
  obtain ⟨obj, hget, hall⟩ := ho
  exact ⟨obj, h.get hget, fun s r hs hr => h.handles (hall s r hs hr)⟩

end Le

/-- The state has a warrant for what an effect does. A call that a statement enters by itself is
static. -/
def Justifies (d : Draft) (model : HeapModel κ) (given : Fact κ → Prop) (st : State κ) :
    Effect → Prop
  | .alloc lhs obj => ∀ k, model.key? obj.site obj.type = some k →
      st.Allocated d model k obj ∧ st.Warrants d model given (.holds (.var lhs) k)
  | .flow a b => ∃ a' b', st.heap.place a = some a' ∧ st.heap.place b = some b' ∧
      st.Warrants d model given (.flows a' b')
  | .enter c => d.IsCall c ∧ (∃ call, d.HasStmt c.edge.site (.invoke call) ∧ call.kind = .static) ∧
      st.Warrants d model given (.called c.edge)
  | .note e => ∃ s, d.Records s e

theorem Le.justifies {st st' : State κ} (h : Le st st') {d : Draft} {model : HeapModel κ}
    {given : Fact κ → Prop} {e : Effect} (he : st.Justifies d model given e) :
    st'.Justifies d model given e := by
  cases e with
  | alloc lhs obj => exact fun k hk => ⟨h.allocated (he k hk).1, h.warrants (he k hk).2⟩
  | flow a b =>
    obtain ⟨a', b', ha, hb, hab⟩ := he
    exact ⟨a', b', h.place ha, h.place hb, h.warrants hab⟩
  | enter c => exact ⟨he.1, he.2.1, h.warrants he.2.2⟩
  | note e => exact he

section Warrants

variable {d : Draft} {model : HeapModel κ} {given : Fact κ → Prop} {st : State κ}

theorem Warrants.of_shows {f : Fact κ} (h : st.Shows f) : st.Warrants d model given f :=
  .given (.inr h)

/-- A reached method is the warrant for what its statements ask for. -/
theorem justifies_of_asks {m : MethodId} {s : StmtId} {e : Effect} (hm : m ∈ st.calls.reachable)
    (hs : d.InBody m s) (he : d.Asks s e) : st.Justifies d model given e := by
  have hreached : st.Warrants d model given (.reached m) := .of_shows hm
  cases he with
  | alloc hstmt =>
    intro k hk
    exact ⟨⟨m, _, _, _, hm, hs, hstmt, rfl, hk⟩, .one (.new hs hstmt hk) hreached⟩
  | copy hstmt => exact ⟨_, _, rfl, rfl, .one (.copy hs hstmt) hreached⟩
  | load hstmt hf => exact ⟨_, _, rfl, rfl, .one (.loadStatic hs hstmt hf) hreached⟩
  | store hstmt hf => exact ⟨_, _, rfl, rfl, .one (.storeStatic hs hstmt hf) hreached⟩
  | enter hstmt hstatic hc =>
    have hcall := Draft.isCall_of_resolveCall hstmt hc
    obtain ⟨callee, method, hcallee, -, rfl⟩ := Draft.resolveCall_eq_ok_iff.1 hc
    exact ⟨hcall, ⟨_, hstmt, hstatic⟩, .one (.enter hs hstmt hstatic hcallee) hreached⟩
  | note he => exact ⟨s, he⟩

end Warrants

/-! ## Flows and calls -/

section Bind

variable [Std.LawfulEqOrd κ] {d : Draft} {model : HeapModel κ} {given : Fact κ → Prop}
  {st : State κ}

omit [Std.LawfulEqOrd κ] in
@[simp] theorem calls_connect (a b : Pointer) : (st.connect a b).calls = st.calls :=
  calls_addEdge _ _

omit [Std.LawfulEqOrd κ] in
@[simp] theorem pending_connect (a b : Pointer) : (st.connect a b).pending = st.pending :=
  pending_addEdge _ _

omit [Std.LawfulEqOrd κ] in
theorem connected_connect (a b : Pointer) : (st.connect a b).Connected a b := by
  refine ⟨(st.pointers.intern a).1, ((st.pointers.intern a).2.intern b).1, ?_, ?_,
    hasEdge_addEdge.2 (.inr ⟨rfl, rfl⟩)⟩
  · rw [connect, pointers_addEdge]
    exact PointerTable.pointer?_intern_of_some b (PointerTable.pointer?_intern_self _ a)
  · rw [connect, pointers_addEdge]
    exact PointerTable.pointer?_intern_self _ b

theorem moves_connect {a b : Pointer} {a' b' : Place κ} (ha : st.heap.place a = some a')
    (hb : st.heap.place b = some b') (hab : st.Warrants d model given (.flows a' b')) :
    Moves d model given 0 st (st.connect a b) := by
  have hsource : Move d model given 0 st (st.intern a).2 := .know ha (.one .source hab)
  have htarget : Move d model given 0 (st.intern a).2 ((st.intern a).2.intern b).2 :=
    .know hb (.one .target (hsource.le.warrants hab))
  have hi : ((st.intern a).2.intern b).2.pointers.pointer? (st.intern a).1 = some a :=
    PointerTable.pointer?_intern_of_some b (PointerTable.pointer?_intern_self _ a)
  have hj : ((st.intern a).2.intern b).2.pointers.pointer? ((st.intern a).2.intern b).1 = some b :=
    PointerTable.pointer?_intern_self _ b
  have hedge : Move d model given 0 ((st.intern a).2.intern b).2 (st.connect a b) :=
    .edge (Option.bind_eq_some_iff.2 ⟨a, hi, ha⟩) (Option.bind_eq_some_iff.2 ⟨b, hj, hb⟩)
      ((hsource.le.trans htarget.le).warrants hab)
  exact .cons hsource (.cons htarget hedge.moves)

theorem moves_send {v : VarId} {o : ObjId} {k : κ} (ho : st.heap.keyOf o = some k)
    (hw : st.Warrants d model given (.holds (.var v) k)) :
    Moves d model given 1 st (st.send (.var v) {o}) := by
  have hknow : Move d model given 0 st (st.intern (.var v)).2 := .know rfl (.one .holder hw)
  have hi : (st.intern (.var v)).2.placeOf (st.intern (.var v)).1 = some (.var v) :=
    Option.bind_eq_some_iff.2 ⟨_, PointerTable.pointer?_intern_self _ _, rfl⟩
  exact .cons hknow (Move.push hi ho (hknow.le.warrants hw)).moves

omit [Std.LawfulEqOrd κ] in
theorem reaches_send (v : VarId) (o : ObjId) : (st.send (.var v) {o}).Reaches o v := by
  refine ⟨(st.pointers.intern (.var v)).1, PointerTable.pointer?_intern_self _ _,
    .inr ⟨{o}, ?_, ?_⟩⟩
  · show _ ∈ (st.worklist.push ((st.pointers.intern (.var v)).1, {o})).toList
    rw [Queue.toList_push]
    exact List.mem_append_right _ (List.mem_singleton.2 rfl)
  · exact IdSet.mem_singleton.2 rfl

/-- Edges between variables, one after the other. -/
theorem foldl_connect_spec {α : Type} (source target : α → VarId) (l : List α)
    (hl : ∀ x ∈ l, st.Warrants d model given (.flows (.var (source x)) (.var (target x)))) :
    let st' := l.foldl (fun st x => st.connect (.var (source x)) (.var (target x))) st
    Moves d model given 0 st st' ∧ (∀ x ∈ l, st'.Connected (.var (source x)) (.var (target x))) ∧
    st'.calls = st.calls ∧
      st'.pending = st.pending := by
  induction l generalizing st with
  | nil => exact ⟨.refl (Int.le_refl 0), fun x hx => absurd hx List.not_mem_nil, rfl, rfl⟩
  | cons x l ih =>
    have hx :=
      moves_connect (a := .var (source x)) (b := .var (target x)) rfl rfl
        (hl x (List.mem_cons_self ..))
    obtain ⟨hmoves, hconnected, hcalls, hpending⟩ :=
      ih fun y hy => hx.le.warrants (hl y (List.mem_cons_of_mem _ hy))
    refine ⟨hx.trans hmoves (Int.le_refl 0), fun y hy => ?_, hcalls.trans (calls_connect _ _),
      hpending.trans (pending_connect _ _)⟩
    rcases List.mem_cons.1 hy with rfl | hy
    · exact hmoves.le.connected (connected_connect _ _)
    · exact hconnected y hy

theorem bind_spec {c : Call} (hc : d.IsCall c) (hw : st.Warrants d model given (.called c.edge)) :
    Moves d model given 0 st (st.bind c) ∧ (st.bind c).Bound c ∧ (st.bind c).calls = st.calls ∧
      (st.bind c).pending = st.pending := by
  obtain ⟨receiver, call, hs, hc⟩ := hc
  obtain ⟨m, method, -, hmethod, heq⟩ := Draft.resolveCall_eq_ok_iff.1 hc
  have hcallee : d.method c.edge.callee = .ok method := by rw [heq]; exact hmethod
  have hpass : ∀ e ∈ c.passed, st.Warrants d model given (.flows (.var e.1) (.var e.2)) := by
    intro e he
    rw [heq] at he
    exact .one (.pass hs hcallee he) hw
  obtain ⟨hmoves, hpassed, hcalls, hpending⟩ := foldl_connect_spec Prod.fst Prod.snd c.passed hpass
  rw [bind]
  generalize c.passed.foldl (fun st e => st.connect (.var e.1) (.var e.2)) st =
    st₁ at hmoves hpassed hcalls hpending ⊢
  cases hresult : c.result with
  | none =>
    refine ⟨hmoves, ⟨hpassed, fun lhs hlhs => ?_, fun lhs hlhs => ?_⟩, hcalls, hpending⟩
    · cases hresult.symm.trans hlhs
    · cases hresult.symm.trans hlhs
  | some lhs =>
    have hlhs : call.lhs = some lhs := by rw [← hresult, heq]
    have hw₁ := hmoves.le.warrants hw
    -- the result gets its pointer even if nothing is returned
    have hknow : Move d model given 0 st₁ (st₁.intern (.var lhs)).2 :=
      .know rfl (.one (.result hs hlhs) hw₁)
    have hret : ∀ v ∈ c.returned, (st₁.intern (.var lhs)).2.Warrants d model given
        (.flows (.var v) (.var lhs)) := by
      intro v hv
      rw [heq] at hv
      exact .one (.ret hs hcallee hv hlhs) (hknow.le.warrants hw₁)
    obtain ⟨hmoves', hreturned, hcalls', hpending'⟩ :=
      foldl_connect_spec id (fun _ => lhs) c.returned hret
    refine ⟨hmoves.trans (.cons hknow hmoves') (Int.le_refl 0),
      ⟨fun e he => ?_, fun lhs' hlhs' => ?_, fun lhs' hlhs' v hv => ?_⟩, hcalls'.trans hcalls,
      hpending'.trans hpending⟩
    · exact (hknow.le.trans hmoves'.le).connected (hpassed e he)
    · cases hresult.symm.trans hlhs'
      exact ⟨_, hmoves'.le.pointer? (PointerTable.pointer?_intern_self _ _)⟩
    · cases hresult.symm.trans hlhs'
      exact hreturned v hv

end Bind

/-! ## Methods -/

section Settle

variable {d : Draft} {model : HeapModel κ} {given : Fact κ → Prop} {st : State κ}

theorem hasCall_addCall {e e' : CallEdge} :
    (st.addCall e).hasCall e' = true ↔
      st.hasCall e' = true ∨ (e'.site = e.site ∧ e'.callee = e.callee) := by
  rw [hasCall, hasCall, CallGraph.hasEdge_iff, CallGraph.hasEdge_iff, addCall]
  constructor
  · rintro ⟨x, hx, hsite, hcallee⟩
    rcases CallGraph.mem_edges_addEdge.1 hx with hx | ⟨rfl, -⟩
    · exact .inl ⟨x, hx, hsite, hcallee⟩
    · exact .inr ⟨hsite.symm, hcallee.symm⟩
  · rintro (⟨x, hx, hends⟩ | ⟨hsite, hcallee⟩)
    · exact ⟨x, CallGraph.mem_edges_addEdge.2 (.inl hx), hends⟩
    · by_cases he : st.calls.hasEdge e.site e.callee = true
      · obtain ⟨x, hx, hends⟩ := CallGraph.hasEdge_iff.1 he
        exact ⟨x, CallGraph.mem_edges_addEdge.2 (.inl hx), by rw [hsite, hcallee]; exact hends⟩
      · exact ⟨e, CallGraph.mem_edges_addEdge.2 (.inr ⟨rfl, by simpa using he⟩),
          hsite.symm, hcallee.symm⟩

/-- A new call may stay open, and is bound by `bind`. -/
theorem Binds.addCall {c : Call} (h : st.Binds d none) (hc : d.IsCall c) :
    (st.addCall c.edge).Binds d (some c) := by
  intro c' hc' hcall hopen
  rcases hasCall_addCall.1 hcall with hcall | ⟨hsite, hcallee⟩
  · have hbound := h c' hc' hcall (by simp)
    exact ⟨hbound.passed, hbound.result, hbound.returned⟩
  · exact absurd (congrArg some (hc'.eq_of_ends hc hsite hcallee)) hopen

variable [Std.LawfulEqOrd κ]

theorem Binds.bind {c : Call} {open? : Option Call}
    (h : ∀ c', d.IsCall c' → st.hasCall c'.edge = true → some c' ≠ open? → c' ≠ c → st.Bound c')
    (hc : d.IsCall c) (hw : st.Warrants d model given (.called c.edge)) :
    (st.bind c).Binds d open? := by
  obtain ⟨hmoves, hbound, hcalls, -⟩ := bind_spec hc hw
  intro c' hc' hcall hopen
  by_cases heq : c' = c
  · exact heq ▸ hbound
  · rw [hasCall, hcalls] at hcall
    exact hmoves.le.bound (h c' hc' hcall hopen heq)

theorem moves_apply {e : Effect} (he : st.Justifies d model given e) :
    Moves d model given 1 st (st.apply model e) := by
  cases e with
  | alloc lhs obj =>
    rw [apply]
    cases hkey : model.key? obj.site obj.type with
    | none =>
      rw [Heap.alloc, hkey]
      exact .refl (by omega)
    | some k =>
      obtain ⟨hobj, hw⟩ := he k hkey
      have hmove : Move d model given 0 st { st with heap := (st.heap.intern k obj).2 } :=
        .alloc hobj
      rw [Heap.alloc, hkey]
      exact .cons hmove (moves_send (Heap.keyOf_intern_self _ _ _) (hmove.le.warrants hw))
  | flow a b =>
    obtain ⟨a', b', ha, hb, hab⟩ := he
    exact (moves_connect ha hb hab).mono (by omega)
  | enter c =>
    obtain ⟨hc, -, hw⟩ := he
    rw [apply]
    split <;> rename_i hcall
    · exact .refl (by omega)
    · have hmove : Move d model given 0 st (st.addCall c.edge) := .call hw (by simpa using hcall)
      exact .cons hmove ((bind_spec hc (hmove.le.warrants hw)).1.mono (by omega))
  | note e =>
    obtain ⟨s, hs⟩ := he
    exact (Move.note hs).moves.mono (by omega)

theorem satisfies_apply {e : Effect} (he : st.Justifies d model given e) :
    (st.apply model e).Satisfies model e := by
  cases e with
  | alloc lhs obj =>
    intro k hk
    rw [apply, Heap.alloc, hk]
    exact ⟨_, Heap.keyOf_intern_self _ _ _, reaches_send lhs _⟩
  | flow a b => exact connected_connect a b
  | enter c =>
    obtain ⟨hc, -, hw⟩ := he
    rw [Satisfies, apply]
    split <;> rename_i hcall
    · exact hcall
    · have hmove : Move d model given 0 st (st.addCall c.edge) := .call hw (by simpa using hcall)
      rw [hasCall, (bind_spec hc (hmove.le.warrants hw)).2.2.1]
      exact hasCall_addCall.2 (.inr ⟨rfl, rfl⟩)
  | note e => trivial

theorem calls_apply {e : Effect} (he : ∀ c, e ≠ .enter c) :
    (st.apply model e).calls = st.calls := by
  cases e with
  | alloc lhs obj =>
    rw [apply]
    cases st.heap.alloc model obj with
    | none => rfl
    | some r => rfl
  | flow a b => exact calls_connect a b
  | enter c => exact absurd rfl (he c)
  | note e => rfl

theorem reachable_apply {e : Effect} (he : st.Justifies d model given e) :
    (st.apply model e).calls.reachable = st.calls.reachable := by
  cases e with
  | enter c =>
    obtain ⟨hc, -, hw⟩ := he
    rw [apply]
    split <;> rename_i hcall
    · rfl
    · have hmove : Move d model given 0 st (st.addCall c.edge) := .call hw (by simpa using hcall)
      rw [(bind_spec hc (hmove.le.warrants hw)).2.2.1, addCall, CallGraph.reachable_addEdge]
  | alloc | flow | note => rw [calls_apply (by simp)]

theorem Binds.apply {open? : Option Call} {e : Effect} (h : st.Binds d open?)
    (he : st.Justifies d model given e) : (st.apply model e).Binds d open? := by
  have hle := (moves_apply he).le
  cases e with
  | enter c =>
    obtain ⟨hc, -, hw⟩ := he
    rw [State.apply] at hle ⊢
    split <;> rename_i hcall
    · exact h
    · have hmove : Move d model given 0 st (st.addCall c.edge) := .call hw (by simpa using hcall)
      refine Binds.bind (fun c' hc' hcall' hopen hne => ?_) hc (hmove.le.warrants hw)
      rcases hasCall_addCall.1 hcall' with hcall' | ⟨hsite, hcallee⟩
      · exact hmove.le.bound (h c' hc' hcall' hopen)
      · exact absurd (hc'.eq_of_ends hc hsite hcallee) hne
  | alloc | flow | note =>
    exact hle.binds h fun e' he' => by rwa [hasCall, calls_apply (by simp)] at he'

/-- The statements from which nothing is called yet. -/
def freeSites (d : Draft) (st : State κ) : Finset Nat :=
  (Finset.range d.stmts.size).filter fun s => ∀ e ∈ st.calls.edges, e.site.index ≠ s

omit [Std.LawfulEqOrd κ] in
theorem card_freeSites_le (d : Draft) (st : State κ) : (freeSites d st).card ≤ d.stmts.size :=
  (Finset.card_filter_le _ _).trans (Finset.card_range _).le

omit [Std.LawfulEqOrd κ] in
theorem card_freeSites_addCall {e : CallEdge} (hsite : d.Has e.site)
    (hfree : ∀ e' ∈ st.calls.edges, e'.site ≠ e.site) :
    (freeSites d (st.addCall e)).card < (freeSites d st).card := by
  refine Finset.card_lt_card ⟨fun s hs => ?_, fun hsub => ?_⟩
  · rw [freeSites, Finset.mem_filter] at hs ⊢
    exact ⟨hs.1, fun e' he' => hs.2 e' (CallGraph.mem_edges_addEdge.2 (.inl he'))⟩
  · have hmem : e.site.index ∈ freeSites d st := by
      rw [freeSites, Finset.mem_filter]
      exact ⟨Finset.mem_range.2 hsite, fun e' he' heq => hfree e' he' (Id.ext_index heq)⟩
    have hnot : st.calls.hasEdge e.site e.callee = false := by
      by_contra hcall
      obtain ⟨e', he', heq, -⟩ := CallGraph.hasEdge_iff.1 (by simpa using hcall)
      exact hfree e' he' heq
    exact (Finset.mem_filter.1 (hsub hmem)).2 e
      (CallGraph.mem_edges_addEdge.2 (.inr ⟨rfl, hnot⟩)) rfl

/-- How many methods may still have to be settled. -/
def slack (d : Draft) (st : State κ) : Nat := st.pending.length + (freeSites d st).card

/-- An effect makes a method pending only at a statement from which nothing was called, since all
edges of a static call have the same callee. -/
theorem slack_apply_le {e : Effect} (hst : st.Supported d model (Fact.InScope d))
    (he : st.Justifies d model given e) : (st.apply model e).slack d ≤ st.slack d := by
  cases e with
  | alloc lhs obj =>
    rw [apply]
    cases st.heap.alloc model obj with
    | none => exact Nat.le_refl _
    | some r => exact Nat.le_refl _
  | flow a b =>
    show (st.connect a b).slack d ≤ _
    rw [slack, freeSites, calls_connect, pending_connect]
    exact Nat.le_refl _
  | note e => exact Nat.le_refl _
  | enter c =>
    obtain ⟨hc, ⟨call, hcall, hstatic⟩, hw⟩ := he
    rw [apply]
    split <;> rename_i hnew
    · exact Nat.le_refl _
    · have hmove : Move d model given 0 st (st.addCall c.edge) := .call hw (by simpa using hnew)
      obtain ⟨-, -, hcalls, hpending⟩ := bind_spec hc (hmove.le.warrants hw)
      have hfree : ∀ e ∈ st.calls.edges, e.site ≠ c.edge.site := by
        intro e he hsite
        obtain ⟨c', hc', rfl⟩ := hst.called e he
        have hcallee := hc.callee_eq_of_static hc' hcall hstatic hsite.symm
        exact hnew (CallGraph.hasEdge_iff.2 ⟨c'.edge, he, hsite, hcallee.symm⟩)
      have hlt := card_freeSites_addCall hc.has_site hfree
      have hcard : (freeSites d ((st.addCall c.edge).bind c)).card =
          (freeSites d (st.addCall c.edge)).card := by
        rw [freeSites, hcalls, freeSites]
      have hlength : ((st.addCall c.edge).bind c).pending.length = st.pending.length + 1 := by
        rw [hpending]
        rfl
      rw [slack, slack, hcard, hlength]
      omega

theorem foldl_apply_spec (hd : d.InRange) (hgiven : ∀ f, given f → Fact.InScope d f)
    (es : List Effect) (hst : st.Supported d model (Fact.InScope d))
    (hes : ∀ e ∈ es, st.Justifies d model given e) : let st' := es.foldl (apply model) st
    Moves d model given es.length st st' ∧ (∀ e ∈ es, st'.Satisfies model e) ∧
    st'.slack d ≤ st.slack d ∧
      st'.calls.reachable = st.calls.reachable ∧ ∀ open?, st.Binds d open? → st'.Binds d open? := by
  induction es generalizing st with
  | nil =>
    exact ⟨.refl (Int.le_refl 0), fun e he => absurd he List.not_mem_nil, Nat.le_refl _,
      rfl, fun _ h => h⟩
  | cons e es ih =>
    have he := hes e (List.mem_cons_self ..)
    have hfirst := moves_apply he
    obtain ⟨hmoves, hsat, hslack, hreachable, hbinds⟩ :=
      ih (hst.moves hd.closed_inScope hgiven hfirst)
      fun e' he' => hfirst.le.justifies (hes e' (List.mem_cons_of_mem _ he'))
    refine ⟨hfirst.trans hmoves (by rw [List.length_cons]; omega), fun e' he' => ?_,
      hslack.trans (slack_apply_le hst he), hreachable.trans (reachable_apply he),
      fun open? h => hbinds open? (h.apply he)⟩
    rcases List.mem_cons.1 he' with rfl | he'
    · exact hmoves.le.satisfies (satisfies_apply he)
    · exact hsat e' he'

omit [Std.LawfulEqOrd κ] in
theorem covers_of_satisfies (hd : d.InRange) {m : MethodId} {es : List Effect}
    (hes : d.bodyEffects m = .ok es) (hsat : ∀ e ∈ es, st.Satisfies model e) :
    st.Covers d model m := by
  intro s e hs he
  obtain ⟨es', hes'⟩ := hd.exists_stmtEffects (hd.has_of_inBody hs)
  rcases Draft.mem_stmtEffects_of_asks hes' he with hmem | ⟨event, rfl⟩
  · exact hsat e ((Draft.mem_bodyEffects_iff hes).2 ⟨s, es', hs, hes', hmem⟩)
  · trivial

/-- Processing some pending methods, and those that they lead to. None is left if there were not too
many. -/
theorem settleWithin_spec {p : Program} (hp : p.InRange)
    (hgiven : ∀ f, given f → Fact.InScope p.toDraft f) (n : Nat)
    (hst : st.Supported p.toDraft model (Fact.InScope p.toDraft)) :
    ∃ st', settleWithin model p n st = .ok st' ∧ Moves p.toDraft model given 0 st st' ∧
      (st.slack p.toDraft ≤ n → st'.pending = []) ∧
      ∀ open?, st.Settled p.toDraft model open? → st'.Settled p.toDraft model open? := by
  induction n generalizing st with
  | zero =>
    refine ⟨st, rfl, .refl (Int.le_refl 0),
      fun hn => List.eq_nil_of_length_eq_zero ?_, fun _ h => h⟩
    rw [slack] at hn
    omega
  | succ n ih =>
    rw [settleWithin]
    split <;> rename_i hpending
    · exact ⟨st, rfl, .refl (Int.le_refl 0), fun _ => hpending, fun _ h => h⟩
    · rename_i m rest
      have hslack : st.slack p.toDraft = rest.length + 1 + (freeSites p.toDraft st).card := by
        rw [slack, hpending]; rfl
      dsimp only
      split <;> rename_i hm
      · have hmove : Move p.toDraft model given 0 st { st with pending := rest } :=
          .skip hpending (CallGraph.reaches_iff.1 hm)
        obtain ⟨st', hok, hmoves, hdone, hsettled⟩ := ih (hst.move hp.closed_inScope hgiven hmove)
        exact ⟨st', hok, .cons hmove hmoves,
          fun hn => hdone (show rest.length + (freeSites p.toDraft st).card ≤ n by omega),
          fun open? h => hsettled open? (hmove.le.settled h rfl)⟩
      · rw [CallGraph.reaches_iff] at hm
        have hhas : p.Has m := hst.reached m (.inr (hpending ▸ List.mem_cons_self ..))
        obtain ⟨method, hmethod⟩ := Draft.exists_method_iff.2 hhas
        obtain ⟨es, hes⟩ := hp.exists_bodyEffects hhas
        have hlength := Draft.length_bodyEffects_le hmethod hes
        have hmove : Move p.toDraft model given _ st ({ st with pending := rest }.reach m) :=
          .reach hpending hm hmethod
        have hst₁ := hst.move hp.closed_inScope hgiven hmove
        have hreached : m ∈ ({ st with pending := rest }.reach m).calls.reachable :=
          CallGraph.mem_reachable_addReachable.2 (.inr rfl)
        have hjust : ∀ e ∈ es, ({ st with pending := rest }.reach m).Justifies p.toDraft
            model given e := by
          intro e he
          obtain ⟨s, es', hs, hes', he⟩ := (Draft.mem_bodyEffects_iff hes).1 he
          exact justifies_of_asks hreached hs (Draft.asks_of_mem_stmtEffects hes' he)
        obtain ⟨hmoves₁, hsat, hslack₁, hreachable, hbinds⟩ :=
          foldl_apply_spec hp hgiven es hst₁ hjust
        obtain ⟨st', hok, hmoves, hdone, hsettled⟩ :=
          ih (hst₁.moves hp.closed_inScope hgiven hmoves₁)
        refine ⟨st', ?_, .head hmove (hmoves₁.trans hmoves (Int.le_refl _)) (by omega),
          fun hn => hdone (hslack₁.trans ?_), fun open? h => ?_⟩
        · rw [hes]
          exact hok
        · show rest.length + (freeSites p.toDraft st).card ≤ n
          omega
        · refine hsettled open? ⟨fun m' hm' => ?_,
            hbinds open? (hmove.le.binds h.binds fun _ he => he)⟩
          rw [hreachable] at hm'
          rcases CallGraph.mem_reachable_addReachable.1 hm' with hm' | rfl
          · exact (hmove.le.trans hmoves₁.le).covers (h.covers m' hm')
          · exact covers_of_satisfies hp hes hsat

/-- Settling a state: all pending methods and those that they lead to are processed. -/
theorem settle_spec {p : Program} (hp : p.InRange)
    (hgiven : ∀ f, given f → Fact.InScope p.toDraft f)
    (hst : st.Supported p.toDraft model (Fact.InScope p.toDraft)) :
    ∃ st', settle model p st = .ok st' ∧ Moves p.toDraft model given 0 st st' ∧ st'.pending = [] ∧
      ∀ open?, st.Settled p.toDraft model open? → st'.Settled p.toDraft model open? := by
  obtain ⟨st', hok, hmoves, hdone, hsettled⟩ :=
    settleWithin_spec hp hgiven (st.pending.length + p.stmts.size) hst
  exact ⟨st', hok, hmoves, hdone (Nat.add_le_add_left (card_freeSites_le _ _) _), hsettled⟩

end Settle

end State

end PointsTo
