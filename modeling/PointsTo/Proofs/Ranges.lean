import Mathlib.Order.Basic
import PointsTo.Proofs.Effects

/-!
# Ids in range

An id is in range if it names something (`Has`). If every id that stands somewhere in a draft is in
range, that is, if the draft is `InRange`, then every look-up that the analyses make in the draft
succeeds.
-/

namespace PointsTo

/-! ## Ids in range -/

/-- An id is below the number of things of its kind. -/
def Id.Within {k : Kind} (n : Kind → Nat) (a : Id k) : Prop := a.index < n k

instance {k : Kind} (n : Kind → Nat) (a : Id k) : Decidable (a.Within n) :=
  inferInstanceAs (Decidable (a.index < n k))

theorem Id.Within.mono {k : Kind} {n n' : Kind → Nat} (hn : n ≤ n') {a : Id k} (h : a.Within n) :
    a.Within n' :=
  Nat.lt_of_lt_of_le h (hn k)

structure Class.Within (n : Kind → Nat) (c : Class) : Prop where
  superclass : ∀ s ∈ c.superclass, s.Within n
  interfaces : ∀ i ∈ c.interfaces, i.Within n
  fields : ∀ f ∈ c.fields, f.Within n
  methods : ∀ e ∈ c.methods, e.2.Within n

structure Method.Within (n : Kind → Nat) (m : Method) : Prop where
  cls : m.cls.Within n
  params : ∀ v ∈ m.params, v.Within n
  this : ∀ v ∈ m.this, v.Within n
  returns : ∀ v ∈ m.returns, v.Within n
  stmts : ∀ s ∈ m.stmts.toList, s.Within n
  vars : ∀ v ∈ m.vars.toList, v.Within n

/-- The classes that a statement mentions. -/
def Stmt.classes : Stmt → List ClassId
  | .new _ c _ => [c]
  | .load _ _ ref => [ref.cls]
  | .store _ ref _ => [ref.cls]
  | .invoke call => [call.target.cls]
  | _ => []

structure Stmt.Within (n : Kind → Nat) (s : Stmt) : Prop where
  vars : ∀ v ∈ s.vars, v.Within n
  classes : ∀ c ∈ s.classes, c.Within n

/-- The ids that the text of a record looks up. -/
def Event.Within (n : Kind → Nat) : Event → Prop
  | .started m | .reached m => m.Within n
  | .unresolvedStatic s | .unresolvedCall _ s _ | .noTarget _ s => s.Within n
  | .unresolvedField ref s => ref.cls.Within n ∧ s.Within n
  | .grew .. | .solved .. | .explored .. => True

section

variable {n n' : Kind → Nat} (hn : n ≤ n')

include hn

theorem Class.Within.mono {c : Class} (h : c.Within n) : c.Within n' where
  superclass s hs := (h.superclass s hs).mono hn
  interfaces i hi := (h.interfaces i hi).mono hn
  fields f hf := (h.fields f hf).mono hn
  methods e he := (h.methods e he).mono hn

theorem Method.Within.mono {m : Method} (h : m.Within n) : m.Within n' where
  cls := h.cls.mono hn
  params v hv := (h.params v hv).mono hn
  this v hv := (h.this v hv).mono hn
  returns v hv := (h.returns v hv).mono hn
  stmts s hs := (h.stmts s hs).mono hn
  vars v hv := (h.vars v hv).mono hn

theorem Stmt.Within.mono {s : Stmt} (h : s.Within n) : s.Within n' where
  vars v hv := (h.vars v hv).mono hn
  classes c hc := (h.classes c hc).mono hn

end

namespace Draft

/-- How many things of a kind there are. -/
def size (d : Draft) : Kind → Nat
  | .cls => d.classes.size
  | .field => d.fields.size
  | .method => d.methods.size
  | .var => d.vars.size
  | .stmt => d.stmts.size
  | .obj | .pointer => 0

/-- An id names something. -/
abbrev Has {k : Kind} (d : Draft) (a : Id k) : Prop := a.Within d.size

/-- Every id that stands somewhere in a draft names something. -/
structure InRange (d : Draft) : Prop where
  classes : ∀ c ∈ d.classes.toList, c.Within d.size
  fields : ∀ f ∈ d.fields.toList, d.Has f.cls
  methods : ∀ m ∈ d.methods.toList, m.Within d.size
  vars : ∀ v ∈ d.vars.toList, d.Has v.method
  stmts : ∀ s ∈ d.stmts.toList, d.Has s.method ∧ s.stmt.Within d.size
  entry : ∀ m ∈ d.entry, d.Has m

/-- A variable belongs to a method. -/
def Owns (d : Draft) (m : MethodId) (v : VarId) : Prop := ∃ x, d.var v = .ok x ∧ x.method = m

/-! ## Looking things up -/

section Lookups

variable {d : Draft}

theorem exists_method_iff {m : MethodId} : (∃ method, d.method m = .ok method) ↔ d.Has m :=
  fetch_isOk_iff

theorem exists_placed_iff {s : StmtId} : (∃ placed, d.placed s = .ok placed) ↔ d.Has s :=
  fetch_isOk_iff

theorem exists_cls_iff {c : ClassId} : (∃ cls, d.cls c = .ok cls) ↔ d.Has c := fetch_isOk_iff

theorem Owns.has {m : MethodId} {v : VarId} (h : d.Owns m v) : d.Has v := by
  obtain ⟨x, hx, -⟩ := h
  exact fetch_isOk_iff.1 ⟨x, hx⟩

theorem Owns.unique {m m' : MethodId} {v : VarId} (h : d.Owns m v) (h' : d.Owns m' v) : m = m' := by
  obtain ⟨x, hx, rfl⟩ := h
  obtain ⟨x', hx', rfl⟩ := h'
  cases hx.symm.trans hx'
  rfl

theorem IsCall.has_callee {c : Call} (hc : d.IsCall c) : d.Has c.edge.callee := by
  obtain ⟨receiver, call, -, hc⟩ := hc
  obtain ⟨m, method, -, hmethod, heq⟩ := resolveCall_eq_ok_iff.1 hc
  rw [heq]
  exact exists_method_iff.1 ⟨method, hmethod⟩

theorem IsCall.has_site {c : Call} (hc : d.IsCall c) : d.Has c.edge.site := by
  obtain ⟨receiver, call, ⟨placed, hplaced, -⟩, -⟩ := hc
  exact exists_placed_iff.1 ⟨placed, hplaced⟩

variable (h : d.InRange)

include h

theorem InRange.within_of_cls {c : ClassId} {cls : Class} (hc : d.cls c = .ok cls) :
    cls.Within d.size :=
  h.classes cls (mem_toList_of_fetch hc)

theorem InRange.within_of_method {m : MethodId} {method : Method} (hm : d.method m = .ok method) :
    method.Within d.size :=
  h.methods method (mem_toList_of_fetch hm)

theorem InRange.within_of_hasStmt {s : StmtId} {stmt : Stmt} (hs : d.HasStmt s stmt) :
    stmt.Within d.size := by
  obtain ⟨placed, hplaced, rfl⟩ := hs
  exact (h.stmts placed (mem_toList_of_fetch hplaced)).2

theorem InRange.has_of_inBody {m : MethodId} {s : StmtId} (hs : d.InBody m s) : d.Has s := by
  obtain ⟨method, hmethod, hs⟩ := hs
  exact (h.within_of_method hmethod).stmts s hs

/-- A question to a chain of classes is answered, and the answer is one of a class. -/
theorem InRange.exists_firstFrom {α : Type} (ask : Class → Option α) (n : Nat) (c : Option ClassId)
    (hc : ∀ c' ∈ c, d.Has c') :
    ∃ r, d.firstFrom ask n c = .ok r ∧ ∀ a, r = some a →
      ∃ cls ∈ d.classes.toList, ask cls = some a := by
  induction n generalizing c with
  | zero =>
    cases c with
    | none => exact ⟨none, rfl, fun a ha => by cases ha⟩
    | some c => exact ⟨none, rfl, fun a ha => by cases ha⟩
  | succ n ih =>
    cases c with
    | none => exact ⟨none, rfl, fun a ha => by cases ha⟩
    | some c =>
      obtain ⟨cls, hcls⟩ := exists_cls_iff.2 (hc c rfl)
      rw [firstFrom, hcls]
      simp only [bind, Except.bind]
      cases hask : ask cls with
      | some a =>
        refine ⟨some a, rfl, fun a' ha' => ⟨cls, ?_, ha' ▸ hask⟩⟩
        exact mem_toList_of_fetch hcls
      | none => exact ih cls.superclass (h.within_of_cls hcls).superclass

theorem InRange.exists_resolveField {ref : FieldRef} (href : d.Has ref.cls) :
    ∃ r, d.resolveField ref = .ok r ∧ ∀ f, r = some f → d.Has f := by
  obtain ⟨r, hr, hfrom⟩ :=
    h.exists_firstFrom (d.declaredField? ref.name) d.classes.size (some ref.cls)
    (fun c hc => by cases hc; exact href)
  refine ⟨r, hr, fun f hf => ?_⟩
  obtain ⟨cls, hcls, hask⟩ := hfrom f hf
  exact (h.classes cls hcls).fields f (List.mem_of_find?_eq_some hask)

theorem InRange.exists_dispatch {c : ClassId} (hc : d.Has c) (sig : Subsig) :
    ∃ r, d.dispatch c sig = .ok r ∧ ∀ m, r = some m → d.Has m := by
  obtain ⟨r, hr, hfrom⟩ := h.exists_firstFrom (d.concreteMethod? sig) d.classes.size (some c)
    (fun c' hc' => by cases hc'; exact hc)
  refine ⟨r, hr, fun m hm => ?_⟩
  obtain ⟨cls, hcls, hask⟩ := hfrom m hm
  rw [concreteMethod?, Option.filter_eq_some_iff, Class.method?] at hask
  exact (h.classes cls hcls).methods (sig, m) (mem_of_lookup_eq_some hask.1)

theorem InRange.exists_callee {receiver : Option ClassId} {call : Invoke}
    (hreceiver : ∀ c ∈ receiver, d.Has c) (htarget : d.Has call.target.cls) :
    ∃ r, d.callee receiver call = .ok r ∧ ∀ m, r = some m → d.Has m := by
  have hclass : ∀ c ∈ call.lookupClass receiver, d.Has c := by
    intro c hc
    rw [Invoke.lookupClass] at hc
    split at hc
    · cases hc
      exact htarget
    · cases hc
      exact htarget
    all_goals exact hreceiver c hc
  rw [callee]
  cases hlookup : call.lookupClass receiver with
  | none => exact ⟨none, rfl, fun m hm => by cases hm⟩
  | some c =>
    obtain ⟨r, hr, hm⟩ := h.exists_dispatch (hclass c hlookup) call.target.sig
    refine ⟨r.filter fun m => d.isStaticMethod m = decide (call.kind = .static), ?_, ?_⟩
    · simp only [hr, bind, Except.bind]
      rfl
    · intro m hfilter
      exact hm m (Option.filter_eq_some_iff.1 hfilter).1

theorem InRange.exists_resolveCall {receiver : Option ClassId} (s : StmtId) {call : Invoke}
    (hreceiver : ∀ c ∈ receiver, d.Has c) (htarget : d.Has call.target.cls) :
    ∃ r, d.resolveCall receiver s call = .ok r := by
  obtain ⟨r, hr, hm⟩ := h.exists_callee hreceiver htarget
  rw [resolveCall, hr]
  cases r with
  | none => exact ⟨none, rfl⟩
  | some m =>
    obtain ⟨method, hmethod⟩ := exists_method_iff.2 (hm m rfl)
    simp only [bind, Except.bind, hmethod]
    exact ⟨_, rfl⟩

theorem InRange.exists_fieldFlow (s : StmtId) {ref : FieldRef} (href : d.Has ref.cls)
    (isStatic : Bool) (flow : FieldId → Effect) : ∃ e, d.fieldFlow s ref isStatic flow = .ok e := by
  obtain ⟨r, hr, -⟩ := h.exists_resolveField href
  rw [fieldFlow, hr]
  simp only [bind, Except.bind]
  split
  · exact ⟨_, rfl⟩
  · exact ⟨_, rfl⟩

theorem InRange.exists_stmtEffects {s : StmtId} (hs : d.Has s) :
    ∃ es, d.stmtEffects s = .ok es := by
  obtain ⟨placed, hplaced⟩ := exists_placed_iff.2 hs
  have hstmt := h.within_of_hasStmt (hasStmt_of_placed hplaced)
  rw [stmtEffects, hplaced]
  revert hstmt
  simp only [bind, Except.bind]
  cases placed.stmt with
  | load lhs base ref =>
    intro hstmt
    cases base with
    | some base => exact ⟨_, rfl⟩
    | none =>
      obtain ⟨e, he⟩ := h.exists_fieldFlow s (hstmt.classes ref.cls (by simp [Stmt.classes])) true
        fun f => .flow (.static f) (.var lhs)
      simp only [he]
      exact ⟨_, rfl⟩
  | store base ref rhs =>
    intro hstmt
    cases base with
    | some base => exact ⟨_, rfl⟩
    | none =>
      obtain ⟨e, he⟩ := h.exists_fieldFlow s (hstmt.classes ref.cls (by simp [Stmt.classes])) true
        fun f => .flow (.var rhs) (.static f)
      simp only [he]
      exact ⟨_, rfl⟩
  | invoke call =>
    intro hstmt
    have hnone : ∀ c ∈ (none : Option ClassId), d.Has c := fun c hc => by cases hc
    obtain ⟨r, hr⟩ :=
      h.exists_resolveCall s hnone (hstmt.classes call.target.cls (by simp [Stmt.classes]))
    simp only [hr]
    split
    · cases r with
      | none => exact ⟨_, rfl⟩
      | some c => exact ⟨_, rfl⟩
    · exact ⟨_, rfl⟩
  | new | copy | loadArray | storeArray | ret | const =>
    intro hstmt
    exact ⟨_, rfl⟩

theorem InRange.exists_bodyEffects {m : MethodId} (hm : d.Has m) :
    ∃ es, d.bodyEffects m = .ok es := by
  obtain ⟨method, hmethod⟩ := exists_method_iff.2 hm
  have hstmts : ∀ s ∈ method.stmts.toList, ∃ es, d.stmtEffects s = .ok es :=
    fun s hs => h.exists_stmtEffects ((h.within_of_method hmethod).stmts s hs)
  obtain ⟨lists, hlists⟩ := exists_mapM_eq_ok hstmts
  refine ⟨lists.flatten, ?_⟩
  rw [bodyEffects, hmethod]
  simp only [bind, Except.bind, hlists]
  rfl

theorem InRange.exists_stmtReactions {o : ObjId} {type : ObjType} {s : StmtId} (hs : d.Has s)
    (htype : ∀ c ∈ type.dispatchClass?, d.Has c) : ∃ rs, d.stmtReactions o type s = .ok rs := by
  obtain ⟨placed, hplaced⟩ := exists_placed_iff.2 hs
  have hstmt := h.within_of_hasStmt (hasStmt_of_placed hplaced)
  rw [stmtReactions, hplaced]
  revert hstmt
  simp only [bind, Except.bind]
  cases placed.stmt with
  | load lhs base ref =>
    intro hstmt
    cases base with
    | none => exact ⟨_, rfl⟩
    | some base =>
      obtain ⟨e, he⟩ := h.exists_fieldFlow s (hstmt.classes ref.cls (by simp [Stmt.classes])) false
        fun f => .flow (.field o f) (.var lhs)
      simp only [he]
      exact ⟨_, rfl⟩
  | store base ref rhs =>
    intro hstmt
    cases base with
    | none => exact ⟨_, rfl⟩
    | some base =>
      obtain ⟨e, he⟩ := h.exists_fieldFlow s (hstmt.classes ref.cls (by simp [Stmt.classes])) false
        fun f => .flow (.var rhs) (.field o f)
      simp only [he]
      exact ⟨_, rfl⟩
  | invoke call =>
    intro hstmt
    obtain ⟨r, hr⟩ :=
      h.exists_resolveCall s htype (hstmt.classes call.target.cls (by simp [Stmt.classes]))
    simp only [hr]
    cases r with
    | none => exact ⟨_, rfl⟩
    | some c => exact ⟨_, rfl⟩
  | new | copy | loadArray | storeArray | ret | const =>
    intro hstmt
    exact ⟨_, rfl⟩

end Lookups

end Draft

end PointsTo
