import PointsTo.Proofs.Tables

/-!
# Facts and rules

What an analysis may find out, and the rules by which it does. A `Fact` names objects by their keys,
so that it means the same whatever numbers objects and pointers have got. The instances of a `Rule`
are read off the program alone: those of a reached method's statements, those of the statements that
depend on the objects of a variable, those of a call, and the flow of objects along an edge. The
solution that a program asks for is the least `Closed` set of facts, which has just what the rules
derive (`Derives`). What a solver has found of it, a solution `Shows`, and what is still on the work
list, a state `Awaits`.
-/

namespace PointsTo

/-- A variable, a static field, or a field of an object that is named by its key. -/
inductive Place (κ : Type) where
  | var (v : VarId)
  | static (f : FieldId)
  | field (k : κ) (f : FieldId)
deriving DecidableEq

inductive Fact (κ : Type) where
  | reached (m : MethodId)
  | called (e : CallEdge)
  /-- the analysis has a pointer for a place -/
  | known (a : Place κ)
  /-- what one place holds flows into another -/
  | flows (a b : Place κ)
  /-- a place holds the object of a key -/
  | holds (a : Place κ) (k : κ)
deriving DecidableEq

namespace Draft

variable (d : Draft)

/-- An id names a statement. -/
def HasStmt (s : StmtId) (stmt : Stmt) : Prop :=
  ∃ placed, d.placed s = .ok placed ∧ placed.stmt = stmt

/-- A statement stands in the body of a method. -/
def InBody (m : MethodId) (s : StmtId) : Prop :=
  ∃ method, d.method m = .ok method ∧ s ∈ method.stmts.toList

/-- A reference means a field, which is static or not. -/
def Accesses (ref : FieldRef) (f : FieldId) (isStatic : Bool) : Prop :=
  d.resolveField ref = .ok (some f) ∧ d.isStaticField f = isStatic

/-- A statement allocates objects of a type. -/
def Allocates (s : StmtId) (type : ObjType) : Prop :=
  ∃ lhs c isArray, d.HasStmt s (.new lhs c isArray) ∧ type = .of c isArray

instance (s : StmtId) (stmt : Stmt) : Decidable (d.HasStmt s stmt) :=
  match h : d.placed s with
  | .ok placed => decidable_of_iff (placed.stmt = stmt) (by simp [HasStmt, h])
  | .error e => isFalse (by simp [HasStmt, h])

instance (m : MethodId) (s : StmtId) : Decidable (d.InBody m s) :=
  match h : d.method m with
  | .ok method => decidable_of_iff (s ∈ method.stmts.toList) (by simp [InBody, h])
  | .error e => isFalse (by simp [InBody, h])

instance (ref : FieldRef) (f : FieldId) (isStatic : Bool) : Decidable (d.Accesses ref f isStatic) :=
  inferInstanceAs (Decidable (_ ∧ _))

variable {d} in
theorem HasStmt.unique {s : StmtId} {stmt stmt' : Stmt} (h : d.HasStmt s stmt)
    (h' : d.HasStmt s stmt') : stmt = stmt' := by
  obtain ⟨placed, hplaced, rfl⟩ := h
  obtain ⟨placed', hplaced', rfl⟩ := h'
  rw [hplaced] at hplaced'
  rw [Except.ok.inj hplaced']

variable {d} in
theorem Allocates.unique {s : StmtId} {type type' : ObjType} (h : d.Allocates s type)
    (h' : d.Allocates s type') : type = type' := by
  obtain ⟨lhs, c, isArray, hstmt, rfl⟩ := h
  obtain ⟨lhs', c', isArray', hstmt', rfl⟩ := h'
  cases hstmt.unique hstmt'
  rfl

end Draft

/-- A key stands for objects of a type: some allocation of the type has it. -/
def HeapModel.HasType {κ : Type} (model : HeapModel κ) (d : Draft) (k : κ) (type : ObjType) :
    Prop :=
  ∃ s, d.Allocates s type ∧ model.key? s type = some k

/-! ## The rules -/

/-- `Rule d model premises f`: from the premises follows `f`. -/
inductive Rule {κ : Type} (d : Draft) (model : HeapModel κ) : List (Fact κ) → Fact κ → Prop where
  /-- `lhs = new C` in a reached method -/
  | new {m : MethodId} {s : StmtId} {lhs : VarId} {c : ClassId} {isArray : Bool} {k : κ} :
      d.InBody m s → d.HasStmt s (.new lhs c isArray) → model.key? s (.of c isArray) = some k →
      Rule d model [.reached m] (.holds (.var lhs) k)
  /-- `lhs = rhs` in a reached method -/
  | copy {m : MethodId} {s : StmtId} {lhs rhs : VarId} :
      d.InBody m s → d.HasStmt s (.copy lhs rhs) →
      Rule d model [.reached m] (.flows (.var rhs) (.var lhs))
  /-- `lhs = C::f` in a reached method -/
  | loadStatic {m : MethodId} {s : StmtId} {lhs : VarId} {ref : FieldRef} {f : FieldId} :
      d.InBody m s → d.HasStmt s (.load lhs none ref) → d.Accesses ref f true →
      Rule d model [.reached m] (.flows (.static f) (.var lhs))
  /-- `C::f = rhs` in a reached method -/
  | storeStatic {m : MethodId} {s : StmtId} {ref : FieldRef} {rhs : VarId} {f : FieldId} :
      d.InBody m s → d.HasStmt s (.store none ref rhs) → d.Accesses ref f true →
      Rule d model [.reached m] (.flows (.var rhs) (.static f))
  /-- a static call in a reached method -/
  | enter {m callee : MethodId} {s : StmtId} {call : Invoke} :
      d.InBody m s → d.HasStmt s (.invoke call) → call.kind = .static →
      d.callee none call = .ok (some callee) →
      Rule d model [.reached m] (.called ⟨call.kind, s, callee⟩)
  /-- `base.f = rhs` for an object of the base -/
  | store {s : StmtId} {base rhs : VarId} {ref : FieldRef} {f : FieldId} {k : κ} :
      d.HasStmt s (.store (some base) ref rhs) → d.Accesses ref f false →
      Rule d model [.holds (.var base) k] (.flows (.var rhs) (.field k f))
  /-- `lhs = base.f` for an object of the base -/
  | load {s : StmtId} {lhs base : VarId} {ref : FieldRef} {f : FieldId} {k : κ} :
      d.HasStmt s (.load lhs (some base) ref) → d.Accesses ref f false →
      Rule d model [.holds (.var base) k] (.flows (.field k f) (.var lhs))
  /-- `base[] = rhs` for an object of the base -/
  | storeArray {s : StmtId} {base rhs : VarId} {k : κ} :
      d.HasStmt s (.storeArray base rhs) →
      Rule d model [.holds (.var base) k] (.flows (.var rhs) (.var base))
  /-- `lhs = base[]` for an object of the base -/
  | loadArray {s : StmtId} {lhs base : VarId} {k : κ} :
      d.HasStmt s (.loadArray lhs base) →
      Rule d model [.holds (.var base) k] (.flows (.var base) (.var lhs))
  /-- a call on a receiver, for an object of the receiver -/
  | dispatch {s : StmtId} {call : Invoke} {v : VarId} {k : κ} {type : ObjType} {callee : MethodId} :
      d.HasStmt s (.invoke call) → call.receiver = some v → model.HasType d k type →
      d.callee type.dispatchClass? call = .ok (some callee) →
      Rule d model [.holds (.var v) k] (.called ⟨call.kind, s, callee⟩)
  /-- the receiver itself inside the callee -/
  | receive {s : StmtId} {call : Invoke} {v this : VarId} {k : κ} {type : ObjType}
      {callee : MethodId} {method : Method} :
      d.HasStmt s (.invoke call) → call.receiver = some v → model.HasType d k type →
      d.callee type.dispatchClass? call = .ok (some callee) → d.method callee = .ok method →
      method.this = some this →
      Rule d model [.holds (.var v) k] (.holds (.var this) k)
  /-- the callee of a call -/
  | reach {e : CallEdge} : Rule d model [.called e] (.reached e.callee)
  /-- an argument of a call -/
  | pass {e : CallEdge} {call : Invoke} {method : Method} {arg param : VarId} :
      d.HasStmt e.site (.invoke call) → d.method e.callee = .ok method →
      (arg, param) ∈ call.args.zip method.params →
      Rule d model [.called e] (.flows (.var arg) (.var param))
  /-- a value that a call returns -/
  | ret {e : CallEdge} {call : Invoke} {method : Method} {v lhs : VarId} :
      d.HasStmt e.site (.invoke call) → d.method e.callee = .ok method → v ∈ method.returns →
      call.lhs = some lhs →
      Rule d model [.called e] (.flows (.var v) (.var lhs))
  /-- the result of a call, also of one that returns nothing -/
  | result {e : CallEdge} {call : Invoke} {lhs : VarId} :
      d.HasStmt e.site (.invoke call) → call.lhs = some lhs →
      Rule d model [.called e] (.known (.var lhs))
  /-- an object flows along an edge -/
  | flow {a b : Place κ} {k : κ} : Rule d model [.flows a b, .holds a k] (.holds b k)
  | source {a b : Place κ} : Rule d model [.flows a b] (.known a)
  | target {a b : Place κ} : Rule d model [.flows a b] (.known b)
  | holder {a : Place κ} {k : κ} : Rule d model [.holds a k] (.known a)

section

variable {κ : Type} {d : Draft} {model : HeapModel κ}

/-- A set of facts that has every conclusion of its facts. -/
def Closed (d : Draft) (model : HeapModel κ) (S : Fact κ → Prop) : Prop :=
  ∀ premises f, Rule d model premises f → (∀ g ∈ premises, S g) → S f

theorem Closed.one {S : Fact κ → Prop} (h : Closed d model S) {f g : Fact κ}
    (hrule : Rule d model [g] f) (hg : S g) : S f := by
  refine h _ _ hrule fun g' hg' => ?_
  rw [List.mem_singleton] at hg'
  exact hg' ▸ hg

theorem Closed.flow {S : Fact κ → Prop} (h : Closed d model S) {a b : Place κ} {k : κ}
    (hab : S (.flows a b)) (ha : S (.holds a k)) : S (.holds b k) := by
  refine h [.flows a b, .holds a k] _ .flow fun g hg => ?_
  simp only [List.mem_cons, List.not_mem_nil, or_false] at hg
  rcases hg with rfl | rfl
  · exact hab
  · exact ha

/-- What follows from some given facts. -/
inductive Derives (d : Draft) (model : HeapModel κ) (given : Fact κ → Prop) : Fact κ → Prop where
  | given {f : Fact κ} : given f → Derives d model given f
  | rule {premises : List (Fact κ)} {f : Fact κ} :
      Rule d model premises f → (∀ g ∈ premises, Derives d model given g) → Derives d model given f

namespace Derives

variable {given : Fact κ → Prop}

theorem closed (given : Fact κ → Prop) : Closed d model (Derives d model given) :=
  fun _ _ hrule hpremises => .rule hrule hpremises

/-- The derivable facts are the least closed set that holds the given ones. -/
theorem least {S : Fact κ → Prop} (hS : Closed d model S) (hgiven : ∀ f, given f → S f) {f : Fact κ}
    (h : Derives d model given f) : S f := by
  induction h with
  | given hf => exact hgiven _ hf
  | rule hrule _ ih => exact hS _ _ hrule ih

theorem mono {given' : Fact κ → Prop} (h : ∀ f, given f → given' f) {f : Fact κ}
    (hf : Derives d model given f) : Derives d model given' f :=
  hf.least (closed given') fun g hg => .given (h g hg)

theorem one {f g : Fact κ} (hrule : Rule d model [g] f) (hg : Derives d model given g) :
    Derives d model given f :=
  (closed given).one hrule hg

end Derives

end

/-! ## What a state says -/

/-- The place that a pointer stands for. The field of an object that does not exist stands for
none. -/
def Heap.place {κ : Type} [Ord κ] [Std.TransOrd κ] (h : Heap κ) : Pointer → Option (Place κ)
  | .var v => some (.var v)
  | .static f => some (.static f)
  | .field o f => (h.keyOf o).map (.field · f)

namespace Solution

variable {κ : Type} [Ord κ] [Std.TransOrd κ]

/-- The place of a pointer by its id. -/
def placeOf (r : Solution κ) (i : PointerId) : Option (Place κ) :=
  (r.pointers.pointer? i).bind r.heap.place

/-- The facts of a solution. -/
def Shows (r : Solution κ) : Fact κ → Prop
  | .reached m => m ∈ r.calls.reachable
  | .called e => e ∈ r.calls.edges
  | .known a => ∃ i, r.placeOf i = some a
  | .flows a b => ∃ i j, r.placeOf i = some a ∧ r.placeOf j = some b ∧ r.flow.hasEdge i j = true
  | .holds a k => ∃ i o, r.placeOf i = some a ∧ o ∈ r.pointers.pts i ∧ r.heap.keyOf o = some k

end Solution

/-- The facts that wait on the work list: objects on their way to a place. -/
def State.Awaits {κ : Type} [Ord κ] [Std.TransOrd κ] (st : State κ) : Fact κ → Prop
  | .holds a k =>
    ∃ i objs o, st.placeOf i = some a ∧ (i, objs) ∈ st.worklist.toList ∧ o ∈ objs ∧
      st.heap.keyOf o = some k
  | _ => False

end PointsTo
