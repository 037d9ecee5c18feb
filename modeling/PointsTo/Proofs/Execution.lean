import Mathlib.Logic.Function.Basic
import PointsTo.Proofs.LeastSolution

/-!
# What programs do when they run

A `Machine` has a stack of frames, whose variables hold null or objects, and a heap of objects that
know the statement by which they were allocated. A `Step` executes any statement of the method on
top of the stack, so the order of statements and how often they are executed is left open.

`Machine.execution_covered`: what a machine holds is in every set of facts that is closed under the
rules, as long as the program does not access arrays (`Draft.ArrayFree`). The rules keep what is in
an array with the variables that hold the array, and not with the array itself. The proof goes step
by step: a closed set that has all that a machine holds (`Covered`) has all that it holds after the
step.
-/

namespace PointsTo

/-- Null, or an object by its number in the heap. -/
abbrev Value := Option Nat

structure Object extends Obj where
  fields : FieldId → Value := fun _ => none
  elems : Nat → Value := fun _ => none

/-- A method that is being executed. -/
structure Frame where
  method : MethodId
  env : VarId → Value := fun _ => none
  /-- the variable of the caller that takes what the method returns -/
  target : Option VarId := none

structure Machine where
  /-- the top frame comes first -/
  stack : List Frame
  heap : List Object := []
  statics : FieldId → Value := fun _ => none
  /-- the calls so far, the last one first -/
  calls : List CallEdge := []

/-- The frame of a method that is entered. Arguments are for parameters by their positions. -/
def Frame.enter (m : MethodId) (method : Method) (receiver : Value) (args : List Value)
    (target : Option VarId) : Frame where
  method := m
  env v := if method.this = some v then receiver else ((method.params.zip args).lookup v).join
  target := target

namespace Machine

/-- The machine that has entered the entry method. -/
def start (entry : MethodId) : Machine where
  stack := [{ method := entry }]

variable (σ : Machine)

/-- What a variable of the top frame holds. -/
def value (v : VarId) : Value := σ.stack.head?.bind (·.env v)

/-- The variable that takes what the top frame returns. -/
def target : Option VarId := σ.stack.head?.bind (·.target)

def assign (v : VarId) (x : Value) : Machine :=
  { σ with stack := σ.stack.modifyHead fun fr => { fr with env := Function.update fr.env v x } }

def alloc (obj : Obj) : Machine := { σ with heap := σ.heap ++ [{ toObj := obj }] }

def setStatic (f : FieldId) (x : Value) : Machine :=
  { σ with statics := Function.update σ.statics f x }

def setField (o : Nat) (f : FieldId) (x : Value) : Machine :=
  { σ with heap := σ.heap.modify o fun obj =>
    { obj with fields := Function.update obj.fields f x } }

def setElem (o i : Nat) (x : Value) : Machine :=
  { σ with heap := σ.heap.modify o fun obj => { obj with elems := Function.update obj.elems i x } }

def enter (e : CallEdge) (fr : Frame) : Machine :=
  { σ with stack := fr :: σ.stack, calls := e :: σ.calls }

def leave : Machine := { σ with stack := σ.stack.tail }

/-- A statement stands in the method of the top frame. -/
def At (d : Draft) (s : StmtId) (stmt : Stmt) : Prop :=
  ∃ fr ∈ σ.stack.head?, d.InBody fr.method s ∧ d.HasStmt s stmt

variable {σ}

/-- One step of a machine. A field access takes effect if the field is static where the statement
says so; a call on a receiver enters the method that the class of the object leads to, and arrays
have no class for that. -/
inductive Step (d : Draft) : Machine → Machine → Prop where
  | new {σ : Machine} {s : StmtId} {lhs : VarId} {c : ClassId} {isArray : Bool} :
      σ.At d s (.new lhs c isArray) →
      Step d σ ((σ.alloc ⟨s, .of c isArray⟩).assign lhs (some σ.heap.length))
  | const {σ : Machine} {s : StmtId} {lhs : VarId} : σ.At d s (.const lhs) →
      Step d σ (σ.assign lhs none)
  | copy {σ : Machine} {s : StmtId} {lhs rhs : VarId} :
      σ.At d s (.copy lhs rhs) → Step d σ (σ.assign lhs (σ.value rhs))
  | loadStatic {σ : Machine} {s : StmtId} {lhs : VarId} {ref : FieldRef} {f : FieldId} :
      σ.At d s (.load lhs none ref) → d.Accesses ref f true → Step d σ (σ.assign lhs (σ.statics f))
  | storeStatic {σ : Machine} {s : StmtId} {ref : FieldRef} {rhs : VarId} {f : FieldId} :
      σ.At d s (.store none ref rhs) → d.Accesses ref f true →
      Step d σ (σ.setStatic f (σ.value rhs))
  | load {σ : Machine} {s : StmtId} {lhs base : VarId} {ref : FieldRef} {f : FieldId} {o : Nat}
      {obj : Object} :
      σ.At d s (.load lhs (some base) ref) → d.Accesses ref f false → σ.value base = some o →
      σ.heap[o]? = some obj →
      Step d σ (σ.assign lhs (obj.fields f))
  | store {σ : Machine} {s : StmtId} {base rhs : VarId} {ref : FieldRef} {f : FieldId} {o : Nat} :
      σ.At d s (.store (some base) ref rhs) → d.Accesses ref f false → σ.value base = some o →
      Step d σ (σ.setField o f (σ.value rhs))
  | loadArray {σ : Machine} {s : StmtId} {lhs base : VarId} {o : Nat} {obj : Object} (i : Nat) :
      σ.At d s (.loadArray lhs base) → σ.value base = some o → σ.heap[o]? = some obj →
      Step d σ (σ.assign lhs (obj.elems i))
  | storeArray {σ : Machine} {s : StmtId} {base rhs : VarId} {o : Nat} (i : Nat) :
      σ.At d s (.storeArray base rhs) → σ.value base = some o →
      Step d σ (σ.setElem o i (σ.value rhs))
  | callStatic {σ : Machine} {s : StmtId} {call : Invoke} {callee : MethodId} {method : Method} :
      σ.At d s (.invoke call) → call.kind = .static → d.callee none call = .ok (some callee) →
      d.method callee = .ok method →
      Step d σ (σ.enter ⟨call.kind, s,
        callee⟩ (.enter callee method none (call.args.map σ.value) call.lhs))
  | callOn {σ : Machine} {s : StmtId} {call : Invoke} {v : VarId} {o : Nat} {obj : Object}
      {callee : MethodId} {method : Method} :
      σ.At d s (.invoke call) → call.receiver = some v → σ.value v = some o →
      σ.heap[o]? = some obj →
      d.callee obj.type.dispatchClass? call = .ok (some callee) → d.method callee = .ok method →
      Step d σ (σ.enter ⟨call.kind, s,
        callee⟩ (.enter callee method (some o) (call.args.map σ.value) call.lhs))
  /-- `return v` where the caller takes the result -/
  | ret {σ : Machine} {s : StmtId} {v lhs : VarId} :
      σ.At d s (.ret (some v)) → σ.target = some lhs → Step d σ (σ.leave.assign lhs (σ.value v))
  /-- the end of a body, with a result that nobody takes or without one -/
  | leave {σ : Machine} : Step d σ σ.leave

/-- The machines that an execution from a method comes to. -/
def Reached (d : Draft) (entry : MethodId) : Machine → Prop :=
  Relation.ReflTransGen (Step d) (start entry)

end Machine

def Stmt.accessesArray : Stmt → Bool
  | .loadArray _ _ | .storeArray _ _ => true
  | _ => false

/-- No statement reads or writes elements of arrays. Arrays may be allocated. -/
def Draft.ArrayFree (d : Draft) : Prop := ∀ x ∈ d.stmts.toList, x.stmt.accessesArray = false

instance (d : Draft) : Decidable d.ArrayFree :=
  inferInstanceAs (Decidable (∀ x ∈ d.stmts.toList, x.stmt.accessesArray = false))

theorem Draft.ArrayFree.of_hasStmt {d : Draft} (h : d.ArrayFree) {s : StmtId} {stmt : Stmt}
    (hs : d.HasStmt s stmt) : stmt.accessesArray = false := by
  obtain ⟨x, hx, rfl⟩ := hs
  exact h x (List.mem_iff_getElem?.2 ⟨s.index, by
    rw [Array.getElem?_toList]; exact fetch_eq_ok_iff.1 hx⟩)

/-! ## What closed sets know of a machine -/

section Covered

variable {d : Draft} {S : Fact StmtId → Prop}

/-- If a value is an object, then the object exists, and a set of facts has it at a place. -/
def Held (S : Fact StmtId → Prop) (heap : List Object) (a : Place StmtId) (x : Value) : Prop :=
  ∀ o, x = some o → ∃ obj, heap[o]? = some obj ∧ S (.holds a obj.site)

theorem Held.null {heap : List Object} {a : Place StmtId} : Held S heap a none :=
  fun o ho => by cases ho

theorem Held.flow {heap : List Object} {a b : Place StmtId} {x : Value} (h : Held S heap a x)
    (hS : Closed d .bySite S) (hab : S (.flows a b)) : Held S heap b x := by
  intro o ho
  obtain ⟨obj, hobj, ha⟩ := h o ho
  exact ⟨obj, hobj, hS.flow hab ha⟩

/-- The objects of one heap are in another, allocated by the same statements. -/
def Survives (heap heap' : List Object) : Prop :=
  ∀ (o : Nat) (obj : Object), heap[o]? = some obj →
    ∃ obj', heap'[o]? = some obj' ∧ obj'.site = obj.site

theorem Held.survives {heap heap' : List Object} {a : Place StmtId} {x : Value}
    (h : Held S heap a x) (hheap : Survives heap heap') : Held S heap' a x := by
  intro o ho
  obtain ⟨obj, hobj, ha⟩ := h o ho
  obtain ⟨obj', hobj', hsite⟩ := hheap o obj hobj
  exact ⟨obj', hobj', hsite ▸ ha⟩

/-- The value that a parameter gets is that of the argument at its position. -/
theorem exists_arg_of_lookup {params args : List VarId} {f : VarId → Value} {v : VarId} {x : Value}
    (h : (params.zip (args.map f)).lookup v = some x) :
    ∃ arg, (arg, v) ∈ args.zip params ∧ f arg = x := by
  obtain ⟨i, hi⟩ := List.mem_iff_getElem?.1 (mem_of_lookup_eq_some h)
  obtain ⟨hparam, hx⟩ := List.getElem?_zip_eq_some.1 hi
  rw [List.getElem?_map] at hx
  obtain ⟨arg, harg, rfl⟩ := Option.map_eq_some_iff.1 hx
  have hpair : (args.zip params)[i]? = some (arg, v) := List.getElem?_zip_eq_some.2 ⟨harg, hparam⟩
  exact ⟨arg, List.mem_of_getElem? hpair, rfl⟩

namespace Machine

/-- A set of facts has all that a machine holds, and the calls that it made. -/
structure Covered (d : Draft) (S : Fact StmtId → Prop) (σ : Machine) : Prop where
  reached : ∀ fr ∈ σ.stack, S (.reached fr.method)
  vars : ∀ fr ∈ σ.stack, ∀ v, Held S σ.heap (.var v) (fr.env v)
  targets : ∀ fr ∈ σ.stack, ∀ lhs, fr.target = some lhs →
    ∃ e call, S (.called e) ∧ e.callee = fr.method ∧ d.HasStmt e.site (.invoke call) ∧
    call.lhs = some lhs
  calls : ∀ e ∈ σ.calls, S (.called e)
  statics : ∀ f, Held S σ.heap (.static f) (σ.statics f)
  types : ∀ obj ∈ σ.heap, d.Allocates obj.site obj.type
  fields : ∀ obj ∈ σ.heap, ∀ f, Held S σ.heap (.field obj.site f) (obj.fields f)

namespace Covered

variable {σ : Machine}

theorem start {entry : MethodId} (hentry : S (.reached entry)) : (start entry).Covered d S where
  reached fr hfr := by rwa [List.mem_singleton.1 hfr]
  vars fr hfr v := by
    rw [List.mem_singleton.1 hfr]
    exact .null
  targets fr hfr lhs hlhs := by
    rw [List.mem_singleton.1 hfr] at hlhs
    cases hlhs
  calls e he := absurd he List.not_mem_nil
  statics f := .null
  types obj hobj := absurd hobj List.not_mem_nil
  fields obj hobj := absurd hobj List.not_mem_nil

section

variable (h : σ.Covered d S)

include h

theorem value (v : VarId) : Held S σ.heap (.var v) (σ.value v) := by
  cases hstack : σ.stack with
  | nil =>
    rw [Machine.value, hstack]
    exact .null
  | cons fr rest =>
    rw [Machine.value, hstack]
    exact h.vars fr (by rw [hstack]; exact List.mem_cons_self ..) v

theorem holds_of_value {v : VarId} {o : Nat} {obj : Object} (hv : σ.value v = some o)
    (hobj : σ.heap[o]? = some obj) : S (.holds (.var v) obj.site) := by
  obtain ⟨obj', hobj', hholds⟩ := h.value v o hv
  cases hobj.symm.trans hobj'
  exact hholds

theorem reached_of_at {s : StmtId} {stmt : Stmt} (hs : σ.At d s stmt) :
    ∃ m, S (.reached m) ∧ d.InBody m s ∧ d.HasStmt s stmt := by
  obtain ⟨fr, hfr, hbody, hstmt⟩ := hs
  exact ⟨fr.method, h.reached fr (List.mem_of_mem_head? hfr), hbody, hstmt⟩

theorem assign {v : VarId} {x : Value} (hx : Held S σ.heap (.var v) x) :
    (σ.assign v x).Covered d S := by
  have hmem : ∀ fr ∈ (σ.assign v x).stack, ∃ fr' ∈ σ.stack, fr.method = fr'.method ∧
      fr.target = fr'.target ∧
      (fr.env = fr'.env ∨ fr.env = Function.update fr'.env v x) := by
    intro fr hfr
    rw [Machine.assign] at hfr
    cases hstack : σ.stack with
    | nil =>
      rw [hstack] at hfr
      exact absurd hfr List.not_mem_nil
    | cons top rest =>
      rw [hstack] at hfr
      rcases List.mem_cons.1 hfr with rfl | hfr
      · exact ⟨top, List.mem_cons_self .., rfl, rfl, .inr rfl⟩
      · exact ⟨fr, List.mem_cons_of_mem _ hfr, rfl, rfl, .inl rfl⟩
  refine { h with reached := fun fr hfr => ?_, vars := fun fr hfr w => ?_, targets :=
    fun fr hfr lhs hlhs => ?_ }
  · obtain ⟨fr', hfr', hmethod, -⟩ := hmem fr hfr
    exact hmethod ▸ h.reached fr' hfr'
  · obtain ⟨fr', hfr', -, -, henv | henv⟩ := hmem fr hfr
    · exact henv ▸ h.vars fr' hfr' w
    · rw [henv, Function.update_apply]
      split
      · rename_i hw
        exact hw ▸ hx
      · exact h.vars fr' hfr' w
  · obtain ⟨fr', hfr', hmethod, htarget, -⟩ := hmem fr hfr
    exact hmethod ▸ h.targets fr' hfr' lhs (htarget ▸ hlhs)

/-- A heap that has all objects still, and whose objects hold what the set of facts has, may take
the place of the machine's heap. -/
theorem withHeap {heap : List Object} (hheap : Survives σ.heap heap)
    (htypes : ∀ obj ∈ heap, d.Allocates obj.site obj.type)
    (hfields : ∀ obj ∈ heap, ∀ f, Held S heap (.field obj.site f) (obj.fields f)) :
    Covered d S { σ with heap } where
  reached := h.reached
  vars fr hfr v := (h.vars fr hfr v).survives hheap
  targets := h.targets
  calls := h.calls
  statics f := (h.statics f).survives hheap
  types := htypes
  fields := hfields

theorem alloc {obj : Obj} (hobj : d.Allocates obj.site obj.type) : (σ.alloc obj).Covered d S := by
  have hheap : Survives σ.heap (σ.alloc obj).heap := by
    intro o x hx
    have hlt := (List.getElem?_eq_some_iff.1 hx).1
    exact ⟨x, (List.getElem?_append_left hlt).trans hx, rfl⟩
  refine h.withHeap hheap (fun x hx => ?_) fun x hx f => ?_
  · rcases List.mem_append.1 hx with hx | hx
    · exact h.types x hx
    · rw [List.mem_singleton.1 hx]
      exact hobj
  · rcases List.mem_append.1 hx with hx | hx
    · exact (h.fields x hx f).survives hheap
    · rw [List.mem_singleton.1 hx]
      exact .null

theorem setField {o : Nat} {obj : Object} {f : FieldId} {x : Value} (hobj : σ.heap[o]? = some obj)
    (hx : Held S σ.heap (.field obj.site f) x) : (σ.setField o f x).Covered d S := by
  have hheap : Survives σ.heap (σ.setField o f x).heap := by
    intro o' y hy
    rw [Machine.setField, List.getElem?_modify, hy]
    split
    · exact ⟨_, rfl, rfl⟩
    · exact ⟨_, rfl, rfl⟩
  -- only the object itself is new, and it is new in one field
  have hmem : ∀ y ∈ (σ.setField o f x).heap,
      y ∈ σ.heap ∨ y = { obj with fields := Function.update obj.fields f x } := by
    intro y hy
    obtain ⟨o', hy⟩ := List.mem_iff_getElem?.1 hy
    rw [Machine.setField, List.getElem?_modify] at hy
    split at hy
    · rename_i ho
      rw [← ho, hobj] at hy
      exact .inr (Option.some.inj hy).symm
    · exact .inl (List.mem_iff_getElem?.2 ⟨o', by simpa using hy⟩)
  have hold := List.mem_of_getElem? hobj
  refine h.withHeap hheap (fun y hy => ?_) fun y hy g => ?_
  · rcases hmem y hy with hy | rfl
    · exact h.types y hy
    · exact h.types obj hold
  · rcases hmem y hy with hy | rfl
    · exact (h.fields y hy g).survives hheap
    · show Held S _ (.field obj.site g) (Function.update obj.fields f x g)
      rw [Function.update_apply]
      split
      · rename_i hg
        exact hg ▸ hx.survives hheap
      · exact (h.fields obj hold g).survives hheap

theorem setStatic {f : FieldId} {x : Value} (hx : Held S σ.heap (.static f) x) :
    (σ.setStatic f x).Covered d S := by
  refine { h with statics := fun g => ?_ }
  show Held S σ.heap (.static g) (Function.update σ.statics f x g)
  rw [Function.update_apply]
  split
  · rename_i hg
    exact hg ▸ hx
  · exact h.statics g

theorem enter {e : CallEdge} {call : Invoke} {method : Method} {receiver : Value}
    (hS : Closed d .bySite S) (he : S (.called e)) (hstmt : d.HasStmt e.site (.invoke call))
    (hmethod : d.method e.callee = .ok method)
    (hthis : ∀ this, method.this = some this → Held S σ.heap (.var this) receiver) :
    (σ.enter e (.enter e.callee method receiver (call.args.map σ.value) call.lhs)).Covered d S := by
  refine { h with reached := fun fr hfr => ?_, vars := fun fr hfr v => ?_, targets :=
    fun fr hfr lhs hlhs => ?_,
                  calls := fun e' he' => ?_ }
  · rcases List.mem_cons.1 hfr with rfl | hfr
    · exact hS.one .reach he
    · exact h.reached fr hfr
  · rcases List.mem_cons.1 hfr with rfl | hfr
    · show Held S σ.heap (.var v) (if method.this = some v then receiver else _)
      split
      · rename_i hv
        exact hthis v hv
      · intro o ho
        obtain ⟨arg, harg, hvalue⟩ := exists_arg_of_lookup (Option.join_eq_some_iff.1 ho)
        exact (h.value arg).flow hS (hS.one (.pass hstmt hmethod harg) he) o hvalue
    · exact h.vars fr hfr v
  · rcases List.mem_cons.1 hfr with rfl | hfr
    · exact ⟨e, call, he, rfl, hstmt, hlhs⟩
    · exact h.targets fr hfr lhs hlhs
  · rcases List.mem_cons.1 he' with rfl | he'
    · exact he
    · exact h.calls e' he'

theorem leave : σ.leave.Covered d S :=
  { h with
    reached := fun fr hfr => h.reached fr (List.mem_of_mem_tail hfr)
    vars := fun fr hfr => h.vars fr (List.mem_of_mem_tail hfr)
    targets := fun fr hfr => h.targets fr (List.mem_of_mem_tail hfr) }

end

/-- A step leads to nothing that a closed set does not have. -/
theorem step {σ' : Machine} (hS : Closed d .bySite S) (hfiled : d.Filed) (harrays : d.ArrayFree)
    (h : σ.Covered d S) (hstep : Step d σ σ') : σ'.Covered d S := by
  cases hstep with
  | @new s lhs c isArray hs =>
    obtain ⟨m, hm, hbody, hstmt⟩ := h.reached_of_at hs
    refine (h.alloc ⟨lhs, c, isArray, hstmt, rfl⟩).assign fun o ho => ?_
    cases ho
    have hlast : (σ.alloc ⟨s, .of c isArray⟩).heap[σ.heap.length]? =
        some { site := s, type := .of c isArray } := by
      rw [Machine.alloc, List.getElem?_append_right (Nat.le_refl _), Nat.sub_self]
      rfl
    exact ⟨_, hlast, hS.one (.new hbody hstmt rfl) hm⟩
  | const hs => exact h.assign .null
  | @copy s lhs rhs hs =>
    obtain ⟨m, hm, hbody, hstmt⟩ := h.reached_of_at hs
    exact h.assign ((h.value rhs).flow hS (hS.one (.copy hbody hstmt) hm))
  | @loadStatic s lhs ref f hs hf =>
    obtain ⟨m, hm, hbody, hstmt⟩ := h.reached_of_at hs
    exact h.assign ((h.statics f).flow hS (hS.one (.loadStatic hbody hstmt hf) hm))
  | @storeStatic s ref rhs f hs hf =>
    obtain ⟨m, hm, hbody, hstmt⟩ := h.reached_of_at hs
    exact h.setStatic ((h.value rhs).flow hS (hS.one (.storeStatic hbody hstmt hf) hm))
  | @load s lhs base ref f o obj hs hf hbase hobj =>
    obtain ⟨-, -, -, hstmt⟩ := h.reached_of_at hs
    have hholds := h.holds_of_value hbase hobj
    have hfield := h.fields obj (List.mem_of_getElem? hobj) f
    exact h.assign (hfield.flow hS (hS.one (.load hstmt hf) hholds))
  | @store s base rhs ref f o hs hf hbase =>
    obtain ⟨-, -, -, hstmt⟩ := h.reached_of_at hs
    obtain ⟨obj, hobj, hholds⟩ := h.value base o hbase
    exact h.setField hobj ((h.value rhs).flow hS (hS.one (.store hstmt hf) hholds))
  | loadArray i hs =>
    obtain ⟨-, -, -, hstmt⟩ := h.reached_of_at hs
    cases harrays.of_hasStmt hstmt
  | storeArray i hs =>
    obtain ⟨-, -, -, hstmt⟩ := h.reached_of_at hs
    cases harrays.of_hasStmt hstmt
  | @callStatic s call callee method hs hstatic hcallee hmethod =>
    obtain ⟨m, hm, hbody, hstmt⟩ := h.reached_of_at hs
    exact h.enter hS (hS.one (.enter hbody hstmt hstatic hcallee) hm) hstmt hmethod fun _ _ => .null
  | @callOn s call v o obj callee method hs hreceiver hv hobj hcallee hmethod =>
    obtain ⟨-, -, -, hstmt⟩ := h.reached_of_at hs
    have hholds := h.holds_of_value hv hobj
    have htype : HeapModel.bySite.HasType d obj.site obj.type :=
      ⟨obj.site, h.types obj (List.mem_of_getElem? hobj), rfl⟩
    refine h.enter hS (hS.one (.dispatch hstmt hreceiver htype hcallee) hholds) hstmt hmethod
      fun this hthis => ?_
    rintro _ ⟨⟩
    exact ⟨obj, hobj, hS.one (.receive hstmt hreceiver htype hcallee hmethod hthis) hholds⟩
  | @ret s v lhs hs hlhs =>
    refine h.leave.assign ?_
    obtain ⟨fr, hfr, hbody, hstmt⟩ := hs
    obtain ⟨fr', hfr', htarget⟩ := Option.bind_eq_some_iff.1 hlhs
    cases Option.mem_unique hfr hfr'
    obtain ⟨e, call, he, hcallee, hcall, hlhs⟩ :=
      h.targets fr (List.mem_of_mem_head? hfr) lhs htarget
    obtain ⟨method, hmethod, hmem⟩ := hbody
    have hreturns := hfiled.mem_returns ⟨method, hmethod, hmem⟩ hstmt hmethod
    exact (h.value v).flow hS (hS.one (.ret hcall (hcallee ▸ hmethod) hreturns hlhs) he)
  | leave => exact h.leave

theorem of_reached {entry : MethodId} (hS : Closed d .bySite S) (hfiled : d.Filed)
    (harrays : d.ArrayFree) (hentry : S (.reached entry)) (hσ : Reached d entry σ) :
    σ.Covered d S := by
  induction hσ with
  | refl => exact .start hentry
  | tail _ hstep ih => exact ih.step hS hfiled harrays hstep

end Covered

end Machine

end Covered

/-! ## The analysis against executions -/

namespace Solution

variable {κ : Type} [Ord κ] [Std.TransOrd κ] (r : Solution κ)

/-- What a pointer points to, if the analysis has the pointer. -/
def pointsTo? (q : Pointer) : Option ObjSet := (r.pointers.find? q).map r.pointers.pts

/-- A pointer points to the object of a key, among others. -/
def MayPointTo (q : Pointer) (k : κ) : Prop :=
  ∃ objs o, r.pointsTo? q = some objs ∧ r.heap.find? k = some o ∧ o ∈ objs

variable {r}

theorem mayPointTo_of_shows {q : Pointer} {a : Place κ} {k : κ} (hq : r.heap.place q = some a)
    (h : r.Shows (.holds a k)) : r.MayPointTo q k := by
  obtain ⟨i, o, hi, ho, hk⟩ := h
  obtain ⟨q', hq', ha⟩ := Option.bind_eq_some_iff.1 hi
  cases Heap.place_injective hq ha
  refine ⟨r.pointers.pts i, o, ?_, Heap.find?_eq_some_iff.2 hk, ho⟩
  rw [pointsTo?, PointerTable.find?_eq_some_iff.2 hq']
  rfl

theorem exists_field_of_shows {f : FieldId} {k k' : κ} (h : r.Shows (.holds (.field k f) k')) :
    ∃ o, r.heap.find? k = some o ∧ r.MayPointTo (.field o f) k' := by
  obtain ⟨i, o', hi, -⟩ := id h
  obtain ⟨q, hq, ha⟩ := Option.bind_eq_some_iff.1 hi
  cases q with
  | var v => cases ha
  | static g => cases ha
  | field o g =>
    obtain ⟨k₁, hk₁, heq⟩ := Option.map_eq_some_iff.1 ha
    cases heq
    exact ⟨o, Heap.find?_eq_some_iff.2 hk₁, mayPointTo_of_shows ha h⟩

end Solution

/-- The analysis of a program that was read from a text knows all that an execution from the entry
does, if the program does not access elements of arrays: the methods on the stack, the calls, and
the objects in variables and fields, each by the statement that allocated it. -/
theorem Machine.execution_covered {text : String} {p : Program} {entry : MethodId}
    (htext : Program.ofText text = .ok p) (harrays : p.ArrayFree) (hentry : p.Has entry) :
    ∃ r log, p.solve .bySite entry = .ok (r, log) ∧ ∀ σ, Machine.Reached p.toDraft entry σ →
      (∀ fr ∈ σ.stack, fr.method ∈ r.calls.reachable) ∧
      (∀ e ∈ σ.calls, e ∈ r.calls.edges) ∧
      (∀ fr ∈ σ.stack, ∀ v o, fr.env v = some o →
        ∃ obj, σ.heap[o]? = some obj ∧ r.MayPointTo (.var v) obj.site) ∧
      (∀ f o, σ.statics f = some o → ∃ obj, σ.heap[o]? = some obj ∧
        r.MayPointTo (.static f) obj.site) ∧
      ∀ base ∈ σ.heap, ∀ f o, base.fields f = some o →
        ∃ i obj, r.heap.find? base.site = some i ∧ σ.heap[o]? = some obj ∧
          r.MayPointTo (.field i f) obj.site := by
  have hp := Program.Proper.of_ofText htext
  obtain ⟨st, log, hsolve, hrun, hdone⟩ := State.Run.solve .bySite hp hentry
  obtain ⟨hrests, hfacts, -⟩ := hrun.spec hp
  have hclosed := hrests.closed hp.inRange (HeapModel.bySite_consistent _) hdone
  have hshows := (hfacts _ (List.mem_singleton.2 rfl)).2
  refine ⟨st.toSolution, log, hsolve, fun σ hσ => ?_⟩
  have hcovered : σ.Covered p.toDraft st.Shows :=
    .of_reached hclosed hp.built.filed harrays hshows hσ
  refine ⟨hcovered.reached, hcovered.calls, fun fr hfr v o ho => ?_, fun f o ho => ?_,
    fun base hbase f o ho => ?_⟩
  · obtain ⟨obj, hobj, hholds⟩ := hcovered.vars fr hfr v o ho
    exact ⟨obj, hobj, Solution.mayPointTo_of_shows rfl hholds⟩
  · obtain ⟨obj, hobj, hholds⟩ := hcovered.statics f o ho
    exact ⟨obj, hobj, Solution.mayPointTo_of_shows rfl hholds⟩
  · obtain ⟨obj, hobj, hholds⟩ := hcovered.fields base hbase f o ho
    obtain ⟨i, hi, hpoints⟩ := Solution.exists_field_of_shows hholds
    exact ⟨i, obj, hi, hobj, hpoints⟩

/-- The call in the sample. -/
def sampleCall : Invoke :=
  { lhs := some ⟨5⟩, kind := .virtual, target := ⟨⟨0⟩, ⟨"id", 1⟩⟩, receiver :=
    some ⟨2⟩, args := [⟨4⟩] }

theorem sampleText_program :
    ∃ p, Program.ofText sampleText = .ok p ∧ p.Has (⟨1⟩ : MethodId) ∧ p.ArrayFree ∧
      p.InBody ⟨0⟩ ⟨0⟩ ∧
      (∀ s ∈ [1, 2, 3, 4, 5], p.InBody ⟨1⟩ ⟨s⟩) ∧ p.HasStmt ⟨0⟩ (.ret (some ⟨1⟩)) ∧
      p.HasStmt ⟨1⟩ (.new ⟨2⟩ ⟨0⟩ false) ∧ p.HasStmt ⟨2⟩ (.new ⟨3⟩ ⟨0⟩ false) ∧
      p.HasStmt ⟨3⟩ (.store (some ⟨2⟩) ⟨⟨0⟩, "f"⟩ ⟨3⟩) ∧
      p.HasStmt ⟨4⟩ (.load ⟨4⟩ (some ⟨2⟩) ⟨⟨0⟩, "f"⟩) ∧
      p.HasStmt ⟨5⟩ (.invoke sampleCall) ∧ p.Accesses ⟨⟨0⟩, "f"⟩ ⟨0⟩ false ∧
      p.callee (some ⟨0⟩) sampleCall = .ok (some ⟨0⟩) ∧
      p.method ⟨0⟩ = .ok
        { name := "id", cls := ⟨0⟩, isStatic := false, isAbstract := false, params := [⟨1⟩],
          this := some ⟨0⟩, returns := [⟨1⟩], stmts := #[⟨0⟩], vars := #[⟨0⟩, ⟨1⟩] } :=
  Program.exists_ofText (by decide +kernel)

/-- In the sample, an object is stored in a field of another one, loaded from there, passed to a
call and returned. -/
theorem Machine.sample_execution_covered :
    ∃ p σ r log, Program.ofText sampleText = .ok p ∧ p.ArrayFree ∧ Reached p.toDraft ⟨1⟩ σ ∧
      p.solve .bySite ⟨1⟩ = .ok (r, log) ∧
      ∃ fr ∈ σ.stack, ∃ obj, fr.env ⟨5⟩ = some 1 ∧ σ.heap[1]? = some obj ∧
        r.MayPointTo (.var ⟨5⟩) obj.site := by
  obtain ⟨p, htext, hmain, harrays, hid, hbody, hret, hx, hy, hstore, hload, hcall, hf,
      hcallee, hmethod⟩ :=
    sampleText_program
  have hrun : Reached p.toDraft ⟨1⟩ _ :=
    Relation.ReflTransGen.refl
      |>.tail (.new ⟨_, rfl, hbody 1 (by decide), hx⟩)
      |>.tail (.new ⟨_, rfl, hbody 2 (by decide), hy⟩)
      |>.tail (.store ⟨_, rfl, hbody 3 (by decide), hstore⟩ hf rfl)
      |>.tail (.load ⟨_, rfl, hbody 4 (by decide), hload⟩ hf rfl rfl)
      |>.tail (.callOn ⟨_, rfl, hbody 5 (by decide), hcall⟩ rfl rfl rfl hcallee hmethod)
      |>.tail (.ret ⟨_, rfl, hid, hret⟩ rfl)
  obtain ⟨r, log, hsolve, hcovered⟩ := execution_covered htext harrays hmain
  obtain ⟨-, -, hvars, -⟩ := hcovered _ hrun
  obtain ⟨obj, hobj, hpoints⟩ := hvars _ (List.mem_cons_self ..) ⟨5⟩ 1 rfl
  exact ⟨p, _, r, log, htext, harrays, hrun, hsolve, _, List.mem_cons_self .., obj, rfl,
    hobj, hpoints⟩

end PointsTo
