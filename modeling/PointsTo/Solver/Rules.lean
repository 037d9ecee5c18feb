import PointsTo.CallGraph
import PointsTo.Hierarchy.Chain
import PointsTo.Log
import PointsTo.Solver.Heap
import PointsTo.Solver.Pointer

/-!
# The rules of the analysis

What the program asks of the solver, with all names resolved. The statements of a reached method
have *effects*: an allocation, a flow between two pointers, a static call. A new object of a
variable has *reactions*: the flows through the fields and elements accessed on the variable, and
the calls made on it.
-/

namespace PointsTo

/-- A call with its callee: what enters the callee, and what comes back. -/
structure Call where
  edge : CallEdge
  /-- the receiver inside the callee -/
  this : Option VarId
  /-- arguments with their parameters -/
  passed : List (VarId × VarId)
  returned : List VarId
  result : Option VarId
deriving DecidableEq

/-- What a statement contributes as soon as its method is reached. -/
inductive Effect where
  | alloc (lhs : VarId) (obj : Obj)
  | flow (source target : Pointer)
  | enter (call : Call)
  | note (event : Event)
deriving DecidableEq

/-- What a new object of a variable brings about. -/
inductive Reaction where
  | effect (e : Effect)
  | receive (call : Call)
deriving DecidableEq

namespace Draft

variable (d : Draft)

/-- The call at a site, resolved for a receiver of a given class. -/
def resolveCall (receiver : Option ClassId) (site : StmtId) (call : Invoke) :
    Except Dangling (Option Call) := do
  match ← d.callee receiver call with
  | none => return none
  | some m =>
    let callee ← d.method m
    return some
      { edge := ⟨call.kind, site, m⟩
        this := callee.this
        passed := call.args.zip callee.params
        returned := callee.returns
        result := call.lhs }

/-- A flow through a field, provided that the field is static as the access demands. -/
def fieldFlow (site : StmtId) (ref : FieldRef) (isStatic : Bool) (flow : FieldId → Effect) :
    Except Dangling Effect := do
  match (← d.resolveField ref).filter fun f => d.isStaticField f = isStatic with
  | some f => return flow f
  | none => return .note (.unresolvedField ref site)

/-- The effects of one statement. Those that depend on the objects of a variable have none. -/
def stmtEffects (s : StmtId) : Except Dangling (List Effect) := do
  match (← d.placed s).stmt with
  | .new lhs c isArray => return [.alloc lhs ⟨s, .of c isArray⟩]
  | .copy lhs rhs => return [.flow (.var rhs) (.var lhs)]
  | .load lhs none ref => return [← d.fieldFlow s ref true fun f => .flow (.static f) (.var lhs)]
  | .store none ref rhs => return [← d.fieldFlow s ref true fun f => .flow (.var rhs) (.static f)]
  | .invoke call =>
    if call.kind = .static then
      match ← d.resolveCall none s call with
      | some c => return [.enter c]
      | none => return [.note (.unresolvedStatic s)]
    else return []
  | _ => return []

/-- The effects of the statements of a method, in order. -/
def bodyEffects (m : MethodId) : Except Dangling (List Effect) := do
  return (← (← d.method m).stmts.toList.mapM d.stmtEffects).flatten

/-- The reactions of one statement to a new object of its base or receiver. The elements of an array
are one with the variable that holds it. -/
def stmtReactions (o : ObjId) (type : ObjType) (s : StmtId) : Except Dangling (List Reaction) := do
  match (← d.placed s).stmt with
  | .store (some _) ref rhs =>
    return [.effect (← d.fieldFlow s ref false fun f => .flow (.var rhs) (.field o f))]
  | .load lhs (some _) ref =>
    return [.effect (← d.fieldFlow s ref false fun f => .flow (.field o f) (.var lhs))]
  | .storeArray base rhs => return [.effect (.flow (.var rhs) (.var base))]
  | .loadArray lhs base => return [.effect (.flow (.var base) (.var lhs))]
  | .invoke call =>
    match ← d.resolveCall type.dispatchClass? s call with
    | some c => return [.receive c]
    | none => return [.effect (.note (.unresolvedCall call.kind s o))]
  | _ => return []

end Draft

/-- The order in which the uses of a variable react. -/
def Use.order : List Use := [.storeField, .loadField, .storeArray, .loadArray, .invoke]

/-- The statements that use a variable, in the order in which they react. -/
def Uses.inOrder (uses : Uses) : List StmtId := Use.order.flatMap uses.select

/-- The reactions to a new object of a variable. -/
def Program.reactions (p : Program) (v : VarId) (o : ObjId) (type : ObjType) :
    Except Dangling (List Reaction) := do
  return (← (← fetch p.uses v).inOrder.mapM (p.stmtReactions o type)).flatten

end PointsTo
