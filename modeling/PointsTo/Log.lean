import PointsTo.Program.Basic

/-!
# Log records

What the analyses report on their way. A record holds ids; its text is made when it is written.
-/

namespace PointsTo

/-- How much detail a record is. -/
inductive Level where
  | info
  | debug
  | trace
deriving DecidableEq

def Level.text : Level → String
  | .info => "INFO"
  | .debug => "DEBUG"
  | .trace => "TRACE"

def Level.rank : Level → Nat
  | .info => 0
  | .debug => 1
  | .trace => 2

inductive Event where
  /-- the points-to analysis starts at a method -/
  | started (entry : MethodId)
  /-- a method is reached for the first time -/
  | reached (m : MethodId)
  /-- a pointer gets new objects -/
  | grew (p : PointerId) (objs : ObjSet)
  | unresolvedStatic (site : StmtId)
  | unresolvedCall (kind : CallKind) (site : StmtId) (receiver : ObjId)
  | unresolvedField (field : FieldRef) (site : StmtId)
  /-- the points-to analysis ends, with its numbers -/
  | solved (methods calls pointers flows objects pops : Nat)
  /-- a call without a target in the class hierarchy -/
  | noTarget (kind : CallKind) (site : StmtId)
  /-- the call graph of the class hierarchy is complete, with its numbers -/
  | explored (methods calls : Nat)
deriving DecidableEq

namespace Event

def level : Event → Level
  | started _ | solved .. | explored .. => .info
  | grew .. => .trace
  | _ => .debug

/-- The part of the program that a record comes from. -/
def origin : Event → String
  | started _ => "cipta::andersen"
  | noTarget .. | explored .. => "cipta::cha"
  | _ => "cipta::andersen::solver"

def message (d : Draft) : Event → Except Dangling String
  | started entry => return s!"pointer analysis from {← d.methodName entry}"
  | reached m => return s!"reachable {← d.methodName m}"
  | grew p objs =>
    let objs := ", ".intercalate (objs.toList.map Id.label)
    return s!"{p.label} += [{objs}]"
  | unresolvedStatic site => return s!"unresolved static call {← d.stmtLabel site}"
  | unresolvedCall kind site receiver =>
    return s!"unresolved {kind.text} call {← d.stmtLabel site} on {receiver.label}"
  | unresolvedField field site => do
    let cls ← d.cls field.cls
    return s!"unresolved field {cls.name}::{field.name} at {← d.stmtLabel site}"
  | solved methods calls pointers flows objects pops =>
    return s!"solved: {methods} reachable methods, {calls} call edges, {pointers} pointers, " ++
      s!"{flows} pfg edges, {objects} objects, {pops} pops"
  | noTarget kind site => return s!"no {kind.text} target for {← d.stmtLabel site}"
  | explored methods calls => return s!"cha: {methods} reachable methods, {calls} call edges"

end Event

/-- The records of a run, in order. -/
abbrev Log := Array Event

/-- The records that a log of a given level of detail shows. -/
def Level.select (max : Level) (log : Log) : List Event :=
  log.toList.filter fun e => e.level.rank ≤ max.rank

end PointsTo
