import PointsTo.CallGraph
import PointsTo.Hierarchy.Subtypes
import PointsTo.Log
import PointsTo.Queue

/-!
# The call graph of the class hierarchy

Starting from an entry, every call of a reached method may enter each of its targets. Methods are
visited in the order in which they are first found.
-/

namespace PointsTo

/-- A call site with the methods that it may enter. -/
structure ResolvedCall where
  site : StmtId
  kind : CallKind
  targets : List MethodId

def ResolvedCall.edges (c : ResolvedCall) : List CallEdge :=
  c.targets.map fun m => ⟨c.kind, c.site, m⟩

/-- A call without a target is worth a record. -/
def ResolvedCall.events (c : ResolvedCall) : List Event :=
  if c.targets.isEmpty then [.noTarget c.kind c.site] else []

namespace Draft

variable (d : Draft)

/-- The calls of a method with their targets, in order. -/
def resolvedCalls (below : Below) (m : MethodId) : Except Dangling (List ResolvedCall) := do
  (← d.callsIn m).mapM fun (site, call) => return ⟨site, call.kind, ← d.targetsIn below call⟩

/-- Visits the methods of a queue and all that they lead to, in `n` visits at most. -/
def visitCalls (below : Below) :
    Nat → Queue MethodId → CallGraph → Log → Except Dangling (CallGraph × Log)
  | 0, _, g, log => return (g, log)
  | n + 1, queue, g, log =>
    match queue.pop? with
    | none => return (g, log)
    | some (m, queue) =>
      if g.reaches m then visitCalls below n queue g log
      else do
        let calls ← d.resolvedCalls below m
        let edges := calls.flatMap ResolvedCall.edges
        visitCalls below n (queue.pushAll (edges.map CallEdge.callee))
          (edges.foldl CallGraph.addEdge (g.addReachable m))
          (log ++ calls.flatMap ResolvedCall.events)

/-- The call graph from an entry, with the records of its construction. Each call site is resolved
once, to as many methods as there are at most, which bounds the visits. -/
def hierarchyCalls (entry : MethodId) : Except Dangling (CallGraph × Log) := do
  let visits := 1 + d.stmts.size * d.methods.size
  let (g, log) ← d.visitCalls d.below visits (.ofList [entry]) (({} : CallGraph).addEntry entry) #[]
  return (g, log.push (.explored g.methods.size g.calls.size))

end Draft

end PointsTo
