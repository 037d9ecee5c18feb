import PointsTo.Catalog
import PointsTo.Program.Basic

/-!
# Call graphs

The methods that are reached and the calls between them. Both only grow, and hold nothing twice.
-/

namespace PointsTo

structure CallEdge where
  kind : CallKind
  site : StmtId
  callee : MethodId
deriving DecidableEq

/-- What tells the edges of a call graph apart. -/
def CallEdge.ends (e : CallEdge) : StmtId × MethodId := (e.site, e.callee)

instance : Std.TransOrd (StmtId × MethodId) := inferInstance

/-- The calls are also kept by their site and by their callee. -/
structure CallGraph where
  entries : List MethodId := []
  methods : DistinctList MethodId := ∅
  calls : Catalog CallEdge.ends := ∅
  callees : Std.ExtTreeMap StmtId (Array MethodId) := ∅
  callers : Std.ExtTreeMap MethodId (Array StmtId) := ∅
deriving DecidableEq

namespace CallGraph

/-- The methods that are reached, in the order in which they were found. -/
def reachable (g : CallGraph) : List MethodId := g.methods.toList

/-- The calls, in the order in which they were found. -/
def edges (g : CallGraph) : List CallEdge := g.calls.toList

def addEntry (g : CallGraph) (m : MethodId) : CallGraph :=
  if m ∈ g.entries then g else { g with entries := g.entries ++ [m] }

def reaches (g : CallGraph) (m : MethodId) : Bool := g.methods.contains m

def addReachable (g : CallGraph) (m : MethodId) : CallGraph := { g with methods := g.methods.add m }

/-- Whether a call site has an edge to a method, of any kind. -/
def hasEdge (g : CallGraph) (site : StmtId) (callee : MethodId) : Bool :=
  g.calls.contains (site, callee)

def addEdge (g : CallGraph) (e : CallEdge) : CallGraph :=
  if g.hasEdge e.site e.callee then g
  else
    { g with
      calls := g.calls.add e
      callees := g.callees.alter e.site fun ms => some ((ms.getD #[]).push e.callee)
      callers := g.callers.alter e.callee fun ss => some ((ss.getD #[]).push e.site) }

/-- Adds a reached method, and tells whether it is new. -/
def insertMethod (g : CallGraph) (m : MethodId) : Bool × CallGraph :=
  (!g.reaches m, g.addReachable m)

/-- Adds a call, and tells whether it is the first one from its site to its callee. -/
def insertEdge (g : CallGraph) (e : CallEdge) : Bool × CallGraph :=
  (!g.hasEdge e.site e.callee, g.addEdge e)

/-- The callees of a call site, in the order in which the calls were found. -/
def calleesOf (g : CallGraph) (site : StmtId) : List MethodId := (g.callees.getD site #[]).toList

/-- The sites from which a method is called, in the order in which the calls were found. -/
def callersOf (g : CallGraph) (m : MethodId) : List StmtId := (g.callers.getD m #[]).toList

end CallGraph

end PointsTo
