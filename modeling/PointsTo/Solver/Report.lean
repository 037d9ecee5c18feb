import PointsTo.Solver.Run

/-!
# Reports

The names of objects and pointers, and the text of a solution.
-/

namespace PointsTo

namespace Solution

variable {κ : Type} [Ord κ] [Std.TransOrd κ] (r : Solution κ) (d : Draft)

def objIds : List ObjId := Id.upTo .obj r.heap.size

/-- An object is named after its type and its allocation. -/
def objLabel (o : ObjId) : Except Dangling String := do
  let obj ← r.heap.get o
  let cls ← d.cls obj.type.cls
  let brackets := if obj.type.isArray then "[]" else ""
  return s!"new {cls.name}{brackets}@{← d.stmtLabel obj.site}"

def pointerLabel : Pointer → Except Dangling String
  | .var v => d.varName v
  | .static f => d.fieldName f
  | .field o f => return s!"{← r.objLabel d o}.{← d.fieldName f}"

/-- The line of a pointer, unless it points to nothing. -/
def pointerLine (entry : Pointer × ObjSet) : Except Dangling (List String) := do
  if entry.2.isEmpty then return []
  let pointer ← r.pointerLabel d entry.1
  let objs := ", ".intercalate (← entry.2.toList.mapM (r.objLabel d))
  return [s!"{pointer} -> \x7b{objs}\x7d"]

end Solution

def CallEdge.line (d : Draft) (e : CallEdge) : Except Dangling String := do
  return s!"{← d.stmtLabel e.site} -{e.kind.text}-> {← d.methodName e.callee}"

/-- The reached methods, one in a line, in the order in which they were found. -/
def CallGraph.methodLines (d : Draft) (g : CallGraph) : Except Dangling (List String) :=
  g.reachable.mapM d.methodName

def CallGraph.edgeLines (d : Draft) (g : CallGraph) : Except Dangling (List String) :=
  g.edges.mapM (CallEdge.line d)

/-- Lines as a text. -/
def unlines (lines : List String) : String := String.join (lines.map (· ++ "\n"))

/-- The text of a solution: reached methods, calls, and what each pointer points to. -/
def Solution.report {κ : Type} [Ord κ] [Std.TransOrd κ] (r : Solution κ) (d : Draft) :
    Except Dangling String := do
  let methods ← r.calls.methodLines d
  let calls ← r.calls.edgeLines d
  let pointers ← r.pointers.entries.toList.mapM (r.pointerLine d)
  return unlines (["[reachable]"] ++ methods ++ ["[calls]"] ++ calls ++ ["[points-to]"] ++
    pointers.flatten)

end PointsTo
