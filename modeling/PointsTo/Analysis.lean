import PointsTo.Entry
import PointsTo.Hierarchy.Calls
import PointsTo.Solver.Run

/-!
# Analyses

An analysis chooses its entry method and runs from there. Besides its result it gives the records of
its run.
-/

namespace PointsTo

/-- Why an analysis has no result. -/
inductive AnalysisError where
  | entry (error : EntryError)
  | dangling (id : Dangling)
deriving DecidableEq

def AnalysisError.message : AnalysisError → String
  | .entry error => error.message
  | .dangling id => id.message

namespace Program

variable (p : Program)

/-- The points-to analysis with one object for each allocation statement. -/
def analyze (entry : Option String) : Except AnalysisError (Solution StmtId × Log) := do
  let m ← (p.chooseEntry entry).mapError .entry
  let (solution, log) ← (p.solve .bySite m).mapError .dangling
  return (solution, #[.started m] ++ log)

/-- The call graph of the class hierarchy. -/
def analyzeHierarchy (entry : Option String) : Except AnalysisError (CallGraph × Log) := do
  let m ← (p.chooseEntry entry).mapError .entry
  (p.hierarchyCalls m).mapError .dangling

end Program

end PointsTo
