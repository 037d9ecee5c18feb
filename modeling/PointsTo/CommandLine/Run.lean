import PointsTo.Analysis
import PointsTo.CommandLine.Args
import PointsTo.CommandLine.Files
import PointsTo.Solver.Report
import PointsTo.Text.Read

/-!
# The command line

Reads a program from a file and prints the numbers of its points-to analysis or the call graph of
its class hierarchy. The log file is created before anything else, and the dump is written last.
-/

namespace PointsTo.CommandLine

/-- How a run ends, and what it prints. -/
structure Result where
  exit : UInt32 := 0
  stdout : String := ""
  stderr : String := ""
deriving DecidableEq

/-- Why a run fails. -/
inductive RunError where
  | create (path : String) (error : FileError)
  | file (path : String) (error : FileError)
  | parse (error : Text.ParseError)
  | analysis (error : AnalysisError)
deriving DecidableEq

def RunError.message : RunError → String
  | create path error => s!"cannot create {path}: {error.message}"
  | file path error => s!"cannot read {path}: {error.message}"
  | parse error => error.message
  | analysis error => error.message

def usage : String :=
  "usage: [-l FILE] [-v] INPUT pta [-e CLASS::METHOD] [-d FILE]\n" ++
  "       [-l FILE] [-v] INPUT cha [-e CLASS::METHOD]\n"

/-! ## What is printed -/

def summary (r : Solution StmtId) : String :=
  unlines
    [s!"reachable methods: {r.calls.methods.size}", s!"call edges: {r.calls.calls.size}",
      s!"pointers: {r.pointers.size}", s!"pfg edges: {r.flow.size}", s!"objects: {r.heap.size}",
      s!"worklist pops: {r.pops} ({r.idle} empty)"]

/-- The lines of a log with the records of some level of detail. -/
def logText (p : Program) (level : Level) (log : Log) : Except Dangling String := do
  let lines ← (level.select log).mapM
    fun e => return s!"{e.level.text} {e.origin}: {← e.message p.toDraft}"
  return unlines lines

/-- A task that is done: what it prints, its log, and the file that it leaves behind. -/
structure Done where
  stdout : String
  log : String
  dump : Option (String × String) := none

def Task.perform (p : Program) (level : Level) : Task → Except AnalysisError Done
  | .pointsTo entry dump => do
    let (solution, log) ← p.analyze entry
    let done : Done :=
      { stdout := summary solution, log := ← (logText p level log).mapError .dangling }
    match dump with
    | none => return done
    | some path =>
      return { done with dump := some (path, ← (solution.report p.toDraft).mapError .dangling) }
  | .hierarchy entry => do
    let (g, log) ← p.analyzeHierarchy entry
    let methods ← (g.methodLines p.toDraft).mapError .dangling
    let edges ← (g.edgeLines p.toDraft).mapError .dangling
    return {
      stdout := unlines (methods ++ edges)
      log := ← (logText p level log).mapError .dangling }

/-! ## Runs -/

/-- The end of a run that fails after it has printed something. -/
def RunError.result (e : RunError) (stdout : String) : Result :=
  { exit := 1, stdout, stderr := e.message ++ "\n" }

variable {m : Type → Type} [Monad m] [Files m]

/-- A step of a run, which may end the run. -/
abbrev Running (m : Type → Type) := ExceptT Result m

/-- Uses a file, or ends the run. -/
def withFile {α : Type} (fail : FileError → Result) (use : m (Except FileError α)) : Running m α :=
  ExceptT.mk (return (← use).mapError fail)

/-- Writes the log file, if one is asked for. -/
def writeLog (log : Option String) (text : String) : Running m Unit :=
  match log with
  | some path => withFile (fun e => (RunError.create path e).result "") (Files.writeText path text)
  | none => return ()

/-- Writes the dump, if one is asked for. What the task prints is printed before. -/
def writeDump (done : Done) : Running m Unit :=
  match done.dump with
  | some (path, text) =>
    withFile (fun e => (RunError.file path e).result done.stdout) (Files.writeText path text)
  | none => return ()

def execute (args : Args) : Running m Result := do
  writeLog args.log ""
  let text ← withFile (fun e => (RunError.file args.input e).result "") (readText args.input)
  let p ← liftExcept ((Program.ofText text).mapError fun e => (RunError.parse e).result "")
  let level := if args.verbose then Level.debug else Level.info
  let done ← liftExcept ((args.task.perform p level).mapError
    fun e => (RunError.analysis e).result "")
  writeLog args.log done.log
  writeDump done
  return { stdout := done.stdout }
where
  liftExcept {α : Type} (x : Except Result α) : Running m α := ExceptT.mk (return x)

/-- Runs the command line on its arguments. -/
def run (args : List String) : m Result := do
  match Args.read args with
  | none => return { exit := 2, stderr := usage }
  | some args =>
    match ← (execute args).run with
    | .ok result => return result
    | .error result => return result

end PointsTo.CommandLine
