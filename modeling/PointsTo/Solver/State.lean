import PointsTo.Queue
import PointsTo.Solver.FlowGraph
import PointsTo.Solver.Rules

/-!
# States of the solver

A state holds the solution so far, the objects that are on their way, and the methods that are found
but not yet processed. The operations here look nothing up in the program and cannot fail.
-/

namespace PointsTo

/-- Objects that are on their way to a pointer. Entries for one pointer stay apart: what is new in
an entry is found out when its turn comes. -/
abbrev Worklist := Queue (PointerId × ObjSet)

/-- What the analysis finds out: objects, points-to sets, the flow graph and the call graph, and how
many work list entries it took, and how many of them brought nothing new. -/
structure Solution (κ : Type) [Ord κ] [Std.TransOrd κ] where
  heap : Heap κ := {}
  pointers : PointerTable := {}
  flow : FlowGraph := ∅
  calls : CallGraph := {}
  pops : Nat := 0
  idle : Nat := 0

structure State (κ : Type) [Ord κ] [Std.TransOrd κ] extends Solution κ where
  worklist : Worklist := {}
  /-- methods to be processed, the next one first -/
  pending : List MethodId := []
  log : Log := #[]

namespace State

variable {κ : Type} [Ord κ] [Std.TransOrd κ]

def note (st : State κ) (e : Event) : State κ := { st with log := st.log.push e }

def intern (st : State κ) (p : Pointer) : PointerId × State κ :=
  let (id, pointers) := st.pointers.intern p
  (id, { st with pointers })

/-- Lets some objects flow into a pointer. -/
def send (st : State κ) (p : Pointer) (objs : ObjSet) : State κ :=
  let (id, st) := st.intern p
  { st with worklist := st.worklist.push (id, objs) }

/-- Adds an edge. If it is new, what its source already points to starts along it. -/
def addEdge (st : State κ) (s t : PointerId) : State κ :=
  if st.flow.hasEdge s t then st
  else
    let objs := st.pointers.pts s
    { st with
      flow := st.flow.addEdge s t
      worklist := if objs.isEmpty then st.worklist else st.worklist.push (t, objs) }

/-- Adds the edge from one pointer to another. -/
def connect (st : State κ) (source target : Pointer) : State κ :=
  let (s, st) := st.intern source
  let (t, st) := st.intern target
  st.addEdge s t

/-- Arguments flow into parameters, and returned values into the result. -/
def bind (st : State κ) (c : Call) : State κ :=
  let st := c.passed.foldl (fun st (arg, param) => st.connect (.var arg) (.var param)) st
  match c.result with
  | none => st
  | some lhs =>
    c.returned.foldl (fun st v => st.connect (.var v) (.var lhs)) (st.intern (.var lhs)).2

/-- Adds a call edge and its callee to what is pending. -/
def addCall (st : State κ) (e : CallEdge) : State κ :=
  { st with calls := st.calls.addEdge e, pending := e.callee :: st.pending }

def hasCall (st : State κ) (e : CallEdge) : Bool := st.calls.hasEdge e.site e.callee

variable [Std.LawfulEqOrd κ]

def apply (model : HeapModel κ) (st : State κ) : Effect → State κ
  | .alloc lhs obj =>
    match st.heap.alloc model obj with
    | none => st
    | some (o, heap) => { st with heap }.send (.var lhs) {o}
  | .flow source target => st.connect source target
  | .enter c => if st.hasCall c.edge then st else (st.addCall c.edge).bind c
  | .note e => st.note e

/-- Marks a method as reached. -/
def reach (st : State κ) (m : MethodId) : State κ :=
  { st with calls := st.calls.addReachable m }.note (.reached m)

/-- Takes new objects into a pointer and sends them on to its successors. -/
def grow (st : State κ) (p : PointerId) (delta : ObjSet) : State κ :=
  { st with
    pointers := st.pointers.absorb p delta
    worklist := st.worklist.pushAll ((st.flow.succs p).map (·, delta)) }.note (.grew p delta)

end State

end PointsTo
