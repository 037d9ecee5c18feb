import PointsTo.Solver.State

/-!
# Running the solver

`process` handles one work list entry to completion, `step` the oldest one, and `drain` all of them.
Each run is bounded by what the program can ask for at most: every statement has its effects once,
every pair of a pointer and an object its reactions once, and every edge is new once.
-/

namespace PointsTo

namespace State

variable {κ : Type} [Ord κ] [Std.TransOrd κ] [Std.LawfulEqOrd κ] (model : HeapModel κ) (p : Program)

/-- Processes the pending methods and those that their static calls lead to, `n` of them at most. -/
def settleWithin : Nat → State κ → Except Dangling (State κ)
  | 0, st => return st
  | n + 1, st =>
    match st.pending with
    | [] => return st
    | m :: pending =>
      let st := { st with pending }
      if st.calls.reaches m then settleWithin n st
      else do
        let effects ← p.bodyEffects m
        settleWithin n (effects.foldl (apply model) (st.reach m))

/-- Processes the pending methods until none is left. A statement makes one method pending at
most. -/
def settle (st : State κ) : Except Dangling (State κ) :=
  settleWithin model p (st.pending.length + p.stmts.size) st

/-- An object arrives at the receiver of a call. -/
def receive (o : ObjId) (st : State κ) (c : Call) : Except Dangling (State κ) :=
  let st := match c.this with
    | none => st
    | some v => st.send (.var v) {o}
  if st.hasCall c.edge then return st
  else do
    let st ← settle model p (st.addCall c.edge)
    return st.bind c

def react (o : ObjId) (st : State κ) : Reaction → Except Dangling (State κ)
  | .effect e => return st.apply model e
  | .receive c => receive model p o st c

/-- A variable has a new object. -/
def visit (v : VarId) (st : State κ) (o : ObjId) : Except Dangling (State κ) := do
  let obj ← st.heap.get o
  let reactions ← p.reactions v o obj.type
  reactions.foldlM (react model p o) st

/-- Handles an entry that was taken off the work list. -/
def process (st : State κ) (entry : PointerId × ObjSet) : Except Dangling (State κ) := do
  let (pointer, known) ← st.pointers.get entry.1
  let delta := entry.2 \ known
  let st := { st with pops := st.pops + 1 }
  if delta.isEmpty then return { st with idle := st.idle + 1 }
  let st := st.grow entry.1 delta
  match pointer with
  | .var v => delta.toList.foldlM (visit model p v) st
  | .static _ | .field _ _ => return st

/-- Handles the oldest entry of the work list, if there is one. -/
def step (st : State κ) : Except Dangling (Option (State κ)) :=
  match st.worklist.pop? with
  | none => return none
  | some (entry, worklist) => return some (← process model p { st with worklist } entry)

/-- Handles entries, the oldest first, until none is left, `n` of them at most. -/
def drainWithin : Nat → State κ → Except Dangling (State κ)
  | 0, st => return st
  | n + 1, st =>
    match st.worklist.pop? with
    | none => return st
    | some (entry, worklist) => do
      let st ← process model p { st with worklist } entry
      drainWithin n st

end State

namespace Draft

variable (d : Draft)

/-- How many pointers an analysis can ask for at most: the variables, mentioned ones that do not
exist included, the static fields, and each field of each object. -/
def pointerBound : Nat :=
  let vars := d.vars.size + (d.stmts.toList.flatMap fun s => s.stmt.vars).length
  vars + d.fields.size + d.stmts.size * d.fields.size

/-- How many entries an analysis can put on the work list at most: one for each allocation and each
edge, and for each object of each pointer one for each of its successors and each call on it. -/
def workBound : Nat :=
  d.stmts.size + d.pointerBound * d.pointerBound +
    (d.pointerBound + d.stmts.size) * (d.pointerBound * d.stmts.size)

end Draft

namespace State

variable {κ : Type} [Ord κ] [Std.TransOrd κ] [Std.LawfulEqOrd κ] (model : HeapModel κ) (p : Program)

/-- Handles entries until none is left. -/
def drain (st : State κ) : Except Dangling (State κ) :=
  drainWithin model p (st.worklist.length + p.workBound) st

/-- Starts the analysis at a method. -/
def start (m : MethodId) (st : State κ) : Except Dangling (State κ) :=
  settle model p { st with calls := st.calls.addEntry m, pending := m :: st.pending }

/-- Adds an edge between pointers by their ids. The source must exist. -/
def addFlow (s t : PointerId) (st : State κ) : Except Dangling (State κ) := do
  if st.flow.hasEdge s t then return st
  let _ ← st.pointers.get s
  return st.addEdge s t

/-- The record that closes the log. -/
def summary (st : State κ) : Event :=
  .solved st.calls.methods.size st.calls.calls.size st.pointers.size st.flow.size
    st.heap.size st.pops

/-- Ends the analysis. Entries that are still on the work list are not handled. -/
def finish (st : State κ) : Solution κ × Log := (st.toSolution, st.log.push st.summary)

end State

/-- The points-to analysis of a program from an entry. -/
def Program.solve {κ : Type} [Ord κ] [Std.TransOrd κ] [Std.LawfulEqOrd κ] (p : Program)
    (model : HeapModel κ) (entry : MethodId) : Except Dangling (Solution κ × Log) := do
  let st ← State.start model p entry {}
  return (← State.drain model p st).finish

end PointsTo
