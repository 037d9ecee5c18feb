import Std.Data.ExtTreeSet
import PointsTo.Id

/-!
# The pointer flow graph

An edge from `s` to `t` says that what `s` points to flows into `t`. A `FlowGraph` keeps its edges
twice: in one row of targets for each source, where they have an order, and in a set, where they are
looked up and counted. It carries the proof that both hold the same edges, each once.
-/

namespace PointsTo

instance : Std.TransOrd (PointerId × PointerId) := inferInstance

namespace FlowGraph

/-- The targets in the row of a source. A source without a row has none. -/
def rowAt (rows : Array (Array PointerId)) (s : PointerId) : List PointerId :=
  (rows[s.index]?.getD #[]).toList

/-- Adds a target to the row of a source. The rows that are missing up to it come first. -/
def pushAt (rows : Array (Array PointerId)) (s t : PointerId) : Array (Array PointerId) :=
  (rows ++ Array.replicate (s.index + 1 - rows.size) #[]).modify s.index (·.push t)

/-- An empty row is as good as a missing one. -/
theorem rowAt_append_replicate (rows : Array (Array PointerId)) (n : Nat) (i : PointerId) :
    rowAt (rows ++ Array.replicate n #[]) i = rowAt rows i := by
  rw [rowAt, rowAt, Array.getElem?_append, Array.getElem?_replicate]
  split
  next => rfl
  next h =>
    rw [Array.getElem?_eq_none (Nat.le_of_not_lt h)]
    split <;> rfl

theorem rowAt_pushAt (rows : Array (Array PointerId)) (s t i : PointerId) :
    rowAt (pushAt rows s t) i = if s = i then rowAt rows i ++ [t] else rowAt rows i := by
  have hpad := rowAt_append_replicate rows (s.index + 1 - rows.size) i
  by_cases h : s = i
  · subst h
    have hlt : s.index < (rows ++ Array.replicate (s.index + 1 - rows.size) #[]).size := by
      rw [Array.size_append, Array.size_replicate]
      omega
    rw [if_pos rfl, ← hpad, rowAt, rowAt, pushAt, Array.getElem?_modify, if_pos rfl,
      Array.getElem?_eq_getElem hlt]
    exact Array.toList_push
  · rw [if_neg h, ← hpad, rowAt, rowAt, pushAt, Array.getElem?_modify,
      if_neg fun hindex => h (Id.ext_index hindex)]

end FlowGraph

/-- The edges in rows and as a set. -/
structure FlowGraph where
  rows : Array (Array PointerId)
  edgeSet : Std.ExtTreeSet (PointerId × PointerId)
  mem_edgeSet_iff : ∀ s t, (s, t) ∈ edgeSet ↔ t ∈ FlowGraph.rowAt rows s
  nodup_rowAt : ∀ s, (FlowGraph.rowAt rows s).Nodup
deriving DecidableEq

namespace FlowGraph

def empty : FlowGraph := ⟨#[], ∅, by simp [rowAt], by simp [rowAt]⟩

instance : EmptyCollection FlowGraph := ⟨empty⟩

/-- Where the objects of a pointer flow, in the order in which the edges were added. -/
def succs (g : FlowGraph) (s : PointerId) : List PointerId := rowAt g.rows s

def hasEdge (g : FlowGraph) (s t : PointerId) : Bool := g.edgeSet.contains (s, t)

theorem mem_edgeSet_insert (g : FlowGraph) (s t i j : PointerId) :
    (i, j) ∈ g.edgeSet.insert (s, t) ↔ j ∈ rowAt (pushAt g.rows s t) i := by
  rw [Std.ExtTreeSet.mem_insert, Std.LawfulEqOrd.compare_eq_iff_eq, Prod.mk.injEq, rowAt_pushAt,
    g.mem_edgeSet_iff]
  split
  next h => simp [h, or_comm, eq_comm]
  next h => simp [h]

theorem nodup_rowAt_pushAt {g : FlowGraph} {s t : PointerId} (h : ¬ g.hasEdge s t = true)
    (i : PointerId) : (rowAt (pushAt g.rows s t) i).Nodup := by
  rw [rowAt_pushAt]
  split
  next hi =>
    subst hi
    have hfresh : t ∉ rowAt g.rows s := fun ht => h ((g.mem_edgeSet_iff s t).2 ht)
    refine List.nodup_append.2 ⟨g.nodup_rowAt s, List.pairwise_singleton _ t, ?_⟩
    intro a ha b hb hab
    rw [hab, List.mem_singleton.1 hb] at ha
    exact hfresh ha
  next => exact g.nodup_rowAt i

/-- Adds an edge, unless it is there. -/
def addEdge (g : FlowGraph) (s t : PointerId) : FlowGraph :=
  if h : g.hasEdge s t = true then g
  else ⟨pushAt g.rows s t, g.edgeSet.insert (s, t), g.mem_edgeSet_insert s t, nodup_rowAt_pushAt h⟩

/-- Adds an edge, and tells whether it is new. -/
def insertEdge (g : FlowGraph) (s t : PointerId) : Bool × FlowGraph :=
  (!g.hasEdge s t, g.addEdge s t)

/-- All edges, by source, and in the order in which they were added for one source. -/
def edges (g : FlowGraph) : List (PointerId × PointerId) :=
  g.rows.toList.zipIdx.flatMap fun (row, s) => row.toList.map (⟨s⟩, ·)

def size (g : FlowGraph) : Nat := g.edgeSet.size

end FlowGraph

end PointsTo
