import Mathlib.Data.Finset.Card
import PointsTo.Proofs.Consistency
import PointsTo.Proofs.Monotonicity
import PointsTo.Proofs.Reachability

/-!
# Tables and what was asked of them

A table of the solver keeps what it knows in more than one form: the pointers with an index of them,
the edges in rows and as a set, the objects by their allocation, the calls as a list, by their site
and by their callee. Whatever is asked of a table, in any order and any number of times, these forms
agree, and together they say what was asked: each thing stands there once, in the order in which it
was first asked for.

This is what `Reflects` says for each table. `tables_reflect_requests` is about the pointers, the
flow graph and the heap, and `graph_reflects_operations` about the call graph.
-/

namespace PointsTo

/-! ## Lists without repetition -/

theorem nodup_addNew {α : Type} [DecidableEq α] {as : List α} (h : as.Nodup) (a : α) :
    (addNew as a).Nodup := by
  rw [addNew]
  split
  next => exact h
  next ha => exact List.nodup_append_comm.1 (List.nodup_cons.2 ⟨ha, h⟩)

theorem nodup_eraseDups {α : Type} [DecidableEq α] (as : List α) : as.eraseDups.Nodup := by
  induction as using List.reverseRecOn with
  | nil => exact List.nodup_nil
  | append_singleton as a ih =>
    rw [Draft.eraseDups_concat]
    exact nodup_addNew ih a

theorem eraseDups_filterMap_concat {α β : Type} [DecidableEq β] (f : α → Option β) (as : List α)
    (a : α) :
    ((as ++ [a]).filterMap f).eraseDups = (f a).toList.foldl addNew (as.filterMap f).eraseDups := by
  rw [List.filterMap_append]
  cases h : f a with
  | none => simp [h]
  | some b =>
    rw [List.filterMap_cons_some h, List.filterMap_nil, Draft.eraseDups_concat]
    rfl

theorem Catalog.add_of_contains {α κ : Type} [Ord κ] [Std.TransOrd κ] [Std.LawfulEqOrd κ]
    {key : α → κ} {c : Catalog key} {a : α} (h : c.contains (key a) = true) : c.add a = c := by
  apply ext_items
  rw [items_add, if_pos h]

theorem DistinctList.toList_add_eq {α : Type} [Ord α] [Std.TransOrd α] [Std.LawfulEqOrd α]
    [DecidableEq α] (c : DistinctList α) (a : α) : (c.add a).toList = addNew c.toList a := by
  rw [Catalog.toList_add, addNew]
  simp only [id, contains_iff_mem]

theorem Id.ascending_upTo (k : Kind) (n : Nat) : (Id.upTo k n).Pairwise (· < ·) :=
  List.pairwise_map.2 List.pairwise_lt_range

theorem Id.nodup_upTo (k : Kind) (n : Nat) : (Id.upTo k n).Nodup := by
  refine (ascending_upTo k n).imp ?_
  rintro a b hlt rfl
  exact Nat.lt_irrefl _ hlt

/-! ## Pointers -/

namespace PointerTable

/-- What is asked of a pointer table: the id of a pointer, or a change of what an id points to. -/
inductive Operation where
  | intern (q : Pointer)
  | update (i : PointerId) (f : ObjSet → ObjSet)

namespace Operation

def asked? : Operation → Option Pointer
  | .intern q => some q
  | .update _ _ => none

/-- The change that an operation makes to what an id points to. -/
def change? (i : PointerId) : Operation → Option (ObjSet → ObjSet)
  | .intern _ => none
  | .update j f => if j = i then some f else none

end Operation

def perform (t : PointerTable) : Operation → Except Dangling PointerTable
  | .intern q => .ok (t.intern q).2
  | .update i f => t.update i f

/-- The table that operations lead to from nothing. -/
def performAll (ops : List Operation) : Except Dangling PointerTable := ops.foldlM perform {}

variable {t t' : PointerTable} {i : PointerId} {f : ObjSet → ObjSet} {q : Pointer}

theorem mem_pointers_iff : q ∈ t.pointers ↔ ∃ i, t.pointer? i = some q := by
  rw [List.mem_iff_getElem?]
  constructor
  · rintro ⟨n, hn⟩
    exact ⟨⟨n⟩, by rw [← getElem?_pointers, hn]⟩
  · rintro ⟨i, hi⟩
    exact ⟨i.index, by rw [getElem?_pointers, hi]⟩

theorem pointers_intern (t : PointerTable) (q : Pointer) :
    (t.intern q).2.pointers = addNew t.pointers q := by
  rw [intern, addNew]
  cases h : t.find? q with
  | some i => rw [if_pos (mem_pointers_iff.2 ⟨i, find?_eq_some_iff.1 h⟩)]
  | none =>
    have hnew : ¬ q ∈ t.pointers := by
      rw [mem_pointers_iff]
      rintro ⟨i, hi⟩
      rw [find?_eq_some_iff.2 hi] at h
      cases h
    rw [find?, Option.map_eq_none_iff] at h
    rw [if_neg hnew, pointers, Catalog.toList_add, Catalog.contains, h]
    simp [pointers]

theorem update_eq_ok (h : t.update i f = .ok t') :
    i.index < t.size ∧ t'.entries.items = t.entries.items.modify i.index fun e => (e.1, f e.2) := by
  obtain ⟨e, he, heq⟩ := bind_eq_ok.1 h
  cases heq
  exact ⟨fetch_isOk_iff.1 ⟨e, he⟩, rfl⟩

/-- Taking in further objects is a change of what a pointer points to. -/
theorem update_union (hi : i.index < t.size) (objs : ObjSet) :
    t.update i (· ∪ objs) = .ok (t.absorb i objs) := by
  obtain ⟨e, he⟩ : ∃ e, t.get i = .ok e := fetch_isOk_iff.2 hi
  rw [update, he]
  rfl

theorem pointers_update (h : t.update i f = .ok t') : t'.pointers = t.pointers := by
  apply List.ext_getElem?
  intro n
  simp only [pointers, Catalog.toList, (update_eq_ok h).2, List.getElem?_map, Array.getElem?_toList,
    Array.getElem?_modify]
  split
  · cases t.entries.items[n]? <;> rfl
  · rfl

theorem pts_update (h : t.update i f = .ok t') (j : PointerId) :
    t'.pts j = if i = j then f (t.pts j) else t.pts j := by
  obtain ⟨hi, hitems⟩ := update_eq_ok h
  rw [pts, hitems, Array.getElem?_modify]
  split <;> rename_i hij
  · cases Id.ext_index hij
    rw [if_pos rfl, pts, Array.getElem?_eq_getElem hi]
    rfl
  · rw [if_neg fun heq => hij (congrArg Id.index heq)]
    rfl

/-- A table holds the pointers that were asked for, in this order, and what the changes of each id
make of the empty set. An id and its pointer lead to each other, and a pointer has exactly one
set. -/
structure Reflects (ops : List Operation) (t : PointerTable) : Prop where
  pointers : t.pointers = (ops.filterMap Operation.asked?).eraseDups
  pts : ∀ i, t.pts i = (ops.filterMap (Operation.change? i)).foldl (fun objs f => f objs) ∅
  find?_get : ∀ i : PointerId, i.index < t.size →
    ∃ q, t.get i = .ok (q, t.pts i) ∧ t.find? q = some i
  get_find? : ∀ q i, t.find? q = some i → t.get i = .ok (q, t.pts i)
  intern : ∀ q, (t.intern q).2.find? q = some (t.intern q).1
  one_set : ∀ q ∈ t.pointers, ∃! objs, (q, objs) ∈ t.entries.toList

theorem get_of_find? (h : t.find? q = some i) : t.get i = .ok (q, t.pts i) :=
  get_eq_ok_iff.2 ⟨find?_eq_some_iff.1 h, rfl⟩

theorem existsUnique_set (h : q ∈ t.pointers) : ∃! objs, (q, objs) ∈ t.entries.toList := by
  obtain ⟨⟨q, objs⟩, hmem, rfl⟩ := List.mem_map.1 h
  refine ⟨objs, hmem, fun objs' hmem' => ?_⟩
  have heq := List.inj_on_of_nodup_map t.entries.nodup_map_key hmem' hmem rfl
  exact congrArg Prod.snd heq

/-- What an operation adds to what a table says of its history. -/
theorem perform_spec {op : Operation} (h : t.perform op = .ok t') :
    t'.pointers = op.asked?.toList.foldl addNew t.pointers ∧
      ∀ i, t'.pts i = (op.change? i).toList.foldl (fun objs f => f objs) (t.pts i) := by
  cases op with
  | intern q =>
    cases h
    exact ⟨t.pointers_intern q, fun i => t.pts_intern q i⟩
  | update j f =>
    refine ⟨pointers_update h, fun i => ?_⟩
    rw [pts_update h, Operation.change?]
    split <;> rfl

theorem reflects_of_performAll {ops : List Operation} (h : performAll ops = .ok t) :
    t.Reflects ops := by
  have hhistory : t.pointers = (ops.filterMap Operation.asked?).eraseDups ∧
      ∀ i, t.pts i = (ops.filterMap (Operation.change? i)).foldl (fun objs f => f objs) ∅ := by
    induction ops using List.reverseRecOn generalizing t with
    | nil =>
      cases h
      exact ⟨rfl, fun _ => rfl⟩
    | append_singleton ops op ih =>
      rw [performAll, List.foldlM_append, bind_eq_ok] at h
      obtain ⟨t₀, hops, hop⟩ := h
      rw [List.foldlM_cons, bind_eq_ok] at hop
      obtain ⟨t₁, hop, hnil⟩ := hop
      cases hnil
      obtain ⟨hpointers, hpts⟩ := ih hops
      obtain ⟨hpointers', hpts'⟩ := perform_spec hop
      refine ⟨?_, fun i => ?_⟩
      · rw [hpointers', hpointers, eraseDups_filterMap_concat]
      · rw [hpts', hpts, List.filterMap_append, List.foldl_append]
        cases hchange : op.change? i with
        | none => simp [hchange]
        | some f => simp [hchange]
  refine ⟨hhistory.1, hhistory.2, fun i hi => ?_, fun q i => get_of_find?, fun q => ?_,
    fun q => existsUnique_set⟩
  · obtain ⟨q, hq⟩ := pointer?_isSome_iff.2 hi
    exact ⟨q, get_eq_ok_iff.2 ⟨hq, rfl⟩, find?_eq_some_iff.2 hq⟩
  · exact find?_eq_some_iff.2 (t.pointer?_intern_self q)

/-- Operations that change only ids of pointers that were asked for before, or are among the given
ones. -/
def Applicable : List Pointer → List Operation → Prop
  | _, [] => True
  | qs, .intern q :: ops => Applicable (addNew qs q) ops
  | qs, .update i _ :: ops => i.index < qs.length ∧ Applicable qs ops

theorem exists_foldlM_perform {ops : List Operation} (h : Applicable t.pointers ops) :
    ∃ t', ops.foldlM perform t = .ok t' := by
  induction ops generalizing t with
  | nil => exact ⟨t, rfl⟩
  | cons op ops ih =>
    cases op with
    | intern q => exact ih (t := (t.intern q).2) (t.pointers_intern q ▸ h)
    | update i f =>
      obtain ⟨hi, hops⟩ := h
      rw [pointers, List.length_map] at hi
      obtain ⟨e, he⟩ : ∃ e, t.get i = .ok e := fetch_isOk_iff.2 hi
      obtain ⟨t₁, ht₁⟩ : ∃ t₁, t.update i f = .ok t₁ := by
        rw [update, he]
        exact ⟨_, rfl⟩
      obtain ⟨t', ht'⟩ := ih (pointers_update ht₁ ▸ hops)
      exact ⟨t', bind_eq_ok.2 ⟨t₁, ht₁, ht'⟩⟩

theorem exists_reflects {ops : List Operation} (h : Applicable [] ops) :
    ∃ t, performAll ops = .ok t ∧ t.Reflects ops := by
  obtain ⟨t, ht⟩ := exists_foldlM_perform (t := {}) h
  exact ⟨t, ht, reflects_of_performAll ht⟩

end PointerTable

/-! ## The flow graph -/

namespace FlowGraph

/-- The graph that adding edges leads to from nothing. -/
def ofEdges (es : List (PointerId × PointerId)) : FlowGraph :=
  es.foldl (fun g e => (g.insertEdge e.1 e.2).2) ∅

variable {g : FlowGraph} {s t : PointerId} {es : List (PointerId × PointerId)}

/-- The targets of a source are those that edges from it were added to, in this order. -/
theorem succs_ofEdges (es : List (PointerId × PointerId)) (s : PointerId) :
    (ofEdges es).succs s = ((es.filter fun e => e.1 = s).map Prod.snd).eraseDups := by
  induction es using List.reverseRecOn with
  | nil => rfl
  | append_singleton es e ih =>
    rw [ofEdges, List.foldl_append]
    change ((ofEdges es).addEdge e.1 e.2).succs s = _
    rw [succs_addEdge, ih, List.filter_append, List.map_append]
    by_cases hs : e.1 = s
    · rw [List.filter_cons_of_pos (by simpa using hs), List.filter_nil, List.map_singleton,
        Draft.eraseDups_concat, addNew]
      simp only [hs, true_and, ite_not]
    · rw [List.filter_cons_of_neg (by simpa using hs), List.filter_nil, List.map_nil,
        List.append_nil, if_neg fun h => hs h.1]

theorem hasEdge_ofEdges : (ofEdges es).hasEdge s t = true ↔ (s, t) ∈ es := by
  rw [← mem_succs, succs_ofEdges, List.mem_eraseDups]
  simp

theorem index_lt_of_mem_succs (ht : t ∈ g.succs s) : s.index < g.rows.size := by
  by_contra hs
  rw [succs, rowAt, Array.getElem?_eq_none (Nat.le_of_not_lt hs)] at ht
  exact List.not_mem_nil ht

theorem zipIdx_rows (g : FlowGraph) :
    g.rows.toList.zipIdx = (List.range g.rows.size).map fun i => (g.rows[i]?.getD #[], i) := by
  apply List.ext_getElem?
  intro i
  rw [List.getElem?_zipIdx, List.getElem?_map, Array.getElem?_toList, Nat.zero_add]
  by_cases hi : i < g.rows.size
  · rw [List.getElem?_range hi, Array.getElem?_eq_getElem hi]
    simp [hi]
  · rw [Array.getElem?_eq_none (Nat.le_of_not_lt hi), List.getElem?_eq_none (by simpa using hi)]
    rfl

/-- The edges, source by source. -/
theorem edges_eq (g : FlowGraph) :
    g.edges = (Id.upTo .pointer g.rows.size).flatMap fun s => (g.succs s).map (s, ·) := by
  rw [edges, zipIdx_rows, Id.upTo, List.flatMap_map, List.flatMap_map]
  rfl

theorem mem_edges_iff : (s, t) ∈ g.edges ↔ g.hasEdge s t = true := by
  rw [← mem_succs, edges_eq, List.mem_flatMap]
  constructor
  · rintro ⟨s', -, ht⟩
    obtain ⟨t', ht', ⟨⟩⟩ := List.mem_map.1 ht
    exact ht'
  · intro ht
    exact ⟨s, Id.mem_upTo.2 (index_lt_of_mem_succs ht), List.mem_map_of_mem ht⟩

/-- What holds of two targets of one source, and of edges from a source and a later one, holds along
the list of edges. -/
theorem pairwise_edges {R : PointerId × PointerId → PointerId × PointerId → Prop}
    (hrow : ∀ s, (g.succs s).Pairwise fun t t' => R (s, t) (s, t'))
    (hrows : ∀ s s' t t', s < s' → R (s, t) (s', t')) : g.edges.Pairwise R := by
  rw [edges_eq, List.pairwise_flatMap]
  constructor
  · intro s _
    exact List.pairwise_map.2 (hrow s)
  · refine (Id.ascending_upTo _ _).imp fun {s s'} hlt e he e' he' => ?_
    obtain ⟨t, -, rfl⟩ := List.mem_map.1 he
    obtain ⟨t', -, rfl⟩ := List.mem_map.1 he'
    exact hrows s s' t t' hlt

/-- Edges stand in the order of their sources. -/
theorem ascending_edges (g : FlowGraph) : g.edges.Pairwise fun e e' => e.1 ≤ e'.1 := by
  refine pairwise_edges (fun s => ?_) fun s s' _ _ hlt => ?_
  · exact List.pairwise_of_forall fun _ _ => Nat.le_refl _
  · exact Nat.le_of_lt hlt

theorem nodup_edges (g : FlowGraph) : g.edges.Nodup := by
  refine pairwise_edges (fun s => ?_) fun s s' _ _ hlt heq => ?_
  · exact (g.nodup_succs s).imp fun hne heq => hne (congrArg Prod.snd heq)
  · obtain ⟨rfl, -⟩ := Prod.mk.inj heq
    exact Nat.lt_irrefl _ hlt

/-- The edges of one source are those to its targets, in their order. -/
theorem filter_edges (g : FlowGraph) (s : PointerId) :
    (g.edges.filter fun e => e.1 = s) = (g.succs s).map (s, ·) := by
  have hother : ∀ s', s' ≠ s → (((g.succs s').map (s', ·)).filter fun e => e.1 = s) = [] := by
    intro s' hne
    simp [List.filter_map, Function.comp_def, hne]
  rw [edges_eq, List.filter_flatMap]
  by_cases hs : s ∈ Id.upTo .pointer g.rows.size
  · -- the other sources stand before and after, and have no edges from `s`
    obtain ⟨before, after, hsplit⟩ := List.append_of_mem hs
    have hnodup : (before ++ s :: after).Nodup := hsplit ▸ Id.nodup_upTo .pointer g.rows.size
    obtain ⟨hfresh, -⟩ := List.nodup_cons.1 (List.nodup_middle.1 hnodup)
    rw [List.mem_append, not_or] at hfresh
    rw [hsplit, List.flatMap_append, List.flatMap_cons,
      List.flatMap_eq_nil_iff.2 fun s' hs' => hother s' (ne_of_mem_of_not_mem hs' hfresh.1),
      List.flatMap_eq_nil_iff.2 fun s' hs' => hother s' (ne_of_mem_of_not_mem hs' hfresh.2)]
    simp [List.filter_map, Function.comp_def]
  · have hnone : g.succs s = [] := by
      rw [List.eq_nil_iff_forall_not_mem]
      exact fun t ht => hs (Id.mem_upTo.2 (index_lt_of_mem_succs ht))
    rw [hnone, List.flatMap_eq_nil_iff.2 fun s' hs' => hother s' (ne_of_mem_of_not_mem hs' hs)]
    rfl

/-- The set counts the edges that stand in the rows. -/
theorem length_edges (g : FlowGraph) : g.edges.length = g.size := by
  have hnodup : g.edgeSet.toList.Nodup := by
    refine Std.ExtTreeSet.distinct_toList.imp ?_
    rintro e e' hne rfl
    exact hne (Std.LawfulEqOrd.compare_eq_iff_eq.2 rfl)
  have hperm : g.edges.Perm g.edgeSet.toList := by
    rw [List.perm_ext_iff_of_nodup g.nodup_edges hnodup]
    rintro ⟨s, t⟩
    rw [mem_edges_iff, Std.ExtTreeSet.mem_toList]
    exact Std.ExtTreeSet.mem_iff_contains.symm
  rw [hperm.length_eq, Std.ExtTreeSet.length_toList, size]

/-- A graph has the edges that were added, each once. An edge is new if it was not added before, and
the targets of a source stand in the order in which they were first added. -/
structure Reflects (es : List (PointerId × PointerId)) (g : FlowGraph) : Prop where
  insertEdge : ∀ s t, (g.insertEdge s t).1 = true ↔ (s, t) ∉ es
  hasEdge : ∀ s t, g.hasEdge s t = true ↔ t ∈ g.succs s
  succs : ∀ s, g.succs s = ((es.filter fun e => e.1 = s).map Prod.snd).eraseDups
  nodup_succs : ∀ s, (g.succs s).Nodup
  mem_edges : ∀ s t, (s, t) ∈ g.edges ↔ (s, t) ∈ es
  nodup_edges : g.edges.Nodup
  ascending : g.edges.Pairwise fun e e' => e.1 ≤ e'.1
  grouped : ∀ s, (g.edges.filter fun e => e.1 = s) = (g.succs s).map (s, ·)
  length_edges : g.edges.length = g.size
  size : g.size = es.toFinset.card

theorem reflects_ofEdges (es : List (PointerId × PointerId)) : (ofEdges es).Reflects es where
  insertEdge s t := by
    rw [FlowGraph.insertEdge, Bool.not_eq_true', ← Bool.not_eq_true, hasEdge_ofEdges]
  hasEdge s t := mem_succs.symm
  succs := succs_ofEdges es
  nodup_succs := (ofEdges es).nodup_succs
  mem_edges s t := mem_edges_iff.trans hasEdge_ofEdges
  nodup_edges := (ofEdges es).nodup_edges
  ascending := (ofEdges es).ascending_edges
  grouped := (ofEdges es).filter_edges
  length_edges := (ofEdges es).length_edges
  size := by
    have hmem : (ofEdges es).edges.toFinset = es.toFinset := by
      ext ⟨s, t⟩
      rw [List.mem_toFinset, List.mem_toFinset, mem_edges_iff, hasEdge_ofEdges]
    rw [← hmem, List.toFinset_card_of_nodup (ofEdges es).nodup_edges, FlowGraph.length_edges]

end FlowGraph

/-! ## The heap -/

namespace Heap

variable {κ : Type} [Ord κ] [Std.TransOrd κ]

/-- The objects of statements, asked for one after the other, and the heap after that. -/
def objectsOf [Std.LawfulEqOrd κ] (h : Heap κ) (model : HeapModel κ) (d : Draft) :
    List StmtId → Except Dangling (List (Option ObjId) × Heap κ)
  | [] => return ([], h)
  | s :: ss => do
    let (o, h) ← h.objectOf model d s
    let (os, h) ← h.objectsOf model d ss
    return (o :: os, h)

theorem find?_mono {h h' : Heap κ} (hle : h.objs.toList <+: h'.objs.toList) {k : κ} {o : ObjId}
    (ho : h.find? k = some o) : h'.find? k = some o := by
  obtain ⟨⟨_, obj⟩, he, rfl⟩ := Option.map_eq_some_iff.1 (find?_eq_some_iff.1 ho)
  exact find?_eq_some_iff.2 (keyOf_of_record? (record?_mono hle he))

section BySite

variable {d : Draft} {h h' : Heap StmtId} {s : StmtId} {o : Option ObjId}

/-- The object of a statement is one that the statement allocates. -/
def Sited (d : Draft) (h : Heap StmtId) : Prop :=
  ∀ o s obj, h.record? o = some (s, obj) → obj.site = s ∧ d.Allocates s obj.type

theorem Sited.get (hh : h.Sited d) {o : ObjId} (ho : h.find? s = some o) :
    ∃ type, d.Allocates s type ∧ h.get o = .ok ⟨s, type⟩ := by
  obtain ⟨⟨s, ⟨site, type⟩⟩, he, rfl⟩ := Option.map_eq_some_iff.1 (find?_eq_some_iff.1 ho)
  obtain ⟨rfl, halloc⟩ := hh o s _ he
  exact ⟨type, halloc, get_eq_ok_iff.2 ⟨_, he⟩⟩

theorem objectOf_bySite (hobj : h.objectOf .bySite d s = .ok (o, h')) :
    (∃ type, d.Allocates s type ∧ o = some (h.intern s ⟨s, type⟩).1 ∧
      h' = (h.intern s ⟨s, type⟩).2) ∨
      (∀ type, ¬ d.Allocates s type) ∧ o = none ∧ h' = h := by
  obtain ⟨placed, hplaced, hobj⟩ := bind_eq_ok.1 hobj
  have hstmt : d.HasStmt s placed.stmt := ⟨placed, hplaced, rfl⟩
  split at hobj
  next lhs c isArray heq =>
    cases hobj
    exact .inl ⟨_, ⟨lhs, c, isArray, heq ▸ hstmt, rfl⟩, rfl, rfl⟩
  next hne =>
    cases hobj
    refine .inr ⟨?_, rfl, rfl⟩
    rintro type ⟨lhs, c, isArray, hnew, -⟩
    exact hne lhs c isArray (hstmt.unique hnew)

/-- What one request says, and what it leaves of the heap. -/
theorem Sited.objectOf (hh : h.Sited d) (hobj : h.objectOf .bySite d s = .ok (o, h')) :
    h'.Sited d ∧ h.objs.toList <+: h'.objs.toList ∧ h'.find? s = o ∧
      ((∃ i, o = some i) ↔ ∃ type, d.Allocates s type) := by
  rcases objectOf_bySite hobj with ⟨type, halloc, rfl, rfl⟩ | ⟨hnone, rfl, rfl⟩
  · refine ⟨fun i s' obj he => ?_, h.prefix_intern _ _,
      find?_eq_some_iff.2 (h.keyOf_intern_self _ _), ?_⟩
    · rcases record?_of_intern he with hold | hnew
      · exact hh i s' obj hold
      · cases hnew
        exact ⟨rfl, halloc⟩
    · exact ⟨fun _ => ⟨type, halloc⟩, fun _ => ⟨_, rfl⟩⟩
  · refine ⟨hh, List.prefix_rfl, ?_, ?_⟩
    · rw [Option.eq_none_iff_forall_ne_some]
      intro i hi
      obtain ⟨type, halloc, -⟩ := hh.get hi
      exact hnone type halloc
    · exact ⟨fun ⟨i, hi⟩ => (nomatch hi), fun ⟨type, halloc⟩ => absurd halloc (hnone type)⟩

/-- What a series of requests says is what the heap after it says of each statement. -/
theorem Sited.objectsOf {ss : List StmtId} {os : List (Option ObjId)} (hh : h.Sited d)
    (hobjs : h.objectsOf .bySite d ss = .ok (os, h')) :
    h'.Sited d ∧ h.objs.toList <+: h'.objs.toList ∧ os = ss.map h'.find? ∧
      ∀ s ∈ ss, (∃ i, h'.find? s = some i) ↔ ∃ type, d.Allocates s type := by
  induction ss generalizing h os with
  | nil =>
    cases hobjs
    exact ⟨hh, List.prefix_rfl, rfl, fun s hs => (nomatch hs)⟩
  | cons s ss ih =>
    obtain ⟨⟨o, h₁⟩, hobj, hrest⟩ := bind_eq_ok.1 hobjs
    obtain ⟨⟨os, h₂⟩, hrest, hpair⟩ := bind_eq_ok.1 hrest
    cases hpair
    obtain ⟨hh₁, hle₁, ho, halloc⟩ := hh.objectOf hobj
    obtain ⟨hh', hle, rfl, hallocs⟩ := ih hh₁ hrest
    -- an object that was found stays, and without an allocation there is none at any time
    have ho' : h'.find? s = o := by
      cases o with
      | some i => exact find?_mono hle ho
      | none =>
        rw [Option.eq_none_iff_forall_ne_some]
        intro i hi
        obtain ⟨type, htype, -⟩ := hh'.get hi
        exact nomatch halloc.2 ⟨type, htype⟩
    refine ⟨hh', hle₁.trans hle, ?_, ?_⟩
    · rw [List.map_cons, ho']
    · rw [List.forall_mem_cons, ho']
      exact ⟨halloc, hallocs⟩

theorem exists_objectsOf {ss : List StmtId} (hss : ∀ s ∈ ss, d.Has s) (h : Heap StmtId) :
    ∃ os h', h.objectsOf .bySite d ss = .ok (os, h') := by
  induction ss generalizing h with
  | nil => exact ⟨[], h, rfl⟩
  | cons s ss ih =>
    rw [List.forall_mem_cons] at hss
    obtain ⟨placed, hplaced⟩ := Draft.exists_placed_iff.2 hss.1
    obtain ⟨⟨o, h₁⟩, hobj⟩ : ∃ r, h.objectOf .bySite d s = .ok r := by
      rw [objectOf, hplaced]
      cases hstmt : placed.stmt <;> exact ⟨_, by simp only [bind, Except.bind, hstmt]; rfl⟩
    obtain ⟨os, h', hrest⟩ := ih hss.2 h₁
    exact ⟨o :: os, h', by rw [objectsOf, hobj]; simp only [bind, Except.bind, hrest]; rfl⟩

/-- A heap has an object for each statement that was asked for and allocates, and the object is of
this statement. -/
structure Reflects (d : Draft) (ss : List StmtId) (h : Heap StmtId) : Prop where
  allocates : ∀ s ∈ ss, (∃ o, h.find? s = some o) ↔ ∃ type, d.Allocates s type
  get : ∀ s o, h.find? s = some o → ∃ type, d.Allocates s type ∧ h.get o = .ok ⟨s, type⟩
  injective : ∀ s s' o, h.find? s = some o → h.find? s' = some o → s = s'

theorem exists_reflects {ss : List StmtId} (hss : ∀ s ∈ ss, d.Has s) :
    ∃ h : Heap StmtId, ({} : Heap StmtId).objectsOf .bySite d ss = .ok (ss.map h.find?, h) ∧
      h.Reflects d ss := by
  obtain ⟨os, h, hobjs⟩ := exists_objectsOf hss {}
  have hempty : ({} : Heap StmtId).Sited d := fun o s obj he => (nomatch he)
  obtain ⟨hh, -, rfl, halloc⟩ := hempty.objectsOf hobjs
  refine ⟨h, hobjs, halloc, fun s o => hh.get, fun s s' o hs hs' => ?_⟩
  rw [find?_eq_some_iff] at hs hs'
  exact Option.some.inj (hs.symm.trans hs')

end BySite

end Heap

/-- Whatever is asked of the tables, they hold what was asked for, once and in the order of the
requests, and all forms in which they hold it agree. -/
theorem tables_reflect_requests {ops : List PointerTable.Operation}
    (hops : PointerTable.Applicable [] ops) (es : List (PointerId × PointerId)) {d : Draft}
    {ss : List StmtId} (hss : ∀ s ∈ ss, d.Has s) :
    (∃ t, PointerTable.performAll ops = .ok t ∧ t.Reflects ops) ∧
    (FlowGraph.ofEdges es).Reflects es ∧
      ∃ h : Heap StmtId, ({} : Heap StmtId).objectsOf .bySite d ss = .ok (ss.map h.find?, h) ∧
        h.Reflects d ss :=
  ⟨PointerTable.exists_reflects hops, FlowGraph.reflects_ofEdges es, Heap.exists_reflects hss⟩

def sampleRequests : List PointerTable.Operation :=
  [.intern (.var ⟨0⟩), .intern (.static ⟨0⟩), .update ⟨0⟩ (·.insert ⟨7⟩), .intern (.var ⟨0⟩),
    .update ⟨1⟩ (·.insert ⟨8⟩), .update ⟨0⟩ (·.insert ⟨9⟩)]

def sampleEdges : List (PointerId × PointerId) :=
  [(⟨5⟩, ⟨1⟩), (⟨0⟩, ⟨2⟩), (⟨5⟩, ⟨1⟩), (⟨5⟩, ⟨0⟩), (⟨0⟩, ⟨2⟩)]

def sampleAllocations : Draft where
  stmts := #[⟨.new ⟨0⟩ ⟨0⟩ false, ⟨0⟩, 0⟩, ⟨.copy ⟨1⟩ ⟨0⟩, ⟨0⟩, 1⟩, ⟨.new ⟨1⟩ ⟨0⟩ true, ⟨0⟩, 2⟩]

theorem sample_tables_reflect_requests :
    (∃ t, PointerTable.performAll sampleRequests = .ok t ∧ t.pointers = [.var ⟨0⟩, .static ⟨0⟩] ∧
      t.Reflects sampleRequests) ∧
    ((FlowGraph.ofEdges sampleEdges).size = 3 ∧
      (FlowGraph.ofEdges sampleEdges).succs ⟨5⟩ = [⟨1⟩, ⟨0⟩] ∧
      (FlowGraph.ofEdges sampleEdges).Reflects sampleEdges) ∧
    ∃ h : Heap StmtId, ({} : Heap StmtId).objectsOf .bySite sampleAllocations [⟨2⟩, ⟨1⟩, ⟨0⟩, ⟨2⟩] =
      .ok ([h.find? ⟨2⟩, h.find? ⟨1⟩, h.find? ⟨0⟩, h.find? ⟨2⟩], h) ∧
      h.Reflects sampleAllocations [⟨2⟩, ⟨1⟩, ⟨0⟩, ⟨2⟩] := by
  have hops : PointerTable.Applicable [] sampleRequests :=
    ⟨by decide, by decide, by decide, trivial⟩
  have hss : ∀ s ∈ ([⟨2⟩, ⟨1⟩, ⟨0⟩, ⟨2⟩] : List StmtId), sampleAllocations.Has s := by decide
  obtain ⟨⟨t, ht, hpointers⟩, hflow, hheap⟩ := tables_reflect_requests hops sampleEdges hss
  refine ⟨⟨t, ht, ?_, hpointers⟩, ⟨?_, ?_, hflow⟩, hheap⟩
  · rw [hpointers.pointers]
    decide
  · rw [hflow.size]
    decide
  · rw [hflow.succs]
    decide

/-! ## The call graph -/

namespace CallGraph

/-- Appends a call, unless there is one with its site and callee. -/
def addFirst (es : List CallEdge) (e : CallEdge) : List CallEdge :=
  if e.ends ∈ es.map CallEdge.ends then es else es ++ [e]

inductive Operation where
  | addEntry (m : MethodId)
  | insertMethod (m : MethodId)
  | insertEdge (e : CallEdge)

namespace Operation

def entry? : Operation → Option MethodId
  | .addEntry m => some m
  | _ => none

def method? : Operation → Option MethodId
  | .insertMethod m => some m
  | _ => none

def edge? : Operation → Option CallEdge
  | .insertEdge e => some e
  | _ => none

end Operation

def perform (g : CallGraph) : Operation → CallGraph
  | .addEntry m => g.addEntry m
  | .insertMethod m => (g.insertMethod m).2
  | .insertEdge e => (g.insertEdge e).2

/-- The graph that operations lead to from nothing. -/
def performAll (ops : List Operation) : CallGraph := ops.foldl perform {}

variable {g : CallGraph} {e : CallEdge} {m : MethodId}

theorem performAll_concat (ops : List Operation) (op : Operation) :
    performAll (ops ++ [op]) = (performAll ops).perform op := by
  rw [performAll, List.foldl_append]
  rfl

theorem hasEdge_eq_decide (g : CallGraph) (e : CallEdge) :
    g.hasEdge e.site e.callee = decide (e.ends ∈ g.edges.map CallEdge.ends) := by
  rw [Bool.eq_iff_iff, decide_eq_true_iff, List.mem_map]
  exact Catalog.contains_iff

theorem edges_addEdge (g : CallGraph) (e : CallEdge) :
    (g.addEdge e).edges = addFirst g.edges e := by
  rw [addEdge, addFirst, hasEdge_eq_decide]
  simp only [decide_eq_true_eq]
  split
  next => rfl
  next h =>
    refine (Catalog.toList_add _ _).trans (if_neg fun hcontains => h ?_)
    exact List.mem_map.2 (Catalog.contains_iff.1 hcontains)

theorem edges_addEdge_of_new (h : g.hasEdge e.site e.callee = false) :
    (g.addEdge e).edges = g.edges ++ [e] := by
  rw [edges_addEdge, addFirst, if_neg]
  simpa [hasEdge_eq_decide] using h

/-- A graph holds its calls by site and by callee as it holds them in its list. -/
structure Indexed (g : CallGraph) : Prop where
  calleesOf : ∀ s, g.calleesOf s = (g.edges.filter fun e => e.site = s).map CallEdge.callee
  callersOf : ∀ m, g.callersOf m = (g.edges.filter fun e => e.callee = m).map CallEdge.site

theorem Indexed.addEdge (hg : g.Indexed) (e : CallEdge) : (g.addEdge e).Indexed := by
  cases h : g.hasEdge e.site e.callee with
  | true =>
    rw [CallGraph.addEdge, if_pos h]
    exact hg
  | false =>
    constructor
    · intro s
      rw [calleesOf_addEdge h, edges_addEdge_of_new h, hg.calleesOf, List.filter_append,
        List.map_append]
      by_cases hs : e.site = s <;> simp [hs]
    · intro m
      rw [callersOf_addEdge h, edges_addEdge_of_new h, hg.callersOf, List.filter_append,
        List.map_append]
      by_cases hm : e.callee = m <;> simp [hm]

theorem Indexed.addEntry (hg : g.Indexed) (m : MethodId) : (g.addEntry m).Indexed := by
  constructor
  · rw [calleesOf_addEntry, edges_addEntry]
    exact hg.calleesOf
  · rw [callersOf_addEntry, edges_addEntry]
    exact hg.callersOf

theorem entries_addEntry (g : CallGraph) (m : MethodId) :
    (g.addEntry m).entries = addNew g.entries m := by
  rw [addEntry, addNew]
  split <;> rfl

/-- What an operation adds to each part of a graph. -/
theorem perform_spec (g : CallGraph) (op : Operation) :
    (g.perform op).entries = op.entry?.toList.foldl addNew g.entries ∧
      (g.perform op).reachable = op.method?.toList.foldl addNew g.reachable ∧
      (g.perform op).edges = op.edge?.toList.foldl addFirst g.edges ∧
      (g.Indexed → (g.perform op).Indexed) := by
  cases op with
  | addEntry m =>
    exact ⟨g.entries_addEntry m, g.reachable_addEntry m, g.edges_addEntry m,
      fun hg => hg.addEntry m⟩
  | insertMethod m =>
    exact ⟨rfl, g.methods.toList_add_eq m, rfl, fun hg => ⟨hg.calleesOf, hg.callersOf⟩⟩
  | insertEdge e =>
    exact ⟨g.entries_addEdge e, g.reachable_addEdge e, g.edges_addEdge e, fun hg => hg.addEdge e⟩

/-- A graph holds the entries and methods that were added, in this order and once, and of the calls
with one site and callee the first. It tells whether an addition is new, and one that is not changes
nothing. -/
structure Reflects (ops : List Operation) (g : CallGraph) : Prop extends Indexed g where
  entries : g.entries = (ops.filterMap Operation.entry?).eraseDups
  nodup_entries : g.entries.Nodup
  reachable : g.reachable = (ops.filterMap Operation.method?).eraseDups
  nodup_reachable : g.reachable.Nodup
  reaches : ∀ m, g.reaches m = true ↔ m ∈ g.reachable
  edges : g.edges = (ops.filterMap Operation.edge?).foldl addFirst []
  nodup_ends : (g.edges.map CallEdge.ends).Nodup
  hasEdge : ∀ s m, g.hasEdge s m = true ↔ ∃ e ∈ g.edges, e.site = s ∧ e.callee = m
  insertMethod : ∀ m, (g.insertMethod m).1 = true ∧ (g.insertMethod m).2.reachable =
    g.reachable ++ [m] ∨
    (g.insertMethod m).1 = false ∧ (g.insertMethod m).2 = g
  insertEdge : ∀ e, (g.insertEdge e).1 = true ∧ (g.insertEdge e).2.edges = g.edges ++ [e] ∨
    (g.insertEdge e).1 = false ∧ (g.insertEdge e).2 = g

theorem insertMethod_cases (g : CallGraph) (m : MethodId) :
    (g.insertMethod m).1 = true ∧ (g.insertMethod m).2.reachable = g.reachable ++ [m] ∨
      (g.insertMethod m).1 = false ∧ (g.insertMethod m).2 = g := by
  cases h : g.reaches m with
  | false =>
    have hm : m ∉ g.reachable := fun hm => Bool.false_ne_true (h.symm.trans (reaches_iff.2 hm))
    exact .inl ⟨congrArg not h, reachable_addReachable hm⟩
  | true =>
    refine .inr ⟨congrArg not h, ?_⟩
    rw [insertMethod, addReachable, Catalog.add_of_contains h]

theorem insertEdge_cases (g : CallGraph) (e : CallEdge) :
    (g.insertEdge e).1 = true ∧ (g.insertEdge e).2.edges = g.edges ++ [e] ∨
      (g.insertEdge e).1 = false ∧ (g.insertEdge e).2 = g := by
  cases h : g.hasEdge e.site e.callee with
  | false => exact .inl ⟨congrArg not h, edges_addEdge_of_new h⟩
  | true => exact .inr ⟨congrArg not h, if_pos h⟩

theorem indexed_performAll (ops : List Operation) : (performAll ops).Indexed := by
  induction ops using List.reverseRecOn with
  | nil => exact ⟨fun _ => rfl, fun _ => rfl⟩
  | append_singleton ops op ih => exact performAll_concat ops op ▸ (perform_spec _ op).2.2.2 ih

/-- The lists of a graph are those of the additions, without those that were made before. -/
theorem lists_performAll (ops : List Operation) :
    (performAll ops).entries = (ops.filterMap Operation.entry?).eraseDups ∧
      (performAll ops).reachable = (ops.filterMap Operation.method?).eraseDups ∧
      (performAll ops).edges = (ops.filterMap Operation.edge?).foldl addFirst [] := by
  induction ops using List.reverseRecOn with
  | nil => exact ⟨rfl, rfl, rfl⟩
  | append_singleton ops op ih =>
    obtain ⟨hentries, hreachable, hedges⟩ := ih
    obtain ⟨hentries', hreachable', hedges', -⟩ := (performAll ops).perform_spec op
    rw [performAll_concat, hentries', hreachable', hedges', hentries, hreachable, hedges,
      eraseDups_filterMap_concat,
      eraseDups_filterMap_concat, List.filterMap_append, List.foldl_append]
    refine ⟨rfl, rfl, ?_⟩
    cases h : op.edge? <;> simp [h]

theorem graph_reflects_operations (ops : List Operation) : (performAll ops).Reflects ops := by
  obtain ⟨hentries, hreachable, hedges⟩ := lists_performAll ops
  exact
    { toIndexed := indexed_performAll ops
      entries := hentries
      nodup_entries := hentries ▸ nodup_eraseDups _
      reachable := hreachable
      nodup_reachable := (performAll ops).methods.nodup_toList
      reaches := fun _ => reaches_iff
      edges := hedges
      nodup_ends := (performAll ops).calls.nodup_map_key
      hasEdge := fun _ _ => hasEdge_iff
      insertMethod := (performAll ops).insertMethod_cases
      insertEdge := (performAll ops).insertEdge_cases }

end CallGraph

end PointsTo
