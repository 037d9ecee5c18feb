import Mathlib.Data.List.Basic
import Mathlib.Data.List.Nodup
import PointsTo.Solver.Run

/-!
# The tables of the solver

What the operations on the tables do, told through a few views of them: a pointer table by the
pointer and the points-to set of each id (`pointer?`, `pts`), a heap by the key and the object of
each id (`keyOf`, `get`), the flow graph by its edges (`succs`, `hasEdge`), the call graph by its
methods and calls (`reachable`, `edges`). The rest of the theory reaches the tables through these
views.
-/

namespace PointsTo

/-! ## Computations that may fail -/

section Failure

variable {ε α β σ : Type}

theorem bind_eq_ok {x : Except ε α} {f : α → Except ε β} {b : β} :
    (x >>= f) = .ok b ↔ ∃ a, x = .ok a ∧ f a = .ok b := by
  cases x with
  | error e => simp [bind, Except.bind]
  | ok a => simp [bind, Except.bind]

theorem pure_eq_ok {a b : α} : (pure a : Except ε α) = .ok b ↔ a = b := by
  simp [pure, Except.pure]

theorem exists_bind_eq_ok {x : Except ε α} {f : α → Except ε β} (hx : ∃ a, x = .ok a)
    (hf : ∀ a, x = .ok a → ∃ b, f a = .ok b) : ∃ b, (x >>= f) = .ok b := by
  obtain ⟨a, ha⟩ := hx
  obtain ⟨b, hb⟩ := hf a ha
  exact ⟨b, bind_eq_ok.2 ⟨a, ha, hb⟩⟩

theorem toOption_eq_some_iff {x : Except ε α} {a : α} : x.toOption = some a ↔ x = .ok a := by
  cases x with
  | error e => simp [Except.toOption]
  | ok a => simp [Except.toOption]

theorem mem_of_mapM_eq_ok {f : α → Except ε β} {as : List α} {bs : List β} (h : as.mapM f = .ok bs)
    {b : β} : b ∈ bs ↔ ∃ a ∈ as, f a = .ok b := by
  induction as generalizing bs with
  | nil =>
    rw [List.mapM_nil, pure_eq_ok] at h
    simp [← h]
  | cons a as ih =>
    rw [List.mapM_cons] at h
    obtain ⟨c, hc, h⟩ := bind_eq_ok.1 h
    obtain ⟨cs, hcs, h⟩ := bind_eq_ok.1 h
    rw [pure_eq_ok] at h
    subst h
    simp only [List.mem_cons, ih hcs, exists_eq_or_imp, hc, Except.ok.injEq]
    simp [eq_comm]

theorem length_of_mapM_eq_ok {f : α → Except ε β} {as : List α} {bs : List β}
    (h : as.mapM f = .ok bs) : bs.length = as.length := by
  induction as generalizing bs with
  | nil =>
    rw [List.mapM_nil, pure_eq_ok] at h
    simp [← h]
  | cons a as ih =>
    rw [List.mapM_cons] at h
    obtain ⟨c, -, h⟩ := bind_eq_ok.1 h
    obtain ⟨cs, hcs, h⟩ := bind_eq_ok.1 h
    rw [pure_eq_ok] at h
    simp [← h, ih hcs]

theorem exists_mapM_eq_ok {f : α → Except ε β} {as : List α} (h : ∀ a ∈ as, ∃ b, f a = .ok b) :
    ∃ bs, as.mapM f = .ok bs := by
  induction as with
  | nil => exact ⟨[], by rw [List.mapM_nil]; rfl⟩
  | cons a as ih =>
    obtain ⟨b, hb⟩ := h a (by simp)
    obtain ⟨bs, hbs⟩ := ih fun c hc => h c (by simp [hc])
    refine ⟨b :: bs, ?_⟩
    rw [List.mapM_cons, hb, hbs]
    rfl

/-- What each pass of a loop keeps, the loop keeps. -/
theorem foldlM_invariant {f : σ → α → Except ε σ} {I : σ → Prop} {l : List α} {s s' : σ}
    (hok : l.foldlM f s = .ok s')
    (hstep : ∀ x ∈ l, ∀ s₁ s₂, I s₁ → f s₁ x = .ok s₂ → I s₂) (hs : I s) : I s' := by
  induction l generalizing s with
  | nil =>
    cases hok
    exact hs
  | cons x l ih =>
    rw [List.foldlM_cons] at hok
    obtain ⟨s₁, hx, hok⟩ := bind_eq_ok.1 hok
    exact ih hok (fun y hy => hstep y (List.mem_cons_of_mem _ hy))
      (hstep x List.mem_cons_self s s₁ hs hx)

theorem length_flatten_le {lists : List (List α)} {n : Nat} (h : ∀ l ∈ lists, l.length ≤ n) :
    lists.flatten.length ≤ lists.length * n := by
  induction lists with
  | nil => simp
  | cons l lists ih =>
    have hl := h l (by simp)
    have hrest := ih fun l' hl' => h l' (by simp [hl'])
    rw [List.flatten_cons, List.length_append, List.length_cons, Nat.succ_mul]
    omega

theorem prefix_of_eq {l l' : List α} (h : l' = l) : l <+: l' := h ▸ List.prefix_rfl

theorem getElem?_of_prefix {l l' : List α} (h : l <+: l') {i : Nat} {a : α} (ha : l[i]? = some a) :
    l'[i]? = some a := by
  obtain ⟨hi, rfl⟩ := List.getElem?_eq_some_iff.1 ha
  exact List.prefix_iff_getElem?.1 h i hi

theorem fetch_isOk_iff {k : Kind} {table : Array α} {a : Id k} :
    (∃ x, fetch table a = .ok x) ↔ a.index < table.size := by
  simp only [fetch_eq_ok_iff]
  constructor
  · rintro ⟨x, hx⟩
    exact (Array.getElem?_eq_some_iff.1 hx).1
  · intro h
    exact ⟨_, Array.getElem?_eq_getElem h⟩

theorem fetch_empty_ne_ok {k : Kind} {a : Id k} {x : α} : fetch #[] a ≠ .ok x :=
  fun h => absurd (fetch_isOk_iff.1 ⟨x, h⟩) (Nat.not_lt_zero _)

theorem mem_toList_of_fetch {k : Kind} {table : Array α} {a : Id k} {x : α}
    (h : fetch table a = .ok x) : x ∈ table.toList :=
  Array.mem_def.1 (Array.mem_of_getElem? (fetch_eq_ok_iff.1 h))

theorem mem_toList_push {table : Array α} {x y : α} :
    y ∈ (table.push x).toList ↔ y ∈ table.toList ∨ y = x := by
  rw [Array.toList_push, List.mem_append, List.mem_singleton]

theorem mem_of_lookup_eq_some [DecidableEq α] {pairs : List (α × β)} {a : α} {b : β}
    (h : pairs.lookup a = some b) : (a, b) ∈ pairs := by
  obtain ⟨before, after, hsplit, -⟩ := List.lookup_eq_some_iff.1 h
  rw [hsplit]
  exact List.mem_append_right _ (List.mem_cons_self ..)

end Failure

/-! ## Catalogs -/

namespace Catalog

variable {α κ : Type} [Ord κ] [Std.TransOrd κ] {key : α → κ}

theorem mem_toList_iff {c : Catalog key} {a : α} :
    a ∈ c.toList ↔ ∃ i : Nat, c.items[i]? = some a := by
  rw [toList, List.mem_iff_getElem?]
  simp

theorem nodup_map_key (c : Catalog key) : (c.toList.map key).Nodup := by
  rw [List.nodup_iff_getElem?_ne_getElem?]
  intro i j hij hj heq
  rw [List.getElem?_map, List.getElem?_map] at heq
  simp only [toList, Array.getElem?_toList] at heq
  have hj' : j < c.items.size := by simpa [toList] using hj
  obtain ⟨a, ha⟩ : ∃ a, c.items[j]? = some a := ⟨_, Array.getElem?_eq_getElem hj'⟩
  rw [ha] at heq
  obtain ⟨b, hb, hkey⟩ := Option.map_eq_some_iff.1 heq
  exact absurd (eq_of_key_eq hb ha hkey) (by omega)

variable [Std.LawfulEqOrd κ]

theorem prefix_add (c : Catalog key) (a : α) : c.toList <+: (c.add a).toList := by
  rw [toList_add]
  split
  · exact List.prefix_rfl
  · exact List.prefix_append _ _

theorem mem_toList_add {c : Catalog key} {a b : α} :
    b ∈ (c.add a).toList ↔ b ∈ c.toList ∨ (b = a ∧ c.contains (key a) = false) := by
  rw [toList_add]
  split <;> rename_i h
  · simp [h]
  · simp [h]

end Catalog

theorem DistinctList.mem_add {α : Type} [Ord α] [Std.TransOrd α] [Std.LawfulEqOrd α]
    {c : DistinctList α} {a b : α} : b ∈ (c.add a).toList ↔ b ∈ c.toList ∨ b = a := by
  rw [Catalog.mem_toList_add]
  constructor
  · rintro (h | ⟨rfl, -⟩)
    · exact .inl h
    · exact .inr rfl
  · rintro (h | rfl)
    · exact .inl h
    · cases hc : c.contains (id b) with
      | false => exact .inr ⟨rfl, rfl⟩
      | true =>
        obtain ⟨a, ha, rfl⟩ := Catalog.contains_iff.1 hc
        exact .inl ha

theorem DistinctList.contains_iff_mem {α : Type} [Ord α] [Std.TransOrd α] {c : DistinctList α}
    {a : α} : c.contains a = true ↔ a ∈ c.toList := by
  rw [Catalog.contains_iff]
  simp

theorem DistinctList.nodup_toList {α : Type} [Ord α] [Std.TransOrd α] (c : DistinctList α) :
    c.toList.Nodup := by
  simpa using Catalog.nodup_map_key c

/-! ## Sets of ids -/

theorem IdSet.mem_singleton {k : Kind} {a b : Id k} : a ∈ ({b} : IdSet k) ↔ a = b := by
  have h : a ∈ ({b} : IdSet k) ↔ b = a := by simp
  rw [h, eq_comm]

theorem IdSet.isEmpty_iff {k : Kind} {s : IdSet k} : s.isEmpty = true ↔ ∀ a, a ∉ s := by
  rw [Std.ExtTreeSet.isEmpty_iff, Std.ExtTreeSet.eq_empty_iff_forall_not_mem]

theorem IdSet.isEmpty_eq_false_iff {k : Kind} {s : IdSet k} : s.isEmpty = false ↔ ∃ a, a ∈ s := by
  rw [← Bool.not_eq_true, isEmpty_iff]
  simp

theorem Id.nodup_of_ascending {k : Kind} {ids : List (Id k)} (h : ids.Pairwise (· < ·)) :
    ids.Nodup := by
  refine h.imp fun hlt heq => ?_
  rw [heq] at hlt
  exact Nat.lt_irrefl _ hlt

theorem IdSet.nodup_toList {k : Kind} (s : IdSet k) : s.toList.Nodup :=
  Id.nodup_of_ascending s.toList_ascending

theorem IdSet.size_pos {k : Kind} {s : IdSet k} (h : s.isEmpty = false) : 0 < s.size := by
  obtain ⟨a, ha⟩ := isEmpty_eq_false_iff.1 h
  rw [← Std.ExtTreeSet.length_toList]
  exact List.length_pos_of_mem (Std.ExtTreeSet.mem_toList.2 ha)

/-! ## Pointers -/

namespace PointerTable

/-- The pointer that an id names. -/
def pointer? (t : PointerTable) (i : PointerId) : Option Pointer :=
  t.entries.items[i.index]?.map Prod.fst

theorem get_eq_ok_iff {t : PointerTable} {i : PointerId} {q : Pointer} {objs : ObjSet} :
    t.get i = .ok (q, objs) ↔ t.pointer? i = some q ∧ t.pts i = objs := by
  rw [get, fetch_eq_ok_iff, pointer?, pts]
  cases h : t.entries.items[i.index]? with
  | none => simp
  | some e => simp [Prod.ext_iff]

theorem pointer?_isSome_iff {t : PointerTable} {i : PointerId} :
    (∃ q, t.pointer? i = some q) ↔ i.index < t.size := by
  rw [size, Catalog.size, ← Option.isSome_iff_exists, pointer?, Option.isSome_map]
  simp

theorem pointer?_injective {t : PointerTable} {i j : PointerId} {q : Pointer}
    (hi : t.pointer? i = some q) (hj : t.pointer? j = some q) : i = j := by
  obtain ⟨a, ha, rfl⟩ := Option.map_eq_some_iff.1 hi
  obtain ⟨b, hb, hab⟩ := Option.map_eq_some_iff.1 hj
  exact Id.ext_index (Catalog.eq_of_key_eq ha hb hab.symm)

theorem find?_eq_some_iff {t : PointerTable} {q : Pointer} {i : PointerId} :
    t.find? q = some i ↔ t.pointer? i = some q := by
  rw [find?, Option.map_eq_some_iff, pointer?, Option.map_eq_some_iff]
  constructor
  · rintro ⟨n, hn, rfl⟩
    exact Catalog.find?_eq_some_iff.1 hn
  · intro h
    exact ⟨i.index, Catalog.find?_eq_some_iff.2 h, rfl⟩

theorem pts_eq_empty {t : PointerTable} {i : PointerId} (h : t.size ≤ i.index) : t.pts i = ∅ := by
  rw [pts, Array.getElem?_eq_none h]
  rfl

theorem pointer?_of_mem_pts {t : PointerTable} {i : PointerId} {o : ObjId} (h : o ∈ t.pts i) :
    ∃ q, t.pointer? i = some q := by
  rw [pointer?_isSome_iff]
  by_contra hi
  rw [pts_eq_empty (Nat.le_of_not_lt hi)] at h
  simp at h

/-- A pointer that is asked for is found, or comes last. -/
theorem intern_cases (t : PointerTable) (q : Pointer) :
    (t.pointer? (t.intern q).1 = some q ∧ (t.intern q).2 = t) ∨
      ((t.intern q).1 = ⟨t.size⟩ ∧ (t.intern q).2.entries.items = t.entries.items.push (q, ∅)) := by
  rw [intern]
  cases h : t.find? q with
  | some i => exact .inl ⟨find?_eq_some_iff.1 h, rfl⟩
  | none =>
    refine .inr ⟨rfl, ?_⟩
    rw [find?, Option.map_eq_none_iff] at h
    rw [Catalog.items_add, if_neg]
    rw [Catalog.contains, h]
    simp

theorem pointer?_intern_self (t : PointerTable) (q : Pointer) :
    (t.intern q).2.pointer? (t.intern q).1 = some q := by
  rcases intern_cases t q with ⟨hq, ht⟩ | ⟨hid, hitems⟩
  · rw [ht, hq]
  · rw [pointer?, hid, hitems, size, Catalog.size, Array.getElem?_push_size]
    rfl

theorem pointer?_intern_of_some {t : PointerTable} {i : PointerId} {q : Pointer} (q' : Pointer)
    (h : t.pointer? i = some q) : (t.intern q').2.pointer? i = some q := by
  rcases intern_cases t q' with ⟨-, ht⟩ | ⟨-, hitems⟩
  · rw [ht, h]
  · have hi : i.index < t.entries.items.size := pointer?_isSome_iff.1 ⟨q, h⟩
    rw [pointer?, hitems, Array.getElem?_push_lt hi, ← Array.getElem?_eq_getElem hi]
    exact h

theorem pointer?_of_intern {t : PointerTable} {i : PointerId} {q q' : Pointer}
    (h : (t.intern q').2.pointer? i = some q) :
    t.pointer? i = some q ∨ (i = (t.intern q').1 ∧ q = q') := by
  by_cases hi : i = (t.intern q').1
  · rw [hi, pointer?_intern_self] at h
    exact .inr ⟨hi, (Option.some.inj h).symm⟩
  · left
    rcases intern_cases t q' with ⟨-, ht⟩ | ⟨hid, hitems⟩
    · rwa [ht] at h
    · rw [pointer?, hitems, Array.getElem?_push, if_neg] at h
      · exact h
      · intro hsize
        exact hi (hid ▸ Id.ext_index hsize)

@[simp] theorem pts_intern (t : PointerTable) (q : Pointer) (i : PointerId) :
    (t.intern q).2.pts i = t.pts i := by
  rcases intern_cases t q with ⟨-, ht⟩ | ⟨-, hitems⟩
  · rw [ht]
  · rw [pts, hitems, Array.getElem?_push]
    split <;> rename_i hsize
    · rw [pts_eq_empty (by rw [hsize]; exact Nat.le_refl _)]
      rfl
    · rfl

theorem prefix_intern (t : PointerTable) (q : Pointer) :
    t.pointers <+: (t.intern q).2.pointers := by
  rcases intern_cases t q with ⟨-, ht⟩ | ⟨-, hitems⟩
  · exact prefix_of_eq (congrArg pointers ht)
  · simp only [pointers, Catalog.toList, hitems, Array.toList_push, List.map_append]
    exact List.prefix_append _ _

@[simp] theorem pointer?_absorb (t : PointerTable) (i j : PointerId) (objs : ObjSet) :
    (t.absorb i objs).pointer? j = t.pointer? j := by
  simp only [pointer?, absorb, Catalog.modify, Array.getElem?_modify]
  split
  · cases t.entries.items[j.index]? <;> rfl
  · rfl

@[simp] theorem pointers_absorb (t : PointerTable) (i : PointerId) (objs : ObjSet) :
    (t.absorb i objs).pointers = t.pointers := by
  apply List.ext_getElem?
  intro j
  have h := pointer?_absorb t i ⟨j⟩ objs
  simpa [pointer?, pointers, Catalog.toList] using h

theorem pts_absorb_self {t : PointerTable} {i : PointerId} (hi : i.index < t.size) (objs : ObjSet) :
    (t.absorb i objs).pts i = t.pts i ∪ objs := by
  simp only [pts, absorb, Catalog.modify, Array.getElem?_modify, if_true]
  rw [Array.getElem?_eq_getElem hi]
  rfl

theorem pts_absorb_of_ne {t : PointerTable} {i j : PointerId} (h : i ≠ j) (objs : ObjSet) :
    (t.absorb i objs).pts j = t.pts j := by
  simp only [pts, absorb, Catalog.modify, Array.getElem?_modify]
  rw [if_neg fun hij => h (Id.ext_index hij)]

end PointerTable

/-! ## The flow graph -/

namespace FlowGraph

variable {g : FlowGraph} {s t i j : PointerId}

/-- The rows and the set hold the same edges. -/
theorem mem_succs : t ∈ g.succs s ↔ g.hasEdge s t = true :=
  (g.mem_edgeSet_iff s t).symm.trans Std.ExtTreeSet.mem_iff_contains

theorem nodup_succs (g : FlowGraph) (s : PointerId) : (g.succs s).Nodup := g.nodup_rowAt s

theorem succs_addEdge (g : FlowGraph) (s t i : PointerId) :
    (g.addEdge s t).succs i = if s = i ∧ t ∉ g.succs i then g.succs i ++ [t] else g.succs i := by
  rw [addEdge]
  split
  next h =>
    rw [if_neg]
    rintro ⟨rfl, ht⟩
    exact ht (mem_succs.2 h)
  next h =>
    have hrow : rowAt (pushAt g.rows s t) i = if s = i then g.succs i ++ [t] else g.succs i :=
      rowAt_pushAt g.rows s t i
    refine hrow.trans (if_congr ?_ rfl rfl)
    constructor
    · rintro rfl
      exact ⟨rfl, fun ht => h (mem_succs.1 ht)⟩
    · exact And.left

theorem hasEdge_addEdge :
    (g.addEdge s t).hasEdge i j = true ↔ g.hasEdge i j = true ∨ (i = s ∧ j = t) := by
  rw [← mem_succs, ← mem_succs, succs_addEdge]
  split
  next h =>
    obtain ⟨rfl, -⟩ := h
    simp
  next h =>
    constructor
    · exact .inl
    · rintro (hj | ⟨rfl, rfl⟩)
      · exact hj
      · by_contra hj
        exact h ⟨rfl, hj⟩

theorem prefix_addEdge (g : FlowGraph) (s t i : PointerId) :
    g.succs i <+: (g.addEdge s t).succs i := by
  rw [succs_addEdge]
  split
  next => exact List.prefix_append _ _
  next => exact List.prefix_rfl

end FlowGraph

/-! ## The call graph -/

namespace CallGraph

theorem reaches_iff {g : CallGraph} {m : MethodId} : g.reaches m = true ↔ m ∈ g.reachable :=
  DistinctList.contains_iff_mem

theorem mem_reachable_addReachable {g : CallGraph} {m m' : MethodId} :
    m' ∈ (g.addReachable m).reachable ↔ m' ∈ g.reachable ∨ m' = m :=
  DistinctList.mem_add

theorem prefix_addReachable (g : CallGraph) (m : MethodId) :
    g.reachable <+: (g.addReachable m).reachable :=
  Catalog.prefix_add _ _

theorem hasEdge_iff {g : CallGraph} {s : StmtId} {m : MethodId} :
    g.hasEdge s m = true ↔ ∃ e ∈ g.edges, e.site = s ∧ e.callee = m := by
  rw [hasEdge, Catalog.contains_iff]
  simp [CallEdge.ends, edges]

theorem hasEdge_of_mem {g : CallGraph} {e : CallEdge} (h : e ∈ g.edges) :
    g.hasEdge e.site e.callee = true :=
  hasEdge_iff.2 ⟨e, h, rfl, rfl⟩

theorem mem_edges_addEdge {g : CallGraph} {e e' : CallEdge} :
    e' ∈ (g.addEdge e).edges ↔ e' ∈ g.edges ∨ (e' = e ∧ g.hasEdge e.site e.callee = false) := by
  rw [addEdge]
  split <;> rename_i h
  · simp [h]
  · simp only [edges, Catalog.mem_toList_add]
    rfl

theorem prefix_addEdge (g : CallGraph) (e : CallEdge) : g.edges <+: (g.addEdge e).edges := by
  rw [addEdge]
  split
  · exact List.prefix_rfl
  · exact Catalog.prefix_add _ _

@[simp] theorem methods_addEdge (g : CallGraph) (e : CallEdge) :
    (g.addEdge e).methods = g.methods := by
  rw [addEdge]
  split <;> rfl

@[simp] theorem reachable_addEdge (g : CallGraph) (e : CallEdge) :
    (g.addEdge e).reachable = g.reachable := by
  rw [reachable, methods_addEdge]
  rfl

@[simp] theorem reachable_addEntry (g : CallGraph) (m : MethodId) :
    (g.addEntry m).reachable = g.reachable := by
  rw [addEntry]
  split <;> rfl

@[simp] theorem edges_addEntry (g : CallGraph) (m : MethodId) : (g.addEntry m).edges = g.edges := by
  rw [addEntry]
  split <;> rfl

end CallGraph

/-! ## The heap -/

namespace Heap

variable {κ : Type} [Ord κ] [Std.TransOrd κ]

/-- The key and the object that an id names. -/
def record? (h : Heap κ) (o : ObjId) : Option (κ × Obj) := h.objs.items[o.index]?

/-- The key of an object. -/
def keyOf (h : Heap κ) (o : ObjId) : Option κ := (h.record? o).map Prod.fst

theorem get_eq_ok_iff {h : Heap κ} {o : ObjId} {obj : Obj} :
    h.get o = .ok obj ↔ ∃ k, h.record? o = some (k, obj) := by
  rw [get, bind_eq_ok]
  simp only [pure_eq_ok, fetch_eq_ok_iff, record?]
  constructor
  · rintro ⟨⟨k, obj'⟩, he, rfl⟩
    exact ⟨k, he⟩
  · rintro ⟨k, he⟩
    exact ⟨(k, obj), he, rfl⟩

theorem record?_isSome_iff {h : Heap κ} {o : ObjId} :
    (∃ e, h.record? o = some e) ↔ o.index < h.size := by
  rw [size, Catalog.size, ← Option.isSome_iff_exists, record?]
  simp

theorem keyOf_isSome_iff {h : Heap κ} {o : ObjId} :
    (∃ k, h.keyOf o = some k) ↔ o.index < h.size := by
  rw [← record?_isSome_iff, ← Option.isSome_iff_exists, ← Option.isSome_iff_exists, keyOf,
    Option.isSome_map]

theorem keyOf_of_record? {h : Heap κ} {o : ObjId} {k : κ} {obj : Obj}
    (he : h.record? o = some (k, obj)) : h.keyOf o = some k := by
  rw [keyOf, he]
  rfl

theorem record?_mono {h h' : Heap κ} (hle : h.objs.toList <+: h'.objs.toList) {o : ObjId}
    {e : κ × Obj} (ho : h.record? o = some e) : h'.record? o = some e := by
  rw [record?, ← Array.getElem?_toList] at ho ⊢
  exact getElem?_of_prefix hle ho

theorem keyOf_injective {h : Heap κ} {o o' : ObjId} {k : κ} (ho : h.keyOf o = some k)
    (ho' : h.keyOf o' = some k) : o = o' := by
  obtain ⟨a, ha, rfl⟩ := Option.map_eq_some_iff.1 ho
  obtain ⟨b, hb, hab⟩ := Option.map_eq_some_iff.1 ho'
  exact Id.ext_index (Catalog.eq_of_key_eq ha hb hab.symm)

theorem find?_eq_some_iff {h : Heap κ} {k : κ} {o : ObjId} :
    h.find? k = some o ↔ h.keyOf o = some k := by
  rw [find?, Option.map_eq_some_iff, keyOf, record?, Option.map_eq_some_iff]
  constructor
  · rintro ⟨n, hn, rfl⟩
    exact Catalog.find?_eq_some_iff.1 hn
  · intro ho
    exact ⟨o.index, Catalog.find?_eq_some_iff.2 ho, rfl⟩

variable [Std.LawfulEqOrd κ]

/-- A key that is asked for is found, or its object comes last. -/
theorem intern_cases (h : Heap κ) (k : κ) (obj : Obj) :
    (h.keyOf (h.intern k obj).1 = some k ∧ (h.intern k obj).2 = h) ∨
      ((h.intern k obj).1 = ⟨h.size⟩ ∧ (h.intern k obj).2.objs.items =
        h.objs.items.push (k, obj)) := by
  rw [intern]
  cases hk : h.find? k with
  | some o => exact .inl ⟨find?_eq_some_iff.1 hk, rfl⟩
  | none =>
    refine .inr ⟨rfl, ?_⟩
    rw [find?, Option.map_eq_none_iff] at hk
    rw [Catalog.items_add, if_neg]
    rw [Catalog.contains, hk]
    simp

theorem keyOf_intern_self (h : Heap κ) (k : κ) (obj : Obj) :
    (h.intern k obj).2.keyOf (h.intern k obj).1 = some k := by
  rcases intern_cases h k obj with ⟨hk, hh⟩ | ⟨hid, hitems⟩
  · rw [hh, hk]
  · rw [keyOf, record?, hid, hitems, size, Catalog.size, Array.getElem?_push_size]
    rfl

theorem record?_of_intern {h : Heap κ} {k : κ} {obj : Obj} {o : ObjId} {e : κ × Obj}
    (he : (h.intern k obj).2.record? o = some e) : h.record? o = some e ∨ e = (k, obj) := by
  rcases intern_cases h k obj with ⟨-, hh⟩ | ⟨hid, hitems⟩
  · rw [hh] at he
    exact .inl he
  · rw [record?, hitems, Array.getElem?_push] at he
    split at he
    · exact .inr (Option.some.inj he).symm
    · exact .inl he

theorem prefix_intern (h : Heap κ) (k : κ) (obj : Obj) :
    h.objs.toList <+: (h.intern k obj).2.objs.toList := by
  rcases intern_cases h k obj with ⟨-, hh⟩ | ⟨-, hitems⟩
  · exact prefix_of_eq (congrArg (fun h : Heap κ => h.objs.toList) hh)
  · simp only [Catalog.toList, hitems, Array.toList_push]
    exact List.prefix_append _ _

end Heap

end PointsTo
