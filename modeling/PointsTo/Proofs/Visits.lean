import Mathlib.Algebra.Order.BigOperators.Group.Finset
import PointsTo.Proofs.Acts
import PointsTo.Proofs.Lookups
import PointsTo.Proofs.Reachability

/-!
# Every object of a pointer is new once

An object may come to a pointer many times, along several edges, around a cycle or in several
entries of the work list. What is new in an entry is found out when the entry is taken, and only
that is recorded, sent on and visited. So what the records say about a pointer is disjoint and makes
up its set (`Recorded`), and each object of a variable is visited once (`Accounts`). Visits leave no
trace of their own in a state; a `History` is a run that goes visit by visit and keeps a list of
them (`run_iff_history`). `each_pair_handled_once` puts all of this together.
-/

namespace PointsTo

/-! ## Records -/

/-- What a pointer gets, by a record. -/
def Event.grew? : Event → Option (PointerId × ObjSet)
  | .grew i objs => some (i, objs)
  | _ => none

namespace Log

/-- What pointers got, in order. -/
def grown (log : Log) : List (PointerId × ObjSet) := log.toList.filterMap Event.grew?

/-- What one pointer got, in order. -/
def grownAt (log : Log) (i : PointerId) : List ObjSet :=
  (grown log).filterMap fun a => if a.1 = i then some a.2 else none

/-- The calls without a callee on objects, in order. -/
def unresolved (log : Log) : List (StmtId × ObjId) := log.toList.filterMap Event.unresolved?

theorem grown_push (log : Log) (e : Event) : grown (log.push e) = grown log ++ e.grew?.toList :=
  filterMap_push _ log e

theorem unresolved_push (log : Log) (e : Event) :
    unresolved (log.push e) = unresolved log ++ e.unresolved?.toList :=
  filterMap_push _ log e

theorem mem_grownAt {log : Log} {i : PointerId} {objs : ObjSet} :
    objs ∈ grownAt log i ↔ (i, objs) ∈ grown log := by
  simp only [grownAt, List.mem_filterMap, Option.ite_none_right_eq_some, Option.some.injEq]
  constructor
  · rintro ⟨a, ha, rfl, rfl⟩
    exact ha
  · intro h
    exact ⟨(i, objs), h, rfl, rfl⟩

/-- The records of the highest level of detail are those about what pointers get. -/
theorem mapM_message_trace (d : Draft) (log : Log) :
    (log.toList.filter fun e => e.level = .trace).mapM (Event.message d) =
      .ok ((grown log).map fun a => a.1.label ++ " += [" ++
        ", ".intercalate (a.2.toList.map Id.label) ++ "]") := by
  rw [grown]
  induction log.toList with
  | nil => rfl
  | cons e es ih =>
    cases e with
    | grew i objs =>
      rw [List.filter_cons_of_pos (by rfl), List.mapM_cons, ih]
      rfl
    | _ =>
      rw [List.filter_cons_of_neg (by simp [Event.level])]
      exact ih

theorem mapM_message_reached {d : Draft} {log : Log} {names : List String}
    (h : (reached log).mapM d.methodName = .ok names) :
    (log.toList.filter fun e => e.reached?.isSome).mapM (Event.message d) =
      .ok (names.map ("reachable " ++ ·)) := by
  rw [reached] at h
  generalize log.toList = es at h
  induction es generalizing names with
  | nil =>
    cases h
    rfl
  | cons e es ih =>
    cases e with
    | reached m =>
      rw [List.filterMap_cons_some (by rfl), List.mapM_cons] at h
      obtain ⟨name, hname, h⟩ := bind_eq_ok.1 h
      obtain ⟨rest, hrest, h⟩ := bind_eq_ok.1 h
      cases h
      have hmessage : (Event.reached m).message d = .ok ("reachable " ++ name) := by
        rw [Event.message, hname]
        rfl
      rw [List.filter_cons_of_pos (by rfl), List.mapM_cons, hmessage, ih hrest]
      rfl
    | _ =>
      rw [List.filter_cons_of_neg (by simp [Event.reached?])]
      exact ih h

end Log

theorem IdSet.size_le_of_subset {k : Kind} {s t : IdSet k} (h : ∀ a ∈ s, a ∈ t) :
    s.size ≤ t.size := by
  rw [← Std.ExtTreeSet.length_toList, ← Std.ExtTreeSet.length_toList]
  refine (s.nodup_toList.subperm fun a ha => ?_).length_le
  exact Std.ExtTreeSet.mem_toList.2 (h a (Std.ExtTreeSet.mem_toList.1 ha))

theorem IdSet.size_lt_of_subset {k : Kind} {s t : IdSet k} (h : ∀ a ∈ s, a ∈ t) {a : Id k}
    (ha : a ∈ t) (hnew : a ∉ s) : s.size < t.size := by
  have hnodup : (a :: s.toList).Nodup :=
    List.nodup_cons.2 ⟨fun hmem => hnew (Std.ExtTreeSet.mem_toList.1 hmem), s.nodup_toList⟩
  have hsub : a :: s.toList ⊆ t.toList := by
    refine List.cons_subset.2 ⟨Std.ExtTreeSet.mem_toList.2 ha, fun b hb => ?_⟩
    exact Std.ExtTreeSet.mem_toList.2 (h b (Std.ExtTreeSet.mem_toList.1 hb))
  rw [← Std.ExtTreeSet.length_toList, ← Std.ExtTreeSet.length_toList]
  exact (hnodup.subperm hsub).length_le

theorem PointerTable.length_pointers (t : PointerTable) : t.pointers.length = t.size := by
  rw [pointers, List.length_map, Catalog.toList, Array.length_toList]
  rfl

/-- How many objects all pointers together point to. -/
def PointerTable.total (t : PointerTable) : Nat := ∑ i ∈ Finset.range t.size, (t.pts ⟨i⟩).size

namespace State

variable {κ : Type} [Ord κ] [Std.TransOrd κ] {st st' : State κ}

/-- What the records say about a pointer is disjoint and makes up its set, and every entry that was
taken is either recorded or counted as idle. -/
structure Recorded (st : State κ) : Prop where
  nonempty : ∀ a ∈ Log.grown st.log, a.2.isEmpty = false
  disjoint : (Log.grown st.log).Pairwise fun a b => a.1 = b.1 → ∀ o ∈ a.2, o ∉ b.2
  mem_pts : ∀ i o, o ∈ st.pointers.pts i ↔ ∃ a ∈ Log.grown st.log, a.1 = i ∧ o ∈ a.2
  length : (Log.grown st.log).length + st.idle = st.pops
  bounded : (Log.grown st.log).length ≤ st.pointers.total

theorem Recorded.empty : Recorded ({} : State κ) where
  nonempty a ha := absurd ha List.not_mem_nil
  disjoint := .nil
  mem_pts i o := by
    constructor
    · intro ho
      exact absurd (PointerTable.pointer?_isSome_iff.1 (PointerTable.pointer?_of_mem_pts ho))
        (Nat.not_lt_zero _)
    · rintro ⟨a, ha, -⟩
      exact absurd ha List.not_mem_nil
  length := rfl
  bounded := Nat.zero_le _

section Moves

variable [Std.LawfulEqOrd κ] {d : Draft} {model : HeapModel κ} {given : Fact κ → Prop} {n : Int}

theorem Move.grown_eq (h : Move d model given n st st') :
    Log.grown st'.log = Log.grown st.log ∧ st'.idle = st.idle ∧ st'.pops = st.pops := by
  cases h with
  | note he =>
    refine ⟨?_, rfl, rfl⟩
    rw [State.note, Log.grown_push]
    cases he <;> exact List.append_nil _
  | reach _ _ _ =>
    refine ⟨?_, rfl, rfl⟩
    rw [State.reach, State.note, Log.grown_push]
    exact List.append_nil _
  | edge _ _ _ =>
    rw [addEdge]
    split <;> exact ⟨rfl, rfl, rfl⟩
  | entry | skip | call | alloc | know | push => exact ⟨rfl, rfl, rfl⟩

theorem Recorded.move (hst : st.Recorded) (h : Move d model given n st st') : st'.Recorded := by
  obtain ⟨hgrown, hidle, hpops⟩ := h.grown_eq
  have hsize : st.pointers.size ≤ st'.pointers.size := by
    rw [← PointerTable.length_pointers, ← PointerTable.length_pointers]
    exact h.le.pointers.length_le
  have htotal : st.pointers.total ≤ st'.pointers.total := by
    simp only [PointerTable.total, h.pts_eq]
    exact Finset.sum_le_sum_of_subset (Finset.range_subset_range.2 hsize)
  constructor
  · rw [hgrown]
    exact hst.nonempty
  · rw [hgrown]
    exact hst.disjoint
  · intro i o
    rw [hgrown, h.pts_eq]
    exact hst.mem_pts i o
  · rw [hgrown, hidle, hpops]
    exact hst.length
  · rw [hgrown]
    exact hst.bounded.trans htotal

end Moves

theorem total_grow_lt {i : PointerId} {delta : ObjSet} (hi : i.index < st.pointers.size) {o : ObjId}
    (ho : o ∈ delta) (hnew : o ∉ st.pointers.pts i) :
    st.pointers.total < (st.grow i delta).pointers.total := by
  have hsize : (st.grow i delta).pointers.size = st.pointers.size := by
    rw [← PointerTable.length_pointers, ← PointerTable.length_pointers]
    exact congrArg List.length (PointerTable.pointers_absorb _ _ _)
  rw [PointerTable.total, PointerTable.total, hsize]
  refine Finset.sum_lt_sum (fun j _ => ?_) ⟨i.index, Finset.mem_range.2 hi, ?_⟩
  · exact IdSet.size_le_of_subset fun o ho => (mem_pts_grow hi).2 (.inl ho)
  · refine IdSet.size_lt_of_subset (fun o ho => (mem_pts_grow hi).2 (.inl ho)) ?_ hnew
    exact (mem_pts_grow hi).2 (.inr ⟨rfl, ho⟩)

theorem Recorded.take {n : Nat} (hst : st.Recorded) (h : Take n st st') : st'.Recorded := by
  cases h with
  | idle _ _ _ =>
    refine ⟨hst.nonempty, hst.disjoint, hst.mem_pts, ?_, hst.bounded⟩
    have hlength := hst.length
    dsimp only
    omega
  | @grow _ i objs rest _ hi hdelta =>
    have hnew : ∀ o ∈ objs \ st.pointers.pts i, o ∉ st.pointers.pts i := fun o ho =>
      (Std.ExtTreeSet.mem_diff_iff.1 ho).2
    generalize objs \ st.pointers.pts i = delta at hdelta hnew
    have hgrown : Log.grown ({ st with worklist := rest, pops := st.pops + 1 }.grow i delta).log =
        Log.grown st.log ++ [(i, delta)] := Log.grown_push _ _
    obtain ⟨o, ho⟩ := IdSet.isEmpty_eq_false_iff.1 hdelta
    have htotal : st.pointers.total <
        ({ st with worklist := rest, pops := st.pops + 1 }.grow i delta).pointers.total :=
      total_grow_lt hi ho (hnew o ho)
    have hpts : ∀ j o, o ∈ ({ st with worklist := rest, pops :=
        st.pops + 1 }.grow i delta).pointers.pts j ↔
        o ∈ st.pointers.pts j ∨ (j = i ∧ o ∈ delta) := fun j o => mem_pts_grow hi
    have hbounded := hst.bounded
    have hlength := hst.length
    constructor
    · rw [hgrown, List.forall_mem_append]
      exact ⟨hst.nonempty, fun a ha => List.mem_singleton.1 ha ▸ hdelta⟩
    · -- an object of an earlier record is in the set already, and so it is not new
      rw [hgrown, List.pairwise_append]
      refine ⟨hst.disjoint, List.pairwise_singleton _ _, fun a ha b hb hab o ho hob => ?_⟩
      cases List.mem_singleton.1 hb
      exact hnew o hob ((hst.mem_pts i o).2 ⟨a, ha, hab, ho⟩)
    · intro j o
      rw [hpts, hgrown, hst.mem_pts]
      simp [or_and_right, exists_or, eq_comm]
    · rw [hgrown, List.length_append]
      show _ + 1 + st.idle = st.pops + 1
      omega
    · rw [hgrown, List.length_append]
      exact Nat.succ_le_of_lt (hbounded.trans_lt htotal)

theorem Run.recorded [Std.LawfulEqOrd κ] {model : HeapModel κ} {p : Program} (hp : p.Proper)
    {facts : List (Fact κ)} (hrun : Run model p facts st) : st.Recorded :=
  hrun.invariant hp .empty (fun h hst => hst.move h) fun h hst => hst.take h

end State

/-! ## What one visit records -/

section Uses

/-- Each statement uses a variable once at most. -/
theorem sublist_map_usesAmong (v : VarId) (stmts : List (Placed × Nat)) :
    ((usesAmong v stmts).map fun e => e.2.index).Sublist (stmts.map Prod.snd) := by
  induction stmts with
  | nil => exact List.Sublist.refl _
  | cons e stmts ih =>
    rw [usesAmong, List.filterMap_cons]
    cases e.1.stmt.useOf? v with
    | none => exact ih.cons _
    | some u => exact ih.cons_cons _

theorem nodup_usesAmong (v : VarId) (stmts : List Placed) :
    ((usesAmong v stmts.zipIdx).map Prod.snd).Nodup := by
  refine List.Nodup.of_map Id.index ?_
  rw [List.map_map]
  refine (sublist_map_usesAmong v stmts.zipIdx).nodup ?_
  rw [List.zipIdx_map_snd]
  exact List.nodup_range'

theorem Uses.nodup_inOrder {uses : Uses} (h : (uses.map Prod.snd).Nodup) : uses.inOrder.Nodup := by
  rw [inOrder, List.nodup_flatMap]
  constructor
  · intro u _
    exact (List.filter_sublist.map Prod.snd).nodup h
  · have horder : Use.order.Nodup := by decide
    refine horder.imp fun {u u'} hne s hs hs' => ?_
    obtain ⟨e, he, rfl⟩ := List.mem_map.1 hs
    obtain ⟨e', he', heq⟩ := List.mem_map.1 hs'
    rw [List.mem_filter, decide_eq_true_eq] at he he'
    cases List.inj_on_of_nodup_map h he'.1 he.1 heq
    exact hne (he.2.symm.trans he'.2)

theorem sublist_filterMap_flatten {ε α β γ : Type} {f : α → Except ε (List β)} {g : β → Option γ}
    {k : α → γ} (hf : ∀ a bs, f a = .ok bs → (bs.filterMap g).Sublist [k a]) {as : List α}
    {lists : List (List β)} (h : as.mapM f = .ok lists) :
    (lists.flatten.filterMap g).Sublist (as.map k) := by
  induction as generalizing lists with
  | nil =>
    cases h
    exact List.Sublist.refl _
  | cons a as ih =>
    rw [List.mapM_cons] at h
    obtain ⟨bs, hbs, h⟩ := bind_eq_ok.1 h
    obtain ⟨rest, hrest, h⟩ := bind_eq_ok.1 h
    cases h
    rw [List.flatten_cons, List.filterMap_append, List.map_cons]
    exact (hf a bs hbs).append (ih hrest)

/-- In reaction to an object, each statement that depends on the variable records a call once at
most. -/
theorem Program.Proper.unresolved_reactions {p : Program} (hp : p.Proper) {v : VarId} {o : ObjId}
    {type : ObjType} {rs : List Reaction} (hrs : p.reactions v o type = .ok rs) :
    (rs.filterMap Reaction.unresolved?).Nodup ∧
      ∀ x ∈ rs.filterMap Reaction.unresolved?, p.DependsOn x.1 v ∧ x.2 = o := by
  obtain ⟨lists, hlists, rfl⟩ := hp.reactions_eq_ok hrs
  have hsub := sublist_filterMap_flatten (g := Reaction.unresolved?) (k := fun s => (s, o))
    (fun s _ => Draft.filterMap_stmtReactions) hlists
  refine ⟨hsub.nodup ?_, fun x hx => ?_⟩
  · exact (Uses.nodup_inOrder (nodup_usesAmong v _)).map fun s s' heq => (Prod.ext_iff.1 heq).1
  · obtain ⟨s, hs, rfl⟩ := List.mem_map.1 (hsub.subset hx)
    obtain ⟨u, hu⟩ := Uses.mem_inOrder.1 hs
    obtain ⟨stmt, hstmt, huse⟩ := Draft.mem_usesAmong_iff.1 hu
    exact ⟨⟨stmt, u, hstmt, huse⟩, rfl⟩

end Uses

namespace State

variable {κ : Type} [Ord κ] [Std.TransOrd κ] {d : Draft} {S : VarId → ObjId → Prop}
  {st st' : State κ}

theorem Act.unresolved_eq (h : Act d S (fun e => e.unresolved? = none) st st') :
    Log.unresolved st'.log = Log.unresolved st.log := by
  cases h with
  | note he =>
    rw [State.note, Log.unresolved_push, he]
    exact List.append_nil _
  | know | push => rfl
  | edge _ _ =>
    rw [addEdge]
    split <;> rfl
  | keep _ _ _ hlog _ => rw [hlog]

theorem Acts.unresolved_eq (h : Acts d S (fun e => e.unresolved? = none) st st') :
    Log.unresolved st'.log = Log.unresolved st.log := by
  induction h with
  | refl => rfl
  | tail _ hact ih => exact hact.unresolved_eq.trans ih

section Visit

variable [Std.LawfulEqOrd κ] {model : HeapModel κ} {p : Program}

/-- A reaction changes no points-to set, and records the call that it is about, if that has no
callee. -/
theorem react_record {o : ObjId} {type : ObjType} {s : StmtId} {r : Reaction}
    (hr : p.Reacts o type s r) (hok : State.react model p o st r = .ok st') :
    (∀ q o', st'.pointers.Holds q o' ↔ st.pointers.Holds q o') ∧
      Log.unresolved st'.log = Log.unresolved st.log ++ r.unresolved?.toList := by
  by_cases hnote : ∃ event, r = .effect (.note event)
  · obtain ⟨event, rfl⟩ := hnote
    cases hok
    exact ⟨fun _ _ => Iff.rfl, Log.unresolved_push _ _⟩
  · have hacts : Acts p.toDraft (fun _ _ => True) (fun e => e.unresolved? = none) st st' :=
      .react (fun _ he => he) hr (fun _ _ _ _ => trivial)
        (fun event heq => absurd ⟨event, heq⟩ hnote) hok
    have hnone : r.unresolved? = none := by
      cases hr with
      | note _ => exact absurd ⟨_, rfl⟩ hnote
      | _ => rfl
    refine ⟨fun _ _ => hacts.holds_iff, ?_⟩
    rw [hacts.unresolved_eq, hnone]
    exact (List.append_nil _).symm

theorem foldlM_react_record {o : ObjId} {type : ObjType} {rs : List Reaction}
    (hrs : ∀ r ∈ rs, ∃ s, p.Reacts o type s r)
    (hok : rs.foldlM (State.react model p o) st = .ok st') :
    (∀ q o', st'.pointers.Holds q o' ↔ st.pointers.Holds q o') ∧
      Log.unresolved st'.log = Log.unresolved st.log ++ rs.filterMap Reaction.unresolved? := by
  induction rs generalizing st with
  | nil =>
    cases hok
    exact ⟨fun _ _ => Iff.rfl, (List.append_nil _).symm⟩
  | cons r rs ih =>
    rw [List.foldlM_cons] at hok
    obtain ⟨st₁, hr, hok⟩ := bind_eq_ok.1 hok
    obtain ⟨s, hreacts⟩ := hrs r List.mem_cons_self
    obtain ⟨hholds₁, hlog₁⟩ := react_record hreacts hr
    obtain ⟨hholds, hlog⟩ := ih (fun r' hr' => hrs r' (List.mem_cons_of_mem _ hr')) hok
    refine ⟨fun q o' => (hholds q o').trans (hholds₁ q o'), ?_⟩
    rw [hlog, hlog₁, List.append_assoc]
    cases hcall : r.unresolved? with
    | none => rw [List.filterMap_cons_none hcall, Option.toList_none, List.nil_append]
    | some x => rw [List.filterMap_cons_some hcall, Option.toList_some, List.singleton_append]

theorem visit_record (hp : p.Proper) {v : VarId} {o : ObjId}
    (hok : State.visit model p v st o = .ok st') :
    (∀ q o', st'.pointers.Holds q o' ↔ st.pointers.Holds q o') ∧
      ∃ calls, Log.unresolved st'.log = Log.unresolved st.log ++ calls ∧ calls.Nodup ∧
        ∀ x ∈ calls, p.DependsOn x.1 v ∧ x.2 = o := by
  rw [State.visit] at hok
  obtain ⟨obj, -, hok⟩ := bind_eq_ok.1 hok
  obtain ⟨rs, hrs, hok⟩ := bind_eq_ok.1 hok
  have hreacts : ∀ r ∈ rs, ∃ s, p.Reacts o obj.type s r := fun r hr => by
    obtain ⟨s, rs', -, hrs', hr⟩ := (hp.mem_reactions_iff hrs).1 hr
    exact ⟨s, Draft.reacts_of_mem_stmtReactions hrs' hr⟩
  obtain ⟨hholds, hlog⟩ := foldlM_react_record hreacts hok
  exact ⟨hholds, _, hlog, hp.unresolved_reactions hrs⟩

end Visit

/-! ## Histories -/

theorem nodup_visitsOf (st : State κ) (e : PointerId × ObjSet) : (st.visitsOf e).Nodup := by
  rw [visitsOf]
  split
  next => exact (IdSet.nodup_toList _).map fun o o' heq => (Prod.ext_iff.1 heq).2
  next => exact List.nodup_nil

theorem unresolved_takeIn (st : State κ) (e : PointerId × ObjSet) :
    Log.unresolved (st.takeIn e).log = Log.unresolved st.log := by
  rw [takeIn]
  split
  next => rfl
  next => exact (Log.unresolved_push _ _).trans (List.append_nil _)

section History

variable [Std.LawfulEqOrd κ] (model : HeapModel κ) (p : Program)

/-- `History model p facts st ahead visits`: the solver comes to `st` in a run that goes visit by
visit. It was given the facts, it has made the visits, in this order, and those that are ahead are
to be made before it is at rest. -/
inductive History :
    List (Fact κ) → State κ → List (VarId × ObjId) → List (VarId × ObjId) → Prop where
  | empty : History [] {} [] []
  | start {facts : List (Fact κ)} {st st' : State κ} {visits : List (VarId × ObjId)}
      {m : MethodId} :
      History facts st [] visits → p.Has m → State.start model p m st = .ok st' →
      History (.reached m :: facts) st' [] visits
  | link {facts : List (Fact κ)} {st st' : State κ} {visits : List (VarId × ObjId)}
      {i j : PointerId} {a b : Place κ} :
      History facts st [] visits → st.placeOf i = some a → st.placeOf j = some b →
      State.addFlow i j st = .ok st' →
      History (.flows a b :: facts) st' [] visits
  | take {facts : List (Fact κ)} {st : State κ} {visits : List (VarId × ObjId)}
      {older newer : List (PointerId × ObjSet)} {e : PointerId × ObjSet} {q : Pointer}
      {rest : Worklist} :
      History facts st [] visits → st.worklist.toList = older ++ e :: newer →
      rest.toList = older ++ newer →
      st.pointers.pointer? e.1 = some q →
      History facts ({ st with worklist := rest }.takeIn e)
      ({ st with worklist := rest }.visitsOf e) visits
  | visit {facts : List (Fact κ)} {st st' : State κ} {ahead visits : List (VarId × ObjId)}
      {v : VarId} {o : ObjId} :
      History facts st ((v, o) :: ahead) visits → State.visit model p v st o = .ok st' →
      History facts st' ahead (visits ++ [(v, o)])

variable {model p} {facts : List (Fact κ)} {ahead visits : List (VarId × ObjId)}

theorem History.visit_all (h : History model p facts st ahead visits)
    (hok : ahead.foldlM (fun st x => State.visit model p x.1 st x.2) st = .ok st') :
    History model p facts st' [] (visits ++ ahead) := by
  induction ahead generalizing st visits with
  | nil =>
    cases hok
    rwa [List.append_nil]
  | cons x ahead ih =>
    rw [List.foldlM_cons] at hok
    obtain ⟨st₁, hvisit, hok⟩ := bind_eq_ok.1 hok
    rw [List.append_cons]
    exact ih (h.visit hvisit) hok

theorem History.run (h : History model p facts st ahead visits)
    (hok : ahead.foldlM (fun st x => State.visit model p x.1 st x.2) st = .ok st') :
    Run model p facts st' := by
  induction h generalizing st' with
  | empty =>
    cases hok
    exact .empty
  | start _ hm hstart ih =>
    cases hok
    exact .start (ih rfl) hm hstart
  | link _ hi hj hlink ih =>
    cases hok
    exact .link (ih rfl) hi hj hlink
  | @take _ st _ _ _ e q rest _ hlist hrest hq ih =>
    have hq' : { st with worklist := rest }.pointers.pointer? e.1 = some q := hq
    exact .take (ih rfl) hlist hrest ((process_eq model p hq').trans hok)
  | visit _ hvisit ih => exact ih (by rw [List.foldlM_cons, hvisit]; exact hok)

/-- The runs are the histories with no visits ahead. -/
theorem run_iff_history : Run model p facts st ↔ ∃ visits, History model p facts st [] visits := by
  constructor
  · intro hrun
    induction hrun with
    | empty => exact ⟨[], .empty⟩
    | start _ hm hok ih =>
      obtain ⟨visits, h⟩ := ih
      exact ⟨visits, .start h hm hok⟩
    | link _ hi hj hok ih =>
      obtain ⟨visits, h⟩ := ih
      exact ⟨visits, .link h hi hj hok⟩
    | take _ hlist hrest hok ih =>
      obtain ⟨visits, h⟩ := ih
      obtain ⟨q, hq⟩ := exists_pointer?_of_process model p hok
      rw [process_eq model p hq] at hok
      exact ⟨_, (h.take hlist hrest hq).visit_all hok⟩
  · rintro ⟨visits, h⟩
    exact h.run rfl

/-- The visits that were made and those that are ahead are all different, and are about the objects
of the variables. All records of calls without a callee are different, and each was made in a
visit. -/
structure Accounts (d : Draft) (st : State κ) (ahead visits : List (VarId × ObjId)) : Prop where
  nodup : (visits ++ ahead).Nodup
  mem_iff : ∀ v o, (v, o) ∈ visits ++ ahead ↔ st.pointers.Holds (.var v) o
  unresolved : (Log.unresolved st.log).Nodup
  visited : ∀ x ∈ Log.unresolved st.log, ∃ v, d.DependsOn x.1 v ∧ (v, x.2) ∈ visits

omit [Std.LawfulEqOrd κ] in
theorem Accounts.of_eq (hst : st.Accounts d ahead visits)
    (hholds : ∀ q o, st'.pointers.Holds q o ↔ st.pointers.Holds q o)
    (hlog : Log.unresolved st'.log = Log.unresolved st.log) : st'.Accounts d ahead visits where
  nodup := hst.nodup
  mem_iff v o := (hst.mem_iff v o).trans (hholds _ o).symm
  unresolved := hlog ▸ hst.unresolved
  visited := hlog ▸ hst.visited

omit [Std.LawfulEqOrd κ] in
/-- What is new in an entry was not visited before. -/
theorem Accounts.takeIn (hst : st.Accounts d [] visits) {e : PointerId × ObjSet} {q : Pointer}
    (hq : st.pointers.pointer? e.1 = some q) : (st.takeIn e).Accounts d (st.visitsOf e) visits := by
  have hmem : ∀ v o, (v, o) ∈ visits ↔ st.pointers.Holds (.var v) o := fun v o => by
    rw [← hst.mem_iff, List.append_nil]
  have hnodup : visits.Nodup := by
    rw [← List.append_nil visits]
    exact hst.nodup
  constructor
  · refine List.nodup_append.2 ⟨hnodup, st.nodup_visitsOf e, ?_⟩
    rintro ⟨v, o⟩ hold x hnew rfl
    obtain ⟨hv, ho⟩ := mem_visitsOf.1 hnew
    obtain ⟨i, hi, hknown⟩ := (hmem v o).1 hold
    cases PointerTable.pointer?_injective hi hv
    exact (Std.ExtTreeSet.mem_diff_iff.1 ho).2 hknown
  · intro v o
    rw [List.mem_append, hmem, mem_visitsOf, holds_takeIn hq, hq, Option.some.injEq,
      eq_comm (a := q)]
  · rw [unresolved_takeIn]
    exact hst.unresolved
  · rw [unresolved_takeIn]
    exact hst.visited

theorem Accounts.visit (hp : p.Proper) {v : VarId} {o : ObjId}
    (hst : st.Accounts p.toDraft ((v, o) :: ahead) visits)
    (hok : State.visit model p v st o = .ok st') :
    st'.Accounts p.toDraft ahead (visits ++ [(v, o)]) := by
  obtain ⟨hholds, calls, hlog, hnodup, hcalls⟩ := visit_record hp hok
  have hfresh : (v, o) ∉ visits := fun hmem =>
    (List.nodup_append.1 hst.nodup).2.2 _ hmem _ List.mem_cons_self rfl
  constructor
  · rw [← List.append_cons]
    exact hst.nodup
  · intro v' o'
    rw [← List.append_cons, hst.mem_iff, hholds]
  · -- a statement depends on one variable, so an earlier record of the same call was made in the
    -- same visit
    rw [hlog]
    refine List.nodup_append.2 ⟨hst.unresolved, hnodup, ?_⟩
    rintro x hold y hnew rfl
    obtain ⟨v', ⟨stmt, u, hstmt, huse⟩, hvisited⟩ := hst.visited x hold
    obtain ⟨hv, rfl⟩ := hcalls x hnew
    cases dependsOn_unique hv hstmt huse
    exact hfresh hvisited
  · rw [hlog]
    intro x hx
    rcases List.mem_append.1 hx with hold | hnew
    · obtain ⟨v', hv', hvisited⟩ := hst.visited x hold
      exact ⟨v', hv', List.mem_append_left _ hvisited⟩
    · obtain ⟨hv, rfl⟩ := hcalls x hnew
      exact ⟨v, hv, List.mem_append_right _ (List.mem_singleton_self _)⟩

theorem History.accounts (hp : p.Proper) (h : History model p facts st ahead visits) :
    st.Accounts p.toDraft ahead visits := by
  induction h with
  | empty =>
    refine ⟨List.nodup_nil, fun v o => ?_, List.nodup_nil, fun x hx => absurd hx List.not_mem_nil⟩
    constructor
    · intro hmem
      exact absurd hmem List.not_mem_nil
    · rintro ⟨i, hi, -⟩
      exact absurd (PointerTable.pointer?_isSome_iff.1 ⟨_, hi⟩) (Nat.not_lt_zero _)
  | start _ _ hok ih =>
    have hacts : Acts p.toDraft (fun _ _ => True) (fun e => e.unresolved? = none) _ _ :=
      .start (fun _ he => he) hok
    exact ih.of_eq (fun _ _ => hacts.holds_iff) hacts.unresolved_eq
  | @link _ st _ _ i j _ _ _ _ _ hok ih =>
    cases eq_addEdge_of_addFlow hok
    refine ih.of_eq (fun q o => by rw [pointers_addEdge]) ?_
    rw [addEdge]
    split <;> rfl
  | @take _ st _ _ _ e _ rest _ _ _ hq ih =>
    have htaken : Accounts p.toDraft { st with worklist := rest } [] _ :=
      ih.of_eq (fun _ _ => Iff.rfl) rfl
    exact htaken.takeIn hq
  | visit _ hok ih => exact ih.visit hp hok

end History

/-- Every pair of a pointer and an object is handled once. The records about what pointers get are
all those of the highest level of detail. Those about one pointer list objects that are ascending
and disjoint and make up its set. Each entry that was taken and brought something new has one such
record, so there are not more of them than the pointers have objects. In each history of the run
every object of a variable is visited once, and nothing else is; so a call without a callee is
recorded once for an object. The methods that are recorded as reached are the reached ones, in
order. -/
theorem each_pair_handled_once [Std.LawfulEqOrd κ] {model : HeapModel κ} {p : Program}
    (hp : p.Proper) (facts : List (Fact κ)) (st : State κ) :
    (Run model p facts st ↔ ∃ visits, History model p facts st [] visits) ∧
    ∀ visits, History model p facts st [] visits →
      (st.log.toList.filter fun e => e.level = .trace).mapM (Event.message p.toDraft) =
        .ok ((Log.grown st.log).map fun a =>
          a.1.label ++ " += [" ++ ", ".intercalate (a.2.toList.map Id.label) ++ "]") ∧
      (∀ i, (∀ objs ∈ Log.grownAt st.log i, objs.isEmpty = false ∧ objs.toList.Pairwise (· < ·)) ∧
        (Log.grownAt st.log i).Pairwise (fun a b => ∀ o ∈ a, o ∉ b) ∧
        ∀ o, o ∈ st.pointers.pts i ↔ ∃ objs ∈ Log.grownAt st.log i, o ∈ objs) ∧
      st.idle ≤ st.pops ∧ (Log.grown st.log).length = st.pops - st.idle ∧
      (Log.grown st.log).length ≤ ∑ i ∈ Finset.range st.pointers.size, (st.pointers.pts ⟨i⟩).size ∧
      visits.Nodup ∧ (∀ v o, (v, o) ∈ visits ↔ st.pointers.Holds (.var v) o) ∧
        (Log.unresolved st.log).Nodup ∧
      ∃ names, st.calls.methodLines p.toDraft = .ok names ∧
        (st.log.toList.filter fun e => e.reached?.isSome).mapM (Event.message p.toDraft) =
          .ok (names.map ("reachable " ++ ·)) := by
  refine ⟨run_iff_history, fun visits h => ?_⟩
  have hrun : Run model p facts st := run_iff_history.2 ⟨visits, h⟩
  have hrecorded := hrun.recorded hp
  have haccounts := h.accounts hp
  obtain ⟨names, hnames⟩ := ((hrun.inRange hp).calls.exists_lines hp.inRange).1
  have hlength := hrecorded.length
  refine ⟨Log.mapM_message_trace _ _, fun i => ⟨fun objs hobjs => ?_, ?_, fun o => ?_⟩, by
    omega, by omega, hrecorded.bounded, ?_, fun v o => ?_, haccounts.unresolved, names, hnames, ?_⟩
  · exact ⟨hrecorded.nonempty _ (Log.mem_grownAt.1 hobjs), objs.toList_ascending⟩
  · rw [Log.grownAt, List.pairwise_filterMap]
    refine hrecorded.disjoint.imp fun {a b} hab objs hobjs objs' hobjs' => ?_
    obtain ⟨hi, heq⟩ := Option.ite_none_right_eq_some.1 hobjs
    obtain ⟨hi', heq'⟩ := Option.ite_none_right_eq_some.1 hobjs'
    cases heq
    cases heq'
    exact hab (hi.trans hi'.symm)
  · rw [hrecorded.mem_pts]
    constructor
    · rintro ⟨⟨j, objs⟩, hmem, rfl, ho⟩
      exact ⟨objs, Log.mem_grownAt.2 hmem, ho⟩
    · rintro ⟨objs, hmem, ho⟩
      exact ⟨(i, objs), Log.mem_grownAt.1 hmem, rfl, ho⟩
  · rw [← List.append_nil visits]
    exact haccounts.nodup
  · rw [← haccounts.mem_iff, List.append_nil]
  · refine Log.mapM_message_reached ?_
    rw [hrun.reached_log hp]
    exact hnames

/-- An object goes around a cycle, and a call on it has no callee. -/
def sampleCycle : String :=
  "class A { static method main() { x = new A; y = x; x = y; invokevirtual x.A::m(); } }"

theorem sample_each_pair_handled_once :
    ∃ p st visits, Program.ofText sampleCycle = .ok p ∧ Run .bySite p [.reached ⟨0⟩] st ∧
      History .bySite p [.reached ⟨0⟩] st [] visits ∧ st.pops = 3 ∧ st.idle = 1 ∧
        (Log.grown st.log).length = 2 ∧
      visits.Nodup ∧ (⟨0⟩, ⟨0⟩) ∈ visits ∧ (⟨1⟩, ⟨0⟩) ∈ visits ∧
        (⟨3⟩, ⟨0⟩) ∈ Log.unresolved st.log ∧
      (Log.unresolved st.log).Nodup := by
  obtain ⟨p, htext, hmain, x, hsolve, ⟨hpops, hidle⟩, hcall, ⟨i, hi, hpts⟩, j, hj, hpts'⟩ :
      ∃ p, Program.ofText sampleCycle = .ok p ∧ p.Has (⟨0⟩ : MethodId) ∧
        ∃ x ∈ (p.solve .bySite ⟨0⟩).toOption, (x.1.pops = 3 ∧ x.1.idle = 1) ∧
        (⟨3⟩, ⟨0⟩) ∈ Log.unresolved x.2 ∧
          (∃ i ∈ x.1.pointers.find? (.var ⟨0⟩), ⟨0⟩ ∈ x.1.pointers.pts i) ∧
          ∃ i ∈ x.1.pointers.find? (.var ⟨1⟩), ⟨0⟩ ∈ x.1.pointers.pts i :=
    Program.exists_ofText (by decide +kernel)
  obtain ⟨st, hfinish, hrun, -⟩ := Run.exists_finish .bySite (.of_ofText htext) hmain
  cases (toOption_eq_some_iff.1 hsolve).symm.trans hfinish
  obtain ⟨hiff, hall⟩ := each_pair_handled_once (.of_ofText htext) [.reached ⟨0⟩] st
  obtain ⟨visits, h⟩ := hiff.1 hrun
  obtain ⟨-, -, -, hlength, -, hnodup, hmem, hunresolved, -⟩ := hall visits h
  refine ⟨p, st, visits, htext, hrun, h, hpops, hidle, ?_, hnodup, (hmem _ _).2 ⟨i, ?_, hpts⟩,
    (hmem _ _).2 ⟨j, ?_, hpts'⟩, ?_, hunresolved⟩
  · have hpops : st.pops = 3 := hpops
    have hidle : st.idle = 1 := hidle
    rw [hlength, hpops, hidle]
  · exact PointerTable.find?_eq_some_iff.1 hi
  · exact PointerTable.find?_eq_some_iff.1 hj
  · have hlog : Log.unresolved st.finish.2 = Log.unresolved st.log :=
      (Log.unresolved_push _ _).trans (List.append_nil _)
    rwa [← hlog]

end State

end PointsTo
