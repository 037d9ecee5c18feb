import Mathlib.Order.Bounds.Defs
import PointsTo.Hierarchy.Calls
import PointsTo.Proofs.Termination

/-!
# The call graph of the class hierarchy

What stands below a class, which methods a call may enter (`MayEnter`), and which methods lead to
which (`MayReach`). The search from an entry keeps one invariant at every visit, `Searched`: its
calls are those of the methods that it has visited, and what they enter has been visited or waits. A
method that is visited uses up its call sites (`visitsLeft`), so that the search ends with nothing
waiting, just as the search `Explores` without a bound.

`Program.hierarchyCalls_exact`: the methods that it reaches are the least set that has the entry and
is closed under calls, with one edge for each target of each of their calls.
-/

namespace PointsTo

/-! ## Subtypes -/

/-- What all starting points have and links pass on, everything that is reached has. -/
theorem explore_induction {k : Kind} {next : Id k → List (Id k)} {P : Id k → Prop}
    (hnext : ∀ a b, P a → b ∈ next a → P b) (n : Nat) {stack : List (Id k)} {seen : IdSet k}
    (hstack : ∀ a ∈ stack, P a) (hseen : ∀ a ∈ seen, P a) :
    ∀ a ∈ explore next n stack seen, P a := by
  fun_induction explore next n stack seen with
  | case1 => exact hseen
  | case2 => exact hseen
  | case3 n a stack seen _ ih => exact ih (fun b hb => hstack b (List.mem_cons_of_mem _ hb)) hseen
  | case4 n a stack seen _ ih =>
    have ha := hstack a List.mem_cons_self
    refine ih (fun b hb => ?_) fun b hb => ?_
    · rcases List.mem_append.1 hb with hb | hb
      · exact hnext a b ha hb
      · exact hstack b (List.mem_cons_of_mem _ hb)
    · rcases Std.ExtTreeSet.mem_insert.1 hb with hb | hb
      · rw [Std.LawfulEqOrd.eq_of_compare hb] at ha
        exact ha
      · exact hseen b hb

namespace Draft

theorem size_foldl_modify (a : ClassId) (cs : List ClassId) (below : Below) :
    (cs.foldl (fun below c => below.modify c.index (a :: ·)) below).size = below.size := by
  induction cs generalizing below with
  | nil => rfl
  | cons c cs ih => rw [List.foldl_cons, ih, Array.size_modify]

theorem mem_foldl_modify {a b : ClassId} {i : Nat} {cs : List ClassId} {below : Below} :
    b ∈ (cs.foldl (fun below c => below.modify c.index (a :: ·)) below).getD i [] ↔
      b ∈ below.getD i [] ∨ (b = a ∧ i < below.size ∧ ∃ c ∈ cs, c.index = i) := by
  induction cs generalizing below with
  | nil => simp
  | cons c cs ih =>
    have hmodify : b ∈ (below.modify c.index (a :: ·)).getD i [] ↔
        b ∈ below.getD i [] ∨ (b = a ∧ i < below.size ∧ c.index = i) := by
      simp only [Array.getD_eq_getD_getElem?, Array.getElem?_modify]
      by_cases hi : i < below.size
      · by_cases hc : c.index = i
        · simp [hi, hc, or_comm]
        · simp [hi, hc]
      · simp [hi]
    rw [List.foldl_cons, ih, hmodify, Array.size_modify]
    simp only [List.mem_cons, exists_eq_or_imp]
    tauto

variable {d : Draft}

theorem mem_foldl_supertypes {entries : List (Class × Nat)} {below : Below}
    {b : ClassId} {i : Nat} :
    b ∈ (entries.foldl (fun below (cls, i) =>
        (d.supertypes cls).foldl (fun below c => below.modify c.index (⟨i⟩ :: ·)) below)
          below).getD i [] ↔
      b ∈ below.getD i [] ∨ (i < below.size ∧ ∃ cls, (cls, b.index) ∈ entries ∧
        ⟨i⟩ ∈ d.supertypes cls) := by
  induction entries generalizing below with
  | nil => simp
  | cons entry entries ih =>
    obtain ⟨cls, j⟩ := entry
    have hindex : (∃ c ∈ d.supertypes cls, c.index = i) ↔ ⟨i⟩ ∈ d.supertypes cls :=
      ⟨fun ⟨c, hc, hi⟩ => hi ▸ hc, fun h => ⟨_, h, rfl⟩⟩
    have hb : b = ⟨j⟩ ↔ b.index = j := ⟨fun h => h ▸ rfl, fun h => Id.ext_index h⟩
    rw [List.foldl_cons, ih, size_foldl_modify, mem_foldl_modify, hindex, hb]
    simp only [List.mem_cons, Prod.mk.injEq, or_and_right, exists_or, and_assoc, exists_eq_left]
    tauto

theorem size_foldl_supertypes (d : Draft) (entries : List (Class × Nat)) (below : Below) :
    (entries.foldl (fun below (cls, i) =>
      (d.supertypes cls).foldl (fun below c => below.modify c.index (⟨i⟩ :: ·)) below) below).size =
        below.size := by
  induction entries generalizing below with
  | nil => rfl
  | cons entry entries ih => rw [List.foldl_cons, ih, size_foldl_modify]

theorem size_below (d : Draft) : d.below.size = d.classes.size := by
  rw [below, size_foldl_supertypes, Array.size_replicate]

/-- Below a class stand the classes that have it among their supertypes. -/
theorem mem_below {b c : ClassId} :
    b ∈ d.below.getD c.index [] ↔ d.Has c ∧ ∃ cls, d.cls b = .ok cls ∧ c ∈ d.supertypes cls := by
  rw [below, mem_foldl_supertypes]
  simp only [Array.getD_eq_getD_getElem?, Array.size_replicate, List.mem_zipIdx_iff_getElem?,
    Catalog.toList, Array.getElem?_toList, cls, fetch_eq_ok_iff]
  have hnone : b ∉ ((Array.replicate d.classes.size ([] : List ClassId))[c.index]?).getD [] := by
    rw [Array.getElem?_replicate]
    split <;> simp
  simp only [hnone, false_or]
  rfl

theorem exists_subtypes {c : ClassId} (hc : d.Has c) :
    ∃ cs, d.subtypes c = .ok cs ∧ ∀ b ∈ cs, d.Has b := by
  obtain ⟨cls, hcls⟩ := exists_cls_iff.2 hc
  refine ⟨_, by rw [subtypes, subtypesIn, hcls]; rfl, fun b hb => ?_⟩
  refine explore_induction (fun a b _ hb => ?_) _ (fun a ha => ?_) (fun a ha => ?_) b
    (Std.ExtTreeSet.mem_toList.1 hb)
  · obtain ⟨-, cls, hb, -⟩ := mem_below.1 hb
    exact exists_cls_iff.1 ⟨cls, hb⟩
  · rwa [List.mem_singleton.1 ha]
  · exact absurd ha Std.ExtTreeSet.not_mem_empty

/-! ## Targets -/

/-- The receivers with which a call counts: none where the call names its class, else all below the
named class. -/
inductive MayReceive (d : Draft) (call : Invoke) : Option ClassId → Prop where
  | named : call.kind = .static ∨ call.kind = .special → MayReceive d call none
  | subtype {c : ClassId} {cs : List ClassId} : call.kind ≠ .static → call.kind ≠ .special →
      d.subtypes call.target.cls = .ok cs → c ∈ cs → MayReceive d call (some c)

theorem targets_of_named {call : Invoke} (h : call.kind = .static ∨ call.kind = .special) :
    d.targets call = (d.callee none call).bind fun found => .ok found.toList := by
  rw [targets, targetsIn]
  rcases h with h | h <;> rw [h] <;> rfl

theorem targets_of_not_named {call : Invoke} (hstatic : call.kind ≠ .static)
    (hspecial : call.kind ≠ .special) :
    d.targets call = (d.subtypes call.target.cls).bind fun cs =>
      (cs.mapM fun c => d.callee (some c) call).bind fun callees =>
        .ok (Std.ExtTreeSet.ofList (callees.filterMap id) : IdSet .method).toList := by
  rw [targets, targetsIn]
  cases hkind : call.kind with
  | static => exact absurd hkind hstatic
  | special => exact absurd hkind hspecial
  | virtual | interface | dynamic | other => rfl

theorem mem_targets {call : Invoke} {ms : List MethodId} (h : d.targets call = .ok ms)
    {m : MethodId} :
    m ∈ ms ↔ ∃ receiver, d.MayReceive call receiver ∧ d.callee receiver call = .ok (some m) := by
  by_cases hnamed : call.kind = .static ∨ call.kind = .special
  · rw [targets_of_named hnamed] at h
    obtain ⟨found, hfound, h⟩ := bind_eq_ok.1 h
    cases h
    have hnone : ∀ receiver, d.MayReceive call receiver ↔ receiver = none := by
      refine fun receiver => ⟨fun hr => ?_, fun hr => hr ▸ .named hnamed⟩
      cases hr with
      | named => rfl
      | subtype hstatic hspecial => exact (hnamed.elim hstatic hspecial).elim
    simp [hnone, hfound, eq_comm]
  · rw [not_or] at hnamed
    rw [targets_of_not_named hnamed.1 hnamed.2] at h
    obtain ⟨cs, hcs, h⟩ := bind_eq_ok.1 h
    obtain ⟨callees, hcallees, h⟩ := bind_eq_ok.1 h
    cases h
    have hsome : ∀ receiver, d.MayReceive call receiver ↔ ∃ c ∈ cs, receiver = some c := by
      refine fun receiver => ⟨fun hr => ?_, ?_⟩
      · cases hr with
        | named hkind => exact (hkind.elim hnamed.1 hnamed.2).elim
        | subtype _ _ hcs' hc =>
          cases hcs.symm.trans hcs'
          exact ⟨_, hc, rfl⟩
      · rintro ⟨c, hc, rfl⟩
        exact .subtype hnamed.1 hnamed.2 hcs hc
    simp only [Std.ExtTreeSet.mem_toList, Std.ExtTreeSet.mem_ofList, List.contains_iff_mem,
      List.mem_filterMap, id_eq, exists_eq_right, mem_of_mapM_eq_ok hcallees, hsome]
    exact ⟨fun ⟨c, hc, hm⟩ => ⟨_, ⟨c, hc, rfl⟩, hm⟩, fun ⟨_, ⟨c, hc, hr⟩, hm⟩ => ⟨c, hc, hr ▸ hm⟩⟩

/-- The targets of a call come in ascending order, each of them once. -/
theorem ascending_of_targets {call : Invoke} {ms : List MethodId} (h : d.targets call = .ok ms) :
    ms.Pairwise (· < ·) := by
  by_cases hnamed : call.kind = .static ∨ call.kind = .special
  · rw [targets_of_named hnamed] at h
    obtain ⟨found, -, h⟩ := bind_eq_ok.1 h
    cases h
    cases found with
    | none => exact .nil
    | some m => exact List.pairwise_singleton _ m
  · rw [not_or] at hnamed
    rw [targets_of_not_named hnamed.1 hnamed.2] at h
    obtain ⟨cs, -, h⟩ := bind_eq_ok.1 h
    obtain ⟨callees, -, h⟩ := bind_eq_ok.1 h
    cases h
    exact IdSet.toList_ascending _

/-- A call of a draft in range names a class of the draft. -/
theorem InRange.has_target (hd : d.InRange) {s : StmtId} {call : Invoke}
    (hs : d.HasStmt s (.invoke call)) : d.Has call.target.cls :=
  (hd.within_of_hasStmt hs).classes _ (List.mem_singleton.2 rfl)

section InRange

variable {call : Invoke} (hd : d.InRange) (htarget : d.Has call.target.cls)

include hd htarget

/-- With any receiver with which a call counts, its callee is found. -/
theorem InRange.exists_callee_of_mayReceive {receiver : Option ClassId}
    (hr : d.MayReceive call receiver) :
    ∃ found, d.callee receiver call = .ok found ∧ ∀ m ∈ found, d.Has m := by
  refine hd.exists_callee (fun c hc => ?_) htarget
  obtain ⟨cs, hcs, hhas⟩ := exists_subtypes htarget
  cases hr with
  | named => cases hc
  | subtype _ _ hcs' hmem =>
    cases hcs.symm.trans hcs'
    cases hc
    exact hhas _ hmem

theorem InRange.exists_targets : ∃ ms, d.targets call = .ok ms := by
  by_cases hnamed : call.kind = .static ∨ call.kind = .special
  · obtain ⟨found, hfound, -⟩ := hd.exists_callee_of_mayReceive htarget (.named hnamed)
    exact ⟨_, by rw [targets_of_named hnamed, hfound]; rfl⟩
  · rw [not_or] at hnamed
    obtain ⟨cs, hcs, -⟩ := exists_subtypes htarget
    have hok : ∀ c ∈ cs, ∃ found, d.callee (some c) call = .ok found := fun c hc =>
      (hd.exists_callee_of_mayReceive htarget (.subtype hnamed.1 hnamed.2 hcs hc)).imp
        fun _ hr => hr.1
    obtain ⟨callees, hcallees⟩ := exists_mapM_eq_ok hok
    exact ⟨_, by rw [targets_of_not_named hnamed.1 hnamed.2, hcs, Except.bind,
      hcallees, Except.bind]⟩

theorem InRange.has_of_mem_targets {ms : List MethodId} (hms : d.targets call = .ok ms) :
    ∀ m ∈ ms, d.Has m := by
  intro m hm
  obtain ⟨receiver, hr, hcallee⟩ := (mem_targets hms).1 hm
  obtain ⟨found, hfound, hhas⟩ := hd.exists_callee_of_mayReceive htarget hr
  exact hhas m (Except.ok.inj (hfound.symm.trans hcallee))

end InRange

/-- Methods that are listed once are no more than there are. -/
theorem length_le_of_nodup {ms : List MethodId} (hnodup : ms.Nodup) (hms : ∀ m ∈ ms, d.Has m) :
    ms.length ≤ d.methods.size := by
  have hindices : (ms.map Id.index).Nodup := hnodup.map fun a b hab => Id.ext_index hab
  have hsub : (ms.map Id.index).toFinset ⊆ Finset.range d.methods.size := fun i hi => by
    obtain ⟨m, hm, rfl⟩ := List.mem_map.1 (List.mem_toFinset.1 hi)
    exact Finset.mem_range.2 (hms m hm)
  have hcard := Finset.card_le_card hsub
  rwa [Finset.card_range, List.toFinset_card_of_nodup hindices, List.length_map] at hcard

/-- A call may enter a method as far as the class hierarchy shows. -/
def MayEnter (d : Draft) (call : Invoke) (m : MethodId) : Prop :=
  ∃ ms, d.targets call = .ok ms ∧ m ∈ ms

theorem InRange.mayEnter_of_callee (hd : d.InRange) {s : StmtId} {call : Invoke}
    {receiver : Option ClassId} {m : MethodId} (hs : d.HasStmt s (.invoke call))
    (hreceiver : d.MayReceive call receiver) (hm : d.callee receiver call = .ok (some m)) :
    d.MayEnter call m := by
  obtain ⟨ms, hms⟩ := hd.exists_targets (hd.has_target hs)
  exact ⟨ms, hms, (mem_targets hms).2 ⟨receiver, hreceiver, hm⟩⟩

/-- A method may make a call as far as the class hierarchy shows. -/
def MayCall (d : Draft) (m : MethodId) (e : CallEdge) : Prop :=
  d.InBody m e.site ∧ ∃ call, d.HasStmt e.site (.invoke call) ∧ e.kind = call.kind ∧
    d.MayEnter call e.callee

/-- Calls may lead from a method to another. -/
def MayReach (d : Draft) : MethodId → MethodId → Prop :=
  Relation.ReflTransGen fun m m' => ∃ e, d.MayCall m e ∧ e.callee = m'

theorem MayCall.eq_of_ends {m m' : MethodId} {e e' : CallEdge} (h : d.MayCall m e)
    (h' : d.MayCall m' e') (hends : e.ends = e'.ends) : e = e' := by
  obtain ⟨kind, site, callee⟩ := e
  obtain ⟨kind', site', callee'⟩ := e'
  cases hends
  obtain ⟨-, call, hs, hkind, -⟩ := h
  obtain ⟨-, call', hs', hkind', -⟩ := h'
  cases hs.unique hs'
  rw [CallEdge.mk.injEq]
  exact ⟨hkind.trans hkind'.symm, rfl, rfl⟩

theorem InRange.has_of_mayCall (hd : d.InRange) {m : MethodId} {e : CallEdge} (h : d.MayCall m e) :
    d.Has e.callee := by
  obtain ⟨-, call, hs, -, ms, hms, hmem⟩ := h
  exact hd.has_of_mem_targets (hd.has_target hs) hms _ hmem

theorem InRange.has_of_mayReach (hd : d.InRange) {m m' : MethodId} (hm : d.Has m)
    (h : d.MayReach m m') : d.Has m' := by
  induction h with
  | refl => exact hm
  | tail _ h _ =>
    obtain ⟨e, he, rfl⟩ := h
    exact hd.has_of_mayCall he

/-! ## The calls of a method -/

theorem invoke?_eq_ok {s : StmtId} {call : Invoke} :
    d.invoke? s = .ok (some call) ↔ d.HasStmt s (.invoke call) := by
  rw [invoke?, bind_eq_ok, HasStmt]
  refine exists_congr fun placed => and_congr_right fun _ => ?_
  cases placed.stmt <;> simp [pure, Except.pure]

theorem exists_invoke? {s : StmtId} (hs : d.Has s) : ∃ found, d.invoke? s = .ok found := by
  obtain ⟨placed, hplaced⟩ := exists_placed_iff.2 hs
  rw [invoke?, hplaced]
  cases hstmt : placed.stmt <;> exact ⟨_, by simp only [bind, Except.bind, hstmt]; rfl⟩

/-- The calls of a method are the calls of its body; there are no more of them than statements. -/
theorem InRange.exists_callsIn (hd : d.InRange) {m : MethodId} {method : Method}
    (hm : d.method m = .ok method) :
    ∃ calls, d.callsIn m = .ok calls ∧ calls.length ≤ method.stmts.size ∧
      ∀ s call, (s, call) ∈ calls ↔ d.InBody m s ∧ d.HasStmt s (.invoke call) := by
  have hok : ∀ s ∈ method.stmts.toList, ∃ found,
      (do return (← d.invoke? s).map (s, ·) : Except _ _) = .ok found :=
    fun s hs => (exists_invoke? ((hd.within_of_method hm).stmts s hs)).elim fun found hfound =>
      ⟨found.map (s, ·), by rw [hfound]; rfl⟩
  obtain ⟨found, hfound⟩ := exists_mapM_eq_ok hok
  refine ⟨found.filterMap id, by
    rw [callsIn, hm]; simp only [bind, Except.bind] at hfound ⊢; rw [hfound]; rfl, ?_, ?_⟩
  · refine (List.length_filterMap_le _ _).trans (Nat.le_of_eq ?_)
    rw [length_of_mapM_eq_ok hfound, Array.length_toList]
  · intro s call
    simp only [List.mem_filterMap, id_eq, exists_eq_right, mem_of_mapM_eq_ok hfound,
      bind_eq_ok, pure_eq_ok, Option.map_eq_some_iff, Prod.mk.injEq]
    constructor
    · rintro ⟨s', hs, found, hcall, call', rfl, rfl, rfl⟩
      exact ⟨⟨method, hm, hs⟩, invoke?_eq_ok.1 hcall⟩
    · rintro ⟨⟨method', hm', hs⟩, hcall⟩
      cases hm.symm.trans hm'
      exact ⟨s, hs, some call, invoke?_eq_ok.2 hcall, call, rfl, rfl, rfl⟩

/-- The search finds the targets of every call of a method. -/
theorem InRange.exists_resolvedCalls (hd : d.InRange) {m : MethodId} {method : Method}
    (hm : d.method m = .ok method) :
    ∃ calls, d.resolvedCalls d.below m = .ok calls ∧ calls.length ≤ method.stmts.size ∧
      ∀ c, c ∈ calls ↔ d.InBody m c.site ∧
        ∃ call, d.HasStmt c.site (.invoke call) ∧ c.kind = call.kind ∧
          d.targets call = .ok c.targets := by
  obtain ⟨sites, hsites, hlength, hmem⟩ := hd.exists_callsIn hm
  have hok : ∀ x ∈ sites, ∃ c,
      (do return ⟨x.1, x.2.kind, ← d.targetsIn d.below x.2⟩ : Except _ ResolvedCall) = .ok c :=
    fun x hx => exists_bind_eq_ok (hd.exists_targets (hd.has_target ((hmem x.1 x.2).1 hx).2))
      fun ms _ => ⟨_, rfl⟩
  obtain ⟨calls, hcalls⟩ := exists_mapM_eq_ok hok
  refine ⟨calls, by rw [resolvedCalls, hsites]; exact hcalls,
    (length_of_mapM_eq_ok hcalls).trans_le hlength, ?_⟩
  intro c
  rw [mem_of_mapM_eq_ok hcalls]
  constructor
  · rintro ⟨⟨s, call⟩, hs, hc⟩
    obtain ⟨ms, hms, hc⟩ := bind_eq_ok.1 hc
    cases hc
    obtain ⟨hbody, hstmt⟩ := (hmem s call).1 hs
    exact ⟨hbody, call, hstmt, rfl, hms⟩
  · rintro ⟨hbody, call, hstmt, hkind, hms⟩
    refine ⟨(c.site, call), (hmem _ _).2 ⟨hbody, hstmt⟩, bind_eq_ok.2 ⟨c.targets, hms, ?_⟩⟩
    rw [← hkind]
    rfl

/-- So it finds the edges that the method may have, with no more for one statement than there are
methods. -/
theorem InRange.exists_edges (hd : d.InRange) {m : MethodId} {method : Method}
    (hm : d.method m = .ok method) :
    ∃ calls, d.resolvedCalls d.below m = .ok calls ∧
      (calls.flatMap ResolvedCall.edges).length ≤ method.stmts.size * d.methods.size ∧
      (∀ e, e ∈ calls.flatMap ResolvedCall.edges ↔ d.MayCall m e) ∧ ∀ c ∈ calls, d.Has c.site := by
  obtain ⟨calls, hcalls, hlength, hmem⟩ := hd.exists_resolvedCalls hm
  refine ⟨calls, hcalls, ?_, fun e => ?_, fun c hc => hd.has_of_inBody ((hmem c).1 hc).1⟩
  · have hedges : ∀ es ∈ calls.map ResolvedCall.edges, es.length ≤ d.methods.size := by
      intro es hes
      obtain ⟨c, hc, rfl⟩ := List.mem_map.1 hes
      obtain ⟨-, call, hs, -, hms⟩ := (hmem c).1 hc
      rw [ResolvedCall.edges, List.length_map]
      exact length_le_of_nodup (Id.nodup_of_ascending (ascending_of_targets hms))
        (hd.has_of_mem_targets (hd.has_target hs) hms)
    have hsum := length_flatten_le hedges
    rw [List.length_map] at hsum
    exact hsum.trans (Nat.mul_le_mul_right _ hlength)
  · rw [List.mem_flatMap]
    constructor
    · rintro ⟨c, hc, he⟩
      obtain ⟨callee, hcallee, rfl⟩ := List.mem_map.1 he
      obtain ⟨hbody, call, hs, hkind, hms⟩ := (hmem c).1 hc
      exact ⟨hbody, call, hs, hkind, c.targets, hms, hcallee⟩
    · rintro ⟨hbody, call, hs, hkind, ms, hms, hcallee⟩
      exact ⟨⟨e.site, e.kind, ms⟩, (hmem _).2 ⟨hbody, call, hs, hkind, hms⟩,
        List.mem_map.2 ⟨e.callee, hcallee, rfl⟩⟩

end Draft

/-! ## The search -/

theorem CallGraph.reachable_foldl_addEdge (es : List CallEdge) (g : CallGraph) :
    (es.foldl addEdge g).reachable = g.reachable := by
  induction es generalizing g with
  | nil => rfl
  | cons e es ih => rw [List.foldl_cons, ih, reachable_addEdge]

/-- Edges of which no two differ in their kind alone are all added. -/
theorem CallGraph.mem_edges_foldl_addEdge {es : List CallEdge} {g : CallGraph}
    (hends : ∀ e e', e ∈ g.edges ∨ e ∈ es → e' ∈ es → e.ends = e'.ends → e = e') {e : CallEdge} :
    e ∈ (es.foldl addEdge g).edges ↔ e ∈ g.edges ∨ e ∈ es := by
  induction es generalizing g with
  | nil => simp
  | cons e₀ es ih =>
    have hadd : ∀ e', e' ∈ (g.addEdge e₀).edges ↔ e' ∈ g.edges ∨ e' = e₀ := by
      intro e'
      rw [mem_edges_addEdge]
      refine ⟨Or.imp_right And.left, ?_⟩
      rintro (he' | rfl)
      · exact .inl he'
      · cases hedge : g.hasEdge e'.site e'.callee with
        | false => exact .inr ⟨rfl, rfl⟩
        | true =>
          obtain ⟨e₁, he₁, hsite, hcallee⟩ := hasEdge_iff.1 hedge
          have heq :=
            hends e₁ e' (.inl he₁) List.mem_cons_self
              (by rw [CallEdge.ends, CallEdge.ends, hsite, hcallee])
          exact .inl (heq ▸ he₁)
    rw [List.foldl_cons, ih fun a b ha hb hab => ?_, hadd, List.mem_cons, or_assoc]
    refine hends a b ?_ (List.mem_cons_of_mem _ hb) hab
    rw [hadd, or_assoc] at ha
    exact ha.imp_right List.mem_cons.2

namespace Draft

variable {d : Draft}

/-- A search from an entry: its edges are the calls of the methods that it has visited, and what is
called, the entry as well, has been visited or waits. All that it comes to is led to by calls. -/
structure Searched (d : Draft) (entry : MethodId) (queue : List MethodId) (g : CallGraph) :
    Prop where
  begun : entry ∈ g.reachable ∨ entry ∈ queue
  edges : ∀ e, e ∈ g.edges ↔ ∃ m ∈ g.reachable, d.MayCall m e
  callees : ∀ e ∈ g.edges, e.callee ∈ g.reachable ∨ e.callee ∈ queue
  led : ∀ m, m ∈ g.reachable ∨ m ∈ queue → d.MayReach entry m

namespace Searched

variable {entry m : MethodId} {queue : List MethodId} {g : CallGraph}

theorem start (entry : MethodId) : d.Searched entry [entry] (({} : CallGraph).addEntry entry) := by
  have hreachable : (({} : CallGraph).addEntry entry).reachable = [] := by
    rw [CallGraph.reachable_addEntry]; rfl
  have hedges : (({} : CallGraph).addEntry entry).edges = [] := by
    rw [CallGraph.edges_addEntry]; rfl
  refine ⟨.inr List.mem_cons_self, fun e => ?_, fun e he => ?_, fun m hm => ?_⟩
  · simp [hreachable, hedges]
  · simp [hedges] at he
  · rw [hreachable] at hm
    rcases hm with hm | hm
    · cases hm
    · rw [List.mem_singleton.1 hm]
      exact .refl

/-- A method that has been visited need not wait. -/
theorem skip (h : d.Searched entry (m :: queue) g) (hm : m ∈ g.reachable) :
    d.Searched entry queue g := by
  have hdrop : ∀ m', m' ∈ g.reachable ∨ m' ∈ m :: queue → m' ∈ g.reachable ∨ m' ∈ queue := by
    rintro m' (hm' | hm')
    · exact .inl hm'
    · rcases List.mem_cons.1 hm' with rfl | hm'
      · exact .inl hm
      · exact .inr hm'
  exact ⟨hdrop _ h.begun, h.edges, fun e he => hdrop _ (h.callees e he),
    fun m' hm' => h.led m' (hm'.imp_right (List.mem_cons_of_mem _))⟩

/-- A visit adds the calls of a method, and lets what they enter wait. -/
theorem visit (h : d.Searched entry (m :: queue) g) {es : List CallEdge}
    (hes : ∀ e, e ∈ es ↔ d.MayCall m e) :
    d.Searched entry (queue ++ es.map CallEdge.callee)
      (es.foldl CallGraph.addEdge (g.addReachable m)) := by
  have hreachable : ∀ m', m' ∈ (es.foldl CallGraph.addEdge (g.addReachable m)).reachable ↔
      m' ∈ g.reachable ∨ m' = m := by
    intro m'
    rw [CallGraph.reachable_foldl_addEdge, CallGraph.mem_reachable_addReachable]
  have hedges : ∀ e, e ∈ (es.foldl CallGraph.addEdge (g.addReachable m)).edges ↔
      e ∈ g.edges ∨ d.MayCall m e := by
    intro e
    have hcalled : ∀ e', e' ∈ (g.addReachable m).edges ∨ e' ∈ es →
        ∃ m', d.MayCall m' e' := fun e' he' =>
      he'.elim (fun he' => ((h.edges e').1 he').imp fun _ hm' => hm'.2)
        fun he' => ⟨m, (hes e').1 he'⟩
    rw [CallGraph.mem_edges_foldl_addEdge fun e₁ e₂ he₁ he₂ hends => ?_, hes]
    · rfl
    · obtain ⟨m₁, hm₁⟩ := hcalled e₁ he₁
      exact hm₁.eq_of_ends ((hes e₂).1 he₂) hends
  -- what waited or was visited before still does, the visited method now as visited
  have hkeep : ∀ m', m' ∈ g.reachable ∨ m' ∈ m :: queue →
      m' ∈ (es.foldl CallGraph.addEdge (g.addReachable m)).reachable ∨
      m' ∈ queue ++ es.map CallEdge.callee := by
    intro m' hm'
    rw [hreachable, List.mem_append]
    rcases hm' with hm' | hm'
    · exact .inl (.inl hm')
    · exact (List.mem_cons.1 hm').imp .inr .inl
  refine ⟨hkeep _ h.begun, fun e => ?_, fun e he => ?_, fun m' hm' => ?_⟩
  · rw [hedges, h.edges]
    simp only [hreachable, or_and_right, exists_or, exists_eq_left]
  · rcases (hedges e).1 he with he | he
    · exact hkeep _ (h.callees e he)
    · exact .inr (List.mem_append_right _ (List.mem_map_of_mem ((hes e).2 he)))
  · have hm := h.led m (.inr List.mem_cons_self)
    rw [hreachable, List.mem_append] at hm'
    rcases hm' with (hm' | rfl) | (hm' | hm')
    · exact h.led m' (.inl hm')
    · exact hm
    · exact h.led m' (.inr (List.mem_cons_of_mem _ hm'))
    · obtain ⟨e, he, rfl⟩ := List.mem_map.1 hm'
      exact hm.tail ⟨e, (hes e).1 he, rfl⟩

/-- A search with nothing left has visited exactly the methods to which calls lead. -/
theorem mem_reachable_iff (h : d.Searched entry [] g) : m ∈ g.reachable ↔ d.MayReach entry m := by
  refine ⟨fun hm => h.led m (.inl hm), fun hm => ?_⟩
  induction hm with
  | refl => exact h.begun.resolve_right List.not_mem_nil
  | tail _ he ih =>
    obtain ⟨e, he, rfl⟩ := he
    exact (h.callees e ((h.edges e).2 ⟨_, ih, he⟩)).resolve_right List.not_mem_nil

end Searched

/-- The search with no bound on its visits. -/
inductive Explores (d : Draft) : Queue MethodId → CallGraph → Log → CallGraph → Log → Prop where
  | done {queue : Queue MethodId} {g : CallGraph} {log : Log} : queue.pop? = none →
      Explores d queue g log g log
  | skip {queue rest : Queue MethodId} {g g' : CallGraph} {log log' : Log} {m : MethodId} :
      queue.pop? = some (m, rest) → g.reaches m = true → Explores d rest g log g' log' →
      Explores d queue g log g' log'
  | visit {queue rest : Queue MethodId} {g g' : CallGraph} {log log' : Log} {m : MethodId}
      {calls : List ResolvedCall} :
      queue.pop? = some (m, rest) → g.reaches m = false → d.resolvedCalls d.below m = .ok calls →
      Explores d (rest.pushAll ((calls.flatMap ResolvedCall.edges).map CallEdge.callee))
        ((calls.flatMap ResolvedCall.edges).foldl CallGraph.addEdge (g.addReachable m))
        (log ++ calls.flatMap ResolvedCall.events) g' log' →
      Explores d queue g log g' log'

/-- What waits, and what the call sites of the other methods may still bring. -/
def visitsLeft (d : Draft) (queue : List MethodId) (g : CallGraph) : Nat :=
  queue.length + (d.sitesBeyond g.reachable).card * d.methods.size

/-- A search with as many visits as may be left does not notice their bound. -/
theorem exists_visitCalls (hfiled : d.Filed) (hd : d.InRange) {entry : MethodId}
    (hentry : d.Has entry) (n : Nat) {queue : Queue MethodId} {g : CallGraph} {log : Log}
    (h : d.Searched entry queue.toList g) (hn : d.visitsLeft queue.toList g ≤ n)
    (hlog : ∀ event ∈ log.toList, event.Within d.size) :
    ∃ g' log', d.visitCalls d.below n queue g log = .ok (g', log') ∧
      d.Explores queue g log g' log' ∧
      d.Searched entry [] g' ∧ ∀ event ∈ log'.toList, event.Within d.size := by
  induction n generalizing queue g log with
  | zero =>
    have hnil : queue.toList = [] := by
      rw [visitsLeft] at hn
      exact List.eq_nil_of_length_eq_zero (by omega)
    exact ⟨g, log, rfl, .done (Queue.pop?_eq_none_iff.2 hnil), hnil ▸ h, hlog⟩
  | succ n ih =>
    rw [visitCalls]
    split <;> rename_i hpop
    · exact ⟨g, log, rfl, .done hpop, Queue.pop?_eq_none_iff.1 hpop ▸ h, hlog⟩
    rename_i m rest
    rw [Queue.toList_eq_cons_of_pop? hpop] at h hn
    rw [visitsLeft, List.length_cons] at hn
    split <;> rename_i hm
    · obtain ⟨g', log', hok, hexplores, hdone⟩ :=
        ih (h.skip (CallGraph.reaches_iff.1 hm)) (by rw [visitsLeft]; omega) hlog
      exact ⟨g', log', hok, .skip hpop hm hexplores, hdone⟩
    · have hfresh := Bool.eq_false_iff.2 hm
      rw [CallGraph.reaches_iff] at hm
      obtain ⟨method, hmethod⟩ :=
        exists_method_iff.2 (hd.has_of_mayReach hentry (h.led m (.inr List.mem_cons_self)))
      obtain ⟨calls, hcalls, hlength, hedges, hsites⟩ := hd.exists_edges hmethod
      have hbudget : d.visitsLeft
          (rest.pushAll ((calls.flatMap ResolvedCall.edges).map CallEdge.callee)).toList
          ((calls.flatMap ResolvedCall.edges).foldl CallGraph.addEdge (g.addReachable m)) ≤ n := by
        -- the edges of the method are paid for by its statements
        have hcard : (d.sitesBeyond (g.addReachable m).reachable).card + method.stmts.size ≤ _ :=
          card_sitesBeyond_le hfiled hd hmethod hm fun m' => CallGraph.mem_reachable_addReachable
        have hpaid := Nat.mul_le_mul_right d.methods.size hcard
        rw [Nat.add_mul] at hpaid
        rw [visitsLeft, Queue.toList_pushAll, List.length_append, List.length_map,
          CallGraph.reachable_foldl_addEdge]
        omega
      have hevents : ∀ event ∈ (log ++ calls.flatMap ResolvedCall.events).toList,
          event.Within d.size := by
        intro event hevent
        rw [Array.toList_appendList, List.mem_append] at hevent
        rcases hevent with hevent | hevent
        · exact hlog event hevent
        · obtain ⟨c, hc, hevent⟩ := List.mem_flatMap.1 hevent
          rw [ResolvedCall.events] at hevent
          split at hevent
          · rw [List.mem_singleton.1 hevent]
            exact hsites c hc
          · cases hevent
      obtain ⟨g', log', hok, hexplores, hdone⟩ :=
        ih (by rw [Queue.toList_pushAll]; exact h.visit hedges) hbudget hevents
      rw [hcalls]
      exact ⟨g', log', hok, .visit hpop hfresh hcalls hexplores, hdone⟩

/-- The search from an entry returns what it would return without a bound, with the calls of all
methods to which calls lead. -/
theorem exists_search (hfiled : d.Filed) (hd : d.InRange) {entry : MethodId}
    (hentry : d.Has entry) :
    ∃ g log, d.hierarchyCalls entry = .ok (g, log.push (.explored g.methods.size g.calls.size)) ∧
      d.Explores (.ofList [entry]) (({} : CallGraph).addEntry entry) #[] g log ∧
        d.Searched entry [] g ∧
      ∀ event ∈ log.toList, event.Within d.size := by
  have hstart : d.Searched entry (Queue.ofList [entry]).toList (({} : CallGraph).addEntry entry) :=
    .start entry
  have hvisits : d.visitsLeft (Queue.ofList [entry]).toList (({} : CallGraph).addEntry entry) ≤
      1 + d.stmts.size * d.methods.size :=
    Nat.add_le_add_left (Nat.mul_le_mul_right _ (d.card_sitesBeyond_le_size _)) 1
  have hlog : ∀ event ∈ (#[] : Log).toList, event.Within d.size :=
    fun event hevent => by cases hevent
  obtain ⟨g, log, hok, hdone⟩ := exists_visitCalls hfiled hd hentry _ hstart hvisits hlog
  exact ⟨g, log, by rw [hierarchyCalls, hok]; rfl, hdone⟩

theorem exists_hierarchyCalls (hfiled : d.Filed) (hd : d.InRange) {entry : MethodId}
    (hentry : d.Has entry) :
    ∃ g log, d.hierarchyCalls entry = .ok (g, log) ∧ d.Searched entry [] g ∧
      ∀ event ∈ log.toList, event.Within d.size := by
  obtain ⟨g, log, hok, -, hsearched, hlog⟩ := exists_search hfiled hd hentry
  refine ⟨g, _, hok, hsearched, fun event hevent => ?_⟩
  rcases mem_toList_push.1 hevent with hevent | rfl
  · exact hlog event hevent
  · trivial

/-! ## The search is exact -/

/-- With every method, a set has all methods that the method may enter by a call. -/
def ClosedUnderCalls (d : Draft) (S : Set MethodId) : Prop :=
  ∀ m ∈ S, ∀ e, d.MayCall m e → e.callee ∈ S

/-- A search with nothing left has visited the least set that is closed under calls and has the
entry. -/
theorem Searched.isLeast {entry : MethodId} {g : CallGraph} (h : d.Searched entry [] g) :
    IsLeast {S | entry ∈ S ∧ d.ClosedUnderCalls S} {m | m ∈ g.reachable} := by
  refine ⟨⟨h.mem_reachable_iff.2 .refl, fun m hm e he => ?_⟩, fun S ⟨hentry, hclosed⟩ m hm => ?_⟩
  · exact h.mem_reachable_iff.2 ((h.mem_reachable_iff.1 hm).tail ⟨e, he, rfl⟩)
  · have hreach := h.mem_reachable_iff.1 hm
    induction hreach with
    | refl => exact hentry
    | tail hreach hcall ih =>
      obtain ⟨e, he, rfl⟩ := hcall
      exact hclosed _ (ih (h.mem_reachable_iff.2 hreach)) e he

/-- The targets of a call are the callees with the receivers with which it counts. -/
theorem InRange.exists_targets_ascending (hd : d.InRange) {call : Invoke}
    (htarget : d.Has call.target.cls) :
    ∃ ms, d.targets call = .ok ms ∧ ms.Pairwise (· < ·) ∧
      (call.kind = .static ∨ call.kind = .special → ∀ m, m ∈ ms ↔
        d.callee none call = .ok (some m)) ∧
      (call.kind ≠ .static → call.kind ≠ .special → ∃ cs, d.subtypes call.target.cls = .ok cs ∧
        ∀ m, m ∈ ms ↔ ∃ c ∈ cs, d.callee (some c) call = .ok (some m)) := by
  obtain ⟨ms, hms⟩ := hd.exists_targets htarget
  refine ⟨ms, hms, ascending_of_targets hms, fun hnamed m => ?_, fun hstatic hspecial => ?_⟩
  · rw [mem_targets hms]
    constructor
    · rintro ⟨receiver, hreceiver, hm⟩
      cases hreceiver with
      | named => exact hm
      | subtype hstatic hspecial => exact (hnamed.elim hstatic hspecial).elim
    · exact fun hm => ⟨none, .named hnamed, hm⟩
  · obtain ⟨cs, hcs, -⟩ := exists_subtypes htarget
    refine ⟨cs, hcs, fun m => ?_⟩
    rw [mem_targets hms]
    constructor
    · rintro ⟨receiver, hreceiver, hm⟩
      cases hreceiver with
      | named hnamed => exact (hnamed.elim hstatic hspecial).elim
      | subtype _ _ hcs' hc =>
        cases hcs.symm.trans hcs'
        exact ⟨_, hc, hm⟩
    · rintro ⟨c, hc, hm⟩
      exact ⟨some c, .subtype hstatic hspecial hcs hc, hm⟩

end Draft

theorem CallGraph.nodup_edges (g : CallGraph) : g.edges.Nodup :=
  .of_map _ (Catalog.nodup_map_key g.calls)

/-- The call graph of the class hierarchy is exact. The search for it ends on its own. It reaches
the least set of methods that has the entry and is closed under calls, and has one edge for each
target of each call of a method that it reaches. The targets of a call come in ascending order. They
are the one callee of a static or special call, and for every other call the callees with all
classes below the named one. -/
theorem Program.hierarchyCalls_exact {p : Program} (hp : p.Proper) :
    (∀ call : Invoke, p.Has call.target.cls → ∃ ms, p.targets call = .ok ms ∧ ms.Pairwise (· < ·) ∧
      (call.kind = .static ∨ call.kind = .special → ∀ m, m ∈ ms ↔
        p.callee none call = .ok (some m)) ∧
      (call.kind ≠ .static → call.kind ≠ .special → ∃ cs, p.subtypes call.target.cls = .ok cs ∧
        ∀ m, m ∈ ms ↔ ∃ c ∈ cs, p.callee (some c) call = .ok (some m))) ∧
    ∀ entry, p.Has entry → ∃ g log,
      p.hierarchyCalls entry = .ok (g, log.push (.explored g.methods.size g.calls.size)) ∧
      p.Explores (.ofList [entry]) (({} : CallGraph).addEntry entry) #[] g log ∧
      IsLeast {S | entry ∈ S ∧ p.ClosedUnderCalls S} {m | m ∈ g.reachable} ∧ g.reachable.Nodup ∧
      g.edges.Nodup ∧ ∀ e, e ∈ g.edges ↔ ∃ m ∈ g.reachable, p.InBody m e.site ∧
        ∃ call ms, p.HasStmt e.site (.invoke call) ∧ e.kind = call.kind ∧ p.targets call = .ok ms ∧
          e.callee ∈ ms := by
  refine ⟨fun call htarget => hp.inRange.exists_targets_ascending htarget, fun entry hentry => ?_⟩
  obtain ⟨g, log, hok, hexplores, hsearched, -⟩ :=
    Draft.exists_search hp.built.filed hp.inRange hentry
  refine ⟨g, log, hok, hexplores, hsearched.isLeast, DistinctList.nodup_toList _,
    g.nodup_edges, fun e => ?_⟩
  rw [hsearched.edges]
  refine exists_congr fun m => and_congr_right fun _ => and_congr_right fun _ =>
    exists_congr fun call => ?_
  constructor
  · rintro ⟨hs, hkind, ms, hms⟩
    exact ⟨ms, hs, hkind, hms⟩
  · rintro ⟨ms, hs, hkind, hms⟩
    exact ⟨hs, hkind, ms, hms⟩

/-- A call with two targets, one of which makes it. -/
def sampleRecursion : String :=
  "class A { method m() { invoke this.A::m(); } } class B extends A { method m() { } }"

theorem Program.sample_hierarchyCalls_exact :
    ∃ p g log, Program.ofText sampleRecursion = .ok p ∧ p.Has (⟨0⟩ : MethodId) ∧
      p.hierarchyCalls ⟨0⟩ = .ok (g, log) ∧
      g.reachable = [⟨0⟩, ⟨1⟩] ∧ g.edges.length = 2 ∧
      IsLeast {S | ⟨0⟩ ∈ S ∧ p.ClosedUnderCalls S} {m | m ∈ g.reachable} := by
  obtain ⟨p, htext, hentry, ⟨g, log⟩, hsearch, hreachable, hedges⟩ :
      ∃ p, Program.ofText sampleRecursion = .ok p ∧ p.Has (⟨0⟩ : MethodId) ∧
        ∃ x ∈ (p.hierarchyCalls ⟨0⟩).toOption, x.1.reachable = [⟨0⟩, ⟨1⟩] ∧ x.1.edges.length = 2 :=
    Program.exists_ofText (by decide +kernel)
  obtain ⟨g', log', hok, -, hleast, -⟩ :=
    (Program.hierarchyCalls_exact (.of_ofText htext)).2 ⟨0⟩ hentry
  have hsearch := toOption_eq_some_iff.1 hsearch
  cases hsearch.symm.trans hok
  exact ⟨p, g, _, htext, hentry, hok, hreachable, hedges, hleast⟩

end PointsTo
