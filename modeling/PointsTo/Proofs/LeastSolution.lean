import PointsTo.Proofs.Termination

/-!
# The least solution

A drained run shows exactly what can be derived from what it was given (`Run.shows_iff_derives`,
`Run.solution_is_least`). So the solution of a program does not depend on the order in which entries
are handled or methods are entered, except for the numbers of pointers and objects and the order of
lists (`Run.drained_runs_agree`).
-/

namespace PointsTo

/-- Facts tell all of a solution: every pointer has a place, every object in a set has a key, and
edges are between pointers. -/
structure Solution.Named {κ : Type} [Ord κ] [Std.TransOrd κ] (r : Solution κ) : Prop where
  pointers : ∀ i : PointerId, i.index < r.pointers.size → ∃ a, r.placeOf i = some a
  flow : ∀ i j, r.flow.hasEdge i j = true → ∃ a b, r.placeOf i = some a ∧ r.placeOf j = some b
  pts : ∀ i, ∀ o ∈ r.pointers.pts i, ∃ a k, r.placeOf i = some a ∧ r.heap.keyOf o = some k

namespace State

variable {κ : Type} [Ord κ] [Std.TransOrd κ] {st : State κ}

theorem Supported.named {d : Draft} {model : HeapModel κ} {S : Fact κ → Prop}
    (hst : st.Supported d model S) : st.toSolution.Named where
  pointers i hi := by
    obtain ⟨q, hq⟩ := PointerTable.pointer?_isSome_iff.2 hi
    obtain ⟨a, ha, -⟩ := hst.known i q hq
    exact ⟨a, Option.bind_eq_some_iff.2 ⟨q, hq, ha⟩⟩
  flow i j hij := by
    obtain ⟨a, b, ha, hb, -⟩ := hst.flows i j hij
    exact ⟨a, b, ha, hb⟩
  pts i o ho := by
    obtain ⟨a, k, ha, hk, -⟩ := hst.holds i o (.inl ho)
    exact ⟨a, k, ha, hk⟩

section

variable [Std.LawfulEqOrd κ] {model : HeapModel κ} {p : Program} {facts : List (Fact κ)}
  (hp : p.Proper)

include hp

theorem Run.supported (h : Run model p facts st) :
    st.Supported p.toDraft model (Derives p.toDraft model (· ∈ facts)) :=
  (h.spec hp).2.2 _ (Derives.closed _) fun _ hf => .given hf

/-- With an empty work list, a run shows what is derivable, and nothing else. -/
theorem Run.shows_iff_derives (hmodel : model.Consistent p.toDraft) (h : Run model p facts st)
    (hdone : st.worklist.toList = []) {f : Fact κ} :
    st.Shows f ↔ Derives p.toDraft model (· ∈ facts) f := by
  obtain ⟨hrests, hfacts, -⟩ := h.spec hp
  constructor
  · exact (h.supported hp).of_shows
  · exact fun hf => hf.least (hrests.closed hp.inRange hmodel hdone) fun g hg => (hfacts g hg).2

/-- An object remembers the statement that its key is, which a reached method has. -/
theorem Run.allocated_of_get {facts : List (Fact StmtId)} {st : State StmtId}
    (h : Run .bySite p facts st) {o : ObjId} {obj : Obj} (ho : st.heap.get o = .ok obj) :
    st.heap.keyOf o = some obj.site ∧
      ∃ m ∈ st.calls.reachable, p.InBody m obj.site ∧ p.Allocates obj.site obj.type := by
  obtain ⟨k, he⟩ := Heap.get_eq_ok_iff.1 ho
  obtain ⟨m, lhs, c, isArray, hm, hbody, hstmt, htype, hk⟩ := (h.supported hp).objects o k obj he
  cases hk
  exact ⟨Heap.keyOf_of_record? he, m, hm, hbody, lhs, c, isArray, hstmt, htype⟩

end

/-- All that a run shows or has on its way is derivable from what it was given, and all its objects
are allocated by reached methods. So the analysis of a program from an entry gives the least closed
set of facts. -/
theorem Run.solution_is_least {p : Program} (hp : p.Proper) :
    (∀ facts st, Run .bySite p facts st →
      (∀ f, st.Shows f ∨ st.Awaits f → Derives p.toDraft .bySite (· ∈ facts) f) ∧
      st.toSolution.Named ∧
      (∀ i objs, (i, objs) ∈ st.worklist.toList → ∀ o ∈ objs, ∃ a k, st.placeOf i = some a ∧
        st.heap.keyOf o = some k) ∧
      ∀ o obj, st.heap.get o = .ok obj → st.heap.keyOf o = some obj.site ∧
        ∃ m ∈ st.calls.reachable, p.InBody m obj.site ∧ p.Allocates obj.site obj.type) ∧
    ∀ entry, p.Has entry → ∃ r log, p.solve .bySite entry = .ok (r, log) ∧
      r.Named ∧ Closed p.toDraft .bySite r.Shows ∧ r.Shows (.reached entry) ∧
      (∀ S, Closed p.toDraft .bySite S → S (.reached entry) → ∀ f, r.Shows f → S f) ∧
      ∀ f, r.Shows f ↔ Derives p.toDraft .bySite (· = .reached entry) f := by
  refine ⟨fun facts st hrun => ?_, fun entry hentry => ?_⟩
  · have hst := hrun.supported hp
    refine ⟨fun f hf => hf.elim hst.of_shows hst.of_awaits, hst.named, fun i objs hmem o ho => ?_,
      fun o obj ho => hrun.allocated_of_get hp ho⟩
    obtain ⟨a, k, ha, hk, -⟩ := hst.holds i o (.inr ⟨objs, hmem, ho⟩)
    exact ⟨a, k, ha, hk⟩
  · obtain ⟨st, log, hsolve, hrun, hdone⟩ := Run.solve .bySite hp hentry
    have hiff : ∀ f, st.Shows f ↔ Derives p.toDraft .bySite (· = .reached entry) f := by
      intro f
      rw [hrun.shows_iff_derives hp (HeapModel.bySite_consistent _) hdone]
      simp only [List.mem_singleton]
    refine ⟨st.toSolution, log, hsolve, (hrun.supported hp).named, ?_,
      (hiff _).2 (.given rfl), ?_, hiff⟩
    · intro premises f hrule hpremises
      exact (hiff f).2 (.rule hrule fun g hg => (hiff g).1 (hpremises g hg))
    · intro S hS hentry f hf
      have hgiven : ∀ g, g = .reached entry → S g := fun g hg => hg ▸ hentry
      exact ((hiff f).1 hf).least hS hgiven

theorem Run.sample_solution_is_least :
    ∃ p r log, Program.ofText sampleText = .ok p ∧ p.solve .bySite ⟨1⟩ = .ok (r, log) ∧
      ∀ f, r.Shows f ↔ Derives p.toDraft .bySite (· = .reached ⟨1⟩) f := by
  obtain ⟨p, htext, -, hmain⟩ := sampleText_accepted
  obtain ⟨r, log, hsolve, -, -, -, -, hiff⟩ :=
    (Run.solution_is_least (.of_ofText htext)).2 ⟨1⟩ hmain
  exact ⟨p, r, log, htext, hsolve, hiff⟩

/-- Runs that were given the same facts and have drained their work lists agree on all facts,
whatever they took first. The analysis from one entry is such a run. -/
theorem Run.drained_runs_agree {p : Program} (hp : p.Proper) {facts facts' : List (Fact StmtId)}
    {st st' : State StmtId} (hrun : Run .bySite p facts st) (hrun' : Run .bySite p facts' st')
    (hfacts : ∀ f, f ∈ facts ↔ f ∈ facts') (hdone : st.worklist.toList = [])
    (hdone' : st'.worklist.toList = []) :
    st.toSolution.Named ∧ st'.toSolution.Named ∧ (∀ f, st.Shows f ↔ st'.Shows f) ∧
    ∀ entry, (∀ f, f ∈ facts ↔ f = .reached entry) →
      ∃ r log, p.solve .bySite entry = .ok (r, log) ∧ r.Named ∧ ∀ f, r.Shows f ↔ st.Shows f := by
  have hagree : ∀ {facts₁ st₁}, Run .bySite p facts₁ st₁ → st₁.worklist.toList = [] →
      (∀ f, f ∈ facts₁ ↔ f ∈ facts) →
      ∀ f, st₁.Shows f ↔ st.Shows f := by
    intro facts₁ st₁ hrun₁ hdone₁ hfacts₁ f
    have hmodel := HeapModel.bySite_consistent p.toDraft
    rw [hrun₁.shows_iff_derives hp hmodel hdone₁, hrun.shows_iff_derives hp hmodel hdone]
    exact ⟨.mono fun g hg => (hfacts₁ g).1 hg, .mono fun g hg => (hfacts₁ g).2 hg⟩
  refine ⟨(hrun.supported hp).named, (hrun'.supported hp).named,
    fun f => (hagree hrun' hdone' (fun g => (hfacts g).symm) f).symm, fun entry hentry => ?_⟩
  have hscope : p.Has entry := ((hrun.spec hp).2.1 _ ((hentry _).2 rfl)).1
  obtain ⟨st₁, log, hsolve, hrun₁, hdone₁⟩ := Run.solve .bySite hp hscope
  refine ⟨st₁.toSolution, log, hsolve, (hrun₁.supported hp).named, hagree hrun₁ hdone₁ fun f => ?_⟩
  rw [List.mem_singleton, hentry]

theorem Run.sample_drained_runs_agree :
    ∃ p st st', Program.ofText sampleText = .ok p ∧
      Run .bySite p [.reached ⟨0⟩, .reached ⟨1⟩] st ∧ st.worklist.toList = [] ∧
      Run .bySite p [.reached ⟨1⟩, .reached ⟨0⟩] st' ∧ st'.worklist.toList = [] ∧ ∀ f, st.Shows f ↔
        st'.Shows f := by
  obtain ⟨p, htext, hid, hmain⟩ := sampleText_accepted
  have hp := Program.Proper.of_ofText htext
  have hstarts : ∀ m m' : MethodId, p.Has m → p.Has m' →
      ∃ st, Run .bySite p [.reached m, .reached m'] st ∧ st.worklist.toList = [] := by
    intro m m' hm hm'
    have hempty : Run .bySite p [] {} := .empty
    obtain ⟨st₁, -, hrun₁⟩ := hempty.exists_start hp hm'
    obtain ⟨st₂, -, hrun₂⟩ := hrun₁.exists_start hp hm
    obtain ⟨st, -, hrun, hdone⟩ := hrun₂.drain hp
    exact ⟨st, hrun, hdone⟩
  obtain ⟨st, hrun, hdone⟩ := hstarts ⟨0⟩ ⟨1⟩ hid hmain
  obtain ⟨st', hrun', hdone'⟩ := hstarts ⟨1⟩ ⟨0⟩ hmain hid
  have hfacts : ∀ f : Fact StmtId, f ∈ [.reached ⟨0⟩, .reached ⟨1⟩] ↔
      f ∈ [.reached ⟨1⟩, .reached ⟨0⟩] :=
    fun f => (List.Perm.swap _ _ _).mem_iff
  obtain ⟨-, -, hagree, -⟩ := hrun.drained_runs_agree hp hrun' hfacts hdone hdone'
  exact ⟨p, st, st', htext, hrun, hdone, hrun', hdone', hagree⟩

end State

end PointsTo
