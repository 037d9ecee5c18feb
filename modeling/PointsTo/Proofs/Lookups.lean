import PointsTo.CommandLine.Run
import PointsTo.Proofs.HierarchyCalls
import PointsTo.Proofs.Loops

/-!
# Every look-up finds something

All ids of a program that was read from a text are in range, and the analyses keep it so: whatever
the class hierarchy `Answers` exists, and in every state that the solver comes to, also while
methods are pending, each entry of the work list, edge, object and pointer is about something that
exists (`State.InRange`, `StaysInRange`). So such a state is `Safe`, and no look-up fails, neither
in an analysis nor in the text that is made from its result (`Program.every_lookup_succeeds`).
-/

namespace PointsTo

/-! ## Names -/

namespace Draft.InRange

variable {d : Draft} (h : d.InRange)

include h

theorem exists_methodName {m : MethodId} (hm : d.Has m) : ∃ name, d.methodName m = .ok name := by
  refine exists_bind_eq_ok (exists_method_iff.2 hm) fun method hmethod => ?_
  exact exists_bind_eq_ok (exists_cls_iff.2 (h.within_of_method hmethod).cls) fun cls _ => ⟨_, rfl⟩

theorem exists_fieldName {f : FieldId} (hf : d.Has f) : ∃ name, d.fieldName f = .ok name := by
  refine exists_bind_eq_ok (fetch_isOk_iff.2 hf) fun field hfield => ?_
  have hcls := h.fields field (mem_toList_of_fetch hfield)
  exact exists_bind_eq_ok (exists_cls_iff.2 hcls) fun cls _ => ⟨_, rfl⟩

theorem exists_varName {v : VarId} (hv : d.Has v) : ∃ name, d.varName v = .ok name := by
  refine exists_bind_eq_ok (fetch_isOk_iff.2 hv) fun var hvar => ?_
  have hm := h.vars var (mem_toList_of_fetch hvar)
  exact exists_bind_eq_ok (h.exists_methodName hm) fun name _ => ⟨_, rfl⟩

theorem exists_stmtLabel {s : StmtId} (hs : d.Has s) : ∃ label, d.stmtLabel s = .ok label := by
  refine exists_bind_eq_ok (exists_placed_iff.2 hs) fun placed hplaced => ?_
  have hm := (h.stmts placed (mem_toList_of_fetch hplaced)).1
  exact exists_bind_eq_ok (h.exists_methodName hm) fun name _ => ⟨_, rfl⟩

theorem exists_message {event : Event} (hevent : event.Within d.size) :
    ∃ text, event.message d = .ok text := by
  cases event with
  | started m | reached m =>
    exact exists_bind_eq_ok (h.exists_methodName hevent) fun name _ => ⟨_, rfl⟩
  | unresolvedStatic s | unresolvedCall _ s _ | noTarget _ s =>
    exact exists_bind_eq_ok (h.exists_stmtLabel hevent) fun label _ => ⟨_, rfl⟩
  | unresolvedField ref s =>
    refine exists_bind_eq_ok (exists_cls_iff.2 hevent.1) fun cls _ => ?_
    exact exists_bind_eq_ok (h.exists_stmtLabel hevent.2) fun label _ => ⟨_, rfl⟩
  | grew | solved | explored => exact ⟨_, rfl⟩

theorem within_of_records {s : StmtId} {event : Event} (hevent : d.Records s event) :
    event.Within d.size := by
  have hhas : ∀ {stmt}, d.HasStmt s stmt → d.Has s :=
    fun ⟨placed, hplaced, _⟩ => exists_placed_iff.1 ⟨placed, hplaced⟩
  cases hevent with
  | load hs => exact ⟨(h.within_of_hasStmt hs).classes _ (List.mem_singleton.2 rfl), hhas hs⟩
  | store hs => exact ⟨(h.within_of_hasStmt hs).classes _ (List.mem_singleton.2 rfl), hhas hs⟩
  | static hs => exact hhas hs
  | call o hs => exact hhas hs

/-! ## The entry -/

theorem has_of_chooseEntry {requested : Option String} {m : MethodId}
    (hm : d.chooseEntry requested = .ok m) : d.Has m := by
  rw [chooseEntry.eq_def] at hm
  split at hm
  next text _ =>
    rw [entryNamed] at hm
    split at hm
    next => cases hm
    next =>
      split at hm
      next hfound =>
        cases hm
        exact h.has_of_mem_findMethods (hfound ▸ List.mem_singleton.2 rfl)
      next => cases hm
      next => cases hm
  next hentry =>
    cases hm
    exact h.entry m hentry
  next =>
    split at hm
    next hmain =>
      cases hm
      have hmem : m ∈ d.staticMains := hmain ▸ List.mem_singleton.2 rfl
      exact Id.mem_upTo.1 (List.mem_of_mem_filter hmem)
    next => cases hm
    next => cases hm

end Draft.InRange

/-! ## The class hierarchy -/

/-- The class hierarchy answers all questions about classes that exist with things that exist. -/
structure Draft.Answers (d : Draft) : Prop where
  below : ∀ cls ∈ d.classes.toList, ∀ c ∈ d.supertypes cls, c.index < d.below.size
  dispatch : ∀ c, d.Has c → ∀ sig, ∃ found, d.dispatch c sig = .ok found ∧ ∀ m ∈ found, d.Has m
  resolveField : ∀ ref : FieldRef, d.Has ref.cls → ∃ found, d.resolveField ref = .ok found ∧
    ∀ f ∈ found, d.Has f
  subtypes : ∀ c, d.Has c → ∃ cs, d.subtypes c = .ok cs ∧ ∀ b ∈ cs, d.Has b

theorem Draft.InRange.answers {d : Draft} (h : d.InRange) : d.Answers where
  below cls hcls c hc := by
    rw [d.size_below]
    rcases List.mem_append.1 hc with hc | hc
    · exact (h.classes cls hcls).superclass c (Option.mem_toList.1 hc)
    · exact (h.classes cls hcls).interfaces c (List.mem_of_mem_filter hc)
  dispatch c hc sig := h.exists_dispatch hc sig
  resolveField ref href := h.exists_resolveField href
  subtypes c hc := exists_subtypes hc

/-! ## Call graphs -/

/-- The methods and calls of a call graph exist. -/
structure CallGraph.InRange (d : Draft) (g : CallGraph) : Prop where
  methods : ∀ m ∈ g.reachable, d.Has m
  calls : ∀ e ∈ g.edges, d.Has e.site ∧ d.Has e.callee

theorem CallGraph.InRange.exists_lines {d : Draft} {g : CallGraph} (hg : g.InRange d)
    (hd : d.InRange) :
    (∃ lines, g.methodLines d = .ok lines) ∧ ∃ lines, g.edgeLines d = .ok lines := by
  refine ⟨exists_mapM_eq_ok fun m hm => hd.exists_methodName (hg.methods m hm),
    exists_mapM_eq_ok fun e he => ?_⟩
  obtain ⟨hsite, hcallee⟩ := hg.calls e he
  refine exists_bind_eq_ok (hd.exists_stmtLabel hsite) fun label _ => ?_
  exact exists_bind_eq_ok (hd.exists_methodName hcallee) fun name _ => ⟨_, rfl⟩

theorem Draft.Searched.inRange {d : Draft} {entry : MethodId} {g : CallGraph}
    (hg : d.Searched entry [] g) (hd : d.InRange) (hentry : d.Has entry) : g.InRange d where
  methods m hm := hd.has_of_mayReach hentry (hg.led m (.inl hm))
  calls e he := by
    obtain ⟨m, -, hcall⟩ := (hg.edges e).1 he
    exact ⟨hd.has_of_inBody hcall.1, hd.has_of_mayCall hcall⟩

/-! ## States of the solver -/

/-- A pointer is about a variable or a field that exists. Static fields have pointers of their own,
and all others have pointers as fields of objects. -/
def Pointer.InRange (d : Draft) (objects : Nat) : Pointer → Prop
  | .var v => d.Has v
  | .static f => d.Has f ∧ d.isStaticField f = true
  | .field o f => o.index < objects ∧ d.Has f ∧ d.isStaticField f = false

namespace State

variable {κ : Type} [Ord κ] [Std.TransOrd κ]

/-- All that a state is about exists. -/
structure InRange (d : Draft) (st : State κ) : Prop where
  worklist : ∀ e ∈ st.worklist.toList, e.1.index < st.pointers.size ∧
    ∀ o ∈ e.2, o.index < st.heap.size
  flow : ∀ i j, st.flow.hasEdge i j = true → i.index < st.pointers.size ∧ j.index < st.pointers.size
  pts : ∀ i, ∀ o ∈ st.pointers.pts i, o.index < st.heap.size
  pointers : ∀ q ∈ st.pointers.pointers, q.InRange d st.heap.size
  objects : ∀ o obj, st.heap.get o = .ok obj → d.Has obj.site ∧ d.Has obj.type.cls
  calls : st.calls.InRange d
  pending : ∀ m ∈ st.pending, d.Has m

variable {d : Draft} {model : HeapModel κ} {st : State κ}

theorem Supported.inRange (hst : st.Supported d model (Fact.InScope d)) (hd : d.InRange) :
    st.InRange d where
  worklist e he := by
    obtain ⟨a, ha⟩ := hst.waiting e he
    refine ⟨placeOf_lt ha, fun o ho => ?_⟩
    obtain ⟨-, k, -, hk, -⟩ := hst.holds e.1 o (.inr ⟨e.2, he, ho⟩)
    exact Heap.keyOf_isSome_iff.1 ⟨k, hk⟩
  flow i j hij := by
    obtain ⟨a, b, ha, hb, -⟩ := hst.flows i j hij
    exact ⟨placeOf_lt ha, placeOf_lt hb⟩
  pts i o ho := by
    obtain ⟨-, k, -, hk, -⟩ := hst.holds i o (.inl ho)
    exact Heap.keyOf_isSome_iff.1 ⟨k, hk⟩
  pointers q hq := by
    obtain ⟨i, hi⟩ := List.mem_iff_getElem?.1 hq
    rw [st.pointers.getElem?_pointers ⟨i⟩] at hi
    obtain ⟨a, ha, hscope⟩ := hst.known ⟨i⟩ q hi
    cases q with
    | var v =>
      cases ha
      exact hscope
    | static f =>
      cases ha
      exact hscope
    | field o f =>
      obtain ⟨k, hk, rfl⟩ := Option.map_eq_some_iff.1 ha
      exact ⟨Heap.keyOf_isSome_iff.1 ⟨k, hk⟩, hscope⟩
  objects o obj ho := by
    obtain ⟨k, he⟩ := Heap.get_eq_ok_iff.1 ho
    obtain ⟨m, lhs, c, isArray, -, hbody, hstmt, htype, -⟩ := hst.objects o k obj he
    have hc := (hd.within_of_hasStmt hstmt).classes c (List.mem_singleton.2 rfl)
    refine ⟨hd.has_of_inBody hbody, ?_⟩
    rw [htype, ObjType.of]
    cases isArray <;> exact hc
  calls :=
    { methods := fun m hm => hst.reached m (.inl hm)
      calls := fun e he => by
        obtain ⟨c, hc, rfl⟩ := hst.called e he
        exact ⟨hc.has_site, hc.has_callee⟩ }
  pending m hm := hst.reached m (.inr hm)

/-! ## Reports -/

namespace InRange

variable (hst : st.InRange d) (hd : d.InRange)

include hst hd

theorem exists_objLabel {o : ObjId} (ho : o.index < st.heap.size) :
    ∃ label, st.toSolution.objLabel d o = .ok label := by
  obtain ⟨⟨k, obj⟩, he⟩ := Heap.record?_isSome_iff.2 ho
  have hget : st.heap.get o = .ok obj := Heap.get_eq_ok_iff.2 ⟨k, he⟩
  obtain ⟨hsite, hcls⟩ := hst.objects o obj hget
  refine exists_bind_eq_ok ⟨obj, hget⟩ fun obj' hobj' => ?_
  cases hget.symm.trans hobj'
  refine exists_bind_eq_ok (Draft.exists_cls_iff.2 hcls) fun cls _ => ?_
  exact exists_bind_eq_ok (hd.exists_stmtLabel hsite) fun label _ => ⟨_, rfl⟩

theorem exists_pointerLabel {q : Pointer} (hq : q.InRange d st.heap.size) :
    ∃ label, st.toSolution.pointerLabel d q = .ok label := by
  cases q with
  | var v => exact hd.exists_varName hq
  | static f => exact hd.exists_fieldName hq.1
  | field o f =>
    refine exists_bind_eq_ok (hst.exists_objLabel hd hq.1) fun label _ => ?_
    exact exists_bind_eq_ok (hd.exists_fieldName hq.2.1) fun name _ => ⟨_, rfl⟩

theorem exists_pointerLine {entry : Pointer × ObjSet}
    (hentry : entry ∈ st.pointers.entries.toList) :
    ∃ lines, st.toSolution.pointerLine d entry = .ok lines := by
  have hlabel := hst.exists_pointerLabel hd (hst.pointers entry.1 (List.mem_map_of_mem hentry))
  obtain ⟨i, hi⟩ := Catalog.mem_toList_iff.1 hentry
  have hpts : st.pointers.pts ⟨i⟩ = entry.2 := by rw [PointerTable.pts, hi]; rfl
  have hobjs : ∀ o ∈ entry.2.toList, ∃ label, st.toSolution.objLabel d o = .ok label := fun o ho =>
    hst.exists_objLabel hd (hst.pts ⟨i⟩ o (by rw [hpts]; exact Std.ExtTreeSet.mem_toList.1 ho))
  rw [Solution.pointerLine]
  split
  · exact ⟨_, rfl⟩
  · refine exists_bind_eq_ok hlabel fun pointer _ => ?_
    exact exists_bind_eq_ok (exists_mapM_eq_ok hobjs) fun labels _ => ⟨_, rfl⟩

theorem exists_report : ∃ text, st.toSolution.report d = .ok text := by
  obtain ⟨hmethods, hcalls⟩ := hst.calls.exists_lines hd
  refine exists_bind_eq_ok hmethods fun methods _ => exists_bind_eq_ok hcalls fun calls _ => ?_
  exact exists_bind_eq_ok (exists_mapM_eq_ok fun e he => hst.exists_pointerLine hd he)
    fun pointers _ => ⟨_, rfl⟩

end InRange

@[simp] theorem log_addEdge (i j : PointerId) : (st.addEdge i j).log = st.log := by
  rw [addEdge]
  split <;> rfl

/-! ## Runs -/

section Runs

variable [Std.LawfulEqOrd κ] {p : Program} {facts : List (Fact κ)} (hp : p.Proper)

include hp

theorem Run.within_of_mem_log (h : Run model p facts st) :
    ∀ event ∈ st.log.toList, event.Within p.size := by
  have hpush : ∀ {log : Log} {event : Event}, (∀ e ∈ log.toList, e.Within p.size) →
      event.Within p.size →
      ∀ e ∈ (log.push event).toList, e.Within p.size := by
    intro log event hlog hevent e he
    rcases mem_toList_push.1 he with he | rfl
    · exact hlog e he
    · exact hevent
  refine h.invariant (I := fun st => ∀ event ∈ st.log.toList, event.Within p.size) hp
    (fun event hevent => absurd hevent List.not_mem_nil) (fun hmove hlog => ?_) fun htake hlog => ?_
  · cases hmove with
    | note hrecords => exact hpush hlog (hp.inRange.within_of_records hrecords)
    | reach _ _ hmethod => exact hpush hlog (Draft.exists_method_iff.1 ⟨_, hmethod⟩)
    | edge => rwa [log_addEdge]
    | entry | skip | call | alloc | know | push => exact hlog
  · cases htake with
    | idle => exact hlog
    | grow => exact hpush hlog trivial

theorem Run.inRange (h : Run model p facts st) : st.InRange p.toDraft :=
  (h.spec hp).1.supported.inRange hp.inRange

/-- However many pending methods are processed, the state stays in range. -/
def StaysInRange (model : HeapModel κ) (p : Program) (st : State κ) : Prop :=
  ∀ n, ∃ st', settleWithin model p n st = .ok st' ∧ st'.InRange p.toDraft

omit hp in
theorem Supported.staysInRange (hp : p.InRange)
    (hst : st.Supported p.toDraft model (Fact.InScope p.toDraft)) : st.StaysInRange model p := by
  intro n
  have hnone : ∀ f : Fact κ, False → f.InScope p.toDraft := fun f hf => hf.elim
  obtain ⟨st', hok, hmoves, -⟩ := settleWithin_spec hp hnone n hst
  exact ⟨st', hok, (hst.moves hp.closed_inScope hnone hmoves).inRange hp⟩

/-- Whatever the solver can be asked next in a state, it finds all that it looks up. -/
structure Safe (model : HeapModel κ) (p : Program) (st : State κ) : Prop where
  inRange : st.InRange p.toDraft
  report : ∃ text, st.toSolution.report p.toDraft = .ok text
  messages : ∀ event ∈ st.log.toList, ∃ text, event.message p.toDraft = .ok text
  start : ∀ m, p.Has m → ∃ st', State.start model p m st = .ok st'
  addFlow : ∀ i j : PointerId, i.index < st.pointers.size → j.index < st.pointers.size →
    ∃ st', State.addFlow i j st = .ok st'
  step : ∃ next, State.step model p st = .ok next
  drain : ∀ n, ∃ st', drainWithin model p n st = .ok st' ∧ st'.InRange p.toDraft
  /-- pending methods are processed only from states in which that stays in range -/
  pending : ∀ loop, (∀ st, st.StaysInRange model p → loop st = settle model p st) →
    stepBy model p loop st = State.step model p st ∧ ∀ m, p.Has m →
    startBy loop m st = State.start model p m st

theorem Run.safe (h : Run model p facts st) : st.Safe model p where
  inRange := h.inRange hp
  report := (h.inRange hp).exists_report hp.inRange
  messages event hevent := hp.inRange.exists_message (h.within_of_mem_log hp event hevent)
  start m hm := by
    obtain ⟨st', hok, -⟩ := h.exists_start hp hm
    exact ⟨st', hok⟩
  addFlow i j hi hj := by
    obtain ⟨-, -, st', -, -, hok, -⟩ := h.exists_addFlow hp hi hj
    exact ⟨st', hok⟩
  step := by
    rcases h.exists_step hp with ⟨-, hok⟩ | ⟨st', hok, -⟩
    · exact ⟨_, hok⟩
    · exact ⟨_, hok⟩
  drain n := by
    obtain ⟨st', hok, hrun, -⟩ := h.drainWithin hp n
    exact ⟨st', hok, hrun.inRange hp⟩
  pending loop hloop := h.stepBy_eq hp fun st hst => hloop st (hst.staysInRange hp.inRange)

end Runs

end State

/-! ## Tasks of the command line -/

namespace CommandLine

variable {p : Program} {requested : Option String} {entry : MethodId}

theorem exists_logText (hp : p.InRange) {log : Log}
    (hlog : ∀ event ∈ log.toList, event.Within p.size) (level : Level) :
    ∃ text, logText p level log = .ok text := by
  refine exists_bind_eq_ok (exists_mapM_eq_ok fun event hevent => ?_) fun lines _ => ⟨_, rfl⟩
  have hmessage := hp.exists_message (hlog event (List.mem_of_mem_filter hevent))
  exact exists_bind_eq_ok hmessage fun text _ => ⟨_, rfl⟩

theorem exists_mapError_eq_ok {ε ε' α : Type} {f : ε → ε'} {x : Except ε α} (h : ∃ a, x = .ok a) :
    ∃ a, x.mapError f = .ok a :=
  h.imp fun _ ha => Draft.mapError_eq_ok_iff.2 ha

theorem Task.exists_perform_pointsTo (hp : p.Proper) (hentry : p.chooseEntry requested = .ok entry)
    (dump : Option String) (level : Level) :
    ∃ done, (Task.pointsTo requested dump).perform p level = .ok done := by
  have hhas := hp.inRange.has_of_chooseEntry hentry
  obtain ⟨st, hsolve, hrun, -⟩ := State.Run.exists_finish .bySite hp hhas
  have hanalyze : p.analyze requested =
      .ok (st.toSolution, #[.started entry] ++ st.log.push st.summary) := by
    rw [Program.analyze, hentry]
    simp only [Except.mapError, bind, Except.bind, hsolve]
    rfl
  have hlog : ∀ event ∈ (#[.started entry] ++ st.log.push st.summary : Log).toList,
      event.Within p.size := by
    intro event hevent
    rw [Array.toList_append, List.mem_append, mem_toList_push] at hevent
    rcases hevent with hevent | hevent | rfl
    · rw [List.mem_singleton.1 hevent]
      exact hhas
    · exact hrun.within_of_mem_log hp event hevent
    · trivial
  refine exists_bind_eq_ok ⟨_, hanalyze⟩ fun result hresult => ?_
  cases hanalyze.symm.trans hresult
  refine exists_bind_eq_ok (exists_mapError_eq_ok (exists_logText hp.inRange hlog level))
    fun text _ => ?_
  cases dump with
  | none => exact ⟨_, rfl⟩
  | some path =>
    have hreport := (hrun.inRange hp).exists_report hp.inRange
    exact exists_bind_eq_ok (exists_mapError_eq_ok hreport) fun report _ => ⟨_, rfl⟩

theorem Task.exists_perform_hierarchy (hp : p.Proper) (hentry : p.chooseEntry requested = .ok entry)
    (level : Level) : ∃ done, (Task.hierarchy requested).perform p level = .ok done := by
  have hhas := hp.inRange.has_of_chooseEntry hentry
  obtain ⟨g, log, hsearch, hg, hlog⟩ := Draft.exists_hierarchyCalls hp.built.filed hp.inRange hhas
  have hanalyze : p.analyzeHierarchy requested = .ok (g, log) := by
    rw [Program.analyzeHierarchy, hentry]
    simp only [Except.mapError, bind, Except.bind, hsearch]
  obtain ⟨hmethods, hedges⟩ := (hg.inRange hp.inRange hhas).exists_lines hp.inRange
  refine exists_bind_eq_ok ⟨_, hanalyze⟩ fun result hresult => ?_
  cases hanalyze.symm.trans hresult
  refine exists_bind_eq_ok (exists_mapError_eq_ok hmethods) fun methods _ => ?_
  refine exists_bind_eq_ok (exists_mapError_eq_ok hedges) fun edges _ => ?_
  exact exists_bind_eq_ok (exists_mapError_eq_ok (exists_logText hp.inRange hlog level))
    fun text _ => ⟨_, rfl⟩

end CommandLine

/-- In a program that was read from a text, every look-up succeeds that the analyses from a chosen
entry make: those in the class hierarchy, those of the search for its call graph, and those of the
solver, in every state that it comes to. So the tasks of the command line do not fail. -/
theorem Program.every_lookup_succeeds {κ : Type} [Ord κ] [Std.TransOrd κ] [Std.LawfulEqOrd κ]
    (model : HeapModel κ) {text : String} {p : Program} {requested : Option String}
    {entry : MethodId} (htext : Program.ofText text = .ok p)
    (hentry : p.chooseEntry requested = .ok entry) :
    p.InRange ∧ p.Has entry ∧ p.Answers ∧
    (∃ g log, p.hierarchyCalls entry = .ok (g, log) ∧ g.InRange p.toDraft) ∧
    (∃ r log, p.solve model entry = .ok (r, log)) ∧
    (∀ facts st, State.Run model p facts st → st.Safe model p) ∧
    ∀ level dump, (∃ done, (CommandLine.Task.pointsTo requested dump).perform p level = .ok done) ∧
      ∃ done, (CommandLine.Task.hierarchy requested).perform p level = .ok done := by
  have hp := Program.Proper.of_ofText htext
  have hhas := hp.inRange.has_of_chooseEntry hentry
  obtain ⟨g, log, hsearch, hg, -⟩ := Draft.exists_hierarchyCalls hp.built.filed hp.inRange hhas
  obtain ⟨st, hsolve, -, -⟩ := State.Run.exists_finish model hp hhas
  exact ⟨hp.inRange, hhas, hp.inRange.answers, ⟨g, log, hsearch, hg.inRange hp.inRange hhas⟩,
    ⟨_, _, hsolve⟩, fun facts st hrun => hrun.safe hp, fun level dump =>
      ⟨CommandLine.Task.exists_perform_pointsTo hp hentry dump level,
        CommandLine.Task.exists_perform_hierarchy hp hentry level⟩⟩

/-- A static field, and a call that means nothing. -/
def sampleStatics : String :=
  "class A { static field f; static method main() { x = new A; A::f = x; invokestatic A::g(); } }"

theorem sampleStatics_entry :
    ∃ p, Program.ofText sampleStatics = .ok p ∧ p.chooseEntry (some "A::main") = .ok ⟨0⟩ :=
  Program.exists_ofText (by decide +kernel)

theorem Program.sample_every_lookup_succeeds :
    ∃ p st, Program.ofText sampleStatics = .ok p ∧ p.chooseEntry (some "A::main") = .ok ⟨0⟩ ∧
      p.InRange ∧ p.Answers ∧
      State.Run .bySite p [.reached ⟨0⟩] st ∧ st.Safe .bySite p ∧
      ∃ done, (CommandLine.Task.pointsTo (some "A::main") (some "dump")).perform p .trace =
        .ok done := by
  obtain ⟨p, htext, hentry⟩ := sampleStatics_entry
  obtain ⟨hrange, hhas, hanswers, -, -, hsafe, hperform⟩ :=
    every_lookup_succeeds .bySite htext hentry
  have hempty : State.Run .bySite p [] {} := .empty
  obtain ⟨st, -, hrun⟩ := hempty.exists_start (.of_ofText htext) hhas
  exact ⟨p, st, htext, hentry, hrange, hanswers, hrun, hsafe _ st hrun,
    (hperform .trace (some "dump")).1⟩

end PointsTo
