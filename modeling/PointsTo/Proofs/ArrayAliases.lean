import PointsTo.Proofs.Execution

/-!
# Arrays and their aliases

An array does not have its elements to itself: what is stored in it goes to the variable through
which it is stored, and what is loaded comes from the variable through which it is loaded. Two
variables may share an array, and still a load through the one does not see a store through the
other (`Program.aliased_array_store_missed`). It does if the objects of the first flow on into the
second (`Program.array_stores_seen_downstream`).

More precisely, what is at a place are the objects that start there, by an allocation or as the
receiver of a call (`Starts`), and those that start at a place from which edges lead to it (`Leads`,
`Derives.exists_start`).
-/

namespace PointsTo

/-! ## Paths of edges -/

/-- Edges lead from one place to another. -/
def Leads {κ : Type} (S : Fact κ → Prop) : Place κ → Place κ → Prop :=
  Relation.ReflTransGen fun a b => S (.flows a b)

/-- An object comes to a place by another rule than along an edge: it is allocated there, or is the
receiver of a call. -/
def Starts {κ : Type} (d : Draft) (model : HeapModel κ) (S : Fact κ → Prop) (a : Place κ) (k : κ) :
    Prop :=
  ∃ g, S g ∧ Rule d model [g] (.holds a k)

section Paths

variable {κ : Type} {d : Draft} {model : HeapModel κ} {S : Fact κ → Prop} {a b : Place κ} {k : κ}

/-- What is at a place is also where edges lead to from there. -/
theorem Closed.leads (h : Closed d model S) (hpath : Leads S a b) (ha : S (.holds a k)) :
    S (.holds b k) := by
  induction hpath with
  | refl => exact ha
  | tail _ hflow ih => exact h.flow hflow ih

/-- Where nothing is given about objects, each object at a place has come there from where it
started. -/
theorem Derives.exists_start {given : Fact κ → Prop} (hgiven : ∀ a k, ¬ given (.holds a k))
    (h : Derives d model given (.holds b k)) :
    ∃ a, Starts d model (Derives d model given) a k ∧ Leads (Derives d model given) a b := by
  generalize hf : Fact.holds b k = f at h
  induction h generalizing b with
  | given hg => exact absurd (hf ▸ hg) (hgiven b k)
  | rule hrule hpremises ih =>
    subst hf
    cases hrule with
    | new hs hstmt hk => exact ⟨_, ⟨_, hpremises _ (.head _), .new hs hstmt hk⟩, .refl⟩
    | receive hstmt hreceiver htype hcallee hmethod hthis =>
      exact ⟨_, ⟨_, hpremises _ (.head _), .receive hstmt hreceiver htype hcallee hmethod hthis⟩,
        .refl⟩
    | @flow a' =>
      -- the object was at the source of the last edge before
      obtain ⟨a, hstart, hpath⟩ := ih (.holds a' k) (.tail _ (.head _)) rfl
      exact ⟨a, hstart, hpath.tail (hpremises _ (.head _))⟩

end Paths

/-! ## What pointers point to -/

namespace Solution

variable {κ : Type} [Ord κ] [Std.TransOrd κ] {r : Solution κ}

theorem mayPointTo_iff {q : Pointer} {k : κ} :
    r.MayPointTo q k ↔ ∃ objs ∈ r.pointsTo? q, ∃ o ∈ r.heap.find? k, o ∈ objs := by
  constructor
  · rintro ⟨objs, o, hobjs, ho, hmem⟩
    exact ⟨objs, hobjs, o, ho, hmem⟩
  · rintro ⟨objs, hobjs, o, ho, hmem⟩
    exact ⟨objs, o, hobjs, ho, hmem⟩

instance (q : Pointer) (k : κ) : Decidable (r.MayPointTo q k) := decidable_of_iff' _ mayPointTo_iff

theorem mayPointTo_iff_shows {q : Pointer} {a : Place κ} {k : κ} (hq : r.heap.place q = some a) :
    r.MayPointTo q k ↔ r.Shows (.holds a k) := by
  refine ⟨?_, mayPointTo_of_shows hq⟩
  rintro ⟨objs, o, hobjs, ho, hmem⟩
  obtain ⟨i, hi, rfl⟩ := Option.map_eq_some_iff.1 hobjs
  refine ⟨i, o, ?_, hmem, Heap.find?_eq_some_iff.1 ho⟩
  rw [placeOf, PointerTable.find?_eq_some_iff.1 hi, Option.bind_some, hq]

end Solution

/-! ## Array accesses -/

/-- A store to an array puts its objects into the variable of the array, and a load takes them from
there. So a load sees what was stored through another variable of the same array if edges lead from
that variable to its own. In any case it sees what starts at a place from which edges lead to the
result of the load. -/
theorem Program.array_stores_seen_downstream {text : String} {p : Program} {entry : MethodId}
    (htext : Program.ofText text = .ok p) (hentry : p.Has entry) :
    ∃ r log, p.solve .bySite entry = .ok (r, log) ∧
      ∀ s s' x y z w k, p.HasStmt s (.storeArray x y) → p.HasStmt s' (.loadArray z w) →
        r.MayPointTo (.var x) k → r.MayPointTo (.var w) k →
        (∀ k', r.MayPointTo (.var y) k' → r.MayPointTo (.var x) k') ∧
        (∀ k', r.MayPointTo (.var w) k' → r.MayPointTo (.var z) k') ∧
        (Leads r.Shows (.var x) (.var w) → ∀ k', r.MayPointTo (.var y) k' →
          r.MayPointTo (.var z) k') ∧
        ∀ k', r.MayPointTo (.var z) k' ↔ ∃ a, Starts p.toDraft .bySite r.Shows a k' ∧
          Leads r.Shows a (.var z) := by
  have hp := Program.Proper.of_ofText htext
  have hmodel := HeapModel.bySite_consistent p.toDraft
  obtain ⟨st, log, hsolve, hrun, hdone⟩ := State.Run.solve .bySite hp hentry
  have hclosed : Closed p.toDraft .bySite st.Shows :=
    (hrun.spec hp).1.closed hp.inRange hmodel hdone
  have hderives : st.Shows = Derives p.toDraft .bySite (· ∈ [.reached entry]) :=
    funext fun f => propext (hrun.shows_iff_derives hp hmodel hdone)
  refine ⟨st.toSolution, log, hsolve, fun s s' x y z w k hstore hload hx hw => ?_⟩
  have hvar : ∀ v k, st.toSolution.MayPointTo (.var v) k ↔ st.Shows (.holds (.var v) k) :=
    fun v k => Solution.mayPointTo_iff_shows rfl
  simp only [hvar] at hx hw ⊢
  have hin : st.Shows (.flows (.var y) (.var x)) := hclosed.one (.storeArray hstore) hx
  have hout : st.Shows (.flows (.var w) (.var z)) := hclosed.one (.loadArray hload) hw
  refine ⟨fun k' => hclosed.flow hin, fun k' => hclosed.flow hout, fun hpath k' hy => ?_,
    fun k' => ⟨fun hz => ?_, ?_⟩⟩
  · exact hclosed.flow hout (hclosed.leads hpath (hclosed.flow hin hy))
  · rw [hderives] at hz ⊢
    exact hz.exists_start fun a k => by simp
  · rintro ⟨a, ⟨g, hg, hrule⟩, hpath⟩
    exact hclosed.leads hpath (hclosed.one hrule hg)

/-- An array with three variables. An object is stored through the second one, which is then copied
to the third. -/
def sampleAliases : String :=
  "class A { static method m() { a = new A[]; x = a; y = new A; x[0] = y; b = x; z = b[0]; w = a[0]; } }"

/-- A load through the third variable sees what was stored. -/
theorem Program.sample_array_stores_seen_downstream :
    ∃ p r log, Program.ofText sampleAliases = .ok p ∧ p.solve .bySite ⟨0⟩ = .ok (r, log) ∧
      p.HasStmt ⟨3⟩ (.storeArray ⟨1⟩ ⟨2⟩) ∧ p.HasStmt ⟨5⟩ (.loadArray ⟨4⟩ ⟨3⟩) ∧
        r.MayPointTo (.var ⟨1⟩) ⟨0⟩ ∧
      r.MayPointTo (.var ⟨3⟩) ⟨0⟩ ∧ r.MayPointTo (.var ⟨2⟩) ⟨2⟩ ∧ r.MayPointTo (.var ⟨4⟩) ⟨2⟩ := by
  obtain ⟨p, htext, hentry, hstore, hload, ⟨r, log⟩, hsolve, hx, hb, hy, i, hi, j, hj, hedge⟩ :
      ∃ p, Program.ofText sampleAliases = .ok p ∧ p.Has (⟨0⟩ : MethodId) ∧
      p.HasStmt ⟨3⟩ (.storeArray ⟨1⟩ ⟨2⟩) ∧
        p.HasStmt ⟨5⟩ (.loadArray ⟨4⟩ ⟨3⟩) ∧ ∃ x ∈ (p.solve .bySite ⟨0⟩).toOption,
          x.1.MayPointTo (.var ⟨1⟩) ⟨0⟩ ∧ x.1.MayPointTo (.var ⟨3⟩) ⟨0⟩ ∧
          x.1.MayPointTo (.var ⟨2⟩) ⟨2⟩ ∧
          ∃ i ∈ x.1.pointers.find? (.var ⟨1⟩), ∃ j ∈ x.1.pointers.find? (.var ⟨3⟩),
          x.1.flow.hasEdge i j = true :=
    Program.exists_ofText (by decide +kernel)
  have hsolve := toOption_eq_some_iff.1 hsolve
  obtain ⟨r', log', hsolve', hseen⟩ := Program.array_stores_seen_downstream htext hentry
  cases hsolve.symm.trans hsolve'
  obtain ⟨-, -, hdown, -⟩ := hseen ⟨3⟩ ⟨5⟩ ⟨1⟩ ⟨2⟩ ⟨4⟩ ⟨3⟩ ⟨0⟩ hstore hload hx hb
  have hflows : r.Shows (.flows (.var ⟨1⟩) (.var ⟨3⟩)) := by
    refine ⟨i, j, ?_, ?_, hedge⟩
    · rw [Solution.placeOf, PointerTable.find?_eq_some_iff.1 hi]
      rfl
    · rw [Solution.placeOf, PointerTable.find?_eq_some_iff.1 hj]
      rfl
  exact ⟨p, r, log, htext, hsolve, hstore, hload, hx, hb, hy, hdown (.single hflows) ⟨2⟩ hy⟩

/-- A load through the first variable does not see it, although it has the array as well. -/
theorem Program.aliased_array_store_missed :
    ∃ p r log, Program.ofText sampleAliases = .ok p ∧ p.solve .bySite ⟨0⟩ = .ok (r, log) ∧
      ⟨0⟩ ∈ r.calls.reachable ∧
      p.InBody ⟨0⟩ ⟨3⟩ ∧ p.HasStmt ⟨3⟩ (.storeArray ⟨1⟩ ⟨2⟩) ∧ p.InBody ⟨0⟩ ⟨6⟩ ∧
        p.HasStmt ⟨6⟩ (.loadArray ⟨5⟩ ⟨0⟩) ∧
      p.HasStmt ⟨0⟩ (.new ⟨0⟩ ⟨0⟩ true) ∧ r.MayPointTo (.var ⟨1⟩) ⟨0⟩ ∧
        r.MayPointTo (.var ⟨0⟩) ⟨0⟩ ∧
      r.MayPointTo (.var ⟨2⟩) ⟨2⟩ ∧ ¬ r.MayPointTo (.var ⟨5⟩) ⟨2⟩ := by
  obtain ⟨p, htext, ⟨hstoreIn, hstore⟩, ⟨hloadIn, hload⟩, hnew, ⟨r, log⟩, hsolve, hreached,
      hx, ha, hy, hw⟩ :
      ∃ p, Program.ofText sampleAliases = .ok p ∧
        (p.InBody ⟨0⟩ ⟨3⟩ ∧ p.HasStmt ⟨3⟩ (.storeArray ⟨1⟩ ⟨2⟩)) ∧
        (p.InBody ⟨0⟩ ⟨6⟩ ∧ p.HasStmt ⟨6⟩ (.loadArray ⟨5⟩ ⟨0⟩)) ∧
        p.HasStmt ⟨0⟩ (.new ⟨0⟩ ⟨0⟩ true) ∧
        ∃ x ∈ (p.solve .bySite ⟨0⟩).toOption, ⟨0⟩ ∈ x.1.calls.reachable ∧
        x.1.MayPointTo (.var ⟨1⟩) ⟨0⟩ ∧
          x.1.MayPointTo (.var ⟨0⟩) ⟨0⟩ ∧ x.1.MayPointTo (.var ⟨2⟩) ⟨2⟩ ∧
          ¬ x.1.MayPointTo (.var ⟨5⟩) ⟨2⟩ :=
    Program.exists_ofText (by decide +kernel)
  have hsolve := toOption_eq_some_iff.1 hsolve
  exact ⟨p, r, log, htext, hsolve, hreached, hstoreIn, hstore, hloadIn, hload, hnew, hx, ha, hy, hw⟩

end PointsTo
