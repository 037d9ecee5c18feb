import PointsTo.Proofs.Execution

/-!
# Facts carried from one analysis to another

A map of statements and a map of keys carry the facts of one analysis over to those of another. If
every rule instance of the first is one of the second after the maps (`Transfers`), then so is every
derivable fact, and with it all that the first analysis shows. Two cases are of interest: a program
with more statements, or with the same ones in another order (`Draft.Embeds`,
`Program.shows_of_embeds`); and the same program with a heap model that takes more allocations for
one (`Program.coarser_heap_covers`).
-/

namespace PointsTo

variable {κ κ' : Type}

/-! ## Maps of facts -/

def Place.map (g : κ → κ') : Place κ → Place κ'
  | .var v => .var v
  | .static f => .static f
  | .field k f => .field (g k) f

def CallEdge.map (φ : StmtId → StmtId) (e : CallEdge) : CallEdge := { e with site := φ e.site }

/-- The fact with its statements and keys replaced. -/
def Fact.map (φ : StmtId → StmtId) (g : κ → κ') : Fact κ → Fact κ'
  | .reached m => .reached m
  | .called e => .called (e.map φ)
  | .known a => .known (a.map g)
  | .flows a b => .flows (a.map g) (b.map g)
  | .holds a k => .holds (a.map g) (g k)

/-- The statements that a place names, where keys are statements. -/
def Place.sites : Place StmtId → List StmtId
  | .field s _ => [s]
  | .var _ | .static _ => []

/-- The statements that a fact names, where keys are statements. -/
def Fact.sites : Fact StmtId → List StmtId
  | .reached _ => []
  | .called e => [e.site]
  | .known a => a.sites
  | .flows a b => a.sites ++ b.sites
  | .holds a s => s :: a.sites

section Sites

variable {φ ψ : StmtId → StmtId}

theorem Place.map_map_eq_self {a : Place StmtId} (h : ∀ s ∈ a.sites, φ (ψ s) = s) :
    (a.map ψ).map φ = a := by
  cases a with
  | field s f => simp [Place.map, h s (List.mem_singleton.2 rfl)]
  | var | static => rfl

theorem Fact.map_map_eq_self {f : Fact StmtId} (h : ∀ s ∈ f.sites, φ (ψ s) = s) :
    (f.map ψ ψ).map φ φ = f := by
  cases f with
  | reached m => rfl
  | called e => simp [Fact.map, CallEdge.map, h e.site (List.mem_singleton.2 rfl)]
  | known a => exact congrArg Fact.known (Place.map_map_eq_self h)
  | flows a b =>
    have ha := Place.map_map_eq_self fun s hs => h s (List.mem_append_left _ hs)
    have hb := Place.map_map_eq_self fun s hs => h s (List.mem_append_right _ hs)
    exact congrArg₂ Fact.flows ha hb
  | holds a s =>
    have ha := Place.map_map_eq_self fun s hs => h s (List.mem_cons_of_mem _ hs)
    exact congrArg₂ Fact.holds ha (h s List.mem_cons_self)

/-- With one object for each allocation statement, derivable facts name statements of the program
only. -/
theorem closed_sites (d : Draft) : Closed d .bySite fun f => ∀ s ∈ f.sites, d.Has s := by
  intro premises f hrule hpremises
  have hstmt : ∀ {s stmt}, d.HasStmt s stmt → d.Has s :=
    fun ⟨x, hx, _⟩ => Draft.exists_placed_iff.1 ⟨x, hx⟩
  cases hrule with
  | new _ hs hk =>
    cases hk
    simpa [Fact.sites, Place.sites] using hstmt hs
  | enter _ hs => simpa [Fact.sites] using hstmt hs
  | dispatch hs => simpa [Fact.sites] using hstmt hs
  | store | load | receive | flow | source | target | holder => simp_all [Fact.sites, Place.sites]
  | copy | loadStatic | storeStatic | storeArray | loadArray | reach | pass | ret | result =>
    simp [Fact.sites, Place.sites]

end Sites

/-- What the rules of one program and heap model ask of its statements and methods holds of those of
another, too. -/
structure Transfers (φ : StmtId → StmtId) (g : κ → κ') (d : Draft) (model : HeapModel κ)
    (d' : Draft) (model' : HeapModel κ') : Prop where
  inBody : ∀ {m s}, d.InBody m s → d'.InBody m (φ s)
  hasStmt : ∀ {s stmt}, d.HasStmt s stmt → d'.HasStmt (φ s) stmt
  accesses : ∀ {ref f isStatic}, d.Accesses ref f isStatic → d'.Accesses ref f isStatic
  callee : ∀ {receiver call m}, d.callee receiver call = .ok (some m) →
    d'.callee receiver call = .ok (some m)
  method : ∀ {m x}, d.method m = .ok x →
    ∃ x', d'.method m = .ok x' ∧ x'.this = x.this ∧ x'.params = x.params ∧
    ∀ v ∈ x.returns, v ∈ x'.returns
  key? : ∀ {s type k}, d.Allocates s type → model.key? s type = some k →
    model'.key? (φ s) type = some (g k)

namespace Transfers

variable {φ : StmtId → StmtId} {g : κ → κ'} {d d' : Draft} {model : HeapModel κ}
  {model' : HeapModel κ'} (h : Transfers φ g d model d' model')

include h

theorem hasType {k : κ} {type : ObjType} (htype : model.HasType d k type) :
    model'.HasType d' (g k) type := by
  obtain ⟨s, hs, hk⟩ := htype
  have hkey := h.key? hs hk
  obtain ⟨lhs, c, isArray, hstmt, htype⟩ := hs
  exact ⟨φ s, ⟨lhs, c, isArray, h.hasStmt hstmt, htype⟩, hkey⟩

/-- The image of a rule instance is a rule instance. -/
theorem rule {premises : List (Fact κ)} {f : Fact κ} (hrule : Rule d model premises f) :
    Rule d' model' (premises.map (Fact.map φ g)) (f.map φ g) := by
  cases hrule with
  | new hm hs hk => exact .new (h.inBody hm) (h.hasStmt hs) (h.key? ⟨_, _, _, hs, rfl⟩ hk)
  | copy hm hs => exact .copy (h.inBody hm) (h.hasStmt hs)
  | loadStatic hm hs hf => exact .loadStatic (h.inBody hm) (h.hasStmt hs) (h.accesses hf)
  | storeStatic hm hs hf => exact .storeStatic (h.inBody hm) (h.hasStmt hs) (h.accesses hf)
  | enter hm hs hstatic hcallee =>
    exact .enter (h.inBody hm) (h.hasStmt hs) hstatic (h.callee hcallee)
  | store hs hf => exact .store (h.hasStmt hs) (h.accesses hf)
  | load hs hf => exact .load (h.hasStmt hs) (h.accesses hf)
  | storeArray hs => exact .storeArray (h.hasStmt hs)
  | loadArray hs => exact .loadArray (h.hasStmt hs)
  | dispatch hs hv htype hcallee =>
    exact .dispatch (h.hasStmt hs) hv (h.hasType htype) (h.callee hcallee)
  | receive hs hv htype hcallee hmethod hthis =>
    obtain ⟨x', hx', hthis', -, -⟩ := h.method hmethod
    exact .receive (h.hasStmt hs) hv (h.hasType htype) (h.callee hcallee) hx' (hthis'.trans hthis)
  | @reach e => exact .reach (e := e.map φ)
  | @pass e call method arg param hs hmethod hmem =>
    obtain ⟨x', hx', -, hparams, -⟩ := h.method hmethod
    exact .pass (e := e.map φ) (h.hasStmt hs) hx' (hparams ▸ hmem)
  | @ret e call method v lhs hs hmethod hv hlhs =>
    obtain ⟨x', hx', -, -, hreturns⟩ := h.method hmethod
    exact .ret (e := e.map φ) (h.hasStmt hs) hx' (hreturns v hv) hlhs
  | @result e call lhs hs hlhs => exact .result (e := e.map φ) (h.hasStmt hs) hlhs
  | flow => exact .flow
  | source => exact .source
  | target => exact .target
  | holder => exact .holder

/-- What is derivable stays so after the maps. -/
theorem derives {given : Fact κ → Prop} {given' : Fact κ' → Prop}
    (hgiven : ∀ f, given f → given' (f.map φ g)) {f : Fact κ} (hf : Derives d model given f) :
    Derives d' model' given' (f.map φ g) := by
  refine hf.least (S := fun f => Derives d' model' given' (f.map φ g)) ?_
    fun f hf => .given (hgiven f hf)
  intro premises f hrule hpremises
  refine .rule (h.rule hrule) fun f' hf' => ?_
  obtain ⟨f, hf, rfl⟩ := List.mem_map.1 hf'
  exact hpremises f hf

end Transfers

/-! ## Solutions -/

/-- The analysis of a proper program from one of its methods shows what is derivable from the
method. -/
theorem Program.Proper.exists_solve {κ : Type} [Ord κ] [Std.TransOrd κ] [Std.LawfulEqOrd κ]
    {p : Program} (hp : p.Proper) {model : HeapModel κ} (hmodel : model.Consistent p.toDraft)
    {entry : MethodId} (hentry : p.Has entry) :
    ∃ st log, p.solve model entry = .ok (st.toSolution, log) ∧
      State.Run model p [.reached entry] st ∧
      ∀ f, st.Shows f ↔ Derives p.toDraft model (· = .reached entry) f := by
  obtain ⟨st, log, hsolve, hrun, hdone⟩ := State.Run.solve model hp hentry
  refine ⟨st, log, hsolve, hrun, fun f => ?_⟩
  rw [hrun.shows_iff_derives hp hmodel hdone]
  simp only [List.mem_singleton]

/-! ## More statements, or the same ones in another order -/

/-- A method without what its statements add to it. -/
def Method.head (x : Method) : Method := { x with returns := [], stmts := #[], vars := #[] }

/-- Classes, fields and the heads of methods are the same, and `φ` finds every statement of the
first draft in the same method of the second one. -/
structure Draft.Embeds (φ : StmtId → StmtId) (d d' : Draft) : Prop where
  classes : d'.classes = d.classes
  fields : d'.fields = d.fields
  heads : d'.methods.map Method.head = d.methods.map Method.head
  stmts : ∀ s x, d.placed s = .ok x → ∃ x', d'.placed (φ s) = .ok x' ∧ x'.stmt = x.stmt ∧
    x'.method = x.method

namespace Draft.Embeds

instance (φ : StmtId → StmtId) (d d' : Draft) : Decidable (d.Embeds φ d') :=
  decidable_of_iff
    (d'.classes = d.classes ∧ d'.fields = d.fields ∧
      d'.methods.map Method.head = d.methods.map Method.head ∧
      ∀ s ∈ Id.upTo .stmt d.stmts.size, ∀ x ∈ (d.placed s).toOption,
      ∃ x' ∈ (d'.placed (φ s)).toOption,
        x'.stmt = x.stmt ∧ x'.method = x.method) <| by
    simp only [Option.mem_def, toOption_eq_some_iff]
    refine ⟨fun ⟨hclasses, hfields, hheads, hstmts⟩ => ⟨hclasses, hfields, hheads,
      fun s x hx => ?_⟩, fun h => ⟨h.classes, h.fields, h.heads, fun s _ x hx => h.stmts s x hx⟩⟩
    exact hstmts s (Id.mem_upTo.2 (exists_placed_iff.1 ⟨x, hx⟩)) x hx

variable {φ : StmtId → StmtId} {d d' : Draft} (h : d.Embeds φ d')

include h

theorem head_eq (m : MethodId) :
    d'.methods[m.index]?.map Method.head = d.methods[m.index]?.map Method.head := by
  rw [← Array.getElem?_map, ← Array.getElem?_map, h.heads]

theorem exists_head {m : MethodId} {x : Method} (hx : d.method m = .ok x) :
    ∃ x', d'.method m = .ok x' ∧ x'.head = x.head := by
  have hhead := h.head_eq m
  rw [fetch_eq_ok_iff.1 hx, Option.map_some, Option.map_eq_some_iff] at hhead
  obtain ⟨x', hx', hhead⟩ := hhead
  exact ⟨x', fetch_eq_ok_iff.2 hx', hhead⟩

theorem has_method {m : MethodId} (hm : d.Has m) : d'.Has m := by
  obtain ⟨x, hx⟩ := exists_method_iff.2 hm
  obtain ⟨x', hx', -⟩ := h.exists_head hx
  exact exists_method_iff.1 ⟨x', hx'⟩

theorem isStaticMethod_eq : d'.isStaticMethod = d.isStaticMethod := by
  funext m
  have hhead := congrArg (Option.any (·.isStatic)) (h.head_eq m)
  rwa [Option.any_map, Option.any_map] at hhead

theorem isAbstractMethod_eq : d'.isAbstractMethod = d.isAbstractMethod := by
  funext m
  have hhead := congrArg (Option.any (·.isAbstract)) (h.head_eq m)
  rwa [Option.any_map, Option.any_map] at hhead

theorem firstFrom_eq {α : Type} (ask : Class → Option α) (n : Nat) (c : Option ClassId) :
    d'.firstFrom ask n c = d.firstFrom ask n c := by
  induction n generalizing c with
  | zero => cases c <;> rfl
  | succ n ih =>
    cases c with
    | none => rfl
    | some c => simp only [firstFrom, cls, h.classes, ih]

theorem resolveField_eq (ref : FieldRef) : d'.resolveField ref = d.resolveField ref := by
  have hask : d'.declaredField? ref.name = d.declaredField? ref.name := by
    funext cls
    simp only [declaredField?, h.fields]
  rw [resolveField, resolveField, firstOnChain, firstOnChain, h.firstFrom_eq, hask, h.classes]

theorem callee_eq (receiver : Option ClassId) (call : Invoke) :
    d'.callee receiver call = d.callee receiver call := by
  have hask : d'.concreteMethod? call.target.sig = d.concreteMethod? call.target.sig := by
    funext cls
    simp only [concreteMethod?, h.isAbstractMethod_eq]
  simp only [callee, dispatch, firstOnChain, h.firstFrom_eq, hask, h.classes, h.isStaticMethod_eq]

theorem hasStmt {s : StmtId} {stmt : Stmt} (hs : d.HasStmt s stmt) : d'.HasStmt (φ s) stmt := by
  obtain ⟨x, hx, rfl⟩ := hs
  obtain ⟨x', hx', hstmt, -⟩ := h.stmts s x hx
  exact ⟨x', hx', hstmt⟩

theorem inBody (hd : d.InRange) (hfiled : d.Filed) (hfiled' : d'.Filed) {m : MethodId} {s : StmtId}
    (hs : d.InBody m s) : d'.InBody m (φ s) := by
  obtain ⟨x, hx⟩ := exists_placed_iff.2 (hd.has_of_inBody hs)
  obtain ⟨x', hx', -, hmethod⟩ := h.stmts s x hx
  rw [← hfiled.method_of_inBody hs hx, ← hmethod]
  exact hfiled'.inBody hx'

/-- A program may do what it does after more statements were put into it. -/
theorem transfers (hd : d.InRange) (hfiled : d.Filed) (hfiled' : d'.Filed) :
    Transfers φ φ d .bySite d' .bySite where
  inBody hs := h.inBody hd hfiled hfiled' hs
  hasStmt hs := h.hasStmt hs
  accesses hf := by
    refine ⟨(h.resolveField_eq _).trans hf.1, ?_⟩
    rw [isStaticField, h.fields]
    exact hf.2
  callee hm := (h.callee_eq _ _).trans hm
  method {m x} hx := by
    obtain ⟨x', hx', hhead⟩ := h.exists_head hx
    have hthis := congrArg Method.this hhead
    have hparams := congrArg Method.params hhead
    refine ⟨x', hx', hthis, hparams, fun v hv => ?_⟩
    -- a returned variable has a statement that returns it, and so has its image
    obtain ⟨s, hs, hret⟩ := hfiled.exists_ret hx hv
    exact hfiled'.mem_returns (h.inBody hd hfiled hfiled' hs) (h.hasStmt hret) hx'
  key? _ hk := by
    cases hk
    rfl

/-- If no statement is new, the second draft embeds in the first one, too. -/
theorem exists_inverse (hφ : Set.SurjOn φ {s | d.Has s} {s | d'.Has s}) :
    ∃ ψ, d'.Embeds ψ d ∧ ∀ s, d'.Has s → d.Has (ψ s) ∧ φ (ψ s) = s := by
  have : Nonempty StmtId := ⟨⟨0⟩⟩
  refine ⟨Function.invFunOn φ {s | d.Has s},
    ⟨h.classes.symm, h.fields.symm, h.heads.symm, fun s x hx => ?_⟩, ?_⟩
  · have hs := hφ (exists_placed_iff.1 ⟨x, hx⟩)
    obtain ⟨x', hx'⟩ := exists_placed_iff.2 (Function.invFunOn_mem hs)
    obtain ⟨x'', hx'', hstmt, hmethod⟩ := h.stmts _ x' hx'
    rw [Function.invFunOn_eq hs, hx] at hx''
    cases hx''
    exact ⟨x', hx', hstmt.symm, hmethod.symm⟩
  · intro s hs
    exact ⟨Function.invFunOn_mem (hφ hs), Function.invFunOn_eq (hφ hs)⟩

end Draft.Embeds

/-- What the analysis of a program shows, the analysis of a program with more statements shows, too.
If the second program has no other statements than the first, in whatever order, it shows nothing
else. -/
theorem Program.shows_of_embeds {p p' : Program} (hp : p.Proper) (hp' : p'.Proper)
    {φ : StmtId → StmtId} (h : p.toDraft.Embeds φ p'.toDraft) {entry : MethodId}
    (hentry : p.Has entry) :
    ∃ r log r' log', p.solve .bySite entry = .ok (r, log) ∧
      p'.solve .bySite entry = .ok (r', log') ∧
      r.Named ∧ r'.Named ∧ (∀ f, r.Shows f → r'.Shows (f.map φ φ)) ∧
      (Set.BijOn φ {s | p.Has s} {s | p'.Has s} →
        (∀ f, r'.Shows f ↔ ∃ g, r.Shows g ∧ g.map φ φ = f) ∧
        ∀ f, (∀ s ∈ f.sites, p.Has s) → (r.Shows f ↔ r'.Shows (f.map φ φ))) := by
  obtain ⟨st, log, hsolve, hrun, hshows⟩ := hp.exists_solve (HeapModel.bySite_consistent _) hentry
  obtain ⟨st', log', hsolve', hrun', hshows'⟩ :=
    hp'.exists_solve (HeapModel.bySite_consistent _) (h.has_method hentry)
  have hforth : ∀ f, st.Shows f → st'.Shows (f.map φ φ) := by
    intro f hf
    refine (hshows' _).2 ((h.transfers hp.inRange hp.built.filed hp'.built.filed).derives ?_
      ((hshows f).1 hf))
    rintro _ rfl
    rfl
  refine ⟨st.toSolution, log, st'.toSolution, log', hsolve, hsolve', (hrun.supported hp).named,
    (hrun'.supported hp').named, hforth, fun hφ => ?_⟩
  obtain ⟨ψ, hψ, hinv⟩ := h.exists_inverse hφ.surjOn
  have hback : ∀ f, st'.Shows f → st.Shows (f.map ψ ψ) := by
    intro f hf
    refine (hshows _).2 ((hψ.transfers hp'.inRange hp'.built.filed hp.built.filed).derives ?_
      ((hshows' f).1 hf))
    rintro _ rfl
    rfl
  have hsites : ∀ f, st'.Shows f → ∀ s ∈ f.sites, p'.Has s := by
    intro f hf
    refine ((hshows' f).1 hf).least (closed_sites p'.toDraft) ?_
    rintro _ rfl s hs
    cases hs
  refine ⟨fun f => ⟨fun hf => ⟨f.map ψ ψ, hback f hf, ?_⟩, ?_⟩,
    fun f hf => ⟨hforth f, fun hf' => ?_⟩⟩
  · exact Fact.map_map_eq_self fun s hs => (hinv s (hsites f hf s hs)).2
  · rintro ⟨g, hg, rfl⟩
    exact hforth g hg
  · have hself : (f.map φ φ).map ψ ψ = f := by
      refine Fact.map_map_eq_self fun s hs => ?_
      have hs' := hinv (φ s) (hφ.mapsTo (hf s hs))
      exact hφ.injOn hs'.1 (hf s hs) hs'.2
    exact hself ▸ hback _ hf'

def sampleOrdered : String :=
  "class C { field f; static method main() { x = new C; y = x; x.C::f = y; } }"

/-- The statements of `sampleOrdered` from the last to the first. -/
def sampleReversed : String :=
  "class C { field f; static method main() { x.C::f = y; y = x; x = new C; } }"

def sampleReversal (s : StmtId) : StmtId := ⟨2 - s.index⟩

theorem sampleReversed_accepted :
    ∃ p p', Program.ofText sampleOrdered = .ok p ∧ Program.ofText sampleReversed = .ok p' ∧
      p.toDraft.Embeds sampleReversal p'.toDraft ∧ p.stmts.size = 3 ∧ p'.stmts.size = 3 ∧
        p.Has (⟨0⟩ : MethodId) := by
  have hboth : ∃ p, Program.ofText sampleOrdered = .ok p ∧
      (Program.ofText sampleReversed).toOption.any (fun p' => decide
        (p.toDraft.Embeds sampleReversal p'.toDraft ∧ p.stmts.size = 3 ∧ p'.stmts.size = 3 ∧
          p.Has (⟨0⟩ : MethodId))) = true := Program.exists_ofText (by decide +kernel)
  obtain ⟨p, htext, hany⟩ := hboth
  obtain ⟨p', htext', hp'⟩ := Program.exists_ofText hany
  exact ⟨p, p', htext, htext', hp'⟩

theorem Program.sample_shows_of_embeds :
    ∃ p p' r log r' log', Program.ofText sampleOrdered = .ok p ∧
      Program.ofText sampleReversed = .ok p' ∧
      p.solve .bySite ⟨0⟩ = .ok (r, log) ∧ p'.solve .bySite ⟨0⟩ = .ok (r', log') ∧
      ∀ f, r'.Shows f ↔ ∃ g, r.Shows g ∧ g.map sampleReversal sampleReversal = f := by
  obtain ⟨p, p', htext, htext', hembeds, hsize, hsize', hentry⟩ := sampleReversed_accepted
  have hhas : ∀ s : StmtId, p.Has s ↔ s.index < 3 := fun s => by rw [← hsize]; exact Iff.rfl
  have hhas' : ∀ s : StmtId, p'.Has s ↔ s.index < 3 := fun s => by rw [← hsize']; exact Iff.rfl
  have hlt : ∀ s, (sampleReversal s).index < 3 := fun s => show 2 - s.index < 3 by omega
  have hself : ∀ s : StmtId, s.index < 3 → sampleReversal (sampleReversal s) = s := by
    intro s hs
    exact Id.ext_index (show 2 - (2 - s.index) = s.index by omega)
  have hbij : Set.BijOn sampleReversal {s | p.Has s} {s | p'.Has s} := by
    refine ⟨fun s _ => (hhas' _).2 (hlt s), fun s hs s' hs' heq => ?_, fun s hs => ?_⟩
    · rw [← hself s ((hhas s).1 hs), ← hself s' ((hhas s').1 hs'), heq]
    · exact ⟨sampleReversal s, (hhas _).2 (hlt s), hself s ((hhas' s).1 hs)⟩
  obtain ⟨r, log, r', log', hsolve, hsolve', -, -, -, hpermuted⟩ :=
    Program.shows_of_embeds (.of_ofText htext) (.of_ofText htext') hembeds hentry
  exact ⟨p, p', r, log, r', log', htext, htext', hsolve, hsolve', (hpermuted hbij).1⟩

/-! ## Coarser heap models -/

def Pointer.map (h : ObjId → ObjId) : Pointer → Pointer
  | .var v => .var v
  | .static f => .static f
  | .field o f => .field (h o) f

/-- Each allocation has its counterpart in a heap model that gives keys to all of them. -/
theorem transfers_of_key {d : Draft} {model : HeapModel κ} {key : StmtId → κ}
    (hkey : ∀ s type, d.Allocates s type → model.key? s type = some (key s)) :
    Transfers id key d .bySite d model where
  inBody := id
  hasStmt := id
  accesses := id
  callee := id
  method {m x} hx := ⟨x, hx, rfl, rfl, fun v hv => hv⟩
  key? {s type k} hs hk := by
    cases hk
    exact hkey s type hs

section Coarser

variable [Ord κ] [Std.TransOrd κ] [Ord κ'] [Std.TransOrd κ']

/-- The object of another heap for the key of an object, after the map of keys. -/
def Heap.counterpart (g : κ → κ') (heap : Heap κ) (heap' : Heap κ') (o : ObjId) : ObjId :=
  ((heap.keyOf o).bind fun k => heap'.find? (g k)).getD o

/-- Objects are taken to objects, and their keys along `g`. -/
def Heap.Maps (g : κ → κ') (h : ObjId → ObjId) (heap : Heap κ) (heap' : Heap κ') : Prop :=
  ∀ o k, heap.keyOf o = some k → heap'.keyOf (h o) = some (g k)

variable {g : κ → κ'} {h : ObjId → ObjId}

theorem Heap.Maps.place {heap : Heap κ} {heap' : Heap κ'} (hmaps : heap.Maps g h heap')
    {q : Pointer} {a : Place κ} (hq : heap.place q = some a) :
    heap'.place (q.map h) = some (a.map g) := by
  cases q with
  | var v => cases hq; rfl
  | static f => cases hq; rfl
  | field o f =>
    obtain ⟨k, hk, rfl⟩ := Option.map_eq_some_iff.1 hq
    exact Option.map_eq_some_iff.2 ⟨g k, hmaps o k hk, rfl⟩

/-- If facts are carried along, then so are points-to sets. -/
theorem State.pointsTo?_of_shows {st : State κ} {st' : State κ'} (hmaps : st.heap.Maps g h st'.heap)
    (hnamed : st.toSolution.Named) (hshows : ∀ f, st.Shows f → st'.Shows (f.map id g)) {q : Pointer}
    {objs : ObjSet} (hq : st.pointsTo? q = some objs) :
    ∃ objs', st'.pointsTo? (q.map h) = some objs' ∧ ∀ o ∈ objs, h o ∈ objs' := by
  obtain ⟨i, hi, rfl⟩ := Option.map_eq_some_iff.1 hq
  have hpointer := PointerTable.find?_eq_some_iff.1 hi
  obtain ⟨a, ha⟩ := hnamed.pointers i (PointerTable.pointer?_isSome_iff.1 ⟨q, hpointer⟩)
  have hplace : st.heap.place q = some a := by
    obtain ⟨q', hq', ha'⟩ := Option.bind_eq_some_iff.1 ha
    cases hpointer.symm.trans hq'
    exact ha'
  -- the pointer of the image is the image of the pointer
  obtain ⟨j, hj⟩ := hshows (.known a) ⟨i, ha⟩
  obtain ⟨q', hq', ha'⟩ := Option.bind_eq_some_iff.1 hj
  cases Heap.place_injective ha' (hmaps.place hplace)
  refine ⟨st'.pointers.pts j, ?_, fun o ho => ?_⟩
  · rw [Solution.pointsTo?, PointerTable.find?_eq_some_iff.2 hq']
    rfl
  · obtain ⟨-, k, -, hk⟩ := hnamed.pts i o ho
    obtain ⟨j', o', hj', ho', hk'⟩ := hshows (.holds a k) ⟨i, o, ha, ho, hk⟩
    cases State.placeOf_injective hj hj'
    cases Heap.keyOf_injective hk' (hmaps o k hk)
    exact ho'

end Coarser

/-- A heap model that gives an object to every allocation, and the same one to two allocations only
if they are of the same type, loses nothing: methods, calls and points-to sets of the analysis with
one object for each allocation statement are found again, each object as the one that the model has
for its allocation statement. -/
theorem Program.coarser_heap_covers [Ord κ] [Std.TransOrd κ] [Std.LawfulEqOrd κ] {p : Program}
    (hp : p.Proper) {model : HeapModel κ} {key : StmtId → κ}
    (hkey : ∀ s type, p.Allocates s type → model.key? s type = some (key s))
    (htype : ∀ s s' type type', p.Allocates s type → p.Allocates s' type' →
      key s = key s' → type = type')
    {entry : MethodId} (hentry : p.Has entry) :
    ∃ r log r' log', p.solve .bySite entry = .ok (r, log) ∧ p.solve model entry = .ok (r', log') ∧
      (∀ m ∈ r.calls.reachable, m ∈ r'.calls.reachable) ∧
      (∀ e ∈ r.calls.edges, e ∈ r'.calls.edges) ∧
      ∃ h : ObjId → ObjId,
        (∀ o obj, r.heap.get o = .ok obj → r'.heap.find? (key obj.site) = some (h o)) ∧
        ∀ q objs, r.pointsTo? q = some objs → ∃ objs', r'.pointsTo? (q.map h) = some objs' ∧
          ∀ o ∈ objs, h o ∈ objs' := by
  have hconsistent : model.Consistent p.toDraft := by
    rintro k type type' ⟨s, hs, hk⟩ ⟨s', hs', hk'⟩
    refine htype s s' type type' hs hs' (Option.some.inj ?_)
    rw [← hkey s type hs, ← hkey s' type' hs', hk, hk']
  obtain ⟨st, log, hsolve, hrun, hshows⟩ := hp.exists_solve (HeapModel.bySite_consistent _) hentry
  obtain ⟨st', log', hsolve', hrun', hshows'⟩ := hp.exists_solve hconsistent hentry
  have hcarried : ∀ f, st.Shows f → st'.Shows (f.map id key) := by
    intro f hf
    refine (hshows' _).2 ((transfers_of_key hkey).derives ?_ ((hshows f).1 hf))
    rintro _ rfl
    rfl
  -- an object is allocated by a reached method, which allocates its image
  have hobject : ∀ o obj, st.heap.get o = .ok obj →
      ∃ o', st'.heap.find? (key obj.site) = some o' := by
    intro o obj ho
    obtain ⟨-, m, hm, hbody, halloc⟩ := hrun.allocated_of_get hp ho
    have hk := hkey _ _ halloc
    obtain ⟨lhs, c, isArray, hstmt, htype⟩ := halloc
    have hholds :=
      (hshows' _).2 (.one (.new hbody hstmt (htype ▸ hk))
        ((hshows' _).1 (hcarried (.reached m) hm)))
    obtain ⟨-, o', -, -, hk'⟩ := hholds
    exact ⟨o', Heap.find?_eq_some_iff.2 hk'⟩
  have himage : ∀ o obj, st.heap.get o = .ok obj →
      st'.heap.find? (key obj.site) = some (st.heap.counterpart key st'.heap o) := by
    intro o obj ho
    obtain ⟨o', ho'⟩ := hobject o obj ho
    simp only [Heap.counterpart, (hrun.allocated_of_get hp ho).1, Option.bind_some, ho',
      Option.getD_some]
  have hmaps : st.heap.Maps key (st.heap.counterpart key st'.heap) st'.heap := by
    intro o s hs
    obtain ⟨⟨s', obj⟩, hrecord, rfl⟩ := Option.map_eq_some_iff.1 hs
    have hget := Heap.get_eq_ok_iff.2 ⟨s', hrecord⟩
    obtain rfl : s' = obj.site := Option.some.inj (hs.symm.trans (hrun.allocated_of_get hp hget).1)
    exact Heap.find?_eq_some_iff.1 (himage o obj hget)
  refine ⟨st.toSolution, log, st'.toSolution, log', hsolve, hsolve',
    fun m hm => hcarried (.reached m) hm,
    fun e he => hcarried (.called e) he, _, himage, fun q objs hq => ?_⟩
  exact State.pointsTo?_of_shows hmaps (hrun.supported hp).named hcarried hq

/-- The type of the objects that a statement allocates; of no meaning for other statements. -/
def Draft.typeAt (d : Draft) (s : StmtId) : ObjType :=
  match d.placed s with
  | .ok ⟨.new _ c isArray, _, _⟩ => .of c isArray
  | _ => .plain ⟨0⟩

theorem Draft.Allocates.typeAt_eq {d : Draft} {s : StmtId} {type : ObjType}
    (h : d.Allocates s type) :
    d.typeAt s = type := by
  obtain ⟨lhs, c, isArray, ⟨⟨stmt, m, i⟩, hplaced, rfl⟩, rfl⟩ := h
  rw [typeAt, hplaced]

/-- In the sample, two allocations of one class become one object. -/
theorem Program.sample_coarser_heap_covers :
    ∃ p r log r' log', Program.ofText sampleText = .ok p ∧ p.solve .bySite ⟨1⟩ = .ok (r, log) ∧
      p.solve .byType ⟨1⟩ = .ok (r', log') ∧
      ∃ h : ObjId → ObjId, (∀ o obj, r.heap.get o = .ok obj →
        r'.heap.find? (p.typeAt obj.site) = some (h o)) ∧
        ∀ q objs, r.pointsTo? q = some objs → ∃ objs', r'.pointsTo? (q.map h) = some objs' ∧
          ∀ o ∈ objs, h o ∈ objs' := by
  obtain ⟨p, htext, -, hmain⟩ := sampleText_accepted
  have hkey : ∀ s type, p.Allocates s type → HeapModel.byType.key? s type = some (p.typeAt s) :=
    fun s type hs => congrArg some hs.typeAt_eq.symm
  have htype : ∀ s s' type type', p.Allocates s type → p.Allocates s' type' →
      p.typeAt s = p.typeAt s' → type = type' :=
    fun s s' type type' hs hs' heq => hs.typeAt_eq.symm.trans (heq.trans hs'.typeAt_eq)
  obtain ⟨r, log, r', log', hsolve, hsolve', -, -, hmaps⟩ :=
    Program.coarser_heap_covers (.of_ofText htext) hkey htype hmain
  exact ⟨p, r, log, r', log', htext, hsolve, hsolve', hmaps⟩

end PointsTo
