import Mathlib.Order.Nat
import PointsTo.Proofs.Programs

/-!
# Building programs

Building operations whose arguments are in range lead from a draft in range to one in range
(`InRange.extend`). Those whose arguments belong to one method keep a draft `Scoped`, with the
variables of every method apart from those of the others (`Scoped.extend`). `Regular` drafts are
both, and were built step by step.
-/

namespace PointsTo

theorem mem_toList_of_modify {α : Type} {xs : Array α} {n : Nat} {f : α → α} {a : α}
    (h : a ∈ (xs.modify n f).toList) : a ∈ xs.toList ∨ ∃ b ∈ xs.toList, a = f b := by
  obtain ⟨i, hi⟩ := List.mem_iff_getElem?.1 h
  rw [Array.getElem?_toList, Array.getElem?_modify] at hi
  split at hi
  · obtain ⟨b, hb, rfl⟩ := Option.map_eq_some_iff.1 hi
    exact .inr ⟨b, List.mem_iff_getElem?.2 ⟨i, by rwa [Array.getElem?_toList]⟩, rfl⟩
  · exact .inl (List.mem_iff_getElem?.2 ⟨i, by rwa [Array.getElem?_toList]⟩)

theorem Catalog.size_le_of_prefix {α κ : Type} [Ord κ] [Std.TransOrd κ] {key : α → κ}
    {c c' : Catalog key} (h : c.toList <+: c'.toList) : c.size ≤ c'.size := by
  have hlength := h.length_le
  rwa [toList, toList, Array.length_toList, Array.length_toList] at hlength

namespace Draft

variable {d d' : Draft}

/-! ## Building with ids in range -/

theorem InRange.empty : ({} : Draft).InRange where
  classes c hc := absurd hc List.not_mem_nil
  fields f hf := absurd hf List.not_mem_nil
  methods m hm := absurd hm List.not_mem_nil
  vars v hv := absurd hv List.not_mem_nil
  stmts s hs := absurd hs List.not_mem_nil
  entry m hm := by cases hm

/-- A draft that grows stays in range, if what is new in it is in range. -/
theorem InRange.extend (h : d.InRange) (hn : d.size ≤ d'.size)
    (classes : ∀ c ∈ d'.classes.toList, c ∈ d.classes.toList ∨ c.Within d'.size)
    (fields : ∀ f ∈ d'.fields.toList, f ∈ d.fields.toList ∨ d'.Has f.cls)
    (methods : ∀ m ∈ d'.methods.toList, m ∈ d.methods.toList ∨ m.Within d'.size)
    (vars : ∀ v ∈ d'.vars.toList, v ∈ d.vars.toList ∨ d'.Has v.method)
    (stmts : ∀ s ∈ d'.stmts.toList, s ∈ d.stmts.toList ∨ d'.Has s.method ∧ s.stmt.Within d'.size)
    (entry : ∀ m ∈ d'.entry, m ∈ d.entry ∨ d'.Has m) : d'.InRange where
  classes c hc := (classes c hc).elim (fun hc => (h.classes c hc).mono hn) id
  fields f hf := (fields f hf).elim (fun hf => (h.fields f hf).mono hn) id
  methods m hm := (methods m hm).elim (fun hm => (h.methods m hm).mono hn) id
  vars v hv := (vars v hv).elim (fun hv => (h.vars v hv).mono hn) id
  stmts s hs :=
    (stmts s hs).elim (fun hs => ⟨(h.stmts s hs).1.mono hn, (h.stmts s hs).2.mono hn⟩) id
  entry m hm := (entry m hm).elim (fun hm => (h.entry m hm).mono hn) id

theorem size_le_of (hclasses : d.classes.size ≤ d'.classes.size)
    (hfields : d.fields.size ≤ d'.fields.size) (hmethods : d.methods.size ≤ d'.methods.size)
    (hvars : d.vars.size ≤ d'.vars.size) (hstmts : d.stmts.size ≤ d'.stmts.size) :
    d.size ≤ d'.size := by
  intro k
  cases k with
  | cls => exact hclasses
  | field => exact hfields
  | method => exact hmethods
  | var => exact hvars
  | stmt => exact hstmts
  | obj | pointer => exact Nat.le_refl _

theorem InRange.internClass (h : d.InRange) (name : String) :
    (d.internClass name).2.InRange ∧ d.size ≤ (d.internClass name).2.size ∧
      (d.internClass name).2.Has (d.internClass name).1 := by
  have hhas : (d.internClass name).2.Has (d.internClass name).1 := by
    obtain ⟨x, hx, -⟩ := findClass?_eq_some_iff.1 (findClass?_internClass d name)
    exact exists_cls_iff.1 ⟨x, hx⟩
  rw [internClass_snd] at hhas ⊢
  have hn : d.size ≤ size { d with classes := d.classes.add { name } } :=
    size_le_of (Catalog.size_le_of_prefix (Catalog.prefix_add _ _)) (Nat.le_refl _) (Nat.le_refl _)
      (Nat.le_refl _) (Nat.le_refl _)
  refine ⟨?_, hn, hhas⟩
  refine h.extend hn (fun c hc => ?_) (fun _ => .inl) (fun _ => .inl) (fun _ => .inl)
    (fun _ => .inl) (fun _ => .inl)
  rcases Catalog.mem_toList_add.1 hc with hc | ⟨rfl, -⟩
  · exact .inl hc
  · exact .inr ⟨fun s hs => (by cases hs), fun i hi => absurd hi List.not_mem_nil,
      fun f hf => absurd hf List.not_mem_nil, fun e he => absurd he List.not_mem_nil⟩

theorem InRange.declareClass (h : d.InRange) {name : String} {header : Header} {c : ClassId}
    (hsuper : ∀ s ∈ header.superclass, d.Has s) (hinterfaces : ∀ i ∈ header.interfaces, d.Has i)
    (heq : d.declareClass name header = .ok (c, d')) : d'.InRange ∧ d.size ≤ d'.size := by
  obtain ⟨rfl, -, rfl⟩ := declareClass_eq_ok_iff.1 heq
  obtain ⟨h₁, hn₁, -⟩ := h.internClass name
  generalize d.internClass name = r at h₁ hn₁ ⊢
  have hn : r.2.size ≤ size { r.2 with
      classes := r.2.classes.modify r.1.index (Class.declaredAs header) fun _ => rfl } :=
    size_le_of (Nat.le_of_eq Array.size_modify.symm) (Nat.le_refl _) (Nat.le_refl _) (Nat.le_refl _)
      (Nat.le_refl _)
  have hle := hn₁.trans hn
  refine ⟨?_, hle⟩
  refine h₁.extend hn (fun x hx => ?_) (fun _ => .inl) (fun _ => .inl) (fun _ => .inl)
    (fun _ => .inl) (fun _ => .inl)
  rcases mem_toList_of_modify hx with hx | ⟨y, hy, rfl⟩
  · exact .inl hx
  · have hold := (h₁.classes y hy).mono hn
    exact .inr ⟨fun s hs => (hsuper s hs).mono hle, fun i hi => (hinterfaces i hi).mono hle,
      hold.fields, hold.methods⟩

theorem InRange.addField (h : d.InRange) {c : ClassId} {name : String} {isStatic : Bool}
    {f : FieldId} (heq : d.addField c name isStatic = .ok (f, d')) :
    d'.InRange ∧ d.size ≤ d'.size := by
  obtain ⟨⟨x, hx, -⟩, rfl, rfl⟩ := addField_eq_ok_iff.1 heq
  have hc : d.Has c := exists_cls_iff.1 ⟨x, hx⟩
  have hn : d.size ≤ size { d with
      fields := d.fields.push ⟨name, c, isStatic⟩
      classes := d.classes.modify c.index (fun x =>
        { x with fields := x.fields ++ [⟨d.fields.size⟩] }) fun _ => rfl } :=
    size_le_of (Nat.le_of_eq Array.size_modify.symm) (by rw [Array.size_push]; omega)
      (Nat.le_refl _) (Nat.le_refl _) (Nat.le_refl _)
  refine ⟨?_, hn⟩
  refine h.extend hn (fun x hx => ?_) (fun x hx => ?_) (fun _ => .inl) (fun _ => .inl)
    (fun _ => .inl) (fun _ => .inl)
  · rcases mem_toList_of_modify hx with hx | ⟨y, hy, rfl⟩
    · exact .inl hx
    · have hold := (h.classes y hy).mono hn
      refine .inr { hold with fields := fun f hf => ?_ }
      rcases List.mem_append.1 hf with hf | hf
      · exact hold.fields f hf
      · rw [List.mem_singleton.1 hf]
        show d.fields.size < (d.fields.push _).size
        rw [Array.size_push]
        omega
  · rw [mem_toList_push] at hx
    rcases hx with hx | rfl
    · exact .inl hx
    · exact .inr (hc.mono hn)

theorem InRange.internVar (h : d.InRange) {m : MethodId} {name : String} {v : VarId}
    (heq : d.internVar m name = .ok (v, d')) : d'.InRange ∧ d.size ≤ d'.size ∧ d'.Has v := by
  obtain ⟨hm, ⟨hv, rfl⟩ | ⟨hnew, rfl, rfl⟩⟩ := internVar_eq_ok_iff.1 heq
  · exact ⟨h, le_rfl, Owns.has ⟨_, hv, rfl⟩⟩
  · have hsize : (d.vars.add ⟨name, m⟩).size = d.vars.size + 1 := by
      rw [Catalog.size, items_add_var hnew, Array.size_push]
      rfl
    have hn : d.size ≤ size { d with
        vars := d.vars.add ⟨name, m⟩
        methods := d.methods.modify m.index fun method =>
        { method with vars := method.vars.push ⟨d.vars.size⟩ } } :=
      size_le_of (Nat.le_refl _) (Nat.le_refl _) (Nat.le_of_eq Array.size_modify.symm)
        (by rw [hsize]; omega) (Nat.le_refl _)
    have hv : d.vars.size < (d.vars.add ⟨name, m⟩).size := by omega
    refine ⟨?_, hn, hv⟩
    refine h.extend hn (fun _ => .inl) (fun _ => .inl) (fun x hx => ?_) (fun x hx => ?_)
      (fun _ => .inl) (fun _ => .inl)
    · rcases mem_toList_of_modify hx with hx | ⟨y, hy, rfl⟩
      · exact .inl hx
      · have hold := (h.methods y hy).mono hn
        refine .inr { hold with vars := fun v hv' => ?_ }
        rw [mem_toList_push] at hv'
        rcases hv' with hv' | rfl
        · exact hold.vars v hv'
        · exact hv
    · rcases Catalog.mem_toList_add.1 hx with hx | ⟨rfl, -⟩
      · exact .inl hx
      · exact .inr (hm.mono hn)

theorem InRange.pushStmt (h : d.InRange) {m : MethodId} {stmt : Stmt} {s : StmtId}
    (hstmt : stmt.Within d.size) (heq : d.pushStmt m stmt = .ok (s, d')) :
    d'.InRange ∧ d.size ≤ d'.size := by
  obtain ⟨rfl, method, hmethod, rfl⟩ := pushStmt_eq_ok_iff.1 heq
  have hn : d.size ≤ size { d with
      stmts := d.stmts.push ⟨stmt, m, method.stmts.size⟩
      methods := d.methods.modify m.index fun method => { method with
        returns := method.returnsWith stmt
        stmts := method.stmts.push ⟨d.stmts.size⟩ } } :=
    size_le_of (Nat.le_refl _) (Nat.le_refl _) (Nat.le_of_eq Array.size_modify.symm) (Nat.le_refl _)
      (by rw [Array.size_push]; omega)
  refine ⟨?_, hn⟩
  refine h.extend hn (fun _ => .inl) (fun _ => .inl) (fun x hx => ?_) (fun _ => .inl)
    (fun x hx => ?_) (fun _ => .inl)
  · rcases mem_toList_of_modify hx with hx | ⟨y, hy, rfl⟩
    · exact .inl hx
    · have hold := (h.methods y hy).mono hn
      refine .inr { hold with returns := fun v hv => ?_, stmts := fun s hs => ?_ }
      · rcases mem_returnsWith.1 hv with hv | rfl
        · exact hold.returns v hv
        · exact (hstmt.mono hn).vars v (by simp [Stmt.vars])
      · rw [mem_toList_push] at hs
        rcases hs with hs | rfl
        · exact hold.stmts s hs
        · show d.stmts.size < (d.stmts.push _).size
          rw [Array.size_push]
          omega
  · rw [mem_toList_push] at hx
    rcases hx with hx | rfl
    · exact .inl hx
    · have hm : d.Has m := exists_method_iff.1 ⟨method, hmethod⟩
      exact .inr ⟨hm.mono hn, hstmt.mono hn⟩

theorem InRange.setEntry (h : d.InRange) {m : MethodId} (hm : d.Has m) : (d.setEntry m).InRange :=
  { h with entry := fun m' hm' => by cases hm'; exact hm }

theorem InRange.addMethod (h : d.InRange) {c : ClassId} {name : String} {params : List String}
    {isStatic isAbstract : Bool} {m : MethodId}
    (heq : d.addMethod c name params isStatic isAbstract = .ok (m, d')) :
    d'.InRange ∧ d.size ≤ d'.size := by
  have hstart : ∀ v ∈ d.startVars params isStatic, d'.Has v :=
    fun v hv => (owns_addMethod h.vars heq hv).has
  obtain ⟨⟨x, hx, -⟩, hnodup, rfl, rfl⟩ := addMethod_eq_ok_iff.1 heq
  have hc : d.Has c := exists_cls_iff.1 ⟨x, hx⟩
  have hlist := toList_startVars h.vars hnodup
  generalize (startNames params isStatic).foldl
    (fun vars name => vars.add ⟨name, ⟨d.methods.size⟩⟩) d.vars = vs at hlist hstart ⊢
  have hn : d.size ≤ size { d with
      methods := d.methods.push (d.newMethod c name params isStatic isAbstract)
      vars := vs
      classes := d.classes.modify c.index
        (fun x => { x with methods := x.methods ++ [(⟨name, params.length⟩, ⟨d.methods.size⟩)] })
        fun _ => rfl } :=
    size_le_of (Nat.le_of_eq Array.size_modify.symm) (Nat.le_refl _)
      (by rw [Array.size_push]; omega)
      (Catalog.size_le_of_prefix (hlist ▸ List.prefix_append _ _)) (Nat.le_refl _)
  have hm : d.methods.size <
      (d.methods.push (d.newMethod c name params isStatic isAbstract)).size := by
    rw [Array.size_push]
    omega
  refine ⟨?_, hn⟩
  refine h.extend hn (fun x hx => ?_) (fun _ => .inl) (fun x hx => ?_) (fun x hx => ?_)
    (fun _ => .inl) (fun _ => .inl)
  · rcases mem_toList_of_modify hx with hx | ⟨y, hy, rfl⟩
    · exact .inl hx
    · have hold := (h.classes y hy).mono hn
      refine .inr { hold with methods := fun e he => ?_ }
      rcases List.mem_append.1 he with he | he
      · exact hold.methods e he
      · rw [List.mem_singleton.1 he]
        exact hm
  · rw [mem_toList_push] at hx
    rcases hx with hx | rfl
    · exact .inl hx
    · exact .inr ⟨hc.mono hn, fun v hv => hstart v (mem_startVars_of_params hv),
        fun v hv => hstart v (mem_startVars_of_this hv), fun v hv => absurd hv List.not_mem_nil,
        fun s hs => absurd hs List.not_mem_nil, hstart⟩
  · rw [hlist, List.mem_append, List.mem_map] at hx
    rcases hx with hx | ⟨name, -, rfl⟩
    · exact .inl hx
    · exact .inr hm

theorem InRange.has_of_mem_findMethods (h : d.InRange) {className name : String} {m : MethodId}
    (hm : m ∈ d.findMethods className name) : d.Has m := by
  obtain ⟨c, x, hx, -, hm⟩ := exists_cls_of_mem_findMethods hm
  obtain ⟨e, he, rfl⟩ := List.mem_map.1 hm
  exact (h.classes x (mem_toList_of_fetch hx)).methods e (List.mem_filter.1 he).1

end Draft

/-! ## Variables in their methods -/

/-- The variables through which values enter and leave a method. -/
def Method.ends (m : Method) : List VarId := m.this.toList ++ m.params ++ m.returns

namespace Draft

variable {d d' d'' : Draft}

/-- Every variable that a statement or the head of a method mentions belongs to that method. -/
structure Scoped (d : Draft) : Prop where
  stmts : ∀ x ∈ d.stmts.toList, ∀ v ∈ x.stmt.vars, d.Owns x.method v
  methods : ∀ m method, d.method m = .ok method → ∀ v ∈ method.ends, d.Owns m v

/-- A draft grows: all ids stay in range, and variables stay where they are. -/
structure Extends (d d' : Draft) : Prop where
  size : d.size ≤ d'.size
  vars : d.vars.toList <+: d'.vars.toList

theorem Extends.refl (d : Draft) : d.Extends d := ⟨le_rfl, List.prefix_rfl⟩

theorem Extends.trans (h : d.Extends d') (h' : d'.Extends d'') : d.Extends d'' :=
  ⟨h.size.trans h'.size, h.vars.trans h'.vars⟩

theorem Owns.of_vars (hvars : d.vars.toList <+: d'.vars.toList) {m : MethodId} {v : VarId}
    (h : d.Owns m v) : d'.Owns m v := by
  obtain ⟨x, hx, hm⟩ := h
  rw [var, fetch_eq_ok_iff, ← Array.getElem?_toList] at hx
  refine ⟨x, fetch_eq_ok_iff.2 ?_, hm⟩
  rw [← Array.getElem?_toList]
  exact getElem?_of_prefix hvars hx

theorem Owns.mono (hext : d.Extends d') {m : MethodId} {v : VarId} (h : d.Owns m v) : d'.Owns m v :=
  h.of_vars hext.vars

theorem Scoped.empty : ({} : Draft).Scoped where
  stmts _ hx := absurd hx List.not_mem_nil
  methods _ _ hm := absurd hm fetch_empty_ne_ok

/-- A draft that grows stays scoped, if what is new in it is scoped. -/
theorem Scoped.extend (h : d.Scoped) (hvars : d.vars.toList <+: d'.vars.toList)
    (stmts : ∀ x ∈ d'.stmts.toList, x ∈ d.stmts.toList ∨ ∀ v ∈ x.stmt.vars, d'.Owns x.method v)
    (methods : ∀ m method, d'.method m = .ok method → ∀ v ∈ method.ends,
      (∃ old, d.method m = .ok old ∧ v ∈ old.ends) ∨ d'.Owns m v) : d'.Scoped where
  stmts x hx v hv :=
    (stmts x hx).elim (fun hx => (h.stmts x hx v hv).of_vars hvars) fun hnew => hnew v hv
  methods m method hm v hv := by
    obtain ⟨old, hold, hv⟩ | hnew := methods m method hm v hv
    · exact (h.methods m old hold v hv).of_vars hvars
    · exact hnew

theorem Scoped.of_eq (h : d.Scoped) (hvars : d'.vars = d.vars) (hmethods : d'.methods = d.methods)
    (hstmts : d'.stmts = d.stmts) : d'.Scoped := by
  refine h.extend (prefix_of_eq (by rw [hvars])) (fun x hx => .inl (hstmts ▸ hx))
    fun m method hm v hv => ?_
  rw [Draft.method, hmethods] at hm
  exact .inl ⟨method, hm, hv⟩

/-- Built step by step, with ids in range and variables in their methods. -/
structure Regular (d : Draft) : Prop where
  built : d.Built
  inRange : d.InRange
  locals : d.Scoped

namespace Regular

theorem empty : ({} : Draft).Regular := ⟨.refl, .empty, .empty⟩

theorem internClass (h : d.Regular) (name : String) :
    (d.internClass name).2.Regular ∧ d.Extends (d.internClass name).2 ∧
      (d.internClass name).2.Has (d.internClass name).1 := by
  obtain ⟨hrange, hsize, hhas⟩ := h.inRange.internClass name
  refine ⟨⟨h.built.tail (.internClass d name), hrange, ?_⟩, ⟨hsize, ?_⟩, hhas⟩
  · rw [internClass_snd]
    exact h.locals.of_eq rfl rfl rfl
  · exact prefix_of_eq (by rw [internClass_snd])

theorem declareClass (h : d.Regular) {name : String} {header : Header} {c : ClassId}
    (hsuper : ∀ s ∈ header.superclass, d.Has s) (hinterfaces : ∀ i ∈ header.interfaces, d.Has i)
    (heq : d.declareClass name header = .ok (c, d')) : d'.Regular ∧ d.Extends d' := by
  obtain ⟨hrange, hsize⟩ := h.inRange.declareClass hsuper hinterfaces heq
  have hbuilt := h.built.tail (.declareClass heq)
  obtain ⟨-, -, rfl⟩ := declareClass_eq_ok_iff.1 heq
  obtain ⟨hregular, hext, -⟩ := h.internClass name
  exact ⟨⟨hbuilt, hrange, hregular.locals.of_eq rfl rfl rfl⟩, hsize, hext.vars⟩

theorem addField (h : d.Regular) {c : ClassId} {name : String} {isStatic : Bool} {f : FieldId}
    (heq : d.addField c name isStatic = .ok (f, d')) : d'.Regular ∧ d.Extends d' := by
  obtain ⟨hrange, hsize⟩ := h.inRange.addField heq
  have hbuilt := h.built.tail (.addField heq)
  obtain ⟨-, -, rfl⟩ := addField_eq_ok_iff.1 heq
  exact ⟨⟨hbuilt, hrange, h.locals.of_eq rfl rfl rfl⟩, hsize, List.prefix_rfl⟩

theorem addMethod (h : d.Regular) {c : ClassId} {name : String} {params : List String}
    {isStatic isAbstract : Bool} {m : MethodId}
    (heq : d.addMethod c name params isStatic isAbstract = .ok (m, d')) :
    d'.Regular ∧ d.Extends d' := by
  obtain ⟨hrange, hsize⟩ := h.inRange.addMethod heq
  have hbuilt := h.built.tail (.addMethod heq)
  have hstart : ∀ v ∈ d.startVars params isStatic, d'.Owns m v :=
    fun v hv => owns_addMethod h.inRange.vars heq hv
  obtain ⟨-, hnodup, rfl, rfl⟩ := addMethod_eq_ok_iff.1 heq
  have hlist := toList_startVars h.inRange.vars hnodup
  refine ⟨⟨hbuilt, hrange, ?_⟩, hsize, hlist ▸ List.prefix_append _ _⟩
  refine h.locals.extend (hlist ▸ List.prefix_append _ _) (fun x hx => .inl hx)
    fun m y hy v hv => ?_
  obtain hy | ⟨rfl, rfl⟩ := fetch_push_cases hy
  · exact .inl ⟨y, hy, hv⟩
  · refine .inr (hstart v ?_)
    have hreturns : (d.newMethod c name params isStatic isAbstract).returns = [] := rfl
    rw [Method.ends, hreturns, List.append_nil, List.mem_append, Option.mem_toList] at hv
    exact hv.elim mem_startVars_of_this mem_startVars_of_params

theorem internVar (h : d.Regular) {m : MethodId} {name : String} {v : VarId}
    (heq : d.internVar m name = .ok (v, d')) : d'.Regular ∧ d.Extends d' ∧ d'.Owns m v := by
  obtain ⟨hrange, hsize, -⟩ := h.inRange.internVar heq
  have hbuilt := h.built.tail (.internVar heq)
  have howns : d'.Owns m v := ⟨_, var_of_internVar heq, rfl⟩
  obtain ⟨-, ⟨-, rfl⟩ | ⟨-, rfl, rfl⟩⟩ := internVar_eq_ok_iff.1 heq
  · exact ⟨h, .refl d', howns⟩
  · have hvars : d.vars.toList <+: (d.vars.add ⟨name, m⟩).toList := Catalog.prefix_add _ _
    refine ⟨⟨hbuilt, hrange, ?_⟩, ⟨hsize, hvars⟩, howns⟩
    refine h.locals.extend hvars (fun x hx => .inl hx) fun m' method hm v hv => ?_
    obtain ⟨old, hold, rfl | ⟨-, rfl⟩⟩ := exists_fetch_of_modify hm
    · exact .inl ⟨_, hold, hv⟩
    · exact .inl ⟨old, hold, hv⟩

theorem pushStmt (h : d.Regular) {m : MethodId} {stmt : Stmt} {s : StmtId}
    (hvars : ∀ v ∈ stmt.vars, d.Owns m v) (hclasses : ∀ c ∈ stmt.classes, d.Has c)
    (heq : d.pushStmt m stmt = .ok (s, d')) : d'.Regular ∧ d.Extends d' := by
  obtain ⟨hrange, hsize⟩ := h.inRange.pushStmt ⟨fun v hv => (hvars v hv).has, hclasses⟩ heq
  have hbuilt := h.built.tail (.pushStmt heq)
  obtain ⟨rfl, method, hmethod, rfl⟩ := pushStmt_eq_ok_iff.1 heq
  refine ⟨⟨hbuilt, hrange, ?_⟩, hsize, List.prefix_rfl⟩
  refine h.locals.extend List.prefix_rfl (fun x hx => ?_) fun m' method' hm v hv => ?_
  · rw [mem_toList_push] at hx
    rcases hx with hx | rfl
    · exact .inl hx
    · exact .inr hvars
  · obtain ⟨old, hold, rfl | ⟨hm', rfl⟩⟩ := exists_fetch_of_modify hm
    · exact .inl ⟨_, hold, hv⟩
    · cases Id.ext_index hm'
      rw [Method.ends, List.mem_append, mem_returnsWith] at hv
      rcases hv with hv | hv | rfl
      · exact .inl ⟨old, hold, List.mem_append_left _ hv⟩
      · exact .inl ⟨old, hold, List.mem_append_right _ hv⟩
      · exact .inr (hvars v (by simp [Stmt.vars]))

theorem setEntry (h : d.Regular) {m : MethodId} (hm : d.Has m) : (d.setEntry m).Regular :=
  ⟨h.built.tail (.setEntry d m), h.inRange.setEntry hm, h.locals.of_eq rfl rfl rfl⟩

end Regular

end Draft

end PointsTo
