import PointsTo.Proofs.Growth

/-!
# Records and their owners

Whatever is built, each field and each method stands in the record of its class and each variable in
that of its method (`Listed`), and nowhere else (`Owned`). Within a class a field is known by its
name and a method by its subsignature (`Distinct`).
-/

namespace PointsTo.Draft

variable {d e : Draft}

/-! ## Lists of what there is -/

/-- Each field and each method stands in the record of its class, and each variable in that of its
method. -/
structure Listed (d : Draft) : Prop where
  fields : ∀ f x, d.field f = .ok x → ∃ c, d.cls x.cls = .ok c ∧ f ∈ c.fields
  methods : ∀ m y, d.method m = .ok y → ∃ c, d.cls y.cls = .ok c ∧ (y.sig, m) ∈ c.methods
  vars : ∀ v x, d.var v = .ok x → ∃ y, d.method x.method = .ok y ∧ v ∈ y.vars.toList

section Listed

/-- Things stay listed while records grow, if what is new is listed. -/
theorem Listed.extend (h : d.Listed)
    (classes : ∀ c x, d.cls c = .ok x → ∃ x', e.cls c = .ok x' ∧ x.fields ⊆ x'.fields ∧
      x.methods ⊆ x'.methods)
    (records : ∀ m y, d.method m = .ok y →
      ∃ y', e.method m = .ok y' ∧ y.vars.toList ⊆ y'.vars.toList)
    (fields : ∀ f x, e.field f = .ok x →
      d.field f = .ok x ∨ ∃ c, e.cls x.cls = .ok c ∧ f ∈ c.fields)
    (methods : ∀ m y, e.method m = .ok y →
      (∃ y₀, d.method m = .ok y₀ ∧ y₀.cls = y.cls ∧ y₀.sig = y.sig) ∨ ∃ c, e.cls y.cls = .ok c ∧
      (y.sig, m) ∈ c.methods)
    (vars : ∀ v x, e.var v = .ok x → d.var v = .ok x ∨ ∃ y, e.method x.method = .ok y ∧
      v ∈ y.vars.toList) :
    e.Listed where
  fields f x hx := by
    obtain hx | hnew := fields f x hx
    · obtain ⟨c, hc, hf⟩ := h.fields f x hx
      obtain ⟨c', hc', hfields, -⟩ := classes _ c hc
      exact ⟨c', hc', hfields hf⟩
    · exact hnew
  methods m y hy := by
    obtain ⟨y₀, hy₀, hcls, hsig⟩ | hnew := methods m y hy
    · obtain ⟨c, hc, hm⟩ := h.methods m y₀ hy₀
      obtain ⟨c', hc', -, hmethods⟩ := classes _ c hc
      rw [hcls] at hc'
      rw [hsig] at hm
      exact ⟨c', hc', hmethods hm⟩
    · exact hnew
  vars v x hx := by
    obtain hx | hnew := vars v x hx
    · obtain ⟨y, hy, hv⟩ := h.vars v x hx
      obtain ⟨y', hy', hvars⟩ := records _ y hy
      exact ⟨y', hy', hvars hv⟩
    · exact hnew

theorem Listed.internClass (h : d.Listed) (name : String) : (d.internClass name).2.Listed := by
  have hkeeps := keeps_internClass d name
  have hsame : (d.internClass name).2 = { d with classes := d.classes.add { name } } :=
    internClass_snd d name
  refine h.extend (fun c x hx => ⟨x, hkeeps.cls id hx, List.Subset.refl _, List.Subset.refl _⟩)
    (fun m y hy => ⟨y, hkeeps.method id hy, List.Subset.refl _⟩) (fun f x hx => .inl ?_)
    (fun m y hy => .inl ?_) fun v x hx => .inl ?_
  · rwa [hsame] at hx
  · rw [hsame] at hy
    exact ⟨y, hy, rfl, rfl⟩
  · rwa [hsame] at hx

theorem Listed.declareClass (h : d.Listed) {name : String} {header : Header} {c : ClassId}
    (heq : d.declareClass name header = .ok (c, e)) : e.Listed := by
  obtain ⟨rfl, -, rfl⟩ := declareClass_eq_ok_iff.1 heq
  refine (h.internClass name).extend ?_ (fun m y hy => ⟨y, hy, List.Subset.refl _⟩)
    (fun f x hx => .inl hx) (fun m y hy => .inl ⟨y, hy, rfl, rfl⟩) fun v x hx => .inl hx
  exact fun c x hx => ⟨_, fetch_modify hx, by split <;> simp [Class.declaredAs], by
    split <;> simp [Class.declaredAs]⟩

theorem Listed.addField (h : d.Listed) {c : ClassId} {name : String} {isStatic : Bool} {f : FieldId}
    (heq : d.addField c name isStatic = .ok (f, e)) : e.Listed := by
  obtain ⟨⟨x, hx, -⟩, rfl, rfl⟩ := addField_eq_ok_iff.1 heq
  refine h.extend ?_ (fun m y hy => ⟨y, hy, List.Subset.refl _⟩) (fun f z hz => ?_)
    (fun m y hy => .inl ⟨y, hy, rfl, rfl⟩) fun v x hx => .inl hx
  · exact fun c x hx => ⟨_, fetch_modify hx, by split <;> simp, by split <;> simp⟩
  · obtain hz | ⟨rfl, rfl⟩ := fetch_push_cases hz
    · exact .inl hz
    · exact .inr ⟨_, fetch_modify_self hx, List.mem_append_right _ (List.mem_singleton_self _)⟩

theorem Listed.has_method (h : d.Listed) {v : Var} (hv : v ∈ d.vars.toList) : d.Has v.method := by
  obtain ⟨i, hi⟩ := Catalog.mem_toList_iff.1 hv
  obtain ⟨y, hy, -⟩ := h.vars ⟨i⟩ v (fetch_eq_ok_iff.2 hi)
  exact exists_method_iff.1 ⟨y, hy⟩

theorem Listed.addMethod (h : d.Listed) {c : ClassId} {name : String} {params : List String}
    {isStatic isAbstract : Bool} {m : MethodId}
    (heq : d.addMethod c name params isStatic isAbstract = .ok (m, e)) : e.Listed := by
  obtain ⟨⟨x, hx, -⟩, hnodup, rfl, rfl⟩ := addMethod_eq_ok_iff.1 heq
  have hlist := toList_startVars (fun v => h.has_method) hnodup
  refine h.extend ?_ (fun m y hy => ⟨y, fetch_push_of_ok hy, List.Subset.refl _⟩)
    (fun f x hx => .inl hx) (fun m y hy => ?_) fun v z hz => ?_
  · exact fun c x hx => ⟨_, fetch_modify hx, by split <;> simp, by split <;> simp⟩
  · obtain hy | ⟨rfl, rfl⟩ := fetch_push_cases hy
    · exact .inl ⟨y, hy, rfl, rfl⟩
    · rw [newMethod_sig]
      exact .inr ⟨_, fetch_modify_self hx, List.mem_append_right _ (List.mem_singleton_self _)⟩
  · by_cases hv : v.index < d.vars.size
    · refine .inl ?_
      obtain ⟨z₀, hz₀⟩ := fetch_isOk_iff.2 hv
      cases (fetch_of_extended (prefix_foldl_add _ _ _) hz₀).symm.trans hz
      exact hz₀
    · -- a new variable is one that the new method starts with
      have hsize : d.vars.toList.length = d.vars.size := Array.length_toList
      rw [Draft.var, fetch_eq_ok_iff, ← Array.getElem?_toList, ← Catalog.toList, hlist,
        List.getElem?_append_right (by omega), List.getElem?_map] at hz
      obtain ⟨n, hn, rfl⟩ := Option.map_eq_some_iff.1 hz
      obtain ⟨hlt, -⟩ := List.getElem?_eq_some_iff.1 hn
      refine .inr ⟨_, fetch_push_new, ?_⟩
      rw [newMethod, List.toList_toArray, mem_startVars]
      exact ⟨v.index - d.vars.size, by omega, Id.ext_index (by dsimp only; omega)⟩

theorem Listed.internVar (h : d.Listed) {m : MethodId} {name : String} {v : VarId}
    (heq : d.internVar m name = .ok (v, e)) : e.Listed := by
  obtain ⟨hm, ⟨-, rfl⟩ | ⟨hnew, rfl, rfl⟩⟩ := internVar_eq_ok_iff.1 heq
  · exact h
  refine h.extend (fun c x hx => ⟨x, hx, List.Subset.refl _, List.Subset.refl _⟩) (fun m y hy => ?_)
    (fun f x hx => .inl hx) (fun m y hy => .inl ?_) fun v x hx => ?_
  · exact ⟨_, fetch_modify hy, by split <;> simp⟩
  · obtain ⟨y₀, hy₀, rfl | ⟨-, rfl⟩⟩ := exists_fetch_of_modify hy
    · exact ⟨_, hy₀, rfl, rfl⟩
    · exact ⟨y₀, hy₀, rfl, rfl⟩
  · rw [Draft.var, Catalog.items_add] at hx
    split at hx
    next => exact .inl hx
    next =>
      obtain hx | ⟨rfl, rfl⟩ := fetch_push_cases hx
      · exact .inl hx
      · obtain ⟨y, hy⟩ := exists_method_iff.2 hm
        refine .inr ⟨_, fetch_modify_self hy, ?_⟩
        rw [Array.toList_push]
        exact List.mem_append_right _ (List.mem_singleton_self _)

theorem Listed.pushStmt (h : d.Listed) {m : MethodId} {stmt : Stmt} {s : StmtId}
    (heq : d.pushStmt m stmt = .ok (s, e)) : e.Listed := by
  obtain ⟨rfl, y, -, rfl⟩ := pushStmt_eq_ok_iff.1 heq
  refine h.extend (fun c x hx => ⟨x, hx, List.Subset.refl _, List.Subset.refl _⟩) (fun m y hy => ?_)
    (fun f x hx => .inl hx) (fun m y hy => .inl ?_) fun v x hx => .inl hx
  · exact ⟨_, fetch_modify hy, by split <;> simp⟩
  · obtain ⟨y₀, hy₀, rfl | ⟨-, rfl⟩⟩ := exists_fetch_of_modify hy
    · exact ⟨_, hy₀, rfl, rfl⟩
    · exact ⟨y₀, hy₀, rfl, rfl⟩

theorem Listed.grows (h : d.Listed) (hgrows : d.Grows e) : e.Listed := by
  cases hgrows with
  | internClass name => exact h.internClass name
  | declareClass heq => exact h.declareClass heq
  | addField heq => exact h.addField heq
  | addMethod heq => exact h.addMethod heq
  | internVar heq => exact h.internVar heq
  | pushStmt heq => exact h.pushStmt heq
  | setEntry m => exact ⟨h.fields, h.methods, h.vars⟩

theorem Built.listed (h : d.Built) : d.Listed := by
  have hempty : ({} : Draft).Listed := by
    refine ⟨fun f x hx => ?_, fun m y hy => ?_, fun v x hx => ?_⟩
    · exact absurd hx fetch_empty_ne_ok
    · exact absurd hy fetch_empty_ne_ok
    · exact absurd hx fetch_empty_ne_ok
  induction h with
  | refl => exact hempty
  | tail _ hgrows ih => exact ih.grows hgrows

end Listed

/-- What stands in the record of a class or a method belongs to it. -/
structure Owned (d : Draft) : Prop where
  fields : ∀ c x, d.cls c = .ok x → ∀ f ∈ x.fields, ∃ z, d.field f = .ok z ∧ z.cls = c
  methods : ∀ c x, d.cls c = .ok x → ∀ p ∈ x.methods, ∃ y, d.method p.2 = .ok y ∧
    y.cls = c ∧ y.sig = p.1
  vars : ∀ m y, d.method m = .ok y → ∀ v ∈ y.vars.toList, d.Owns m v

section Owned

/-- Records own what they list while the tables grow, if they own what is new in them. -/
theorem Owned.extend (h : d.Owned) (field : ∀ f z, d.field f = .ok z → e.field f = .ok z)
    (method : ∀ m y, d.method m = .ok y → ∃ y', e.method m = .ok y' ∧ y'.cls = y.cls ∧
      y'.sig = y.sig)
    (var : ∀ v z, d.var v = .ok z → e.var v = .ok z)
    (fields : ∀ c x, e.cls c = .ok x → ∀ f ∈ x.fields, (∃ x₀, d.cls c = .ok x₀ ∧ f ∈ x₀.fields) ∨
      ∃ z, e.field f = .ok z ∧ z.cls = c)
    (methods : ∀ c x, e.cls c = .ok x → ∀ p ∈ x.methods, (∃ x₀, d.cls c = .ok x₀ ∧ p ∈ x₀.methods) ∨
      ∃ y, e.method p.2 = .ok y ∧ y.cls = c ∧ y.sig = p.1)
    (vars : ∀ m y, e.method m = .ok y →
      ∀ v ∈ y.vars.toList, (∃ y₀, d.method m = .ok y₀ ∧ v ∈ y₀.vars.toList) ∨ e.Owns m v) :
    e.Owned where
  fields c x hx f hf := by
    obtain ⟨x₀, hx₀, hf⟩ | hnew := fields c x hx f hf
    · obtain ⟨z, hz, hc⟩ := h.fields c x₀ hx₀ f hf
      exact ⟨z, field f z hz, hc⟩
    · exact hnew
  methods c x hx p hp := by
    obtain ⟨x₀, hx₀, hp⟩ | hnew := methods c x hx p hp
    · obtain ⟨y, hy, hc, hsig⟩ := h.methods c x₀ hx₀ p hp
      obtain ⟨y', hy', hc', hsig'⟩ := method p.2 y hy
      exact ⟨y', hy', hc'.trans hc, hsig'.trans hsig⟩
    · exact hnew
  vars m y hy v hv := by
    obtain ⟨y₀, hy₀, hv⟩ | hnew := vars m y hy v hv
    · obtain ⟨z, hz, hm⟩ := h.vars m y₀ hy₀ v hv
      exact ⟨z, var v z hz, hm⟩
    · exact hnew

/-- Methods keep their owner and their subsignature when one of them changes. -/
theorem exists_method_modify {m : MethodId} {n : Nat} {g : Method → Method} {y : Method}
    (hcls : (g y).cls = y.cls) (hsig : (g y).sig = y.sig) (hy : d.method m = .ok y) :
    ∃ y', fetch (d.methods.modify n g) m = .ok y' ∧ y'.cls = y.cls ∧ y'.sig = y.sig :=
  ⟨_, fetch_modify hy, by split <;> simp [hcls], by split <;> simp [hsig]⟩

theorem Owned.internClass (h : d.Owned) (name : String) : (d.internClass name).2.Owned := by
  have hkeeps := keeps_internClass d name
  have hold : ∀ c x, (d.internClass name).2.cls c = .ok x →
      d.cls c = .ok x ∨ x = { name := x.name } := by
    intro c x hx
    obtain hc | hc | ⟨hnew, -⟩ := hkeeps.mentioned hx
    · obtain ⟨x₀, hx₀⟩ := exists_cls_iff.2 hc
      cases (hkeeps.cls id hx₀).symm.trans hx
      exact .inl hx₀
    · cases hc
    · exact .inr hnew
  refine h.extend (fun f z => hkeeps.field) (fun m y hy => ⟨y, hkeeps.method id hy, rfl, rfl⟩)
    (fun v z => hkeeps.var)
    (fun c x hx f hf => ?_) (fun c x hx p hp => ?_) fun m y hy v hv => .inl ⟨y, ?_, hv⟩
  · obtain hx | hx := hold c x hx
    · exact .inl ⟨x, hx, hf⟩
    · rw [hx] at hf
      cases hf
  · obtain hx | hx := hold c x hx
    · exact .inl ⟨x, hx, hp⟩
    · rw [hx] at hp
      cases hp
  · rwa [internClass_snd] at hy

theorem Owned.declareClass (h : d.Owned) {name : String} {header : Header} {c : ClassId}
    (heq : d.declareClass name header = .ok (c, e)) : e.Owned := by
  obtain ⟨rfl, -, rfl⟩ := declareClass_eq_ok_iff.1 heq
  refine (h.internClass name).extend (fun f z => id) (fun m y hy => ⟨y, hy, rfl, rfl⟩)
    (fun v z => id)
    (fun c x hx f hf => ?_) (fun c x hx p hp => ?_) fun m y hy v hv => .inl ⟨y, hy, hv⟩
  · obtain ⟨x₀, hx₀, rfl | ⟨-, rfl⟩⟩ := exists_fetch_of_modify hx
    · exact .inl ⟨_, hx₀, hf⟩
    · exact .inl ⟨x₀, hx₀, hf⟩
  · obtain ⟨x₀, hx₀, rfl | ⟨-, rfl⟩⟩ := exists_fetch_of_modify hx
    · exact .inl ⟨_, hx₀, hp⟩
    · exact .inl ⟨x₀, hx₀, hp⟩

theorem Owned.addField (h : d.Owned) {c : ClassId} {name : String} {isStatic : Bool} {f : FieldId}
    (heq : d.addField c name isStatic = .ok (f, e)) : e.Owned := by
  have hkeeps := keeps_addField heq
  obtain ⟨-, rfl, rfl⟩ := addField_eq_ok_iff.1 heq
  refine h.extend (fun f z => hkeeps.field) (fun m y hy => ⟨y, hy, rfl, rfl⟩) (fun v z => id)
    (fun c' x hx f hf => ?_) (fun c' x hx p hp => ?_) fun m y hy v hv => .inl ⟨y, hy, hv⟩
  · obtain ⟨x₀, hx₀, rfl | ⟨hc, rfl⟩⟩ := exists_fetch_of_modify hx
    · exact .inl ⟨_, hx₀, hf⟩
    · obtain hf | hf := List.mem_append.1 hf
      · exact .inl ⟨x₀, hx₀, hf⟩
      · cases List.mem_singleton.1 hf
        exact .inr ⟨_, fetch_push_new, (Id.ext_index hc).symm⟩
  · obtain ⟨x₀, hx₀, rfl | ⟨-, rfl⟩⟩ := exists_fetch_of_modify hx
    · exact .inl ⟨_, hx₀, hp⟩
    · exact .inl ⟨x₀, hx₀, hp⟩

theorem Owned.addMethod (h : d.Owned) (hlisted : d.Listed) {c : ClassId} {name : String}
    {params : List String} {isStatic isAbstract : Bool} {m : MethodId}
    (heq : d.addMethod c name params isStatic isAbstract = .ok (m, e)) : e.Owned := by
  have hkeeps := keeps_addMethod heq
  have hstart : ∀ v ∈ d.startVars params isStatic, e.Owns m v :=
    fun v => owns_addMethod (fun v => hlisted.has_method) heq
  obtain ⟨-, -, rfl, rfl⟩ := addMethod_eq_ok_iff.1 heq
  refine h.extend (fun f z => id) (fun m y hy => ⟨y, hkeeps.method id hy, rfl, rfl⟩)
    (fun v z => hkeeps.var) (fun c' x hx f hf => ?_) (fun c' x hx p hp => ?_) fun m y hy v hv => ?_
  · obtain ⟨x₀, hx₀, rfl | ⟨-, rfl⟩⟩ := exists_fetch_of_modify hx
    · exact .inl ⟨_, hx₀, hf⟩
    · exact .inl ⟨x₀, hx₀, hf⟩
  · obtain ⟨x₀, hx₀, rfl | ⟨hc, rfl⟩⟩ := exists_fetch_of_modify hx
    · exact .inl ⟨_, hx₀, hp⟩
    · obtain hp | hp := List.mem_append.1 hp
      · exact .inl ⟨x₀, hx₀, hp⟩
      · cases List.mem_singleton.1 hp
        exact .inr ⟨_, fetch_push_new, (Id.ext_index hc).symm, newMethod_sig ..⟩
  · obtain hy | ⟨rfl, rfl⟩ := fetch_push_cases hy
    · exact .inl ⟨y, hy, hv⟩
    · rw [newMethod, List.toList_toArray] at hv
      exact .inr (hstart v hv)

theorem Owned.internVar (h : d.Owned) {m : MethodId} {name : String} {v : VarId}
    (heq : d.internVar m name = .ok (v, e)) : e.Owned := by
  have hkeeps := keeps_internVar heq
  have hvar := var_of_internVar heq
  obtain ⟨-, ⟨-, rfl⟩ | ⟨-, rfl, rfl⟩⟩ := internVar_eq_ok_iff.1 heq
  · exact h
  refine h.extend (fun f z => id) (fun m y hy => exists_method_modify rfl rfl hy)
    (fun v z => hkeeps.var)
    (fun c x hx f hf => .inl ⟨x, hx, hf⟩) (fun c x hx p hp => .inl ⟨x, hx, hp⟩)
    fun m' y hy v hv => ?_
  obtain ⟨y₀, hy₀, rfl | ⟨hm, rfl⟩⟩ := exists_fetch_of_modify hy
  · exact .inl ⟨_, hy₀, hv⟩
  · rw [Array.toList_push] at hv
    obtain hv | hv := List.mem_append.1 hv
    · exact .inl ⟨y₀, hy₀, hv⟩
    · cases List.mem_singleton.1 hv
      cases Id.ext_index hm
      exact .inr ⟨_, hvar, rfl⟩

theorem Owned.pushStmt (h : d.Owned) {m : MethodId} {stmt : Stmt} {s : StmtId}
    (heq : d.pushStmt m stmt = .ok (s, e)) : e.Owned := by
  obtain ⟨rfl, y, -, rfl⟩ := pushStmt_eq_ok_iff.1 heq
  refine h.extend (fun f z => id) (fun m y hy => exists_method_modify rfl rfl hy) (fun v z => id)
    (fun c x hx f hf => .inl ⟨x, hx, hf⟩) (fun c x hx p hp => .inl ⟨x, hx, hp⟩)
    fun m' y hy v hv => ?_
  obtain ⟨y₀, hy₀, rfl | ⟨-, rfl⟩⟩ := exists_fetch_of_modify hy
  · exact .inl ⟨_, hy₀, hv⟩
  · exact .inl ⟨y₀, hy₀, hv⟩

theorem Built.owned (h : d.Built) : d.Owned := by
  have hempty : ({} : Draft).Owned := by
    refine ⟨fun c x hx => ?_, fun c x hx => ?_, fun m y hy => ?_⟩
    · exact absurd hx fetch_empty_ne_ok
    · exact absurd hx fetch_empty_ne_ok
    · exact absurd hy fetch_empty_ne_ok
  induction h with
  | refl => exact hempty
  | tail hbuilt hgrows ih =>
    cases hgrows with
    | internClass name => exact ih.internClass name
    | declareClass heq => exact ih.declareClass heq
    | addField heq => exact ih.addField heq
    | addMethod heq => exact ih.addMethod (Built.listed hbuilt) heq
    | internVar heq => exact ih.internVar heq
    | pushStmt heq => exact ih.pushStmt heq
    | setEntry m => exact ⟨ih.fields, ih.methods, ih.vars⟩

end Owned

/-- A class has one field of a name and one method of a subsignature. -/
structure Distinct (d : Draft) : Prop where
  fields : ∀ f f' z z', d.field f = .ok z → d.field f' = .ok z' → z.cls = z'.cls →
    z.name = z'.name → f = f'
  methods : ∀ m m' y y', d.method m = .ok y → d.method m' = .ok y' → y.cls = y'.cls →
    y.sig = y'.sig → m = m'

section Distinct

theorem Distinct.addField (h : d.Distinct) (hlisted : d.Listed) {c : ClassId} {name : String}
    {isStatic : Bool} {f : FieldId} (heq : d.addField c name isStatic = .ok (f, e)) :
    e.Distinct := by
  obtain ⟨⟨x, hx, hfresh⟩, rfl, rfl⟩ := addField_eq_ok_iff.1 heq
  -- a field of the class that was there before has another name
  have hother : ∀ f z, d.field f = .ok z → z.cls = c → z.name ≠ name := by
    rintro f z hz rfl
    obtain ⟨x', hx', hf⟩ := hlisted.fields f z hz
    cases hx.symm.trans hx'
    exact hfresh f hf z hz
  refine ⟨fun f f' z z' hz hz' hcls hname => ?_, h.methods⟩
  obtain hz | ⟨rfl, rfl⟩ := fetch_push_cases hz <;> obtain hz' | ⟨rfl, rfl⟩ := fetch_push_cases hz'
  · exact h.fields f f' z z' hz hz' hcls hname
  · exact absurd hname (hother f z hz hcls)
  · exact absurd hname.symm (hother f' z' hz' hcls.symm)
  · rfl

theorem Distinct.addMethod (h : d.Distinct) (hlisted : d.Listed) {c : ClassId} {name : String}
    {params : List String} {isStatic isAbstract : Bool} {m : MethodId}
    (heq : d.addMethod c name params isStatic isAbstract = .ok (m, e)) : e.Distinct := by
  obtain ⟨⟨x, hx, hfresh⟩, -, rfl, rfl⟩ := addMethod_eq_ok_iff.1 heq
  have hother : ∀ m y, d.method m = .ok y → y.cls = c → y.sig ≠ ⟨name, params.length⟩ := by
    rintro m y hy rfl hsig
    obtain ⟨x', hx', hm⟩ := hlisted.methods m y hy
    cases hx.symm.trans hx'
    rw [hsig] at hm
    simpa using List.lookup_eq_none_iff.1 hfresh _ hm
  refine ⟨h.fields, fun m m' y y' hy hy' hcls hsig => ?_⟩
  obtain hy | ⟨rfl, rfl⟩ := fetch_push_cases hy <;> obtain hy' | ⟨rfl, rfl⟩ := fetch_push_cases hy'
  · exact h.methods m m' y y' hy hy' hcls hsig
  · exact absurd (hsig.trans (newMethod_sig ..)) (hother m y hy hcls)
  · exact absurd (hsig.symm.trans (newMethod_sig ..)) (hother m' y' hy' hcls.symm)
  · rfl

/-- A change that keeps the owner and the subsignature of every method. -/
theorem Distinct.of_methods (h : d.Distinct) (hfields : e.fields = d.fields)
    (hmethods : ∀ m y, e.method m = .ok y → ∃ y₀, d.method m = .ok y₀ ∧ y₀.cls = y.cls ∧
      y₀.sig = y.sig) :
    e.Distinct := by
  refine ⟨fun f f' z z' => ?_, fun m m' y y' hy hy' hc hs => ?_⟩
  · rw [field, field, hfields]
    exact h.fields f f' z z'
  · obtain ⟨y₀, hy₀, hc₀, hs₀⟩ := hmethods m y hy
    obtain ⟨y₀', hy₀', hc₀', hs₀'⟩ := hmethods m' y' hy'
    exact h.methods m m' y₀ y₀' hy₀ hy₀' (by rw [hc₀, hc, hc₀']) (by rw [hs₀, hs, hs₀'])

theorem Built.distinct (h : d.Built) : d.Distinct := by
  have hempty : ({} : Draft).Distinct := by
    refine ⟨fun f _ z _ hz => ?_, fun m _ y _ hy => ?_⟩
    · exact absurd hz fetch_empty_ne_ok
    · exact absurd hy fetch_empty_ne_ok
  induction h with
  | refl => exact hempty
  | tail hbuilt hgrows ih =>
    cases hgrows with
    | internClass name =>
      rw [internClass_snd]
      exact ⟨ih.fields, ih.methods⟩
    | declareClass heq =>
      obtain ⟨-, -, rfl⟩ := declareClass_eq_ok_iff.1 heq
      simp only [internClass_snd]
      exact ⟨ih.fields, ih.methods⟩
    | addField heq => exact ih.addField (Built.listed hbuilt) heq
    | addMethod heq => exact ih.addMethod (Built.listed hbuilt) heq
    | internVar heq =>
      obtain ⟨-, ⟨-, rfl⟩ | ⟨-, rfl, rfl⟩⟩ := internVar_eq_ok_iff.1 heq
      · exact ih
      · refine ih.of_methods rfl fun m y hy => ?_
        obtain ⟨y₀, hy₀, rfl | ⟨-, rfl⟩⟩ := exists_fetch_of_modify hy
        · exact ⟨_, hy₀, rfl, rfl⟩
        · exact ⟨y₀, hy₀, rfl, rfl⟩
    | pushStmt heq =>
      obtain ⟨rfl, y, -, rfl⟩ := pushStmt_eq_ok_iff.1 heq
      refine ih.of_methods rfl fun m y hy => ?_
      obtain ⟨y₀, hy₀, rfl | ⟨-, rfl⟩⟩ := exists_fetch_of_modify hy
      · exact ⟨_, hy₀, rfl, rfl⟩
      · exact ⟨y₀, hy₀, rfl, rfl⟩
    | setEntry m => exact ⟨ih.fields, ih.methods⟩

end Distinct

end PointsTo.Draft
