import PointsTo.Proofs.Members

/-!
# Consistent tables

The tables of a draft refer to each other: a class lists its fields and methods, a method its
variables and statements, and each of these says where it belongs. An `Operation` may come at any
time, with any arguments, and some of them fail. As long as none looks up an id that names nothing,
the two sides agree: `consistent_of_performAll` shows that the draft is `Consistent`.

What an operation may do to the record of a class or a method is said once (`Grows.members_cases`,
`Grows.method_cases`). Ids are listed in the order in which they were given (`Ascending`), so that
nothing is listed twice.
-/

namespace PointsTo

theorem Id.ascending_concat {k : Kind} {ids : List (Id k)} {n : Nat} (h : ids.Pairwise (· < ·))
    (hlt : ∀ a ∈ ids, a.index < n) : (ids ++ [Id.mk n]).Pairwise (· < ·) := by
  refine List.pairwise_append.2 ⟨h, List.pairwise_singleton _ _, fun a ha b hb => ?_⟩
  rw [List.mem_singleton.1 hb]
  exact hlt a ha

/-- The parameters of a method are different variables of it, and so is its receiver, which it has
unless it is static. -/
structure Method.Headed (y : Method) : Prop where
  distinct : y.params.Nodup
  params : ∀ v ∈ y.params, v ∈ y.vars.toList ∧ v ∉ y.this
  receiver : ∀ v ∈ y.this, v ∈ y.vars.toList
  this : y.this.isSome = true ↔ y.isStatic = false

namespace Draft

/-! ## Sequences of operations -/

inductive Operation where
  | internClass (name : String)
  | declareClass (name : String) (header : Header)
  | addField (c : ClassId) (name : String) (isStatic : Bool)
  | addMethod (c : ClassId) (name : String) (params : List String) (isStatic isAbstract : Bool)
  | internVar (m : MethodId) (name : String)
  | pushStmt (m : MethodId) (stmt : Stmt)
  | findMethods (className name : String)
  | setEntry (m : MethodId)

/-- The draft after an operation with a result. One that fails leaves the draft as it was, unless it
looked up an id that names nothing: then there is no draft to go on with. -/
def resume {α : Type} (d : Draft) : Except BuildError (α × Draft) → Except Dangling Draft
  | .ok (_, e) => .ok e
  | .error (.dangling id) => .error id
  | .error _ => .ok d

def perform (d : Draft) : Operation → Except Dangling Draft
  | .internClass name => .ok (d.internClass name).2
  | .declareClass name header => d.resume (d.declareClass name header)
  | .addField c name isStatic => d.resume (d.addField c name isStatic)
  | .addMethod c name params isStatic isAbstract =>
    d.resume (d.addMethod c name params isStatic isAbstract)
  | .internVar m name => d.resume (d.internVar m name)
  | .pushStmt m stmt => d.resume (d.pushStmt m stmt)
  | .findMethods _ _ => .ok d
  | .setEntry m => .ok (d.setEntry m)

/-- The draft that operations lead to from nothing. -/
def performAll (ops : List Operation) : Except Dangling Draft := ops.foldlM perform {}

variable {d e : Draft}

theorem resume_cases {α : Type} {r : Except BuildError (α × Draft)} (h : d.resume r = .ok e) :
    e = d ∨ ∃ a, r = .ok (a, e) := by
  cases r with
  | ok result =>
    cases h
    exact .inr ⟨result.1, rfl⟩
  | error err => cases err <;> cases h <;> exact .inl rfl

/-- An operation makes the draft grow or leaves it as it is. -/
theorem grows_of_perform {op : Operation} (h : d.perform op = .ok e) : e = d ∨ d.Grows e := by
  cases op with
  | internClass name =>
    cases h
    exact .inr (.internClass d name)
  | declareClass name header => exact (resume_cases h).imp_right fun ⟨_, heq⟩ => .declareClass heq
  | addField c name isStatic => exact (resume_cases h).imp_right fun ⟨_, heq⟩ => .addField heq
  | addMethod c name params isStatic isAbstract =>
    exact (resume_cases h).imp_right fun ⟨_, heq⟩ => .addMethod heq
  | internVar m name => exact (resume_cases h).imp_right fun ⟨_, heq⟩ => .internVar heq
  | pushStmt m stmt => exact (resume_cases h).imp_right fun ⟨_, heq⟩ => .pushStmt heq
  | findMethods className name =>
    cases h
    exact .inl rfl
  | setEntry m =>
    cases h
    exact .inr (.setEntry d m)

theorem Built.of_perform (hd : d.Built) {op : Operation} (h : d.perform op = .ok e) : e.Built := by
  rcases grows_of_perform h with rfl | hgrows
  · exact hd
  · exact hd.tail hgrows

theorem Built.performs (hd : d.Built) {ops : List Operation} (h : ops.foldlM perform d = .ok e) :
    e.Built :=
  foldlM_invariant h (fun _ _ _ _ hbuilt hop => hbuilt.of_perform hop) hd

/-! ## What an operation does to a record -/

/-- The members of a class stay, or the newest field or method is put at their end. -/
theorem Grows.members_cases (h : d.Grows e) {c : ClassId} {x : Class} (hx : e.cls c = .ok x) :
    ∃ x₀, (d.cls c = .ok x₀ ∨ x₀.fields = [] ∧ x₀.methods = []) ∧
      (x.fields = x₀.fields ∨ x.fields = x₀.fields ++ [⟨d.fields.size⟩]) ∧
      (x.methods = x₀.methods ∨ ∃ sig, x.methods = x₀.methods ++ [(sig, ⟨d.methods.size⟩)]) := by
  have hintern : ∀ {name x}, (d.internClass name).2.cls c = .ok x →
      d.cls c = .ok x ∨ x.fields = [] ∧ x.methods = [] := by
    intro name x hx
    have hkeeps := keeps_internClass d name
    obtain hc | hc | ⟨hnew, -⟩ := hkeeps.mentioned hx
    · obtain ⟨x₀, hx₀⟩ := exists_cls_iff.2 hc
      cases (hkeeps.cls (Set.notMem_empty c) hx₀).symm.trans hx
      exact .inl hx₀
    · cases hc
    · exact .inr (by rw [hnew]; exact ⟨rfl, rfl⟩)
  cases h with
  | internClass name => exact ⟨x, hintern hx, .inl rfl, .inl rfl⟩
  | declareClass heq =>
    obtain ⟨rfl, -, rfl⟩ := declareClass_eq_ok_iff.1 heq
    obtain ⟨x₀, hx₀, rfl | ⟨-, rfl⟩⟩ := exists_fetch_of_modify hx
    · exact ⟨_, hintern hx₀, .inl rfl, .inl rfl⟩
    · exact ⟨x₀, hintern hx₀, .inl rfl, .inl rfl⟩
  | addField heq =>
    obtain ⟨-, rfl, rfl⟩ := addField_eq_ok_iff.1 heq
    obtain ⟨x₀, hx₀, rfl | ⟨-, rfl⟩⟩ := exists_fetch_of_modify hx
    · exact ⟨_, .inl hx₀, .inl rfl, .inl rfl⟩
    · exact ⟨x₀, .inl hx₀, .inr rfl, .inl rfl⟩
  | addMethod heq =>
    obtain ⟨-, -, rfl, rfl⟩ := addMethod_eq_ok_iff.1 heq
    obtain ⟨x₀, hx₀, rfl | ⟨-, rfl⟩⟩ := exists_fetch_of_modify hx
    · exact ⟨_, .inl hx₀, .inl rfl, .inl rfl⟩
    · exact ⟨x₀, .inl hx₀, .inl rfl, .inr ⟨_, rfl⟩⟩
  | internVar heq =>
    obtain ⟨-, ⟨-, rfl⟩ | ⟨-, rfl, rfl⟩⟩ :=
      internVar_eq_ok_iff.1 heq <;> exact ⟨x, .inl hx, .inl rfl, .inl rfl⟩
  | pushStmt heq =>
    obtain ⟨rfl, y, -, rfl⟩ := pushStmt_eq_ok_iff.1 heq
    exact ⟨x, .inl hx, .inl rfl, .inl rfl⟩
  | setEntry m => exact ⟨x, .inl hx, .inl rfl, .inl rfl⟩

/-- The record of a method stays as it is, gets the newest variable or the newest statement, or is
that of a new method. -/
theorem Grows.method_cases (h : d.Grows e) {m : MethodId} {y : Method} (hy : e.method m = .ok y) :
    d.method m = .ok y ∨
    (∃ y₀, d.method m = .ok y₀ ∧ y = { y₀ with vars := y₀.vars.push ⟨d.vars.size⟩ }) ∨
    (∃ y₀ stmt, d.method m = .ok y₀ ∧ e.placed ⟨d.stmts.size⟩ = .ok ⟨stmt, m, y₀.stmts.size⟩ ∧
      y = { y₀ with returns := y₀.returnsWith stmt, stmts := y₀.stmts.push ⟨d.stmts.size⟩ }) ∨
    ∃ c name params isStatic isAbstract, y = d.newMethod c name params isStatic isAbstract := by
  cases h with
  | internClass name =>
    rw [internClass_snd] at hy
    exact .inl hy
  | declareClass heq =>
    obtain ⟨-, -, rfl⟩ := declareClass_eq_ok_iff.1 heq
    simp only [internClass_snd] at hy
    exact .inl hy
  | addField heq =>
    obtain ⟨-, -, rfl⟩ := addField_eq_ok_iff.1 heq
    exact .inl hy
  | addMethod heq =>
    obtain ⟨-, -, -, rfl⟩ := addMethod_eq_ok_iff.1 heq
    obtain hy | ⟨-, rfl⟩ := fetch_push_cases hy
    · exact .inl hy
    · exact .inr (.inr (.inr ⟨_, _, _, _, _, rfl⟩))
  | internVar heq =>
    obtain ⟨-, ⟨-, rfl⟩ | ⟨-, rfl, rfl⟩⟩ := internVar_eq_ok_iff.1 heq
    · exact .inl hy
    · obtain ⟨y₀, hy₀, rfl | ⟨-, rfl⟩⟩ := exists_fetch_of_modify hy
      · exact .inl hy₀
      · exact .inr (.inl ⟨y₀, hy₀, rfl⟩)
  | pushStmt heq =>
    obtain ⟨rfl, y', hy', rfl⟩ := pushStmt_eq_ok_iff.1 heq
    obtain ⟨y₀, hy₀, rfl | ⟨hm, rfl⟩⟩ := exists_fetch_of_modify hy
    · exact .inl hy₀
    · cases Id.ext_index hm
      cases hy'.symm.trans hy₀
      exact .inr (.inr (.inl ⟨y', _, hy', fetch_push_new, rfl⟩))
  | setEntry m => exact .inl hy

/-! ## Nothing is listed twice -/

/-- The ids in a record are in the order in which they were given. -/
structure Ascending (d : Draft) : Prop where
  fields : ∀ c x, d.cls c = .ok x → x.fields.Pairwise (· < ·)
  methods : ∀ c x, d.cls c = .ok x → (x.methods.map Prod.snd).Pairwise (· < ·)
  vars : ∀ m y, d.method m = .ok y → y.vars.toList.Pairwise (· < ·)

theorem ascending_startVars (d : Draft) (params : List String) (isStatic : Bool) :
    (d.startVars params isStatic).Pairwise (· < ·) :=
  List.pairwise_map.2 List.pairwise_lt_range'

theorem Ascending.grows (h : d.Ascending) (hd : d.Owned) (hgrows : d.Grows e) : e.Ascending := by
  refine ⟨fun c x hx => ?_, fun c x hx => ?_, fun m y hy => ?_⟩
  · obtain ⟨x₀, hx₀ | ⟨hnone, -⟩, hfields | hfields, -⟩ := hgrows.members_cases hx <;> rw [hfields]
    · exact h.fields c x₀ hx₀
    · refine Id.ascending_concat (h.fields c x₀ hx₀) fun f hf => ?_
      obtain ⟨z, hz, -⟩ := hd.fields c x₀ hx₀ f hf
      exact fetch_isOk_iff.1 ⟨z, hz⟩
    · rw [hnone]
      exact .nil
    · rw [hnone]
      exact List.pairwise_singleton _ _
  · obtain ⟨x₀, hx₀ | ⟨-, hnone⟩, -, hmethods | ⟨sig, hmethods⟩⟩ :=
      hgrows.members_cases hx <;> rw [hmethods]
    · exact h.methods c x₀ hx₀
    · rw [List.map_append, List.map_singleton]
      refine Id.ascending_concat (h.methods c x₀ hx₀) fun m hm => ?_
      obtain ⟨p, hp, rfl⟩ := List.mem_map.1 hm
      obtain ⟨y, hy, -⟩ := hd.methods c x₀ hx₀ p hp
      exact fetch_isOk_iff.1 ⟨y, hy⟩
    · rw [hnone]
      exact .nil
    · rw [hnone]
      exact List.pairwise_singleton _ _
  · obtain hy | ⟨y₀, hy₀, rfl⟩ | ⟨y₀, stmt, hy₀, -, rfl⟩ | ⟨c, name, params, isStatic,
        isAbstract, rfl⟩ :=
      hgrows.method_cases hy
    · exact h.vars m y hy
    · rw [Array.toList_push]
      refine Id.ascending_concat (h.vars m y₀ hy₀) fun v hv => ?_
      exact (hd.vars m y₀ hy₀ v hv).has
    · exact h.vars m y₀ hy₀
    · rw [newMethod, List.toList_toArray]
      exact d.ascending_startVars params isStatic

theorem Built.ascending (h : d.Built) : d.Ascending := by
  induction h with
  | refl =>
    refine ⟨fun c x hx => ?_, fun c x hx => ?_, fun m y hy => ?_⟩
    · exact absurd hx fetch_empty_ne_ok
    · exact absurd hx fetch_empty_ne_ok
    · exact absurd hy fetch_empty_ne_ok
  | tail hbuilt hgrows ih => exact ih.grows (Built.owned hbuilt) hgrows

/-- The methods of a class by their subsignatures, each of which stands once. -/
theorem Built.nodup_sigs (h : d.Built) {c : ClassId} {x : Class} (hx : d.cls c = .ok x) :
    (x.methods.map Prod.fst).Nodup := by
  have hids : (x.methods.map Prod.snd).Nodup := Id.nodup_of_ascending (h.ascending.methods c x hx)
  refine (List.nodup_map_iff_inj_on (.of_map _ hids)).2 fun p hp q hq hsig => ?_
  obtain ⟨y, hy, hc, hsig₁⟩ := h.owned.methods c x hx p hp
  obtain ⟨y', hy', hc', hsig₂⟩ := h.owned.methods c x hx q hq
  have hid : p.2 = q.2 :=
    h.distinct.methods _ _ y y' hy hy' (hc.trans hc'.symm) (by rw [hsig₁, hsig₂, hsig])
  exact Prod.ext hsig hid

theorem Built.method?_eq_some_iff (h : d.Built) {c : ClassId} {x : Class} (hx : d.cls c = .ok x)
    {sig : Subsig} {m : MethodId} : x.method? sig = some m ↔ (sig, m) ∈ x.methods := by
  rw [Class.method?]
  refine ⟨mem_of_lookup_eq_some, fun hmem => ?_⟩
  cases hlookup : x.methods.lookup sig with
  | none => simpa using List.lookup_eq_none_iff.1 hlookup _ hmem
  | some m' =>
    have heq := List.inj_on_of_nodup_map (h.nodup_sigs hx) (mem_of_lookup_eq_some hlookup) hmem rfl
    rw [Prod.mk.injEq] at heq
    rw [heq.2]

/-! ## Receivers and parameters -/

theorem headed_newMethod (d : Draft) (c : ClassId) (name : String) (params : List String)
    (isStatic isAbstract : Bool) : (d.newMethod c name params isStatic isAbstract).Headed := by
  have hnodup : (d.startVars params isStatic).Nodup :=
    Id.nodup_of_ascending (d.ascending_startVars params isStatic)
  refine ⟨hnodup.sublist (List.drop_sublist _ _), fun v hv => ⟨?_, ?_⟩, fun v hv => ?_, ?_⟩
  · rw [newMethod, List.toList_toArray]
    exact mem_startVars_of_params hv
  · cases isStatic with
    | true => exact fun hthis => by cases hthis
    | false =>
      -- the receiver comes first, and the parameters are the rest
      rw [startVars, startNames, List.length_append] at hnodup
      simp [newMethod, startVars, startNames, List.range'_succ] at hv hnodup ⊢
      grind
  · rw [newMethod, List.toList_toArray]
    exact mem_startVars_of_this hv
  · cases isStatic <;> simp [newMethod, startVars, startNames]

theorem Built.headed (h : d.Built) {m : MethodId} {y : Method} (hy : d.method m = .ok y) :
    y.Headed := by
  induction h generalizing m y with
  | refl => exact absurd hy fetch_empty_ne_ok
  | @tail d₀ e _ hgrows ih =>
    obtain hy | ⟨y₀, hy₀, rfl⟩ | ⟨y₀, stmt, hy₀, -, rfl⟩ | ⟨c, name, params, isStatic,
        isAbstract, rfl⟩ :=
      hgrows.method_cases hy
    · exact ih hy
    · obtain ⟨hdistinct, hparams, hreceiver, hthis⟩ := ih hy₀
      refine ⟨hdistinct, fun v hv => ⟨?_, (hparams v hv).2⟩, fun v hv => ?_, hthis⟩
      · rw [Array.toList_push]
        exact List.mem_append_left _ (hparams v hv).1
      · rw [Array.toList_push]
        exact List.mem_append_left _ (hreceiver v hv)
    · exact ⟨(ih hy₀).distinct, (ih hy₀).params, (ih hy₀).receiver, (ih hy₀).this⟩
    · exact d₀.headed_newMethod c name params isStatic isAbstract

/-! ## Returned variables -/

/-- The variable that a statement returns. -/
def returnedBy? (d : Draft) (s : StmtId) : Option VarId :=
  (d.stmts[s.index]?).bind fun x => x.stmt.returned?

theorem returnedBy?_of_placed {s : StmtId} {x : Placed} (hx : d.placed s = .ok x) :
    d.returnedBy? s = x.stmt.returned? := by
  rw [returnedBy?, fetch_eq_ok_iff.1 hx, Option.bind_some]

theorem Grows.placed (h : d.Grows e) {s : StmtId} {x : Placed} (hx : d.placed s = .ok x) :
    e.placed s = .ok x := by
  cases h with
  | internClass name => exact (keeps_internClass d name).placed hx
  | declareClass heq => exact (keeps_declareClass heq).placed hx
  | addField heq => exact (keeps_addField heq).placed hx
  | addMethod heq => exact (keeps_addMethod heq).placed hx
  | internVar heq => exact (keeps_internVar heq).placed hx
  | pushStmt heq => exact (keeps_pushStmt heq).placed hx
  | setEntry m => exact hx

theorem eraseDups_concat {α : Type} [DecidableEq α] (as : List α) (a : α) :
    (as ++ [a]).eraseDups = addNew as.eraseDups a := by
  rw [List.eraseDups_append, addNew]
  simp only [List.mem_eraseDups]
  split
  next ha => simp [List.removeAll, ha]
  next ha => simp [List.removeAll, ha, List.eraseDups_cons]

/-- A method lists the variables that its statements return, each where it is first returned. -/
theorem Built.returns_eq (h : d.Built) {m : MethodId} {y : Method} (hy : d.method m = .ok y) :
    y.returns = (y.stmts.toList.filterMap d.returnedBy?).eraseDups := by
  induction h generalizing m y with
  | refl => exact absurd hy fetch_empty_ne_ok
  | @tail d₀ e hbuilt hgrows ih =>
    -- the statements that a method had before return what they returned
    have hkept : ∀ {y₀ : Method}, d₀.method m = .ok y₀ →
        y₀.stmts.toList.filterMap e.returnedBy? = y₀.stmts.toList.filterMap d₀.returnedBy? := by
      intro y₀ hy₀
      refine List.filterMap_congr fun s hs => ?_
      obtain ⟨i, hi⟩ := List.mem_iff_getElem?.1 hs
      rw [Array.getElem?_toList] at hi
      obtain ⟨stmt, hstmt⟩ := (Built.filed hbuilt).listed m y₀ i s hy₀ hi
      rw [returnedBy?_of_placed hstmt, returnedBy?_of_placed (hgrows.placed hstmt)]
    obtain hy | ⟨y₀, hy₀, rfl⟩ | ⟨y₀, stmt, hy₀, hplaced, rfl⟩ | ⟨c, name, params, isStatic,
        isAbstract, rfl⟩ :=
      hgrows.method_cases hy
    · rw [hkept hy, ih hy]
    · exact (ih hy₀).trans (congrArg List.eraseDups (hkept hy₀).symm)
    · simp only [Method.returnsWith_eq, Array.toList_push, List.filterMap_append, hkept hy₀,
        List.filterMap_cons, List.filterMap_nil, returnedBy?_of_placed hplaced, ih hy₀]
      cases stmt.returned? with
      | none => simp
      | some v => exact (eraseDups_concat _ v).symm
    · rfl

/-! ## Looking up variables -/

/-- Among the variables of a method, the one of a name is found. -/
theorem Built.findVar_eq (h : d.Built) {m : MethodId} (hm : d.Has m) (name : String) :
    d.findVar m name = .ok ((d.vars.find? (m, name)).map Id.mk) := by
  obtain ⟨y, hy⟩ := exists_method_iff.2 hm
  have hnamed : ∀ v ∈ y.vars, (d.vars.items[v.index]?.any fun x => x.name = name) = true ↔
      d.var v = .ok ⟨name, m⟩ := by
    intro v hv
    obtain ⟨⟨name', m'⟩, hx, rfl⟩ := h.owned.vars m y hy v (Array.mem_def.1 hv)
    rw [fetch_eq_ok_iff.1 hx, hx]
    simp
  rw [findVar, hy]
  refine congrArg Except.ok ?_
  cases hfind : d.vars.find? (m, name) with
  | none =>
    refine Array.find?_eq_none.2 fun v hv hname => ?_
    have hv := var_eq_ok_iff_find?.1 ((hnamed v hv).1 hname)
    rw [hfind] at hv
    cases hv
  | some i =>
    have hvar : d.var ⟨i⟩ = .ok ⟨name, m⟩ := var_eq_ok_iff_find?.2 hfind
    obtain ⟨y', hy', hmem⟩ := h.listed.vars ⟨i⟩ _ hvar
    cases hy.symm.trans hy'
    have hmem := Array.mem_def.2 hmem
    cases hfound : y.vars.find? fun v => d.vars.items[v.index]?.any fun x => x.name = name with
    | none => exact absurd ((hnamed _ hmem).2 hvar) (Array.find?_eq_none.1 hfound _ hmem)
    | some v =>
      have hname :=
        Array.find?_some (p := fun v : VarId => d.vars.items[v.index]?.any
          fun x => x.name = name) hfound
      have hv : d.var v = .ok ⟨name, m⟩ := (hnamed v (Array.mem_of_find?_eq_some hfound)).1 hname
      rw [var_unique hv hvar]
      rfl

/-- A variable that is asked for is the one that is found under its name, before or at least
afterwards. -/
theorem Built.exists_internVar (h : d.Built) {m : MethodId} (hm : d.Has m) (name : String) :
    ∃ v e, d.internVar m name = .ok (v, e) ∧ e.findVar m name = .ok (some v) ∧
      (d.findVar m name = .ok (some v) ∧ e = d ∨ d.findVar m name = .ok none ∧ ¬ d.Has v) := by
  cases hfind : d.vars.find? (m, name) with
  | some i =>
    have hvar : d.var ⟨i⟩ = .ok ⟨name, m⟩ := var_eq_ok_iff_find?.2 hfind
    have hfound : d.findVar m name = .ok (some ⟨i⟩) := by rw [h.findVar_eq hm, hfind]; rfl
    exact ⟨⟨i⟩, d, internVar_eq_ok_iff.2 ⟨hm, .inl ⟨hvar, rfl⟩⟩, hfound, .inl ⟨hfound, rfl⟩⟩
  | none =>
    have hnew : ∀ w, d.var w ≠ .ok ⟨name, m⟩ := by
      intro w hw
      rw [var_eq_ok_iff_find?, hfind] at hw
      cases hw
    have hintern := internVar_eq_ok_iff.2 ⟨hm, .inr ⟨hnew, rfl, rfl⟩⟩
    refine ⟨_, _, hintern, ?_, .inr ⟨by rw [h.findVar_eq hm, hfind]; rfl, Nat.lt_irrefl _⟩⟩
    have hbuilt : Built _ := h.tail (.internVar hintern)
    have hvar := var_of_internVar hintern
    obtain ⟨y, hy, -⟩ := hbuilt.listed.vars _ _ hvar
    rw [hbuilt.findVar_eq (exists_method_iff.1 ⟨y, hy⟩), var_eq_ok_iff_find?.1 hvar]
    rfl

/-! ## All tables together -/

/-- What the records of classes and methods list is what belongs to them, each thing once, and names
tell apart what belongs to the same class or method. -/
structure Consistent (d : Draft) : Prop where
  classes : ∀ name c, d.findClass? name = some c ↔ ∃ x, d.cls c = .ok x ∧ x.name = name
  methods : ∀ c sig m, (∃ x, d.cls c = .ok x ∧ x.method? sig = some m) ↔
    ∃ y, d.method m = .ok y ∧ y.cls = c ∧ y.sig = sig
  nodup_sigs : ∀ c x, d.cls c = .ok x → (x.methods.map Prod.fst).Nodup
  fields : ∀ c f, (∃ x, d.cls c = .ok x ∧ f ∈ x.fields) ↔ ∃ z, d.field f = .ok z ∧ z.cls = c
  nodup_fields : ∀ c x, d.cls c = .ok x → x.fields.Nodup
  field_names : ∀ f f' z z', d.field f = .ok z → d.field f' = .ok z' → z.cls = z'.cls →
    z.name = z'.name → f = f'
  vars : ∀ m v, (∃ y, d.method m = .ok y ∧ v ∈ y.vars.toList) ↔ ∃ z, d.var v = .ok z ∧ z.method = m
  nodup_vars : ∀ m y, d.method m = .ok y → y.vars.toList.Nodup
  var_names : ∀ v v' z z', d.var v = .ok z → d.var v' = .ok z' → z.method = z'.method →
    z.name = z'.name → v = v'
  findVar : ∀ m name, d.Has m → ∃ v e, d.internVar m name = .ok (v, e) ∧
    e.findVar m name = .ok (some v) ∧
    (d.findVar m name = .ok (some v) ∧ e = d ∨ d.findVar m name = .ok none ∧ ¬ d.Has v)
  headed : ∀ m y, d.method m = .ok y → y.Headed
  stmts : ∀ s m i, (∃ stmt, d.placed s = .ok ⟨stmt, m, i⟩) ↔
    ∃ y, d.method m = .ok y ∧ y.stmts[i]? = some s
  returns : ∀ m y, d.method m = .ok y →
    y.returns = (y.stmts.toList.filterMap d.returnedBy?).eraseDups

theorem Built.methods_iff (h : d.Built) (c : ClassId) (sig : Subsig) (m : MethodId) :
    (∃ x, d.cls c = .ok x ∧ x.method? sig = some m) ↔
      ∃ y, d.method m = .ok y ∧ y.cls = c ∧ y.sig = sig := by
  constructor
  · rintro ⟨x, hx, hm⟩
    exact h.owned.methods c x hx _ ((h.method?_eq_some_iff hx).1 hm)
  · rintro ⟨y, hy, rfl, rfl⟩
    obtain ⟨x, hx, hm⟩ := h.listed.methods m y hy
    exact ⟨x, hx, (h.method?_eq_some_iff hx).2 hm⟩

theorem Built.fields_iff (h : d.Built) (c : ClassId) (f : FieldId) :
    (∃ x, d.cls c = .ok x ∧ f ∈ x.fields) ↔ ∃ z, d.field f = .ok z ∧ z.cls = c := by
  constructor
  · rintro ⟨x, hx, hf⟩
    exact h.owned.fields c x hx f hf
  · rintro ⟨z, hz, rfl⟩
    exact h.listed.fields f z hz

theorem Built.vars_iff (h : d.Built) (m : MethodId) (v : VarId) :
    (∃ y, d.method m = .ok y ∧ v ∈ y.vars.toList) ↔ ∃ z, d.var v = .ok z ∧ z.method = m := by
  constructor
  · rintro ⟨y, hy, hv⟩
    exact h.owned.vars m y hy v hv
  · rintro ⟨z, hz, rfl⟩
    exact h.listed.vars v z hz

theorem Built.stmts_iff (h : d.Built) (s : StmtId) (m : MethodId) (i : Nat) :
    (∃ stmt, d.placed s = .ok ⟨stmt, m, i⟩) ↔ ∃ y, d.method m = .ok y ∧ y.stmts[i]? = some s := by
  constructor
  · rintro ⟨stmt, hs⟩
    exact h.filed.stands s _ hs
  · rintro ⟨y, hy, hs⟩
    exact h.filed.listed m y i s hy hs

theorem Built.consistent (h : d.Built) : d.Consistent where
  classes _ _ := findClass?_eq_some_iff
  methods := h.methods_iff
  nodup_sigs _ _ hx := h.nodup_sigs hx
  fields := h.fields_iff
  nodup_fields c x hx := Id.nodup_of_ascending (h.ascending.fields c x hx)
  field_names := h.distinct.fields
  vars := h.vars_iff
  nodup_vars m y hy := Id.nodup_of_ascending (h.ascending.vars m y hy)
  var_names v v' z z' hz hz' hm hname := by
    have heq : z = z' := by
      cases z
      cases z'
      simp_all
    exact var_unique hz (heq ▸ hz')
  findVar _ name hm := h.exists_internVar hm name
  headed _ _ hy := h.headed hy
  stmts := h.stmts_iff
  returns _ _ hy := h.returns_eq hy

/-- Operations in any order, failing ones among them, lead to tables that are consistent, and
sealing keeps them. -/
theorem consistent_of_performAll {ops : List Operation} (h : performAll ops = .ok d) :
    d.Consistent ∧ ∀ p, d.seal = .ok p → p.toDraft = d := by
  have hbuilt : d.Built := Built.performs .refl h
  exact ⟨hbuilt.consistent, fun p hseal => (seal_spec hseal).1⟩

/-- A class is declared twice, a field, a method and a parameter are given twice, and a method
returns the same variable twice. -/
def sampleOperations : List Operation :=
  [.declareClass "A" {}, .internClass "B", .declareClass "A" { isAbstract := true },
    .addField ⟨0⟩ "f" false,
    .addField ⟨0⟩ "f" true, .addMethod ⟨0⟩ "m" ["p"] false false,
    .addMethod ⟨0⟩ "m" ["q"] true false,
    .addMethod ⟨1⟩ "n" ["p", "p"] true false, .internVar ⟨0⟩ "x", .internVar ⟨0⟩ "p",
    .pushStmt ⟨0⟩ (.ret (some ⟨2⟩)),
    .pushStmt ⟨0⟩ (.ret (some ⟨1⟩)), .pushStmt ⟨0⟩ (.ret (some ⟨2⟩)), .findMethods "A" "m",
    .setEntry ⟨0⟩]

theorem sampleOperations_consistent :
    ∃ d, performAll sampleOperations = .ok d ∧ d.classes.size = 2 ∧ d.fields.size = 1 ∧
      d.methods.size = 1 ∧
      d.Consistent ∧ ∀ p, d.seal = .ok p → p.toDraft = d := by
  obtain ⟨d, hd, hsizes⟩ : ∃ d, performAll sampleOperations = .ok d ∧
      (d.classes.size = 2 ∧ d.fields.size = 1 ∧ d.methods.size = 1) := ⟨_, rfl, rfl, rfl, rfl⟩
  exact ⟨d, hd, hsizes.1, hsizes.2.1, hsizes.2.2, consistent_of_performAll hd⟩

end Draft

end PointsTo
