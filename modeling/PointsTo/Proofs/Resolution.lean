import PointsTo.Proofs.Outline
import PointsTo.Proofs.Reading

/-!
# Resolving names

Entering a command looks up its names one after the other. It succeeds exactly if none of them is a
keyword (`Resolves`); what is new afterwards are mentioned classes and variables of the method
(`Mentions`), and the statement that comes out, written by names, is the command again. `Meets` is
the form of all such statements: a step succeeds exactly under a condition, and what it leads to has
a property.
-/

namespace PointsTo

open Text

namespace Text.Entering

variable {α β : Type}

/-- From a draft, a step succeeds exactly under a condition, and what it returns and leads to has a
property. -/
structure Meets (x : Entering α) (d : Draft) (cond : Prop) (post : α → Draft → Prop) : Prop where
  succeeds : cond → ∃ a e, x.run d = .ok (a, e)
  run : ∀ {a e}, x.run d = .ok (a, e) → cond ∧ post a e

namespace Meets

variable {x : Entering α} {f : α → Entering β} {d : Draft} {p q : Prop} {P P' : α → Draft → Prop}
  {Q : β → Draft → Prop}

theorem pure {a : α} (h : P a d) : Meets (Pure.pure a) d True P where
  succeeds _ := ⟨a, d, rfl⟩
  run hrun := by
    cases hrun
    exact ⟨trivial, h⟩

theorem throw {e : ParseError} : Meets (throw e) d False P where
  succeeds h := h.elim
  run hrun := by cases hrun

theorem bind (hx : Meets x d p P) (hf : ∀ a e, P a e → Meets (f a) e q Q) :
    Meets (x >>= f) d (p ∧ q) Q where
  succeeds h := by
    obtain ⟨a, e, hrun⟩ := hx.succeeds h.1
    obtain ⟨b, e', hrun'⟩ := (hf a e (hx.run hrun).2).succeeds h.2
    refine ⟨b, e', ?_⟩
    rw [StateT.run_bind, hrun]
    exact hrun'
  run {b e'} hrun := by
    rw [StateT.run_bind] at hrun
    obtain ⟨⟨a, e⟩, hrun, hrun'⟩ := bind_eq_ok.1 hrun
    obtain ⟨hp, ha⟩ := hx.run hrun
    obtain ⟨hq, hb⟩ := (hf a e ha).run hrun'
    exact ⟨⟨hp, hq⟩, hb⟩

theorem imp (hx : Meets x d p P) (hcond : p ↔ q) (hpost : ∀ a e, p → P a e → P' a e) :
    Meets x d q P' where
  succeeds h := hx.succeeds (hcond.2 h)
  run hrun := ⟨hcond.1 (hx.run hrun).1, hpost _ _ (hx.run hrun).1 (hx.run hrun).2⟩

theorem build {grow : Draft → Except BuildError (α × Draft)} :
    Meets (Entering.build grow) d (∃ r, grow d = .ok r) fun a e => grow d = .ok (a, e) where
  succeeds := by
    rintro ⟨⟨a, e⟩, h⟩
    exact ⟨a, e, Draft.mapError_eq_ok_iff.2 h⟩
  run hrun := by
    have h := Draft.mapError_eq_ok_iff.1 hrun
    exact ⟨⟨_, h⟩, h⟩

/-- A loop whose steps keep an invariant of what was gone through. A step succeeds if its value is
admissible and goes well with those before it. -/
theorem forM_of {f : α → Entering Unit} {I : List α → Draft → Prop} {ok : α → Prop}
    {R : α → α → Prop}
    (hstep : ∀ before a d, I before d →
      Meets (f a) d (ok a ∧ ∀ b ∈ before, R b a) fun _ => I (before ++ [a]))
    (before as : List α) (hd : I before d) :
    Meets (as.forM f) d ((∀ a ∈ as, ok a) ∧ as.Pairwise R ∧ ∀ b ∈ before, ∀ a ∈ as, R b a) fun _ =>
      I (before ++ as) := by
  induction as generalizing before d with
  | nil =>
    refine (Meets.pure (P := fun _ => I before) hd).imp ?_ fun _ e _ h => ?_
    · simp
    · rwa [List.append_nil]
  | cons a as ih =>
    refine ((hstep before a d hd).bind fun _ e he => ih (before ++ [a]) he).imp ?_ fun _ e _ h => ?_
    · simp only [List.forall_mem_cons, List.pairwise_cons, List.forall_mem_append, forall_and]
      tauto
    · rwa [List.append_assoc] at h

theorem forM {f : α → Entering Unit} {I : List α → Draft → Prop} {ok : α → Prop} {R : α → α → Prop}
    (hstep : ∀ before a d, I before d →
      Meets (f a) d (ok a ∧ ∀ b ∈ before, R b a) fun _ => I (before ++ [a]))
    (as : List α) (hd : I [] d) :
    Meets (as.forM f) d ((∀ a ∈ as, ok a) ∧ as.Pairwise R) fun _ => I as :=
  (forM_of hstep [] as hd).imp (by simp) fun _ _ _ h => h

end Meets

end Text.Entering

namespace Draft

variable {d e f : Draft} {m : Option MethodId} {cs cs' vs vs' : List String}

/-- What names stand for in one draft, they stand for in the other. -/
structure Knows (d e : Draft) : Prop where
  names : ∀ {n c}, d.findClass? n = some c → e.findClass? n = some c
  var : ∀ {v x}, d.var v = .ok x → e.var v = .ok x

theorem Knows.refl (d : Draft) : d.Knows d := ⟨id, id⟩

theorem Knows.trans (h : d.Knows e) (h' : e.Knows f) : d.Knows f :=
  ⟨fun hn => h'.names (h.names hn), fun hv => h'.var (h.var hv)⟩

theorem Keeps.knows {cs : Set ClassId} {ms : Set MethodId} {ns : List String}
    (h : d.Keeps cs ms ns e) : d.Knows e :=
  ⟨h.names, h.var⟩

theorem Knows.varText (h : d.Knows e) {v : VarId} {x : Var} (hv : d.var v = .ok x) :
    e.varText v = x.name :=
  varText_of_var (h.var hv)

theorem Knows.classText (h : d.Knows e) {n : String} {c : ClassId} (hc : d.findClass? n = some c) :
    e.classText c = n := by
  obtain ⟨x, hx, hname⟩ := findClass?_eq_some_iff.1 (h.names hc)
  rw [classText_of_cls hx, hname]

/-- Some classes and some variables of a method were mentioned, in this order. -/
structure Mentions (m : Option MethodId) (cs vs : List String) (d e : Draft) : Prop where
  regular : e.Regular
  keeps : d.Keeps ∅ {x | x ∈ m} cs e
  classes : ∀ n ∈ cs, ∃ c, e.findClass? n = some c
  method : ∀ x ∈ m, ∀ y, d.method x = .ok y →
    ∃ vars : Array VarId, e.method x = .ok { y with vars } ∧
    vars.toList.map e.varText = vs.foldl addNew (y.vars.toList.map d.varText)

theorem Mentions.refl (hd : d.Regular) : d.Mentions m [] [] d where
  regular := hd
  keeps := .refl d
  classes _ hn := absurd hn List.not_mem_nil
  method _ _ y hy := ⟨y.vars, hy, rfl⟩

theorem Mentions.trans (h : d.Mentions m cs vs e) (h' : e.Mentions m cs' vs' f) :
    d.Mentions m (cs ++ cs') (vs ++ vs') f where
  regular := h'.regular
  keeps := h.keeps.trans h'.keeps
  classes n hn := by
    obtain hn | hn := List.mem_append.1 hn
    · obtain ⟨c, hc⟩ := h.classes n hn
      exact ⟨c, h'.keeps.names hc⟩
    · exact h'.classes n hn
  method x hx y hy := by
    obtain ⟨vars, hvars, heq⟩ := h.method x hx y hy
    obtain ⟨vars', hvars', heq'⟩ := h'.method x hx _ hvars
    exact ⟨vars', hvars', by rw [heq', heq, List.foldl_append]⟩

theorem mentions_internClass (hd : d.Regular) (n : String) :
    d.Mentions m [n] [] (d.internClass n).2 := by
  have hkeeps := keeps_internClass d n
  refine ⟨(hd.internClass n).1, hkeeps.mono subset_rfl (Set.empty_subset _) (List.Subset.refl _),
    fun n' hn' => ?_, fun x _ y hy => ⟨y.vars, hkeeps.method id hy, ?_⟩⟩
  · cases List.mem_singleton.1 hn'
    exact ⟨_, findClass?_internClass d n⟩
  · exact List.map_congr_left fun v hv => hkeeps.varText
      ((hd.inRange.within_of_method hy).vars v hv)

theorem mentions_internVar (hd : d.Regular) {x : MethodId} {n : String} {v : VarId}
    (h : d.internVar x n = .ok (v, e)) : d.Mentions (some x) [] [n] e := by
  have hkeeps : d.Keeps ∅ {x' | x' ∈ some x} [] e :=
    (keeps_internVar h).mono subset_rfl (fun _ hx => (congrArg some hx).symm) (List.Subset.refl _)
  refine ⟨(hd.internVar h).1, hkeeps, fun _ hn => absurd hn List.not_mem_nil, ?_⟩
  rintro _ ⟨⟩ y hy
  rw [List.foldl_cons, List.foldl_nil, addNew]
  have hvar := var_of_internVar h
  obtain ⟨-, ⟨hv, rfl⟩ | ⟨hnew, rfl, rfl⟩⟩ := internVar_eq_ok_iff.1 h
  · -- a variable that is there is among those of the method
    obtain ⟨y', hy', hmem⟩ := hd.built.listed.vars v _ hv
    cases hy.symm.trans hy'
    refine ⟨y.vars, hy, ?_⟩
    rw [if_pos (List.mem_map.2 ⟨v, hmem, varText_of_var hv⟩)]
  · refine ⟨_, fetch_modify_self hy, ?_⟩
    have hold : y.vars.toList.map (varText _) = y.vars.toList.map d.varText :=
      List.map_congr_left fun w hw => hkeeps.varText ((hd.inRange.within_of_method hy).vars w hw)
    rw [if_neg, Array.toList_push, List.map_append, List.map_singleton, varText_of_var hvar, hold]
    intro hmem
    obtain ⟨w, hw, hname⟩ := List.mem_map.1 hmem
    obtain ⟨⟨n', _⟩, hz, rfl⟩ := hd.built.owned.vars x y hy w hw
    rw [varText_of_var hz] at hname
    exact hnew w (hname ▸ hz)

end Draft

namespace Text.Entering

variable {α β : Type} {m : Option MethodId} {d₀ : Draft} {names names' : List Name}
  {cs cs' vs vs' : List String} {P : Draft → α → Prop} {Q : Draft → β → Prop}

/-- In a draft that knows `d₀`, a step succeeds exactly if none of some names is a keyword. It
mentions some classes and some variables of a method, and what it returns has a property that may
speak of the new draft. -/
def Resolves (m : Option MethodId) (d₀ : Draft) (x : Entering α) (names : List Name)
    (cs vs : List String) (P : Draft → α → Prop) : Prop :=
  ∀ d, d₀.Knows d → d.Regular → (∀ m' ∈ m, d.Has m') →
    Meets x d (∀ n ∈ names, n.text ∉ keywords) fun a e => d.Mentions m cs vs e ∧ P e a

namespace Resolves

theorem pure {a : α} (h : ∀ d, d₀.Knows d → P d a) : Resolves m d₀ (Pure.pure a) [] [] [] P := by
  intro d hknows hd _
  exact (Meets.pure ⟨.refl hd, h d hknows⟩).imp (by simp) fun _ _ _ => id

theorem bind {x : Entering α} {f : α → Entering β} (hx : Resolves m d₀ x names cs vs P)
    (hf : ∀ a d₁, d₀.Knows d₁ → P d₁ a → Resolves m d₁ (f a) names' cs' vs' Q) :
    Resolves m d₀ (x >>= f) (names ++ names') (cs ++ cs') (vs ++ vs') Q := by
  intro d hknows hd hm
  have hrest : ∀ a e, d.Mentions m cs vs e ∧ P e a →
      Meets (f a) e (∀ n ∈ names', n.text ∉ keywords)
      fun b e' => d.Mentions m (cs ++ cs') (vs ++ vs') e' ∧ Q e' b := by
    rintro a e ⟨hmentions, ha⟩
    have hknows' := hknows.trans hmentions.keeps.knows
    have hm' : ∀ m' ∈ m, e.Has m' := by
      intro m' hm'
      obtain ⟨y, hy⟩ := Draft.exists_method_iff.2 (hm m' hm')
      obtain ⟨vars, hvars, -⟩ := hmentions.method m' hm' y hy
      exact Draft.exists_method_iff.1 ⟨_, hvars⟩
    refine (hf a e hknows' ha e (.refl e) hmentions.regular hm').imp Iff.rfl fun b e' _ h => ?_
    exact ⟨hmentions.trans h.1, h.2⟩
  exact ((hx d hknows hd hm).bind hrest).imp List.forall_mem_append.symm fun _ _ _ => id

theorem map {x : Entering α} {g : α → β} (hx : Resolves m d₀ x names cs vs P)
    (hg : ∀ a d, d₀.Knows d → P d a → Q d (g a)) :
    Resolves m d₀ (x >>= fun a => Pure.pure (g a)) names cs vs Q := by
  intro d hknows hd hm
  refine ((hx d hknows hd hm).bind
    fun a e h => Meets.pure (P := fun b e => d.Mentions m cs vs e ∧ Q e b) ?_).imp
    (.of_eq (and_true _)) fun _ _ _ => id
  exact ⟨h.1, hg a e (hknows.trans h.1.keeps.knows) h.2⟩

theorem of_eq {x : Entering α} (hx : Resolves m d₀ x names cs vs P) (hnames : names = names')
    (hcs : cs = cs') (hvs : vs = vs') : Resolves m d₀ x names' cs' vs' P :=
  hnames ▸ hcs ▸ hvs ▸ hx

section Lists

variable {f : α → Entering β} {N : α → List Name} {C V : α → List String} {R : α → Draft → β → Prop}

theorem mapM (hf : ∀ a d₁, Resolves m d₁ (f a) (N a) (C a) (V a) (R a))
    (hR : ∀ a d e b, d.Knows e → R a d b → R a e b) (as : List α) :
    Resolves m d₀ (as.mapM f) (as.flatMap N) (as.flatMap C) (as.flatMap V)
      fun e bs => List.Forall₂ (fun a b => R a e b) as bs := by
  induction as generalizing d₀ with
  | nil =>
    rw [List.mapM_nil]
    exact .pure fun _ _ => .nil
  | cons a as ih =>
    rw [List.mapM_cons]
    refine .bind (hf a d₀) fun b d₁ _ hb => ?_
    exact .map ih fun bs d hd hbs => .cons (hR a d₁ d b hd hb) hbs

theorem optional (hf : ∀ a d₁, Resolves m d₁ (f a) (N a) (C a) (V a) (R a)) (o : Option α) :
    Resolves m d₀ (Entering.optional f o) (o.toList.flatMap N) (o.toList.flatMap C)
      (o.toList.flatMap V) fun e r => Option.Rel (fun a b => R a e b) o r := by
  cases o with
  | none => exact .pure fun _ _ => .none
  | some a =>
    simp only [Option.toList_some, List.flatMap_singleton]
    exact .map (hf a d₀) fun b d _ hb => .some hb

end Lists

end Resolves

/-! ## Names -/

theorem meets_name (n : Name) (d : Draft) :
    Meets (name n) d (n.text ∉ keywords) fun a e => a = n.text ∧ e = d := by
  rw [name]
  split
  next h => exact Meets.throw.imp (by simpa using h) fun _ _ _ => id
  next h => exact (Meets.pure ⟨rfl, rfl⟩).imp (by simpa using h) fun _ _ _ => id

theorem resolves_name (n : Name) : Resolves m d₀ (name n) [n] [] [] fun _ a => a = n.text := by
  intro d _ hd _
  refine (meets_name n d).imp (by simp) ?_
  rintro _ _ - ⟨rfl, rfl⟩
  exact ⟨.refl hd, rfl⟩

theorem resolves_cls (n : Name) :
    Resolves m d₀ (cls n) [n] [n.text] [] fun e c => e.findClass? n.text = some c := by
  intro d _ hd _
  have hintern : Meets (modifyGet (·.internClass n.text)) d True fun c e => (c, e) =
      d.internClass n.text :=
    ⟨fun _ => ⟨_, _, rfl⟩, fun hrun => ⟨trivial, (Except.ok.inj hrun).symm⟩⟩
  refine ((meets_name n d).bind (q := True) ?_).imp (by simp) fun c e _ h => h
  rintro _ e ⟨rfl, heq⟩
  rw [heq]
  refine hintern.imp Iff.rfl fun c e _ h => ?_
  obtain ⟨rfl, rfl⟩ := Prod.ext_iff.1 h
  exact ⟨Draft.mentions_internClass hd n.text, Draft.findClass?_internClass d n.text⟩

theorem resolves_var (x : MethodId) (n : Name) :
    Resolves (some x) d₀ (var x n) [n] [] [n.text] fun e v => e.var v = .ok ⟨n.text, x⟩ := by
  intro d _ hd hx
  refine ((meets_name n d).bind (q := True) ?_).imp (by simp) fun v e _ h => h
  rintro _ e ⟨rfl, heq⟩
  rw [heq]
  refine Meets.build.imp ?_ fun v e _ h => ⟨Draft.mentions_internVar hd h, Draft.var_of_internVar h⟩
  refine iff_true_intro ?_
  -- the variable is there, or else it is made
  by_cases hv : ∃ v, d.var v = .ok ⟨n.text, x⟩
  · obtain ⟨v, hv⟩ := hv
    exact ⟨(v, d), Draft.internVar_eq_ok_iff.2 ⟨hx x rfl, .inl ⟨hv, rfl⟩⟩⟩
  · exact ⟨(_, _), Draft.internVar_eq_ok_iff.2 ⟨hx x rfl, .inr ⟨not_exists.1 hv, rfl, rfl⟩⟩⟩

theorem resolves_fieldRef (q : Qualified) : Resolves m d₀ (fieldRef q) q.names [q.cls.text] []
    fun e ref => e.findClass? q.cls.text = some ref.cls ∧ ref.name = q.name.text :=
  .bind (resolves_cls q.cls) fun _ _ _ hc => .map (resolves_name q.name)
    fun _ _ hd hname => ⟨hd.names hc, hname⟩

theorem flatMap_nil_right (as : List α) : (as.flatMap fun _ => ([] : List β)) = [] :=
  List.flatMap_eq_nil_iff.2 fun _ _ => rfl

theorem resolves_vars (x : MethodId) (ns : List Name) :
    Resolves (some x) d₀ (ns.mapM (var x)) ns [] (ns.map Name.text)
      fun e vs => List.Forall₂ (fun (n : Name) v => e.var v = .ok ⟨n.text, x⟩) ns vs := by
  have h : Resolves (some x) d₀ _ _ _ _ _ :=
    .mapM (fun n d₁ => resolves_var x n) (fun _ _ _ _ hd hv => hd.var hv) ns
  rwa [List.flatMap_singleton', flatMap_nil_right, ← List.map_eq_flatMap] at h

theorem resolves_optionalVar (x : MethodId) (o : Option Name) :
    Resolves (some x) d₀ (Entering.optional (var x) o) o.toList [] (o.toList.map Name.text)
      fun e r => Option.Rel (fun (n : Name) v => e.var v = .ok ⟨n.text, x⟩) o r := by
  have h : Resolves (some x) d₀ _ _ _ _ _ := .optional (fun n d₁ => resolves_var x n) o
  rwa [List.flatMap_singleton', flatMap_nil_right, ← List.map_eq_flatMap] at h

/-! ## Commands -/

theorem map_plain_of_forall₂ {e : Draft} {x : MethodId} {ns : List Name} {vs : List VarId}
    (h : List.Forall₂ (fun (n : Name) v => e.var v = .ok ⟨n.text, x⟩) ns vs) :
    (vs.map fun v => Name.plain (e.varText v)) = ns.map Name.bare := by
  induction h with
  | nil => rfl
  | cons hv _ ih =>
    rw [List.map_cons, List.map_cons, ih, Draft.varText_of_var hv]
    rfl

theorem map_plain_of_rel {e : Draft} {x : MethodId} {o : Option Name} {r : Option VarId}
    (h : Option.Rel (fun (n : Name) v => e.var v = .ok ⟨n.text, x⟩) o r) :
    (r.map fun v => Name.plain (e.varText v)) = o.map Name.bare := by
  cases h with
  | none => rfl
  | some hv =>
    rw [Option.map_some, Option.map_some, Draft.varText_of_var hv]
    rfl

theorem rel_mono {d e : Draft} {x : MethodId} {o : Option Name} {r : Option VarId} (hd : d.Knows e)
    (h : Option.Rel (fun (n : Name) v => d.var v = .ok ⟨n.text, x⟩) o r) :
    Option.Rel (fun (n : Name) v => e.var v = .ok ⟨n.text, x⟩) o r := by
  cases h with
  | none => exact .none
  | some hv => exact .some (hd.var hv)

theorem resolves_invoke (x : MethodId) (lhs : Option VarId) (c : CallTree) :
    Resolves (some x) d₀ (invoke x lhs c) c.names [c.target.cls.text] c.vars
      fun e call => call.lhs = lhs ∧ call.tree? e.varText e.classText = some c.bare := by
  refine .of_eq (.bind (resolves_optionalVar x c.receiver) fun receiver d₁ h₁ hreceiver =>
    .bind (resolves_cls c.target.cls) fun cls d₂ h₂ hcls => .bind (resolves_name c.target.name)
    fun name d₃ h₃ hname =>
      .map (resolves_vars x c.args) fun args d h hargs => ⟨rfl, ?_⟩) ?_ ?_ ?_
  · have hreceiver' := rel_mono (h₂.trans (h₃.trans h)) hreceiver
    rw [Invoke.tree?, if_pos rfl, map_plain_of_forall₂ hargs, map_plain_of_rel hreceiver',
      (h₃.trans h).classText hcls, hname]
    rfl
  all_goals simp [CallTree.names, Qualified.names, CallTree.vars]

theorem resolves_assign {x : MethodId} {v : VarId} {n : Name} (hv : d₀.var v = .ok ⟨n.text, x⟩)
    (rhs : Expr) :
    Resolves (some x) d₀ (assign x v rhs) rhs.names rhs.classes rhs.vars
      fun e s => s.command? e.varText e.classText = some (.assign n.bare rhs.bare) := by
  cases rhs with
  | new c array =>
    refine .map (resolves_cls c) fun cls d h hcls => ?_
    rw [Stmt.command?, h.varText hv, (Draft.Knows.refl d).classText hcls]
    rfl
  | const =>
    refine .pure fun d h => ?_
    rw [Stmt.command?, h.varText hv]
    rfl
  | copy value =>
    refine .map (resolves_var x value) fun w d h hw => ?_
    rw [Stmt.command?, h.varText hv, Draft.varText_of_var hw]
    rfl
  | load base field =>
    refine .bind (resolves_var x base) fun w d₁ h₁ hw => .map (resolves_fieldRef field)
      fun ref d h href => ?_
    rw [Stmt.command?, (h₁.trans h).varText hv, h.varText hw,
      (Draft.Knows.refl d).classText href.1, href.2]
    rfl
  | loadStatic field =>
    refine .map (resolves_fieldRef field) fun ref d h href => ?_
    rw [Stmt.command?, h.varText hv, (Draft.Knows.refl d).classText href.1, href.2]
    rfl
  | loadArray base =>
    refine .map (resolves_var x base) fun w d h hw => ?_
    rw [Stmt.command?, h.varText hv, Draft.varText_of_var hw]
    rfl
  | call c =>
    refine .map (resolves_invoke x (some v) c) fun call d h hcall => ?_
    rw [Stmt.command?, hcall.2, hcall.1, Option.map_some, Option.elim_some, h.varText hv]
    rfl

theorem resolves_stmt (x : MethodId) (c : Command) :
    Resolves (some x) d₀ (stmt x c) c.names c.classes c.vars
      fun e s => s.command? e.varText e.classText = some c.bare := by
  cases c with
  | assign lhs rhs => exact .bind (resolves_var x lhs) fun v d₁ h₁ hv => resolves_assign hv rhs
  | store base field rhs =>
    refine .bind (resolves_var x base) fun v d₁ h₁ hv => .bind (resolves_fieldRef field)
        fun ref d₂ h₂ href =>
      .map (resolves_var x rhs) fun w d h hw => ?_
    rw [Stmt.command?, (h₂.trans h).varText hv, h.classText href.1, href.2, Draft.varText_of_var hw]
    rfl
  | storeStatic field rhs =>
    refine .bind (resolves_fieldRef field) fun ref d₁ h₁ href => .map (resolves_var x rhs)
      fun w d h hw => ?_
    rw [Stmt.command?, h.classText href.1, href.2, Draft.varText_of_var hw]
    rfl
  | storeArray base rhs =>
    refine .bind (resolves_var x base) fun v d₁ h₁ hv => .map (resolves_var x rhs)
      fun w d h hw => ?_
    rw [Stmt.command?, h.varText hv, Draft.varText_of_var hw]
    rfl
  | call c =>
    refine .map (resolves_invoke x none c) fun call d h hcall => ?_
    rw [Stmt.command?, hcall.2, hcall.1]
    rfl
  | ret value =>
    refine .map (resolves_optionalVar x value) fun r d h hr => ?_
    rw [Stmt.command?, map_plain_of_rel hr]
    rfl

end Text.Entering

end PointsTo
