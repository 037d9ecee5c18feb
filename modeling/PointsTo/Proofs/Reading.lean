import PointsTo.Proofs.Building
import PointsTo.Text.Read

/-!
# Programs that are read from a text

Reading a text makes only building operations whose arguments fit: every id that it puts into a
statement or a header was returned by an operation before, and every variable of a statement was
asked for in the method that the statement is put into (`Fits`). So each step of reading `Keeps` a
draft regular, and a text that is accepted gives a proper program (`Program.Proper.of_ofText`), in
which methods share no variables.
-/

namespace PointsTo

namespace Text.Entering

/-! ## What a step of reading keeps -/

variable {α β : Type} {d₀ : Draft} {P : Draft → α → Prop} {Q : Draft → β → Prop}

/-- From a regular draft that extends `d₀`, a step leads to a regular draft that extends it further,
and what it returns has a property that may speak of the new draft. -/
def Keeps (d₀ : Draft) (x : Entering α) (P : Draft → α → Prop) : Prop :=
  ∀ d a d', d.Regular → d₀.Extends d → x.run d = .ok (a, d') → d'.Regular ∧ d.Extends d' ∧ P d' a

theorem Keeps.pure {a : α} (h : ∀ d, d₀.Extends d → P d a) : Keeps d₀ (pure a) P := by
  intro d a' d' hd hext hrun
  cases hrun
  exact ⟨hd, .refl d, h d hext⟩

theorem Keeps.throw {e : ParseError} : Keeps d₀ (throw e) P := by
  intro d a d' _ _ hrun
  cases hrun

theorem Keeps.bind {x : Entering α} {f : α → Entering β} (hx : Keeps d₀ x P)
    (hf : ∀ a d₁, d₀.Extends d₁ → P d₁ a → Keeps d₁ (f a) Q) : Keeps d₀ (x >>= f) Q := by
  intro d b d' hd hext hrun
  rw [StateT.run_bind] at hrun
  obtain ⟨⟨a, d₁⟩, hrun₁, hrun₂⟩ := bind_eq_ok.1 hrun
  obtain ⟨hd₁, hext₁, ha⟩ := hx d a d₁ hd hext hrun₁
  obtain ⟨hd', hext', hb⟩ := hf a d₁ (hext.trans hext₁) ha d₁ b d' hd₁ (.refl d₁) hrun₂
  exact ⟨hd', hext₁.trans hext', hb⟩

theorem Keeps.mapM {f : α → Entering β} (hQ : ∀ d d' b, d.Extends d' → Q d b → Q d' b)
    (hf : ∀ a d₁, d₀.Extends d₁ → Keeps d₁ (f a) Q) (as : List α) :
    Keeps d₀ (as.mapM f) fun d bs => ∀ b ∈ bs, Q d b := by
  induction as generalizing d₀ with
  | nil =>
    rw [List.mapM_nil]
    exact .pure fun _ _ b hb => absurd hb List.not_mem_nil
  | cons a as ih =>
    rw [List.mapM_cons]
    refine .bind (hf a d₀ (.refl d₀)) fun b d₁ hext₁ hb => ?_
    refine .bind (ih fun a d hext => hf a d (hext₁.trans hext)) fun bs d₂ hext₂ hbs => ?_
    refine .pure fun d hext x hx => ?_
    rcases List.mem_cons.1 hx with rfl | hx
    · exact hQ d₁ d x (hext₂.trans hext) hb
    · exact hQ d₂ d x hext (hbs x hx)

theorem Keeps.forM {f : α → Entering Unit}
    (hf : ∀ a d₁, d₀.Extends d₁ → Keeps d₁ (f a) fun _ _ => True) (as : List α) :
    Keeps d₀ (as.forM f) fun _ _ => True := by
  induction as generalizing d₀ with
  | nil => exact .pure fun _ _ => trivial
  | cons a as ih =>
    refine .bind (hf a d₀ (.refl d₀)) fun _ d₁ hext₁ _ => ?_
    exact ih fun a d hext => hf a d (hext₁.trans hext)

theorem Keeps.optional {f : α → Entering β} (hQ : ∀ d d' b, d.Extends d' → Q d b → Q d' b)
    (hf : ∀ a, Keeps d₀ (f a) Q) (o : Option α) :
    Keeps d₀ (Entering.optional f o) fun d r => ∀ b ∈ r, Q d b := by
  cases o with
  | none => exact .pure fun _ _ b hb => by cases hb
  | some a =>
    refine .bind (hf a) fun b d₁ _ hb => .pure fun d hext x hx => ?_
    cases hx
    exact hQ d₁ d b hext hb

theorem Keeps.build {grow : Draft → Except BuildError (α × Draft)}
    (h : ∀ d a d', d.Regular → d₀.Extends d → grow d = .ok (a, d') →
      d'.Regular ∧ d.Extends d' ∧ P d' a) :
    Keeps d₀ (Entering.build grow) P := by
  intro d a d' hd hext hrun
  exact h d a d' hd hext (Draft.mapError_eq_ok_iff.1 hrun)

theorem Keeps.grow {grow : Draft → Except BuildError (α × Draft)}
    (h : ∀ d a d', d.Regular → d₀.Extends d → grow d = .ok (a, d') → d'.Regular ∧ d.Extends d') :
    Keeps d₀ (Entering.build grow) fun _ _ => True := by
  refine .build fun d a d' hd hext heq => ?_
  obtain ⟨hd', hext'⟩ := h d a d' hd hext heq
  exact ⟨hd', hext', trivial⟩

/-! ## Reading item by item -/

theorem keeps_name (x : Name) : Keeps d₀ (name x) fun _ _ => True := by
  rw [name]
  split
  · exact .throw
  · exact .pure fun _ _ => trivial

theorem keeps_cls (x : Name) : Keeps d₀ (cls x) fun d c => d.Has c := by
  refine .bind (keeps_name x) fun text d₁ _ _ => ?_
  intro d c d' hd hext hrun
  have heq : d.internClass text = (c, d') := Except.ok.inj hrun
  have hgrown := hd.internClass text
  rw [heq] at hgrown
  exact hgrown

theorem keeps_var (m : MethodId) (x : Name) : Keeps d₀ (var m x) fun d v => d.Owns m v :=
  .bind (keeps_name x) fun _ _ _ _ => .build fun _ _ _ hd _ heq => hd.internVar heq

theorem keeps_fieldRef (q : Qualified) : Keeps d₀ (fieldRef q) fun d ref => d.Has ref.cls := by
  refine .bind (keeps_cls q.cls) fun c d₁ _ hc => .bind (keeps_name q.name)
    fun text d₂ hext₂ _ => ?_
  exact .pure fun d hext => hc.mono (hext₂.trans hext).size

theorem has_mono {k : Kind} (d d' : Draft) (a : Id k) (hext : d.Extends d') (ha : d.Has a) :
    d'.Has a :=
  ha.mono hext.size

theorem owns_mono (m : MethodId) (d d' : Draft) (v : VarId) (hext : d.Extends d')
    (hv : d.Owns m v) :
    d'.Owns m v :=
  hv.mono hext

/-- A statement of a method: its variables belong to the method, and its classes exist. -/
structure Fits (d : Draft) (m : MethodId) (stmt : Stmt) : Prop where
  vars : ∀ v ∈ stmt.vars, d.Owns m v
  classes : ∀ c ∈ stmt.classes, d.Has c

theorem Fits.mono {d d' : Draft} {m : MethodId} {stmt : Stmt} (h : Fits d m stmt)
    (hext : d.Extends d') : Fits d' m stmt where
  vars v hv := (h.vars v hv).mono hext
  classes c hc := (h.classes c hc).mono hext.size

theorem keeps_invoke {m : MethodId} {lhs : Option VarId} (hlhs : ∀ v ∈ lhs, d₀.Owns m v)
    (call : CallTree) : Keeps d₀ (invoke m lhs call) fun d call' => Fits d m (.invoke call') := by
  refine .bind (.optional (owns_mono m) (fun x => keeps_var m x) call.receiver)
    fun receiver d₁ hext₁ hreceiver => ?_
  refine .bind (keeps_cls call.target.cls) fun c d₂ hext₂ hc => ?_
  refine .bind (keeps_name call.target.name) fun text d₃ hext₃ _ => ?_
  refine .bind (.mapM (owns_mono m) (fun x d _ => keeps_var m x) call.args)
    fun args d₄ hext₄ hargs => ?_
  refine .pure fun d hext => ⟨fun v hv => ?_, fun c' hc' => ?_⟩
  · have hext₂' := hext₂.trans (hext₃.trans (hext₄.trans hext))
    simp only [Stmt.vars, Invoke.vars, List.mem_append, Option.mem_toList] at hv
    rcases hv with (hv | hv) | hv
    · exact (hlhs v hv).mono (hext₁.trans hext₂')
    · exact (hreceiver v hv).mono hext₂'
    · exact (hargs v hv).mono hext
  · cases List.mem_singleton.1 hc'
    exact hc.mono (hext₃.trans (hext₄.trans hext)).size

theorem keeps_assign {m : MethodId} {lhs : VarId} (hlhs : d₀.Owns m lhs) (rhs : Expr) :
    Keeps d₀ (assign m lhs rhs) fun d stmt => Fits d m stmt := by
  cases rhs with
  | new c array =>
    refine .bind (keeps_cls c) fun c d₁ hext₁ hc => .pure fun d hext => ⟨?_, ?_⟩
    · simpa [Stmt.vars] using hlhs.mono (hext₁.trans hext)
    · simpa [Stmt.classes] using hc.mono hext.size
  | const =>
    refine .pure fun d hext => ⟨?_, by simp [Stmt.classes]⟩
    simpa [Stmt.vars] using hlhs.mono hext
  | copy value =>
    refine .bind (keeps_var m value) fun v d₁ hext₁ hv => .pure
      fun d hext => ⟨?_, by simp [Stmt.classes]⟩
    simpa [Stmt.vars] using ⟨hlhs.mono (hext₁.trans hext), hv.mono hext⟩
  | load base field =>
    refine .bind (keeps_var m base) fun v d₁ hext₁ hv => .bind (keeps_fieldRef field)
      fun ref d₂ hext₂ href => ?_
    refine .pure fun d hext => ⟨?_, ?_⟩
    · simpa [Stmt.vars] using ⟨hlhs.mono (hext₁.trans (hext₂.trans hext)),
        hv.mono (hext₂.trans hext)⟩
    · simpa [Stmt.classes] using href.mono hext.size
  | loadStatic field =>
    refine .bind (keeps_fieldRef field) fun ref d₁ hext₁ href => .pure fun d hext => ⟨?_, ?_⟩
    · simpa [Stmt.vars] using hlhs.mono (hext₁.trans hext)
    · simpa [Stmt.classes] using href.mono hext.size
  | loadArray base =>
    refine .bind (keeps_var m base) fun v d₁ hext₁ hv => .pure
      fun d hext => ⟨?_, by simp [Stmt.classes]⟩
    simpa [Stmt.vars] using ⟨hlhs.mono (hext₁.trans hext), hv.mono hext⟩
  | call call =>
    have hlhs' : ∀ v ∈ some lhs, d₀.Owns m v := by simpa using hlhs
    exact .bind (keeps_invoke hlhs' call) fun call d₁ _ hcall => .pure fun d hext => hcall.mono hext

theorem keeps_stmt (m : MethodId) (c : Command) :
    Keeps d₀ (stmt m c) fun d stmt => Fits d m stmt := by
  cases c with
  | assign lhs rhs => exact .bind (keeps_var m lhs) fun lhs d₁ _ hlhs => keeps_assign hlhs rhs
  | store base field rhs =>
    refine .bind (keeps_var m base) fun v d₁ _ hv => .bind (keeps_fieldRef field)
      fun ref d₂ hext₂ href => ?_
    refine .bind (keeps_var m rhs) fun w d₃ hext₃ hw => .pure fun d hext => ⟨?_, ?_⟩
    · simpa [Stmt.vars] using ⟨hv.mono (hext₂.trans (hext₃.trans hext)), hw.mono hext⟩
    · simpa [Stmt.classes] using href.mono (hext₃.trans hext).size
  | storeStatic field rhs =>
    refine .bind (keeps_fieldRef field) fun ref d₁ _ href => .bind (keeps_var m rhs)
      fun w d₂ hext₂ hw => ?_
    refine .pure fun d hext => ⟨?_, ?_⟩
    · simpa [Stmt.vars] using hw.mono hext
    · simpa [Stmt.classes] using href.mono (hext₂.trans hext).size
  | storeArray base rhs =>
    refine .bind (keeps_var m base) fun v d₁ _ hv => .bind (keeps_var m rhs) fun w d₂ hext₂ hw => ?_
    refine .pure fun d hext => ⟨?_, by simp [Stmt.classes]⟩
    simpa [Stmt.vars] using ⟨hv.mono (hext₂.trans hext), hw.mono hext⟩
  | call call =>
    refine .bind (keeps_invoke (fun v hv => by cases hv) call) fun call d₁ _ hcall => ?_
    exact .pure fun d hext => hcall.mono hext
  | ret value =>
    refine .bind (.optional (owns_mono m) (fun x => keeps_var m x) value) fun v d₁ _ hv => ?_
    refine .pure fun d hext => ⟨fun w hw => ?_, by simp [Stmt.classes]⟩
    exact (hv w (Option.mem_toList.1 hw)).mono hext

theorem keeps_command (m : MethodId) (c : Command) : Keeps d₀ (command m c) fun _ _ => True := by
  refine .bind (keeps_stmt m c) fun stmt d₁ _ hstmt => ?_
  refine .bind (.grow fun d s d' hd hext heq => ?_) fun _ _ _ _ => .pure fun _ _ => trivial
  have hfits := hstmt.mono hext
  exact hd.pushStmt hfits.vars hfits.classes heq

theorem keeps_member (c : ClassId) (x : Member) : Keeps d₀ (member c x) fun _ _ => True := by
  refine .bind (keeps_name x.name) fun text d₁ _ _ => ?_
  cases x.kind with
  | field =>
    exact .bind (.grow fun d f d' hd _ heq => hd.addField heq) fun _ _ _ _ => .pure
      fun _ _ => trivial
  | method params body =>
    have hrest : ∀ d₀, Keeps d₀ (do
        let params ← params.mapM Entering.name
        let m ← build (·.addMethod c text params (decide (.static ∈ x.modifiers)) body.isNone)
        (body.getD []).forM (command m)) fun _ _ => True := by
      intro d₀
      refine .bind (.mapM (Q := fun _ _ => True) (fun _ _ _ _ => id)
        (fun x d _ => keeps_name x) params) ?_
      intro names d₂ _ _
      refine .bind (.grow fun d m d' hd _ heq => hd.addMethod heq) ?_
      exact fun m d₃ _ _ => .forM (fun cmd d _ => keeps_command m cmd) (body.getD [])
    dsimp only
    split
    · exact .bind (P := fun _ _ => True) .throw fun _ d _ _ => hrest d
    · exact hrest d₁

theorem keeps_classTree (tree : ClassTree) : Keeps d₀ (classTree tree) fun _ _ => True := by
  refine .bind (keeps_name tree.name) fun text d₁ _ _ => ?_
  refine .bind (.optional has_mono (fun x => keeps_cls x) tree.superclass)
    fun superclass d₂ _ hsuper => ?_
  refine .bind (.mapM has_mono (fun x d _ => keeps_cls x) tree.interfaces)
    fun interfaces d₃ hext₃ hinterfaces => ?_
  refine .bind (.grow fun d c d' hd hext heq => ?_) fun c d₄ _ _ => ?_
  · exact hd.declareClass (fun s hs => (hsuper s hs).mono (hext₃.trans hext).size)
      (fun i hi => (hinterfaces i hi).mono hext.size) heq
  · exact .forM (fun x d _ => keeps_member c x) tree.members

theorem keeps_entry (target : Qualified) (line : Nat) :
    Keeps d₀ (entry target line) fun _ _ => True := by
  refine .bind (keeps_name target.cls) fun c d₁ _ _ => .bind (keeps_name target.name)
    fun text d₂ _ _ => ?_
  intro d a d' hd hext hrun
  rw [StateT.run_bind, StateT.run_get, pure_bind] at hrun
  dsimp only at hrun
  split at hrun <;> rename_i heq
  · rename_i m
    cases hrun
    have hm : d.Has m :=
      hd.inRange.has_of_mem_findMethods (by rw [heq]; exact List.mem_singleton_self m)
    exact ⟨hd.setEntry hm, ⟨le_rfl, List.prefix_rfl⟩, trivial⟩
  · cases hrun
  · cases hrun

theorem keeps_items (items : List Item) : Keeps d₀ (Entering.items items) fun _ _ => True := by
  refine .bind (.forM (fun tree d _ => keeps_classTree tree) (Item.classes items))
    fun _ d₁ _ _ => ?_
  split
  · exact keeps_entry _ _
  · exact .pure fun _ _ => trivial

end Text.Entering

open Text

theorem Text.draftOf_eq_ok_iff {items : List Item} {d : Draft} :
    draftOf items = .ok d ↔ (Entering.items items).run {} = .ok ((), d) := by
  rw [draftOf]
  cases (Entering.items items).run {} with
  | error e => simp [Except.map]
  | ok r => simp [Except.map, Prod.ext_iff]

theorem Program.ofText_eq_ok_iff {text : String} {p : Program} :
    Program.ofText text = .ok p ↔ ∃ ls items d, lex text = .ok ls ∧ parseItems ls = .ok items ∧
      draftOf items = .ok d ∧
      d.seal = .ok p := by
  simp only [Program.ofText, bind_eq_ok, Draft.mapError_eq_ok_iff]
  tauto

theorem Program.regular_of_ofText {text : String} {p : Program} (h : Program.ofText text = .ok p) :
    p.toDraft.Regular ∧ p.toDraft.seal = .ok p := by
  obtain ⟨-, items, d, -, -, hdraft, hseal⟩ := ofText_eq_ok_iff.1 h
  obtain ⟨rfl, -, -⟩ := Draft.seal_spec hseal
  obtain ⟨hregular, -, -⟩ :=
    Entering.keeps_items items {} () p.toDraft .empty (.refl _) (draftOf_eq_ok_iff.1 hdraft)
  exact ⟨hregular, hseal⟩

/-- A text that is accepted gives a proper program. -/
theorem Program.Proper.of_ofText {text : String} {p : Program} (h : Program.ofText text = .ok p) :
    p.Proper := by
  obtain ⟨hregular, hseal⟩ := regular_of_ofText h
  exact ⟨hregular.built, hregular.inRange, hseal⟩

theorem Program.exists_ofText {text : String} {P : Program → Prop} [DecidablePred P]
    (h : (Program.ofText text).toOption.any (fun p => decide (P p)) = true) :
    ∃ p, Program.ofText text = .ok p ∧ P p := by
  cases heq : Program.ofText text with
  | error e =>
    rw [heq] at h
    cases h
  | ok p =>
    rw [heq] at h
    exact ⟨p, rfl, of_decide_eq_true h⟩

/-- Allocations, an access to a field each way, and a call on a receiver. -/
def sampleText : String :=
  "class C { field f; method id(p) { return p; }
    static method main() { x = new C; y = new C; x.C::f = y; z = x.C::f;
      w = invokevirtual x.C::id(z); } }"

theorem sampleText_accepted :
    ∃ p, Program.ofText sampleText = .ok p ∧ p.Has (⟨0⟩ : MethodId) ∧ p.Has (⟨1⟩ : MethodId) :=
  Program.exists_ofText (by decide +kernel)

end PointsTo
