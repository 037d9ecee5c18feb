import PointsTo.Proofs.Grammars

/-!
# Outcomes of runs

How the outcomes of the forms of grammars are put together: a sequence and a repetition go on after
a value (`andThen`), a choice, an option and a repetition try something else after a failure
(`orElse`). For these two combinations, and so for every grammar, it is said what places an outcome
may mention (`Spans`), and what is recorded at the last of them (`At`). A repetition is given one
round at a time, if no round is empty (`run_many`).
-/

namespace PointsTo

variable {τ ε α β : Type}

/-! ## Failures -/

namespace Failure

theorem index_named (name : ε) (start : Nat) (f : Failure ε) :
    (f.named name start).index = f.index := by
  rw [named]
  split
  next h => exact h.symm
  next => rfl

theorem index_join (f g : Failure ε) : (f.join g).index = max f.index g.index := by
  rw [join]
  split
  next h => exact (Nat.max_eq_right (Nat.le_of_lt h)).symm
  next =>
    split
    next h => exact (Nat.max_eq_left (Nat.le_of_lt h)).symm
    next => simp only; omega

/-- Joined expectations have `Q` if some of them do. -/
def Splits (Q : List ε → Prop) : Prop := ∀ xs ys, Q (xs ++ ys) ↔ Q xs ∨ Q ys

theorem splits_true : Splits fun _ : List ε => True := fun _ _ => or_self_iff.symm

theorem splits_mem (e : ε) : Splits (e ∈ ·) := fun _ _ => List.mem_append

theorem splits_exists (P : ε → Prop) : Splits fun expected => ∃ e ∈ expected, P e := fun xs ys => by
  simp only [List.mem_append, or_and_right, exists_or]

/-- A failure is recorded at a place, and what was expected there has `Q`. -/
def At (Q : List ε → Prop) (k : Nat) (f? : Option (Failure ε)) : Prop :=
  ∃ f ∈ f?, f.index = k ∧ Q f.expected

section At

variable {Q : List ε → Prop} {k : Nat} {f? g? : Option (Failure ε)}

theorem at_some {f : Failure ε} : At Q k (some f) ↔ f.index = k ∧ Q f.expected := by
  constructor
  · rintro ⟨_, ⟨⟩, hf⟩
    exact hf
  · exact fun hf => ⟨f, rfl, hf⟩

theorem not_at_none : ¬ At Q k none := by
  rintro ⟨_, ⟨⟩, -⟩

/-- At the last place where a failure may be, nothing gets lost when failures are joined. -/
theorem at_joinOptional (hQ : Splits Q) (hf : ∀ f ∈ f?, f.index ≤ k)
    (hg : ∀ g ∈ g?, g.index ≤ k) : At Q k (joinOptional f? g?) ↔ At Q k f? ∨ At Q k g? := by
  cases f? with
  | none => simp only [joinOptional, not_at_none, false_or]
  | some f =>
    cases g? with
    | none => simp only [joinOptional, not_at_none, or_false]
    | some g =>
      have hfk := hf f rfl
      have hgk := hg g rfl
      simp only [joinOptional, at_some, join]
      split
      next hlt => exact ⟨.inr, fun h => h.resolve_left fun hf => by omega⟩
      next =>
        split
        next hlt => exact ⟨.inl, fun h => h.resolve_right fun hg => by omega⟩
        next =>
          have heq : f.index = g.index := by omega
          simp only [hQ f.expected g.expected, heq, and_or_left]

/-- A name takes the place of what is expected at the start, and of nothing else. -/
theorem at_map_named {name : ε} {start : Nat} :
    At Q k (f?.map (named name start)) ↔
      if k = start then At (fun _ => True) k f? ∧ Q [name] else At Q k f? := by
  cases f? with
  | none => simp only [Option.map_none, not_at_none, false_and, ite_self]
  | some f =>
    simp only [Option.map_some, at_some, named]
    split <;> split <;> grind

end At

end Failure

namespace Outcome

/-- The furthest failure of a run. -/
def furthest? : Outcome τ ε α → Option (Failure ε)
  | ok _ _ _ furthest => furthest
  | fail furthest => some furthest

/-- Goes on after a value. -/
def andThen (o : Outcome τ ε α) (c : α → Nat → List τ → Outcome τ ε β) : Outcome τ ε β :=
  match o with
  | ok a next rest furthest => (c a next rest).after furthest
  | fail furthest => fail furthest

/-- Tries something else after a failure. -/
def orElse (o other : Outcome τ ε α) : Outcome τ ε α :=
  match o with
  | ok a next rest furthest => ok a next rest furthest
  | fail furthest => other.after (some furthest)

/-- The same outcome with more symbols after those that are left. -/
def extend (v : List τ) : Outcome τ ε α → Outcome τ ε α
  | ok a next rest furthest => ok a next (rest ++ v) furthest
  | fail furthest => fail furthest

/-- Something was read or failed beyond the symbol at a place. -/
def Passes (k : Nat) : Outcome τ ε α → Prop
  | ok _ next _ furthest => k < next ∨ ∃ f ∈ furthest, k < f.index
  | fail furthest => k < furthest.index

/-- The places in an outcome are those of a run from place `i` on some symbols. -/
def Spans (i : Nat) (ts : List τ) : Outcome τ ε α → Prop
  | ok _ next rest furthest =>
    rest.length ≤ ts.length ∧ next + rest.length = i + ts.length ∧
      ∀ f ∈ furthest, i ≤ f.index ∧ f.index ≤ i + ts.length
  | fail furthest => i ≤ furthest.index ∧ furthest.index ≤ i + ts.length

variable {o other : Outcome τ ε α} {c : α → Nat → List τ → Outcome τ ε β}
  {earlier : Option (Failure ε)} {i k next : Nat} {ts v rest : List τ}

@[simp]
theorem furthest?_map (f : α → β) (o : Outcome τ ε α) : (o.map f).furthest? = o.furthest? := by
  cases o <;> rfl

@[simp]
theorem furthest?_after (earlier : Option (Failure ε)) (o : Outcome τ ε α) :
    (o.after earlier).furthest? = Failure.joinOptional earlier o.furthest? := by
  cases o <;> cases earlier <;> rfl

@[simp]
theorem furthest?_named (name : ε) (start : Nat) (o : Outcome τ ε α) :
    (o.named name start).furthest? = o.furthest?.map (Failure.named name start) := by
  cases o <;> rfl

/-! ### The same outcome before more symbols -/

@[simp]
theorem extend_map (f : α → β) (v : List τ) (o : Outcome τ ε α) :
    (o.extend v).map f = (o.map f).extend v := by
  cases o <;> rfl

@[simp]
theorem extend_after (earlier : Option (Failure ε)) (v : List τ) (o : Outcome τ ε α) :
    (o.extend v).after earlier = (o.after earlier).extend v := by
  cases o <;> cases earlier <;> rfl

@[simp]
theorem extend_named (name : ε) (start : Nat) (v : List τ) (o : Outcome τ ε α) :
    (o.extend v).named name start = (o.named name start).extend v := by
  cases o <;> rfl

theorem result?_extend (v : List τ) (o : Outcome τ ε α) :
    (o.extend v).result? = o.result?.map fun (a, rest) => (a, rest ++ v) := by
  cases o <;> rfl

theorem eq_fail_of_extend {f : Failure ε} (h : o.extend v = fail f) : o = fail f := by
  cases o with
  | ok a next rest furthest => cases h
  | fail f' => exact h

theorem extend_andThen {d : α → Nat → List τ → Outcome τ ε β}
    (hc : ∀ a next rest, o.result? = some (a, rest) →
      c a next (rest ++ v) = (d a next rest).extend v) :
    (o.extend v).andThen c = (o.andThen d).extend v := by
  cases o with
  | fail f => rfl
  | ok a next rest f => exact (congrArg (after f) (hc a next rest rfl)).trans (extend_after f v _)

theorem extend_orElse {other' : Outcome τ ε α} (h : o.result? = none → other = other'.extend v) :
    (o.extend v).orElse other = (o.orElse other').extend v := by
  cases o with
  | fail f => exact (congrArg (after (some f)) (h rfl)).trans (extend_after (some f) v _)
  | ok a next rest f => rfl

/-! ### Places of outcomes -/

theorem Spans.map (h : o.Spans i ts) (f : α → β) : (o.map f).Spans i ts := by
  cases o <;> exact h

theorem Spans.named (h : o.Spans i ts) (name : ε) (start : Nat) :
    (o.named name start).Spans i ts := by
  cases o with
  | fail f =>
    rw [Outcome.named, Spans, f.index_named]
    exact h
  | ok a next rest furthest =>
    obtain ⟨hle, heq, hf⟩ := h
    refine ⟨hle, heq, fun f hmem => ?_⟩
    obtain ⟨f', hf', rfl⟩ := Option.map_eq_some_iff.1 hmem
    rw [f'.index_named]
    exact hf f' hf'

theorem Spans.index_le (h : o.Spans i ts) : ∀ f ∈ o.furthest?, f.index ≤ i + ts.length := by
  cases o with
  | fail f => rintro _ ⟨⟩; exact h.2
  | ok a next rest furthest => exact fun f hf => (h.2.2 f hf).2

/-- What is read after something else spans what both of them span. -/
theorem Spans.after (h : o.Spans next rest) (hle : rest.length ≤ ts.length)
    (heq : next + rest.length = i + ts.length)
    (hearlier : ∀ f ∈ earlier, i ≤ f.index ∧ f.index ≤ i + ts.length) :
    (o.after earlier).Spans i ts := by
  have hjoin : ∀ e ∈ earlier, ∀ f : Failure ε, next ≤ f.index → f.index ≤ next + rest.length →
      i ≤ (e.join f).index ∧ (e.join f).index ≤ i + ts.length := by
    intro e he f hlow hhigh
    have hspan := hearlier e he
    rw [Failure.index_join]
    omega
  cases o with
  | fail f =>
    obtain ⟨hlow, hhigh⟩ := h
    cases earlier with
    | none => exact ⟨by omega, by omega⟩
    | some e => exact hjoin e rfl f hlow hhigh
  | ok a next' rest' furthest =>
    obtain ⟨hle', heq', hf⟩ := h
    refine ⟨by omega, by omega, fun f hmem => ?_⟩
    cases earlier with
    | none =>
      have hspan := hf f hmem
      omega
    | some e =>
      cases furthest with
      | none =>
        cases hmem
        exact hearlier f rfl
      | some f' =>
        cases hmem
        exact hjoin e rfl f' (hf f' rfl).1 (hf f' rfl).2

theorem Spans.andThen (h : o.Spans i ts) (hc : ∀ a next rest, (c a next rest).Spans next rest) :
    (o.andThen c).Spans i ts := by
  cases o with
  | fail f => exact h
  | ok a next rest f => exact (hc a next rest).after h.1 h.2.1 h.2.2

theorem Spans.orElse (h : o.Spans i ts) (hother : other.Spans i ts) :
    (o.orElse other).Spans i ts := by
  cases o with
  | ok a next rest f => exact h
  | fail f => exact hother.after (Nat.le_refl _) rfl (by rintro _ ⟨⟩; exact h)

theorem spans_ok (a : α) (i : Nat) (ts : List τ) : (ok a i ts none : Outcome τ ε α).Spans i ts :=
  ⟨Nat.le_refl _, rfl, fun _ hf => nomatch hf⟩

/-! ### Getting past a place -/

theorem Passes.map (h : o.Passes k) (f : α → β) : (o.map f).Passes k := by
  cases o <;> exact h

theorem Passes.named (h : o.Passes k) (name : ε) (start : Nat) : (o.named name start).Passes k := by
  cases o with
  | fail f => exact Nat.lt_of_lt_of_eq h (f.index_named name start).symm
  | ok a next rest furthest =>
    refine h.imp_right fun ⟨f, hf, hk⟩ => ⟨f.named name start, ?_,
      (f.index_named name start).symm ▸ hk⟩
    exact Option.mem_map_of_mem _ hf

theorem Passes.after (h : o.Passes k) (earlier : Option (Failure ε)) :
    (o.after earlier).Passes k := by
  cases earlier with
  | none => cases o <;> exact h
  | some e =>
    cases o with
    | fail f =>
      show k < (e.join f).index
      rw [Failure.index_join]
      exact lt_max_of_lt_right h
    | ok a next rest furthest =>
      refine h.imp_right fun ⟨f, hf, hk⟩ => ⟨e.join f, ?_, ?_⟩
      · cases hf
        rfl
      · rw [Failure.index_join]
        exact lt_max_of_lt_right hk

theorem passes_after_some {e : Failure ε} (h : k < e.index) (o : Outcome τ ε α) :
    (o.after (some e)).Passes k := by
  cases o with
  | fail f =>
    show k < (e.join f).index
    rw [Failure.index_join]
    exact lt_max_of_lt_left h
  | ok a next rest furthest =>
    cases furthest with
    | none => exact .inr ⟨e, rfl, h⟩
    | some f => exact .inr ⟨e.join f, rfl, by rw [Failure.index_join]; exact lt_max_of_lt_left h⟩

/-- A run that starts beyond a place gets beyond it. -/
theorem Spans.passes (h : o.Spans i ts) (hk : k < i) : o.Passes k := by
  cases o with
  | fail f => exact Nat.lt_of_lt_of_le hk h.1
  | ok a next rest furthest =>
    obtain ⟨hle, heq, -⟩ := h
    exact .inl (by omega)

theorem Passes.andThen (h : o.Passes k) (hc : ∀ a next rest, (c a next rest).Spans next rest) :
    (o.andThen c).Passes k := by
  cases o with
  | fail f => exact h
  | ok a next rest f =>
    obtain hnext | ⟨f, rfl, hf⟩ := h
    · exact ((hc a next rest).passes hnext).after f
    · exact passes_after_some hf _

theorem Passes.orElse (h : o.Passes k) (other : Outcome τ ε α) : (o.orElse other).Passes k := by
  cases o with
  | ok a next rest f => exact h
  | fail f => exact passes_after_some h other

theorem Passes.orElse_right (h : other.Passes k) (ho : o.result? = none) :
    (o.orElse other).Passes k := by
  cases o with
  | ok a next rest f => cases ho
  | fail f => exact h.after (some f)

/-! ### Failures at the end -/

section At

variable {Q : List ε → Prop} (hQ : Failure.Splits Q)
include hQ

theorem at_andThen (ho : o.Spans i ts) (hc : ∀ a next rest, (c a next rest).Spans next rest) :
    Failure.At Q (i + ts.length) (o.andThen c).furthest? ↔
      Failure.At Q (i + ts.length) o.furthest? ∨
        ∃ a next rest f, o = ok a next rest f ∧
          Failure.At Q (next + rest.length) (c a next rest).furthest? := by
  cases o with
  | fail f => simp [andThen, furthest?]
  | ok a next rest f =>
    have hle := (hc a next rest).index_le
    rw [ho.2.1] at hle
    rw [andThen, furthest?_after]
    refine (Failure.at_joinOptional hQ ho.index_le hle).trans ?_
    refine or_congr_right ⟨fun h => ⟨a, next, rest, f, rfl, ho.2.1 ▸ h⟩, ?_⟩
    rintro ⟨_, _, _, _, ⟨⟩, h⟩
    exact ho.2.1 ▸ h

theorem at_orElse (ho : o.Spans i ts) (hother : other.Spans i ts) :
    Failure.At Q (i + ts.length) (o.orElse other).furthest? ↔
      Failure.At Q (i + ts.length) o.furthest? ∨
        o.result? = none ∧ Failure.At Q (i + ts.length) other.furthest? := by
  cases o with
  | ok a next rest f => simp [orElse, furthest?, result?]
  | fail f =>
    rw [orElse, furthest?_after]
    refine (Failure.at_joinOptional hQ ho.index_le hother.index_le).trans ?_
    simp [furthest?, result?]

end At

end Outcome

namespace Grammar

section Equations

variable (g : Grammar τ ε α) (i : Nat) (ts : List τ)

theorem run_symbol (expected : List ε) (accept : τ → Option α) (t : τ) :
    (symbol expected accept).run i (t :: ts) =
      match accept t with
      | some a => .ok a (i + 1) ts none
      | none => .fail ⟨i, expected⟩ := rfl

theorem run_seq (h : Grammar τ ε β) :
    (g.seq h).run i ts = (g.run i ts).andThen fun a next rest => (h.run next rest).map (a, ·) := by
  rw [run]
  cases g.run i ts <;> rfl

theorem run_choice (g' : Grammar τ ε α) :
    (g.choice g').run i ts = (g.run i ts).orElse (g'.run i ts) := by
  rw [run]
  cases g.run i ts <;> rfl

theorem run_optional :
    g.optional.run i ts = ((g.run i ts).map some).orElse (.ok none i ts none) := by
  rw [run]
  cases g.run i ts <;> rfl

theorem run_label (name : ε) : (g.label name).run i ts = (g.run i ts).named name i := rfl

theorem run_map (f : α → β) : (g.map f).run i ts = (g.run i ts).map f := rfl

end Equations

theorem spans_repeatRun {run : Nat → List τ → Outcome τ ε α} (hrun : ∀ i ts, (run i ts).Spans i ts)
    (bound : List τ) (i : Nat) (ts : List τ) : (repeatRun run bound i ts).Spans i ts := by
  induction bound generalizing i ts with
  | nil =>
    have hspans := hrun i ts
    rw [repeatRun]
    generalize run i ts = o at hspans ⊢
    cases o with
    | fail f => exact ⟨Nat.le_refl _, rfl, by rintro _ ⟨⟩; exact hspans⟩
    | ok a next rest f => exact hspans
  | cons _ bound ih =>
    have hspans := hrun i ts
    rw [repeatRun]
    generalize run i ts = o at hspans ⊢
    cases o with
    | fail f => exact ⟨Nat.le_refl _, rfl, by rintro _ ⟨⟩; exact hspans⟩
    | ok a next rest f => exact ((ih next rest).map (a :: ·)).after hspans.1 hspans.2.1 hspans.2.2

theorem spans_run (g : Grammar τ ε α) (i : Nat) (ts : List τ) : (g.run i ts).Spans i ts := by
  induction g generalizing i ts with
  | symbol expected accept =>
    cases ts with
    | nil => exact ⟨Nat.le_refl _, Nat.le_refl _⟩
    | cons t ts =>
      rw [run_symbol]
      cases accept t with
      | none => exact ⟨Nat.le_refl _, Nat.le_add_right _ _⟩
      | some a => exact ⟨Nat.le_succ _, by rw [List.length_cons]; omega, fun f hf => nomatch hf⟩
  | seq first second ih₁ ih₂ =>
    rw [run_seq]
    exact (ih₁ i ts).andThen fun a next rest => (ih₂ next rest).map _
  | choice first second ih₁ ih₂ =>
    rw [run_choice]
    exact (ih₁ i ts).orElse (ih₂ i ts)
  | optional part ih =>
    rw [run_optional]
    exact ((ih i ts).map some).orElse (Outcome.spans_ok none i ts)
  | many part ih => exact spans_repeatRun ih ts i ts
  | label name part ih => exact (ih i ts).named name i
  | map f part ih => exact (ih i ts).map f

/-! ## Parts that are not empty -/

/-- Whatever is read has a symbol. -/
def consumes {α : Type} : Grammar τ ε α → Bool
  | symbol _ _ => true
  | seq first second => first.consumes || second.consumes
  | choice first second => first.consumes && second.consumes
  | optional _ | many _ => false
  | label _ part | map _ part => part.consumes

/-- Nothing that may be empty is repeated. -/
def proper {α : Type} : Grammar τ ε α → Bool
  | symbol _ _ => true
  | seq first second | choice first second => first.proper && second.proper
  | many part => part.consumes && part.proper
  | optional part | label _ part | map _ part => part.proper

section Consumes

variable {g : Grammar τ ε α} {i : Nat} {ts rest : List τ} {a : α}

/-- Reading a value is a run that gives it, from any place. -/
theorem exists_run_of_read? (h : g.read? ts = some (a, rest)) (i : Nat) :
    ∃ next f, g.run i ts = .ok a next rest f ∧ next + rest.length = i + ts.length := by
  have hspans := g.spans_run i ts
  rw [← g.result?_run i ts] at h
  generalize g.run i ts = o at h hspans
  cases o with
  | fail f => cases h
  | ok a' next rest' f =>
    cases h
    exact ⟨next, f, rfl, hspans.2.1⟩

theorem read?_of_run {next : Nat} {f : Option (Failure ε)} (h : g.run i ts = .ok a next rest f) :
    g.read? ts = some (a, rest) := by
  rw [← g.result?_run i ts, h]
  rfl

theorem length_le_of_read? (h : g.read? ts = some (a, rest)) : rest.length ≤ ts.length := by
  obtain ⟨next, f, hrun, -⟩ := exists_run_of_read? h 0
  have hspans := g.spans_run 0 ts
  rw [hrun] at hspans
  exact hspans.1

theorem length_lt_of_consumes (hg : g.consumes) (h : g.read? ts = some (a, rest)) :
    rest.length < ts.length := by
  induction g generalizing ts rest with
  | symbol expected accept =>
    cases ts with
    | nil => cases h
    | cons t ts =>
      obtain ⟨b, -, hrest⟩ := Option.map_eq_some_iff.1 h
      cases hrest
      exact Nat.lt_succ_self _
  | seq first second ih₁ ih₂ =>
    obtain ⟨⟨b, mid⟩, hb, hmid⟩ := Option.bind_eq_some_iff.1 h
    obtain ⟨⟨c, last⟩, hc, hlast⟩ := Option.map_eq_some_iff.1 hmid
    cases hlast
    obtain hfirst | hsecond := Bool.or_eq_true_iff.1 hg
    · exact Nat.lt_of_le_of_lt (length_le_of_read? hc) (ih₁ hfirst hb)
    · exact Nat.lt_of_lt_of_le (ih₂ hsecond hc) (length_le_of_read? hb)
  | choice first second ih₁ ih₂ =>
    obtain ⟨hfirst, hsecond⟩ := Bool.and_eq_true_iff.1 hg
    obtain hleft | ⟨-, hright⟩ := Option.or_eq_some_iff.1 h
    · exact ih₁ hfirst hleft
    · exact ih₂ hsecond hright
  | optional part ih => cases hg
  | many part ih => cases hg
  | label name part ih => exact ih hg h
  | map f part ih =>
    obtain ⟨⟨b, mid⟩, hb, hmid⟩ := Option.map_eq_some_iff.1 h
    cases hmid
    exact ih hg hb

theorem read?_nil_of_consumes (hg : g.consumes) : g.read? [] = none := by
  cases h : g.read? [] with
  | none => rfl
  | some r => exact absurd (length_lt_of_consumes hg h) (Nat.not_lt_zero _)

/-- If each round takes a symbol, one bound is as good as another. -/
theorem repeatRun_eq_of_length_le {run : Nat → List τ → Outcome τ ε α}
    (hrun : ∀ {i ts a next rest f}, run i ts = .ok a next rest f → rest.length < ts.length)
    {bound bound' : List τ} (hbound : ts.length ≤ bound.length)
    (hbound' : ts.length ≤ bound'.length) :
    repeatRun run bound i ts = repeatRun run bound' i ts := by
  induction bound generalizing bound' i ts with
  | nil =>
    rw [repeatRun.eq_def run [], repeatRun.eq_def run bound']
    cases h : run i ts with
    | fail f => rfl
    | ok a next rest f =>
      have hlt := hrun h
      have hle : ts.length ≤ 0 := hbound
      omega
  | cons _ bound ih =>
    rw [repeatRun.eq_def run (_ :: bound), repeatRun.eq_def run bound']
    cases h : run i ts with
    | fail f => rfl
    | ok a next rest f =>
      have hlt := hrun h
      cases bound' with
      | nil =>
        have hle : ts.length ≤ 0 := hbound'
        omega
      | cons _ bound' =>
        rw [List.length_cons] at hbound hbound'
        simp only [ih (by omega : rest.length ≤ bound.length)
          (by omega : rest.length ≤ bound'.length)]

/-- A repetition never fails. -/
theorem exists_run_many (g : Grammar τ ε α) (i : Nat) (ts : List τ) :
    ∃ as next rest f, g.many.run i ts = .ok as next rest f := by
  have hresult := g.many.result?_run i ts
  rw [read?_many] at hresult
  cases hrun : g.many.run i ts with
  | ok as next rest f => exact ⟨as, next, rest, f, rfl⟩
  | fail f =>
    rw [hrun] at hresult
    cases hresult

/-- A repetition of what is not empty, one round at a time. -/
theorem run_many (hg : g.consumes) (i : Nat) (ts : List τ) :
    g.many.run i ts =
      ((g.run i ts).andThen fun a next rest => (g.many.run next rest).map (a :: ·)).orElse
        (.ok [] i ts none) := by
  have hrun : ∀ {i ts a next rest f}, g.run i ts = .ok a next rest f → rest.length < ts.length :=
    fun h => length_lt_of_consumes hg (read?_of_run h)
  show repeatRun g.run ts i ts = _
  rw [repeatRun.eq_def]
  cases h : g.run i ts with
  | fail f => rfl
  | ok a next rest f =>
    have hlt := hrun h
    obtain ⟨as, next', rest', f', hmany⟩ := exists_run_many g next rest
    cases ts with
    | nil => exact absurd hlt (Nat.not_lt_zero _)
    | cons t ts =>
      have hbound : repeatRun g.run ts next rest = g.many.run next rest :=
        repeatRun_eq_of_length_le hrun (Nat.le_of_lt_succ hlt) (Nat.le_refl _)
      simp only [Outcome.andThen, hbound, hmany]
      rfl

theorem read?_many_of_none (hts : g.read? ts = none) : g.many.read? ts = some ([], ts) := by
  rw [read?_many, repeatRead.eq_def, hts]

theorem read?_many_of_some (hg : g.consumes) (hts : g.read? ts = some (a, rest)) :
    g.many.read? ts = (g.many.read? rest).map fun (as, last) => (a :: as, last) := by
  obtain ⟨next, f, hrun, -⟩ := exists_run_of_read? hts 0
  obtain ⟨as, next', last, f', hmany⟩ := exists_run_many g next rest
  rw [← g.many.result?_run 0 ts, run_many hg, hrun, read?_of_run hmany]
  simp only [Outcome.andThen, hmany]
  rfl

end Consumes

end Grammar

end PointsTo
