import Mathlib.Logic.Relation
import PointsTo.Proofs.Outcomes

/-!
# What a run awaits

A run on some symbols that comes to their end looks at the end with some of its single-symbol
grammars, and fails there. `Awaits` says which symbols one of these would accept. Everything about
errors comes from three facts:

* a run does not change if a symbol that is not awaited is put at the end, whatever comes after it
  (`run_append`);
* a run gets past a symbol that is awaited (`Awaits.passes`);
* the failures of a run that are recorded at the end tell the awaited symbols, if each expectation
  `Tells` the symbols of its grammar (`expects_iff_awaits`).

`Completes` adds that whatever is awaited can be completed, so that the symbols before an error are
`Viable`.
-/

namespace PointsTo

variable {τ ε α β : Type}

namespace Grammar

/-! ## Awaited symbols -/

/-- After the symbols `u`, a run that came to their end would accept `t` with one of the
single-symbol grammars that it looks at the end with. -/
def Awaits {α : Type} : Grammar τ ε α → List τ → τ → Prop
  | symbol _ accept, u, t => u = [] ∧ (accept t).isSome
  | seq first second, u, t =>
    first.Awaits u t ∨ ∃ a rest, first.read? u = some (a, rest) ∧ second.Awaits rest t
  | choice first second, u, t => first.Awaits u t ∨ first.read? u = none ∧ second.Awaits u t
  | many part, u, t =>
    ∃ rest, Relation.ReflTransGen (fun u rest => ∃ a, part.read? u = some (a, rest)) u rest ∧
      part.Awaits rest t
  | optional part, u, t | label _ part, u, t | map _ part, u, t => part.Awaits u t

section Awaits

variable {g : Grammar τ ε α} {i : Nat} {u v : List τ} {t : τ}

theorem awaits_many : g.many.Awaits u t ↔
    g.Awaits u t ∨ ∃ a rest, g.read? u = some (a, rest) ∧ g.many.Awaits rest t := by
  constructor
  · rintro ⟨last, hpath, hlast⟩
    obtain rfl | ⟨rest, ⟨a, ha⟩, hrest⟩ := Relation.ReflTransGen.cases_head_iff.1 hpath
    · exact .inl hlast
    · exact .inr ⟨a, rest, ha, last, hrest, hlast⟩
  · rintro (hu | ⟨a, rest, ha, last, hrest, hlast⟩)
    · exact ⟨u, .refl, hu⟩
    · exact ⟨last, .head ⟨a, ha⟩ hrest, hlast⟩

/-- A run takes no notice of what stands at the end, if the first symbol of it is not awaited. -/
theorem run_append (hg : g.proper) (hv : ∀ t ∈ v.head?, ¬ g.Awaits u t) (i : Nat) :
    g.run i (u ++ v) = (g.run i u).extend v := by
  induction g generalizing u i with
  | symbol expected accept =>
    cases u with
    | cons t u =>
      rw [List.cons_append, run_symbol, run_symbol]
      cases accept t <;> rfl
    | nil =>
      cases v with
      | nil => rfl
      | cons t v =>
        have ht : accept t = none := Option.not_isSome_iff_eq_none.1 fun ht => hv t rfl ⟨rfl, ht⟩
        rw [List.nil_append, run_symbol, ht]
        rfl
  | seq first second ih₁ ih₂ =>
    obtain ⟨hfirst, hsecond⟩ := Bool.and_eq_true_iff.1 hg
    rw [run_seq, run_seq, ih₁ hfirst fun t ht hu => hv t ht (.inl hu)]
    refine Outcome.extend_andThen fun a next rest hresult => ?_
    rw [result?_run] at hresult
    rw [ih₂ hsecond fun t ht hrest => hv t ht (.inr ⟨a, rest, hresult, hrest⟩), Outcome.extend_map]
  | choice first second ih₁ ih₂ =>
    obtain ⟨hfirst, hsecond⟩ := Bool.and_eq_true_iff.1 hg
    rw [run_choice, run_choice, ih₁ hfirst fun t ht hu => hv t ht (.inl hu)]
    refine Outcome.extend_orElse fun hresult => ?_
    rw [result?_run] at hresult
    exact ih₂ hsecond (fun t ht hu => hv t ht (.inr ⟨hresult, hu⟩)) i
  | optional part ih =>
    rw [run_optional, run_optional, ih hg hv, Outcome.extend_map]
    exact Outcome.extend_orElse fun _ => rfl
  | many part ih =>
    obtain ⟨hconsumes, hpart⟩ := Bool.and_eq_true_iff.1 hg
    -- the rounds are counted by the symbols that are left
    induction hn : u.length using Nat.strong_induction_on generalizing u i with
    | _ n ihn =>
      rw [run_many hconsumes, run_many hconsumes,
        ih hpart fun t ht hu => hv t ht (awaits_many.2 (.inl hu))]
      rw [Outcome.extend_andThen fun a next rest hresult => ?_]
      · exact Outcome.extend_orElse fun _ => rfl
      · rw [result?_run] at hresult
        have hlt := length_lt_of_consumes hconsumes hresult
        rw [ihn rest.length (hn ▸ hlt)
          (fun t ht hrest => hv t ht (awaits_many.2 (.inr ⟨a, rest, hresult, hrest⟩)))
          next rfl, Outcome.extend_map]
  | label name part ih => rw [run_label, run_label, ih hg hv, Outcome.extend_named]
  | map f part ih => rw [run_map, run_map, ih hg hv, Outcome.extend_map]

theorem read?_append (hg : g.proper) (hv : ∀ t ∈ v.head?, ¬ g.Awaits u t) :
    g.read? (u ++ v) = (g.read? u).map fun (a, rest) => (a, rest ++ v) := by
  rw [← g.result?_run 0 (u ++ v), run_append hg hv, Outcome.result?_extend, result?_run]

/-- What is read off does not change if a symbol that is not awaited comes next. -/
theorem read?_append_cons (hg : g.proper) (ht : ¬ g.Awaits u t) (v : List τ) :
    g.read? (u ++ t :: v) = (g.read? u).map fun (a, rest) => (a, rest ++ t :: v) :=
  read?_append hg (by rintro _ ⟨⟩; exact ht)

/-- Both parts of a sequence, and all rounds of a repetition, get past what they await. -/
theorem passes_andThen {c : α → Nat → List τ → Outcome τ ε β} {R : List τ → Prop} (hg : g.proper)
    (hspans : ∀ a next rest, (c a next rest).Spans next rest)
    (hfirst : g.Awaits u t → (g.run i (u ++ t :: v)).Passes (i + u.length))
    (hc : ∀ a next rest, g.read? u = some (a, rest) → R rest →
      (c a next (rest ++ t :: v)).Passes (next + rest.length))
    (hu : g.Awaits u t ∨ ∃ a rest, g.read? u = some (a, rest) ∧ R rest) :
    ((g.run i (u ++ t :: v)).andThen c).Passes (i + u.length) := by
  by_cases hu₁ : g.Awaits u t
  · exact (hfirst hu₁).andThen hspans
  · obtain ⟨a, rest, hread, hrest⟩ := hu.resolve_left hu₁
    obtain ⟨next, f, hrun, heq⟩ := exists_run_of_read? hread i
    rw [run_append hg (by rintro _ ⟨⟩; exact hu₁), hrun, ← heq]
    exact (hc a next rest hread hrest).after f

/-- A run gets past a symbol that is awaited. -/
theorem Awaits.passes (hu : g.Awaits u t) (hg : g.proper) (i : Nat) (v : List τ) :
    (g.run i (u ++ t :: v)).Passes (i + u.length) := by
  induction g generalizing u i with
  | symbol expected accept =>
    obtain ⟨rfl, ht⟩ := hu
    obtain ⟨a, ha⟩ := Option.isSome_iff_exists.1 ht
    rw [List.nil_append, run_symbol, ha]
    exact .inl (Nat.lt_succ_self i)
  | seq first second ih₁ ih₂ =>
    obtain ⟨hfirst, hsecond⟩ := Bool.and_eq_true_iff.1 hg
    rw [run_seq]
    exact passes_andThen hfirst (fun a next rest => (second.spans_run next rest).map _)
      (ih₁ · hfirst i) (fun a next rest _ hrest => (ih₂ hrest hsecond next).map _) hu
  | choice first second ih₁ ih₂ =>
    obtain ⟨hfirst, hsecond⟩ := Bool.and_eq_true_iff.1 hg
    rw [run_choice]
    by_cases hu₁ : first.Awaits u t
    · exact (ih₁ hu₁ hfirst i).orElse _
    · obtain ⟨hread, hu₂⟩ := hu.resolve_left hu₁
      refine (ih₂ hu₂ hsecond i).orElse_right ?_
      rw [result?_run, read?_append_cons hfirst hu₁, hread]
      rfl
  | optional part ih =>
    rw [run_optional]
    exact ((ih hu hg i).map _).orElse _
  | many part ih =>
    obtain ⟨hconsumes, hpart⟩ := Bool.and_eq_true_iff.1 hg
    induction hn : u.length using Nat.strong_induction_on generalizing u i with
    | _ n ihn =>
      rw [run_many hconsumes, ← hn]
      refine (passes_andThen hpart (fun a next rest => (part.many.spans_run next rest).map _)
        (ih · hpart i) (fun a next rest hread hrest => ?_) (awaits_many.1 hu)).orElse _
      exact (ihn rest.length (hn ▸ length_lt_of_consumes hconsumes hread) hrest next rfl).map _
  | label name part ih => exact (ih hu hg i).named name i
  | map f part ih => exact (ih hu hg i).map f

end Awaits

/-! ## What failures tell -/

/-- The names in a grammar and what its single symbols are expected as. -/
def expectations {α : Type} : Grammar τ ε α → List ε
  | symbol expected _ => expected
  | seq first second | choice first second => first.expectations ++ second.expectations
  | optional part | many part | map _ part => part.expectations
  | label name part => name :: part.expectations

/-- Each expectation is met by just the symbols that its grammar may start with. A symbol that can
only stand at the start of a named part is hidden by the name, and may be expected as anything. -/
def Tells (meets : ε → τ → Prop) {α : Type} : Bool → Grammar τ ε α → Prop
  | hidden, symbol expected accept =>
    (∃ t, (accept t).isSome) ∧ (hidden = true ∨ ∀ t, (∃ e ∈ expected, meets e t) ↔
      (accept t).isSome)
  | hidden, seq first second => first.Tells meets hidden ∧ second.Tells meets false
  | hidden, choice first second => first.Tells meets hidden ∧ second.Tells meets hidden
  | hidden, optional part | hidden, map _ part => part.Tells meets hidden
  | _, many part => part.Tells meets false
  | _, label name part =>
    part.Tells meets true ∧ part.consumes ∧ ∀ t, meets name t ↔ part.Awaits [] t

/-- At the end of the symbols, a run from place `i` fails, and what is expected there has `Q`. -/
def Expects (Q : List ε → Prop) (g : Grammar τ ε α) (i : Nat) (u : List τ) : Prop :=
  Failure.At Q (i + u.length) (g.run i u).furthest?

section Expects

variable {Q : List ε → Prop} {g : Grammar τ ε α} {i : Nat} {u : List τ} {t : τ}

theorem expects_symbol_nil {expected : List ε} {accept : τ → Option α} :
    (symbol expected accept).Expects Q i [] ↔ Q expected :=
  Failure.at_some.trans (and_iff_right rfl)

theorem not_expects_symbol_cons {expected : List ε} {accept : τ → Option α} :
    ¬ (symbol expected accept).Expects Q i (t :: u) := by
  rw [Expects, run_symbol, List.length_cons]
  cases accept t with
  | none =>
    intro hat
    have hindex : i = i + (u.length + 1) := (Failure.at_some.1 hat).1
    omega
  | some a => exact Failure.not_at_none

theorem expects_nil_of_consumes (hg : g.consumes) (i : Nat) : g.Expects (fun _ => True) i [] := by
  have hspans := g.spans_run i []
  have hresult := g.result?_run i []
  rw [read?_nil_of_consumes hg] at hresult
  rw [Expects]
  generalize g.run i [] = o at hspans hresult ⊢
  cases o with
  | ok a next rest f => cases hresult
  | fail f => exact Failure.at_some.2 ⟨Nat.le_antisymm hspans.2 hspans.1, trivial⟩

theorem expects_label_nil {name : ε} (hg : g.consumes) :
    (g.label name).Expects Q i [] ↔ Q [name] := by
  rw [Expects, run_label, Outcome.furthest?_named, Failure.at_map_named,
    if_pos (show i + ([] : List τ).length = i from rfl)]
  exact and_iff_right (expects_nil_of_consumes hg i)

theorem expects_label_cons {name : ε} :
    (g.label name).Expects Q i (t :: u) ↔ g.Expects Q i (t :: u) := by
  rw [Expects, run_label, Outcome.furthest?_named, Failure.at_map_named,
    if_neg (by rw [List.length_cons]; omega)]
  rfl

theorem expects_map {f : α → β} : (g.map f).Expects Q i u ↔ g.Expects Q i u := by
  rw [Expects, run_map, Outcome.furthest?_map]
  rfl

variable (hQ : Failure.Splits Q)
include hQ

theorem expects_seq {h : Grammar τ ε β} :
    (g.seq h).Expects Q i u ↔ g.Expects Q i u ∨ ∃ a next rest f, g.run i u = .ok a next rest f ∧
    h.Expects Q next rest := by
  rw [Expects, run_seq, Outcome.at_andThen hQ (g.spans_run i u)
    fun a next rest => (h.spans_run next rest).map _]
  simp only [Outcome.furthest?_map]
  rfl

theorem expects_choice {g' : Grammar τ ε α} :
    (g.choice g').Expects Q i u ↔ g.Expects Q i u ∨ g.read? u = none ∧ g'.Expects Q i u := by
  rw [Expects, run_choice, Outcome.at_orElse hQ (g.spans_run i u) (g'.spans_run i u), result?_run]
  rfl

theorem expects_optional : g.optional.Expects Q i u ↔ g.Expects Q i u := by
  rw [Expects, run_optional, Outcome.at_orElse hQ ((g.spans_run i u).map some)
    (Outcome.spans_ok none i u), Outcome.furthest?_map]
  exact or_iff_left fun h => Failure.not_at_none h.2

theorem expects_many (hg : g.consumes) :
    g.many.Expects Q i u ↔
      g.Expects Q i u ∨ ∃ a next rest f, g.run i u = .ok a next rest f ∧
        g.many.Expects Q next rest := by
  have hspans : ∀ a next rest, ((g.many.run next rest).map (a :: ·)).Spans next rest :=
    fun a next rest => (g.many.spans_run next rest).map _
  rw [Expects, run_many hg, Outcome.at_orElse hQ ((g.spans_run i u).andThen hspans)
    (Outcome.spans_ok [] i u), Outcome.at_andThen hQ (g.spans_run i u) hspans]
  simp only [Outcome.furthest?_map]
  exact or_iff_left fun h => Failure.not_at_none h.2

end Expects

section Tells

variable {g : Grammar τ ε α} {meets : ε → τ → Prop} {hidden : Bool} {i : Nat} {u : List τ} {t : τ}
  {e : ε}

/-- At the end, a run expects what the grammar mentions. -/
theorem mem_expectations_of_expects (hg : g.proper) (h : g.Expects (e ∈ ·) i u) :
    e ∈ g.expectations := by
  have hQ := Failure.splits_mem e
  induction g generalizing u i with
  | symbol expected accept =>
    cases u with
    | nil => exact expects_symbol_nil.1 h
    | cons t u => exact absurd h not_expects_symbol_cons
  | seq first second ih₁ ih₂ =>
    obtain ⟨hfirst, hsecond⟩ := Bool.and_eq_true_iff.1 hg
    obtain h | ⟨a, next, rest, f, -, h⟩ := (expects_seq hQ).1 h
    · exact List.mem_append_left _ (ih₁ hfirst h)
    · exact List.mem_append_right _ (ih₂ hsecond h)
  | choice first second ih₁ ih₂ =>
    obtain ⟨hfirst, hsecond⟩ := Bool.and_eq_true_iff.1 hg
    obtain h | ⟨-, h⟩ := (expects_choice hQ).1 h
    · exact List.mem_append_left _ (ih₁ hfirst h)
    · exact List.mem_append_right _ (ih₂ hsecond h)
  | optional part ih => exact ih hg ((expects_optional hQ).1 h)
  | many part ih =>
    obtain ⟨hconsumes, hpart⟩ := Bool.and_eq_true_iff.1 hg
    induction hn : u.length using Nat.strong_induction_on generalizing u i with
    | _ n ihn =>
      obtain h | ⟨a, next, rest, f, hrun, h⟩ := (expects_many hQ hconsumes).1 h
      · exact ih hpart h
      · exact ihn rest.length (hn ▸ length_lt_of_consumes hconsumes (read?_of_run hrun)) h rfl
  | label name part ih =>
    rw [Expects, run_label, Outcome.furthest?_named, Failure.at_map_named] at h
    split at h
    next => exact List.mem_singleton.1 h.2 ▸ List.mem_cons_self
    next => exact List.mem_cons_of_mem _ (ih hg h)
  | map f part ih => exact ih hg (expects_map.1 h)

/-- A run that fails at the end awaits something there. -/
theorem exists_awaits_of_expects (hg : g.proper) (htells : g.Tells meets hidden)
    (h : g.Expects (fun _ => True) i u) : ∃ t, g.Awaits u t := by
  have hQ : Failure.Splits fun _ : List ε => True := Failure.splits_true
  induction g generalizing u i hidden with
  | symbol expected accept =>
    cases u with
    | nil => exact htells.1.imp fun t ht => ⟨rfl, ht⟩
    | cons t u => exact absurd h not_expects_symbol_cons
  | seq first second ih₁ ih₂ =>
    obtain ⟨hfirst, hsecond⟩ := Bool.and_eq_true_iff.1 hg
    obtain h | ⟨a, next, rest, f, hrun, h⟩ := (expects_seq hQ).1 h
    · exact (ih₁ hfirst htells.1 h).imp fun _ => .inl
    · exact (ih₂ hsecond htells.2 h).imp fun _ ht => .inr ⟨a, rest, read?_of_run hrun, ht⟩
  | choice first second ih₁ ih₂ =>
    obtain ⟨hfirst, hsecond⟩ := Bool.and_eq_true_iff.1 hg
    obtain h | ⟨hread, h⟩ := (expects_choice hQ).1 h
    · exact (ih₁ hfirst htells.1 h).imp fun _ => .inl
    · exact (ih₂ hsecond htells.2 h).imp fun _ ht => .inr ⟨hread, ht⟩
  | optional part ih => exact ih hg htells ((expects_optional hQ).1 h)
  | many part ih =>
    obtain ⟨hconsumes, hpart⟩ := Bool.and_eq_true_iff.1 hg
    induction hn : u.length using Nat.strong_induction_on generalizing u i with
    | _ n ihn =>
      obtain h | ⟨a, next, rest, f, hrun, h⟩ := (expects_many hQ hconsumes).1 h
      · exact (ih hpart htells h).imp fun _ ht => awaits_many.2 (.inl ht)
      · have hread := read?_of_run hrun
        refine (ihn rest.length (hn ▸ length_lt_of_consumes hconsumes hread) h rfl).imp
          fun _ ht => ?_
        exact awaits_many.2 (.inr ⟨a, rest, hread, ht⟩)
  | label name part ih =>
    obtain ⟨hpart, hconsumes, -⟩ := htells
    cases u with
    | nil => exact ih hg hpart (expects_nil_of_consumes hconsumes i)
    | cons t u => exact ih hg hpart (expects_label_cons.1 h)
  | map f part ih => exact ih hg htells (expects_map.1 h)

/-- At the end, a run expects just the symbols that it awaits. -/
theorem expects_iff_awaits (hg : g.proper) (htells : g.Tells meets hidden)
    (hu : hidden = true → u ≠ []) :
    g.Expects (fun expected => ∃ e ∈ expected, meets e t) i u ↔ g.Awaits u t := by
  have hQ := Failure.splits_exists (meets · t)
  induction g generalizing u i hidden with
  | symbol expected accept =>
    cases u with
    | nil =>
      have hmeets := htells.2.resolve_left fun h => hu h rfl
      exact expects_symbol_nil.trans ((hmeets t).trans (and_iff_right rfl).symm)
    | cons t' u => exact ⟨fun h => absurd h not_expects_symbol_cons, fun h => nomatch h.1⟩
  | seq first second ih₁ ih₂ =>
    obtain ⟨hfirst, hsecond⟩ := Bool.and_eq_true_iff.1 hg
    refine (expects_seq hQ).trans (or_congr (ih₁ hfirst htells.1 hu) ⟨?_, ?_⟩)
    · rintro ⟨a, next, rest, f, hrun, h⟩
      exact ⟨a, rest, read?_of_run hrun, (ih₂ hsecond htells.2 nofun).1 h⟩
    · rintro ⟨a, rest, hread, hrest⟩
      obtain ⟨next, f, hrun, -⟩ := exists_run_of_read? hread i
      exact ⟨a, next, rest, f, hrun, (ih₂ hsecond htells.2 nofun).2 hrest⟩
  | choice first second ih₁ ih₂ =>
    obtain ⟨hfirst, hsecond⟩ := Bool.and_eq_true_iff.1 hg
    exact (expects_choice hQ).trans
      (or_congr (ih₁ hfirst htells.1 hu) (and_congr_right fun _ => ih₂ hsecond htells.2 hu))
  | optional part ih => exact (expects_optional hQ).trans (ih hg htells hu)
  | many part ih =>
    obtain ⟨hconsumes, hpart⟩ := Bool.and_eq_true_iff.1 hg
    clear hu
    induction hn : u.length using Nat.strong_induction_on generalizing u i with
    | _ n ihn =>
      refine (expects_many hQ hconsumes).trans
        (Iff.trans (or_congr (ih hpart htells nofun) ⟨?_, ?_⟩) awaits_many.symm)
      · rintro ⟨a, next, rest, f, hrun, h⟩
        have hread := read?_of_run hrun
        have hlt := hn ▸ length_lt_of_consumes hconsumes hread
        exact ⟨a, rest, hread, (ihn rest.length hlt rfl).1 h⟩
      · rintro ⟨a, rest, hread, hrest⟩
        obtain ⟨next, f, hrun, -⟩ := exists_run_of_read? hread i
        have hlt := hn ▸ length_lt_of_consumes hconsumes hread
        exact ⟨a, next, rest, f, hrun, (ihn rest.length hlt rfl).2 hrest⟩
  | label name part ih =>
    obtain ⟨hpart, hconsumes, hname⟩ := htells
    cases u with
    | nil =>
      refine (expects_label_nil hconsumes).trans (Iff.trans ?_ (hname t))
      simp only [List.mem_singleton, exists_eq_left]
    | cons t' u => exact expects_label_cons.trans (ih hg hpart fun _ => List.cons_ne_nil _ _)
  | map f part ih => exact expects_map.trans (ih hg htells hu)

variable {h : Grammar τ ε β}

theorem Tells.seq (hg : g.Tells meets hidden) (hh : h.Tells meets false) :
    (g.seq h).Tells meets hidden := ⟨hg, hh⟩

theorem Tells.choice {g' : Grammar τ ε α} (hg : g.Tells meets hidden)
    (hg' : g'.Tells meets hidden) :
    (g.choice g').Tells meets hidden :=
  ⟨hg, hg'⟩

theorem Tells.optional (hg : g.Tells meets hidden) : g.optional.Tells meets hidden := hg

theorem Tells.many (hg : g.Tells meets false) : g.many.Tells meets hidden := hg

theorem Tells.map {f : α → β} (hg : g.Tells meets hidden) : (g.map f).Tells meets hidden := hg

theorem Tells.skipThen (hg : g.Tells meets hidden) (hh : h.Tells meets false) :
    (g.skipThen h).Tells meets hidden :=
  (hg.seq hh).map

theorem Tells.thenSkip (hg : g.Tells meets hidden) (hh : h.Tells meets false) :
    (g.thenSkip h).Tells meets hidden :=
  (hg.seq hh).map

theorem Tells.between {γ : Type} {g' : Grammar τ ε γ} (hg : g.Tells meets hidden)
    (hg' : g'.Tells meets false) (hh : h.Tells meets false) : (between g g' h).Tells meets hidden :=
  hg.skipThen (hh.thenSkip hg')

theorem Tells.separated1 (hh : h.Tells meets false) (hg : g.Tells meets false) :
    (separated1 h g).Tells meets false :=
  (hg.seq (hh.skipThen hg).many).map

theorem Tells.separated (hh : h.Tells meets false) (hg : g.Tells meets false) :
    (separated h g).Tells meets false :=
  (hh.separated1 hg).optional.map

end Tells

/-! ## Completions -/

/-- In front of symbols with `F`, whatever is awaited can be completed. -/
def Completes (g : Grammar τ ε α) (F : List τ → Prop) : Prop :=
  ∀ ⦃u t⦄, g.Awaits u t → ∀ ⦃rest⦄, F rest → ∃ w a, g.read? (u ++ t :: (w ++ rest)) = some (a, rest)

/-- The grammars may start with a symbol. -/
def CanStart (g : Grammar τ ε α) (t : τ) : Prop := ∃ ts a rest, g.read? (t :: ts) = some (a, rest)

section Completes

variable {g : Grammar τ ε α} {h : Grammar τ ε β} {F G : List τ → Prop} {t : τ}

theorem Completes.canStart_iff (hg : g.Completes F) (hF : ∃ rest, F rest) (hproper : g.proper)
    (hconsumes : g.consumes) : g.CanStart t ↔ g.Awaits [] t := by
  constructor
  · rintro ⟨ts, a, last, hread⟩
    by_contra ht
    have hnone := read?_append_cons hproper ht ts
    rw [read?_nil_of_consumes hconsumes, List.nil_append, hread] at hnone
    cases hnone
  · intro ht
    obtain ⟨rest, hrest⟩ := hF
    obtain ⟨w, a, hread⟩ := hg ht hrest
    exact ⟨w ++ rest, a, rest, hread⟩

/-- A name that is met by what its part may start with tells just that. -/
theorem Tells.label {meets : ε → τ → Prop} {hidden : Bool} {name : ε} (htells : g.Tells meets true)
    (hg : g.Completes F) (hF : ∃ rest, F rest) (hproper : g.proper) (hconsumes : g.consumes)
    (hname : ∀ t, meets name t ↔ g.CanStart t) : (g.label name).Tells meets hidden :=
  ⟨htells, hconsumes, fun t => (hname t).trans (hg.canStart_iff hF hproper hconsumes)⟩

theorem completes_symbol {expected : List ε} {accept : τ → Option α} :
    (symbol expected accept).Completes F := by
  rintro _ t ⟨rfl, ht⟩ rest -
  obtain ⟨a, ha⟩ := Option.isSome_iff_exists.1 ht
  exact ⟨[], a, by rw [List.nil_append, List.nil_append, read?_symbol, ha]; rfl⟩

/-- The first part is completed by the second one, which has some reading. -/
theorem Completes.seq_of_exists (hg : g.Completes G) (hh : h.Completes F) (hproper : g.proper)
    (hG : ∀ rest, F rest → ∃ w b, h.read? (w ++ rest) = some (b, rest) ∧ G (w ++ rest)) :
    (g.seq h).Completes F := by
  intro u t ht rest hrest
  by_cases ht₁ : g.Awaits u t
  · obtain ⟨w₂, b, hb, hnext⟩ := hG rest hrest
    obtain ⟨w₁, a, ha⟩ := hg ht₁ hnext
    refine ⟨w₁ ++ w₂, (a, b), ?_⟩
    simp only [List.append_assoc, read?_seq, ha, hb, Option.bind_some, Option.map_some]
  · obtain ⟨a, mid, hmid, ht₂⟩ := ht.resolve_left ht₁
    obtain ⟨w, b, hb⟩ := hh ht₂ hrest
    refine ⟨w, (a, b), ?_⟩
    simp only [read?_seq, read?_append_cons hproper ht₁, hmid, hb, Option.bind_some,
      Option.map_some]

/-- The second part may start with `t`, in front of which the first one is complete. -/
theorem Completes.seq (hg : g.Completes G) (hh : h.Completes F) (hproper : g.proper)
    (ht : h.Awaits [] t) (hG : ∀ ts, G (t :: ts)) : (g.seq h).Completes F := by
  refine hg.seq_of_exists hh hproper fun rest hrest => ?_
  obtain ⟨w, b, hb⟩ := hh ht hrest
  exact ⟨t :: w, b, hb, hG _⟩

/-- The second part may be left out. -/
theorem Completes.seq_of_empty (hg : g.Completes F) (hh : h.Completes F) (hproper : g.proper)
    (hempty : ∀ rest, F rest → ∃ b, h.read? rest = some (b, rest)) : (g.seq h).Completes F := by
  refine hg.seq_of_exists hh hproper fun rest hrest => ?_
  obtain ⟨b, hb⟩ := hempty rest hrest
  exact ⟨[], b, hb, hrest⟩

theorem Completes.choice {g' : Grammar τ ε α} (hg : g.Completes F) (hg' : g'.Completes F)
    (hproper : g.proper) : (g.choice g').Completes F := by
  intro u t ht rest hrest
  by_cases ht₁ : g.Awaits u t
  · obtain ⟨w, a, ha⟩ := hg ht₁ hrest
    exact ⟨w, a, by rw [read?_choice, ha]; rfl⟩
  · obtain ⟨hnone, ht₂⟩ := ht.resolve_left ht₁
    obtain ⟨w, a, ha⟩ := hg' ht₂ hrest
    exact ⟨w, a, by rw [read?_choice, read?_append_cons hproper ht₁, hnone, ha]; rfl⟩

theorem Completes.optional (hg : g.Completes F) : g.optional.Completes F := by
  intro u t ht rest hrest
  obtain ⟨w, a, ha⟩ := hg ht hrest
  exact ⟨w, some a, by rw [read?_optional, ha]⟩

/-- After the awaited symbol one round is completed, and what follows is no further one. -/
theorem Completes.many (hg : g.Completes F) (hproper : g.many.proper)
    (hF : ∀ rest, F rest → g.read? rest = none) : g.many.Completes F := by
  obtain ⟨hconsumes, hpart⟩ := Bool.and_eq_true_iff.1 hproper
  rintro u t ⟨last, hpath, hlast⟩ rest hrest
  induction hpath using Relation.ReflTransGen.head_induction_on with
  | refl =>
    obtain ⟨w, a, ha⟩ := hg hlast hrest
    exact ⟨w, [a], by rw [read?_many_of_some hconsumes ha, read?_many_of_none (hF rest hrest)]; rfl⟩
  | @head u mid hstep _ ih =>
    obtain ⟨a, hmid⟩ := hstep
    by_cases hu : g.Awaits u t
    · obtain ⟨w, a, ha⟩ := hg hu hrest
      exact ⟨w, [a], by rw [read?_many_of_some hconsumes ha,
        read?_many_of_none (hF rest hrest)]; rfl⟩
    · obtain ⟨w, as, has⟩ := ih
      have hread : g.read? (u ++ t :: (w ++ rest)) = some (a, mid ++ t :: (w ++ rest)) := by
        rw [read?_append_cons hpart hu, hmid]
        rfl
      exact ⟨w, a :: as, by rw [read?_many_of_some hconsumes hread, has]; rfl⟩

theorem Completes.label {name : ε} (hg : g.Completes F) : (g.label name).Completes F := hg

theorem Completes.map {f : α → β} (hg : g.Completes F) : (g.map f).Completes F := by
  intro u t ht rest hrest
  obtain ⟨w, a, ha⟩ := hg ht hrest
  exact ⟨w, f a, by rw [read?_map, ha]; rfl⟩

theorem Completes.skipThen (hg : g.Completes G) (hh : h.Completes F) (hproper : g.proper)
    (ht : h.Awaits [] t) (hG : ∀ ts, G (t :: ts)) : (g.skipThen h).Completes F :=
  (hg.seq hh hproper ht hG).map

theorem Completes.thenSkip (hg : g.Completes G) (hh : h.Completes F) (hproper : g.proper)
    (ht : h.Awaits [] t) (hG : ∀ ts, G (t :: ts)) : (g.thenSkip h).Completes F :=
  (hg.seq hh hproper ht hG).map

theorem Completes.separated1 (hh : h.Completes fun _ => True) (hg : g.Completes F)
    (hproper : h.proper && g.proper) (hconsumes : h.consumes) (ht : g.Awaits [] t)
    (hF : ∀ rest, F rest → h.read? rest = none) : (separated1 h g).Completes F := by
  obtain ⟨hh', hg'⟩ := Bool.and_eq_true_iff.1 hproper
  have hnone : ∀ rest, F rest → (h.skipThen g).read? rest = none := by
    intro rest hrest
    simp only [Grammar.skipThen, read?_map, read?_seq, hF rest hrest, Option.bind_none,
      Option.map_none]
  have hmany : (h.skipThen g).many.proper := by
    simp only [Grammar.skipThen, proper, consumes, hconsumes, hh', hg', Bool.true_or, Bool.and_self]
  have hrounds := (hh.skipThen hg hh' ht fun _ => trivial).many hmany hnone
  exact (hg.seq_of_empty hrounds hg'
    fun rest hrest => ⟨[], read?_many_of_none (hnone rest hrest)⟩).map

theorem Completes.separated (hh : h.Completes fun _ => True) (hg : g.Completes F)
    (hproper : h.proper && g.proper) (hconsumes : h.consumes) (ht : g.Awaits [] t)
    (hF : ∀ rest, F rest → h.read? rest = none) : (separated h g).Completes F :=
  (hh.separated1 hg hproper hconsumes ht hF).optional.map

end Completes

/-! ## Errors -/

/-- Some symbols go on to something that is read off as a whole. -/
def Viable (g : Grammar τ ε α) (u : List τ) : Prop := ∃ v a, g.read? (u ++ v) = some (a, [])

section Viable

variable {g : Grammar τ ε α} {meets : ε → τ → Prop} {finish : ε} {ts u : List τ} {t : τ}
  {f : Failure ε}

theorem viable_append_singleton_iff (hg : g.proper) (hcompletes : g.Completes (· = [])) :
    g.Viable (u ++ [t]) ↔ g.Awaits u t := by
  constructor
  · rintro ⟨v, a, hread⟩
    by_contra ht
    rw [List.append_assoc, List.singleton_append, read?_append_cons hg ht] at hread
    obtain ⟨⟨b, rest⟩, -, heq⟩ := Option.map_eq_some_iff.1 hread
    exact List.append_ne_nil_of_right_ne_nil _ (List.cons_ne_nil _ _) (Prod.mk.inj heq).2
  · intro ht
    obtain ⟨w, a, hread⟩ := hcompletes ht rfl
    exact ⟨w, a, by rwa [List.append_assoc, List.singleton_append, ← List.append_nil w]⟩

/-- What follows a value is not the end. -/
def unfinished (finish : ε) (_ : α) (next : Nat) (_ : List τ) : Outcome τ ε α :=
  .fail ⟨next, [finish]⟩

theorem spans_unfinished (finish : ε) (a : α) (next : Nat) (rest : List τ) :
    (unfinished finish a next rest).Spans next rest :=
  ⟨Nat.le_refl _, Nat.le_add_right _ _⟩

theorem andThen_of_parse_eq_error (h : g.parse finish ts = .error f) :
    (g.run 0 ts).andThen (unfinished finish) = .fail f := by
  rw [parse] at h
  cases hrun : g.run 0 ts with
  | fail f' =>
    rw [hrun] at h
    cases h
    rfl
  | ok a next rest furthest =>
    rw [hrun] at h
    cases rest with
    | nil => cases h
    | cons t rest => cases furthest <;> cases h <;> rfl

theorem index_le_of_parse_eq_error (h : g.parse finish ts = .error f) : f.index ≤ ts.length := by
  have hspans := (g.spans_run 0 ts).andThen (spans_unfinished finish)
  rw [andThen_of_parse_eq_error h] at hspans
  exact Nat.zero_add ts.length ▸ hspans.2

/-- An error is recorded at a symbol that is not awaited: a run would get past any other one. -/
theorem not_awaits_of_parse_eq_error (hg : g.proper) (h : g.parse finish ts = .error f) :
    ∀ t ∈ (ts.drop f.index).head?, ¬ g.Awaits (ts.take f.index) t := by
  intro t ht hawaits
  obtain ⟨v, hv⟩ := List.head?_eq_some_iff.1 ht
  have hpasses := (hawaits.passes hg 0 v).andThen (spans_unfinished finish)
  rw [← hv, List.take_append_drop, andThen_of_parse_eq_error h, List.length_take,
    Nat.min_eq_left (index_le_of_parse_eq_error h), Nat.zero_add] at hpasses
  exact Nat.lt_irrefl _ hpasses

/-- The expectations of an error are those at the end of the symbols before it. -/
theorem expected_of_parse_eq_error {Q : List ε → Prop} (hQ : Failure.Splits Q) (hg : g.proper)
    (h : g.parse finish ts = .error f) :
    Q f.expected ↔
      g.Expects Q 0 (ts.take f.index) ∨ (∃ a, g.read? (ts.take f.index) = some (a, [])) ∧
        Q [finish] := by
  have hlength : 0 + (ts.take f.index).length = f.index := by
    rw [Nat.zero_add, List.length_take, Nat.min_eq_left (index_le_of_parse_eq_error h)]
  have hrun : (g.run 0 (ts.take f.index)).andThen (unfinished finish) = .fail f := by
    have herror := andThen_of_parse_eq_error h
    rw [← List.take_append_drop f.index ts, run_append hg (not_awaits_of_parse_eq_error hg h),
      Outcome.extend_andThen (d := unfinished finish) fun _ _ _ _ => rfl] at herror
    exact Outcome.eq_fail_of_extend herror
  have hat := Outcome.at_andThen hQ (g.spans_run 0 (ts.take f.index)) (spans_unfinished finish)
  rw [hrun, hlength] at hat
  refine (Failure.at_some.trans (and_iff_right rfl)).symm.trans (hat.trans (or_congr ?_ ⟨?_, ?_⟩))
  · rw [Expects, hlength]
  · rintro ⟨a, next, rest, furthest, hok, hfinish⟩
    -- the end is expected at the end only if nothing is left
    obtain ⟨hrest, hQfinish⟩ := Failure.at_some.1 hfinish
    have hnil : rest = [] := List.eq_nil_of_length_eq_zero (Nat.left_eq_add.1 hrest)
    exact ⟨⟨a, hnil ▸ read?_of_run hok⟩, hQfinish⟩
  · rintro ⟨⟨a, hread⟩, hQfinish⟩
    obtain ⟨next, furthest, hok, -⟩ := exists_run_of_read? hread 0
    exact ⟨a, next, [], furthest, hok, Failure.at_some.2 ⟨rfl, hQfinish⟩⟩

variable (hg : g.proper) (hcompletes : g.Completes (· = [])) (h : g.parse finish ts = .error f)
include hg hcompletes h

theorem viable_take_of_parse_eq_error (htells : g.Tells meets false) :
    g.Viable (ts.take f.index) := by
  obtain hexpects | ⟨⟨a, hread⟩, -⟩ :=
    (expected_of_parse_eq_error Failure.splits_true hg h).1 trivial
  · obtain ⟨t, ht⟩ := exists_awaits_of_expects hg htells hexpects
    obtain ⟨v, a, hread⟩ := (viable_append_singleton_iff hg hcompletes).2 ht
    exact ⟨t :: v, a, by rwa [List.append_assoc] at hread⟩
  · exact ⟨[], a, by rwa [List.append_nil]⟩

theorem not_viable_take_of_parse_eq_error (hlt : f.index < ts.length) :
    ¬ g.Viable (ts.take (f.index + 1)) := by
  rw [List.take_succ_eq_append_getElem hlt, viable_append_singleton_iff hg hcompletes]
  refine not_awaits_of_parse_eq_error hg h _ ?_
  rw [List.head?_drop]
  exact List.getElem?_eq_getElem hlt

theorem viable_iff_of_parse_eq_error (htells : g.Tells meets false) (hfinish : ¬ meets finish t) :
    g.Viable (ts.take f.index ++ [t]) ↔ ∃ e ∈ f.expected, meets e t := by
  rw [viable_append_singleton_iff hg hcompletes,
    expected_of_parse_eq_error (Failure.splits_exists (meets · t)) hg h,
    expects_iff_awaits hg htells nofun]
  simp only [List.mem_singleton, exists_eq_left, hfinish, and_false, or_false]

omit hcompletes in
theorem finish_mem_of_parse_eq_error (hfinish : finish ∉ g.expectations) :
    finish ∈ f.expected ↔ ∃ a, g.read? (ts.take f.index) = some (a, []) := by
  rw [expected_of_parse_eq_error (Failure.splits_mem finish) hg h]
  simp only [List.mem_singleton, and_true]
  exact or_iff_right fun hexpects => hfinish (mem_expectations_of_expects hg hexpects)

end Viable

end Grammar

end PointsTo
