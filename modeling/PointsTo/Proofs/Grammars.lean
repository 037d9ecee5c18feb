import Mathlib.Computability.Language
import Mathlib.Order.CompletePartialOrder
import PointsTo.Grammar

/-!
# What grammars read

A grammar is compared with languages: with the language of each value it may give, over what the
symbols show. `Sound` says that whatever is read off stands in the language of the value that is
given. `Reads` says the converse for one value, in front of symbols that meet a condition: a choice
does not fall into an earlier branch, and an option or a repetition does not go on into what
follows. Each form of grammars has one rule for `Sound` and one for `Reads`.
-/

namespace PointsTo

variable {τ ε σ α β γ : Type}

/-! ## Reading without failures -/

/-- The value of an outcome and the symbols after it. -/
def Outcome.result? : Outcome τ ε α → Option (α × List τ)
  | ok a _ rest _ => some (a, rest)
  | fail _ => none

@[simp]
theorem Outcome.result?_map (f : α → β) (o : Outcome τ ε α) :
    (o.map f).result? = o.result?.map fun (a, rest) => (f a, rest) := by
  cases o <;> rfl

@[simp]
theorem Outcome.result?_after (earlier : Option (Failure ε)) (o : Outcome τ ε α) :
    (o.after earlier).result? = o.result? := by
  cases o <;> cases earlier <;> rfl

@[simp]
theorem Outcome.result?_named (name : ε) (start : Nat) (o : Outcome τ ε α) :
    (o.named name start).result? = o.result? := by
  cases o <;> rfl

/-- Repeats a reading until it fails, at most once more than there are symbols in `bound`. -/
def repeatRead (read : List τ → Option (α × List τ)) (bound ts : List τ) : List α × List τ :=
  match read ts with
  | none => ([], ts)
  | some (a, rest) =>
    match bound with
    | [] => ([a], rest)
    | _ :: bound => ((repeatRead read bound rest).map (a :: ·) id)

theorem result?_repeatRun {run : Nat → List τ → Outcome τ ε α} {read : List τ → Option (α × List τ)}
    (hrun : ∀ i ts, (run i ts).result? = read ts) (bound : List τ) (i : Nat) (ts : List τ) :
    (repeatRun run bound i ts).result? = some (repeatRead read bound ts) := by
  induction bound generalizing i ts with
  | nil =>
    rw [repeatRun, repeatRead, ← hrun i ts]
    cases run i ts <;> rfl
  | cons _ bound ih =>
    rw [repeatRun, repeatRead, ← hrun i ts]
    cases run i ts with
    | fail f => rfl
    | ok a next rest f =>
      rw [Outcome.result?_after, Outcome.result?_map, ih next rest]
      rfl

namespace Grammar

/-- Reads a value off some symbols, without account of failures. -/
def read? {α : Type} : Grammar τ ε α → List τ → Option (α × List τ)
  | symbol _ _, [] => none
  | symbol _ accept, t :: ts => (accept t).map (·, ts)
  | seq first second, ts =>
    (first.read? ts).bind fun (a, rest) => (second.read? rest).map fun (b, rest) => ((a, b), rest)
  | choice first second, ts => (first.read? ts).or (second.read? ts)
  | optional part, ts =>
    match part.read? ts with
    | some (a, rest) => some (some a, rest)
    | none => some (none, ts)
  | many part, ts => some (repeatRead part.read? ts ts)
  | label _ part, ts => part.read? ts
  | map f part, ts => (part.read? ts).map fun (a, rest) => (f a, rest)

section Equations

variable (g : Grammar τ ε α) (ts : List τ)

theorem read?_symbol (expected : List ε) (accept : τ → Option α) (t : τ) :
    (symbol expected accept).read? (t :: ts) = (accept t).map (·, ts) := rfl

theorem read?_seq (h : Grammar τ ε β) : (g.seq h).read? ts =
    (g.read? ts).bind fun (a, rest) => (h.read? rest).map fun (b, rest) => ((a, b), rest) := rfl

theorem read?_choice (g' : Grammar τ ε α) :
    (g.choice g').read? ts = (g.read? ts).or (g'.read? ts) := rfl

theorem read?_optional : g.optional.read? ts =
    match g.read? ts with
    | some (a, rest) => some (some a, rest)
    | none => some (none, ts) := rfl

theorem read?_many : g.many.read? ts = some (repeatRead g.read? ts ts) := rfl

theorem read?_label (name : ε) : (g.label name).read? ts = g.read? ts := rfl

theorem read?_map (f : α → β) :
    (g.map f).read? ts = (g.read? ts).map fun (a, rest) => (f a, rest) := rfl

end Equations

theorem result?_run (g : Grammar τ ε α) (i : Nat) (ts : List τ) :
    (g.run i ts).result? = g.read? ts := by
  induction g generalizing i ts with
  | symbol expected accept =>
    cases ts with
    | nil => rfl
    | cons t ts =>
      rw [run, read?_symbol]
      cases accept t <;> rfl
  | seq first second ih₁ ih₂ =>
    rw [run, read?_seq, ← ih₁ i ts]
    cases first.run i ts with
    | fail f => rfl
    | ok a next rest f =>
      rw [Outcome.result?_after, Outcome.result?_map, ih₂ next rest]
      rfl
  | choice first second ih₁ ih₂ =>
    rw [run, read?_choice, ← ih₁ i ts]
    cases first.run i ts with
    | fail f => rw [Outcome.result?_after, ih₂ i ts]; rfl
    | ok a next rest f => rfl
  | optional part ih =>
    rw [run, read?_optional, ← ih i ts]
    cases part.run i ts <;> rfl
  | many part ih => exact result?_repeatRun ih ts i ts
  | label name part ih => rw [run, read?_label, Outcome.result?_named, ih i ts]
  | map f part ih => rw [run, read?_map, Outcome.result?_map, ih i ts]

/-- A value is read off all symbols when nothing is left after it. -/
theorem parse_eq_ok_iff {g : Grammar τ ε α} {finish : ε} {ts : List τ} {a : α} :
    g.parse finish ts = .ok a ↔ g.read? ts = some (a, []) := by
  rw [parse, ← g.result?_run 0 ts]
  cases g.run 0 ts with
  | fail f => simp [Outcome.result?]
  | ok b next rest furthest =>
    cases rest with
    | nil => simp [Outcome.result?]
    | cons t rest => cases furthest <;> simp [Outcome.result?]

/-! ## The first symbol -/

variable (tok : τ → σ)

/-- The first symbol is there and shows something in `S`. -/
def Next (S : σ → Prop) (ts : List τ) : Prop := ∃ t ts', ts = t :: ts' ∧ S (tok t)

/-- Whatever is read off starts with a symbol that shows something in `S`. -/
def Starts (g : Grammar τ ε α) (S : σ → Prop) : Prop :=
  ∀ ⦃ts a rest⦄, g.read? ts = some (a, rest) → Next tok S ts

/-- Either nothing is read off, or what is read off starts with a symbol that shows something in
`S`. -/
def MayStart (g : Grammar τ ε α) (S : σ → Prop) : Prop :=
  ∀ ⦃ts a rest⦄, g.read? ts = some (a, rest) → rest = ts ∨ Next tok S ts

section Starts

variable {tok} {g : Grammar τ ε α} {h : Grammar τ ε β} {S T : σ → Prop}

theorem Next.append {ts : List τ} (hts : Next tok S ts) (rest : List τ) :
    Next tok S (ts ++ rest) := by
  obtain ⟨t, ts', rfl, ht⟩ := hts
  exact ⟨t, ts' ++ rest, rfl, ht⟩

theorem Starts.mono (hg : g.Starts tok S) (hST : ∀ s, S s → T s) : g.Starts tok T := by
  intro ts a rest hread
  obtain ⟨t, ts', hts, ht⟩ := hg hread
  exact ⟨t, ts', hts, hST _ ht⟩

/-- Nothing is read off symbols that start otherwise. -/
theorem Starts.read?_eq_none (hg : g.Starts tok S) {ts : List τ} (hts : Next tok T ts)
    (hST : ∀ s, T s → ¬ S s) : g.read? ts = none := by
  cases hread : g.read? ts with
  | none => rfl
  | some r =>
    obtain ⟨t, ts', rfl, ht⟩ := hts
    obtain ⟨t', ts'', heq, ht'⟩ := hg hread
    obtain ⟨rfl, rfl⟩ := List.cons.inj heq
    exact absurd ht' (hST _ ht)

theorem Starts.read?_nil (hg : g.Starts tok S) : g.read? [] = none := by
  cases hread : g.read? [] with
  | none => rfl
  | some r =>
    obtain ⟨t', ts', hts, -⟩ := hg hread
    cases hts

theorem starts_symbol {expected : List ε} {accept : τ → Option α}
    (hS : ∀ t a, accept t = some a → S (tok t)) : (symbol expected accept).Starts tok S := by
  intro ts a rest hread
  cases ts with
  | nil => cases hread
  | cons t ts =>
    obtain ⟨b, hb, -⟩ := Option.map_eq_some_iff.1 hread
    exact ⟨t, ts, rfl, hS t b hb⟩

theorem Starts.seq (hg : g.Starts tok S) : (g.seq h).Starts tok S := by
  intro ts a rest hread
  obtain ⟨⟨b, mid⟩, hb, -⟩ := Option.bind_eq_some_iff.1 hread
  exact hg hb

theorem MayStart.seq (hg : g.MayStart tok S) (hh : h.Starts tok S) : (g.seq h).Starts tok S := by
  intro ts a rest hread
  obtain ⟨⟨b, mid⟩, hb, hmid⟩ := Option.bind_eq_some_iff.1 hread
  obtain ⟨⟨c, last⟩, hc, -⟩ := Option.map_eq_some_iff.1 hmid
  obtain rfl | hstart := hg hb
  · exact hh hc
  · exact hstart

theorem Starts.choice {g' : Grammar τ ε α} (hg : g.Starts tok S) (hg' : g'.Starts tok S) :
    (g.choice g').Starts tok S := by
  intro ts a rest hread
  obtain hleft | ⟨-, hright⟩ := Option.or_eq_some_iff.1 hread
  · exact hg hleft
  · exact hg' hright

theorem Starts.label {name : ε} (hg : g.Starts tok S) : (g.label name).Starts tok S := hg

theorem Starts.map {f : α → β} (hg : g.Starts tok S) : (g.map f).Starts tok S := by
  intro ts a rest hread
  obtain ⟨⟨b, mid⟩, hb, -⟩ := Option.map_eq_some_iff.1 hread
  exact hg hb

theorem Starts.skipThen (hg : g.Starts tok S) : (g.skipThen h).Starts tok S := hg.seq.map

theorem Starts.thenSkip (hg : g.Starts tok S) : (g.thenSkip h).Starts tok S := hg.seq.map

theorem Starts.optional (hg : g.Starts tok S) : g.optional.MayStart tok S := by
  intro ts a rest hread
  rw [read?_optional] at hread
  split at hread
  next b mid hb => exact .inr (hg hb)
  next => cases hread; exact .inl rfl

theorem Starts.many (hg : g.Starts tok S) : g.many.MayStart tok S := by
  intro ts a rest hread
  rw [read?_many, repeatRead] at hread
  split at hread
  next => cases hread; exact .inl rfl
  next b mid hb => exact .inr (hg hb)

end Starts

/-! ## Soundness -/

/-- Whatever is read off stands in the language of the value that is given. -/
def Sound (g : Grammar τ ε α) (L : α → Language σ) : Prop :=
  ∀ ⦃ts a rest⦄, g.read? ts = some (a, rest) → ∃ used, ts = used ++ rest ∧ used.map tok ∈ L a

section Sound

variable {tok} {g : Grammar τ ε α} {h : Grammar τ ε β} {L : α → Language σ} {M : β → Language σ}
  {K : Language σ}

theorem sound_symbol {expected : List ε} {accept : τ → Option α}
    (hL : ∀ t a, accept t = some a → [tok t] ∈ L a) : (symbol expected accept).Sound tok L := by
  intro ts a rest hread
  cases ts with
  | nil => cases hread
  | cons t ts =>
    obtain ⟨b, hb, hrest⟩ := Option.map_eq_some_iff.1 hread
    obtain ⟨rfl, rfl⟩ := Prod.mk.inj hrest
    exact ⟨[t], rfl, hL t b hb⟩

theorem Sound.seq (hg : g.Sound tok L) (hh : h.Sound tok M) :
    (g.seq h).Sound tok fun x => L x.1 * M x.2 := by
  intro ts a rest hread
  obtain ⟨⟨b, mid⟩, hb, hmid⟩ := Option.bind_eq_some_iff.1 hread
  obtain ⟨⟨c, last⟩, hc, hlast⟩ := Option.map_eq_some_iff.1 hmid
  obtain ⟨rfl, rfl⟩ := Prod.mk.inj hlast
  obtain ⟨used₁, rfl, hused₁⟩ := hg hb
  obtain ⟨used₂, rfl, hused₂⟩ := hh hc
  refine ⟨used₁ ++ used₂, (List.append_assoc ..).symm, ?_⟩
  rw [List.map_append]
  exact Language.append_mem_mul hused₁ hused₂

theorem Sound.choice {g' : Grammar τ ε α} (hg : g.Sound tok L) (hg' : g'.Sound tok L) :
    (g.choice g').Sound tok L := by
  intro ts a rest hread
  obtain hleft | ⟨-, hright⟩ := Option.or_eq_some_iff.1 hread
  · exact hg hleft
  · exact hg' hright

theorem Sound.optional (hg : g.Sound tok L) : g.optional.Sound tok fun x => x.elim 1 L := by
  intro ts a rest hread
  rw [read?_optional] at hread
  split at hread
  next b mid hb => cases hread; exact hg hb
  next => cases hread; exact ⟨[], rfl, Language.nil_mem_one⟩

theorem Sound.repeatRead (hg : g.Sound tok L) (bound ts : List τ) :
    ∃ used, ts = used ++ (repeatRead g.read? bound ts).2 ∧
      used.map tok ∈ ((repeatRead g.read? bound ts).1.map L).prod := by
  induction bound generalizing ts with
  | nil =>
    rw [PointsTo.repeatRead]
    split
    next => exact ⟨[], rfl, Language.nil_mem_one⟩
    next a rest ha =>
      obtain ⟨used, hts, hused⟩ := hg ha
      exact ⟨used, hts, by simpa using hused⟩
  | cons _ bound ih =>
    rw [PointsTo.repeatRead]
    split
    next => exact ⟨[], rfl, Language.nil_mem_one⟩
    next a rest ha =>
      obtain ⟨used₁, hts, hused₁⟩ := hg ha
      obtain ⟨used₂, hrest, hused₂⟩ := ih rest
      refine ⟨used₁ ++ used₂, ?_, ?_⟩
      · rw [List.append_assoc]
        exact hts.trans (congrArg (used₁ ++ ·) hrest)
      · rw [List.map_append]
        exact Language.append_mem_mul hused₁ hused₂

theorem Sound.many (hg : g.Sound tok L) : g.many.Sound tok fun as => (as.map L).prod := by
  intro ts a rest hread
  have hresult := Option.some.inj hread
  have hused := hg.repeatRead ts ts
  rwa [hresult] at hused

theorem Sound.label {name : ε} (hg : g.Sound tok L) : (g.label name).Sound tok L := hg

theorem Sound.map (hg : g.Sound tok L) {f : α → β} (hf : ∀ a, L a ≤ M (f a)) :
    (g.map f).Sound tok M := by
  intro ts b rest hread
  obtain ⟨⟨a, mid⟩, ha, hmid⟩ := Option.map_eq_some_iff.1 hread
  obtain ⟨rfl, rfl⟩ := Prod.mk.inj hmid
  obtain ⟨used, hts, hused⟩ := hg ha
  exact ⟨used, hts, hf a hused⟩

theorem Sound.skipThen (hg : g.Sound tok fun _ => K) (hh : h.Sound tok M) :
    (g.skipThen h).Sound tok fun b => K * M b :=
  (hg.seq hh).map fun _ => le_rfl

theorem Sound.thenSkip (hg : g.Sound tok L) (hh : h.Sound tok fun _ => K) :
    (g.thenSkip h).Sound tok fun a => L a * K :=
  (hg.seq hh).map fun _ => le_rfl

theorem Sound.between {K' : Language σ} {g' : Grammar τ ε γ} (hg : g.Sound tok fun _ => K)
    (hg' : g'.Sound tok fun _ => K') (hh : h.Sound tok M) :
    (between g g' h).Sound tok fun b => K * (M b * K') :=
  hg.skipThen (hh.thenSkip hg')

end Sound

end Grammar

/-- Values in their order with separators between them; at least one. -/
def listed1 (K : Language σ) (L : α → Language σ) : List α → Language σ
  | [] => 0
  | a :: as => L a * (as.map fun a => K * L a).prod

/-- Values in their order with separators between them. -/
def listed (K : Language σ) (L : α → Language σ) : List α → Language σ
  | [] => 1
  | a :: as => listed1 K L (a :: as)

namespace Grammar

section Sound

variable {tok : τ → σ} {g : Grammar τ ε α} {h : Grammar τ ε β} {L : α → Language σ} {K : Language σ}

theorem Sound.separated1 (hh : h.Sound tok fun _ => K) (hg : g.Sound tok L) :
    (separated1 h g).Sound tok (listed1 K L) :=
  (hg.seq (hh.skipThen hg).many).map fun _ => le_rfl

theorem Sound.separated (hh : h.Sound tok fun _ => K) (hg : g.Sound tok L) :
    (separated h g).Sound tok (listed K L) := by
  refine (hh.separated1 hg).optional.map ?_
  rintro (_ | _ | ⟨a, as⟩)
  · exact le_rfl
  · exact fun _ => False.elim
  · exact le_rfl

end Sound

/-! ## Completeness -/

/-- The sequences of a language all start with something in `S`. -/
def Begins (L : Language σ) (S : σ → Prop) : Prop := ∀ ⦃w⦄, w ∈ L → ∃ s w', w = s :: w' ∧ S s

section Begins

variable {L M : Language σ} {S T : σ → Prop} {s : σ}

theorem begins_zero : Begins 0 S := fun _ hw => absurd hw (Language.notMem_zero _)

theorem begins_singleton (hs : S s) : Begins {[s]} S := fun _ hw => ⟨s, [], hw, hs⟩

theorem Begins.mul (hL : Begins L S) : Begins (L * M) S := by
  intro w hw
  obtain ⟨w₁, hw₁, w₂, -, rfl⟩ := Language.mem_mul.1 hw
  obtain ⟨s, w', rfl, hs⟩ := hL hw₁
  exact ⟨s, w' ++ w₂, rfl, hs⟩

theorem Begins.mono (hL : Begins L S) (hST : ∀ s, S s → T s) : Begins L T := by
  intro w hw
  obtain ⟨s, w', heq, hs⟩ := hL hw
  exact ⟨s, w', heq, hST s hs⟩

theorem Begins.add (hL : Begins L S) (hM : Begins M S) : Begins (L + M) S :=
  fun _ hw => hw.elim (hL ·) (hM ·)

theorem Begins.nil_notMem (hL : Begins L S) : [] ∉ L := by
  intro hnil
  obtain ⟨s, w', hw, -⟩ := hL hnil
  cases hw

end Begins

variable (tok : τ → σ)

/-- In front of symbols with `F`, what shows a sequence of the language is read off, all of it and
no more, and the value that is given has `P`. -/
def Reads (g : Grammar τ ε α) (L : Language σ) (P : α → Prop) (F : List τ → Prop) : Prop :=
  ∀ ⦃ts rest⦄, ts.map tok ∈ L → F rest → ∃ a, g.read? (ts ++ rest) = some (a, rest) ∧ P a

section Reads

variable {tok} {g : Grammar τ ε α} {h : Grammar τ ε β} {L M K : Language σ} {P P' : α → Prop}
  {Q : β → Prop} {S T : σ → Prop} {F G : List τ → Prop}

theorem Begins.next {ts : List τ} (hL : Begins L S) (hts : ts.map tok ∈ L) : Next tok S ts := by
  obtain ⟨s, w, hw, hs⟩ := hL hts
  obtain ⟨t, ts', rfl, rfl, -⟩ := List.map_eq_cons_iff.1 hw
  exact ⟨t, ts', rfl, hs⟩

/-- Symbols that show a sequence of a product split in two. -/
theorem exists_append_of_map_mem_mul {ts : List τ} (hts : ts.map tok ∈ L * M) :
    ∃ ts₁ ts₂, ts = ts₁ ++ ts₂ ∧ ts₁.map tok ∈ L ∧ ts₂.map tok ∈ M := by
  obtain ⟨w₁, hw₁, w₂, hw₂, hw⟩ := Language.mem_mul.1 hts
  obtain ⟨ts₁, ts₂, rfl, rfl, rfl⟩ := List.map_eq_append_iff.1 hw.symm
  exact ⟨ts₁, ts₂, rfl, hw₁, hw₂⟩

theorem Reads.mono (hg : g.Reads tok L P F) (hP : ∀ a, P a → P' a) : g.Reads tok L P' F := by
  intro ts rest hts hrest
  obtain ⟨a, hread, ha⟩ := hg hts hrest
  exact ⟨a, hread, hP a ha⟩

theorem Reads.add (hg : g.Reads tok L P F) (hg' : g.Reads tok M P F) : g.Reads tok (L + M) P F :=
  fun _ _ hts hrest => hts.elim (hg · hrest) (hg' · hrest)

theorem reads_zero : g.Reads tok 0 P F := fun _ _ hts => absurd hts (Language.notMem_zero _)

theorem reads_symbol {expected : List ε} {accept : τ → Option α}
    (hL : ∀ w ∈ L, ∃ s, w = [s] ∧ ∀ t, tok t = s → ∃ a, accept t = some a ∧ P a) :
    (symbol expected accept).Reads tok L P F := by
  intro ts rest hts hrest
  obtain ⟨s, hs, haccept⟩ := hL _ hts
  obtain ⟨t, rfl, ht⟩ := List.map_eq_singleton_iff.1 hs
  obtain ⟨a, ha, hPa⟩ := haccept t ht
  exact ⟨a, by rw [List.singleton_append, read?_symbol, ha]; rfl, hPa⟩

/-- The first part is read in front of the second one and what follows it. -/
theorem Reads.seq_follow (hg : g.Reads tok L P G) (hh : h.Reads tok M Q F)
    (hG : ∀ ts rest, ts.map tok ∈ M → F rest → G (ts ++ rest)) :
    (g.seq h).Reads tok (L * M) (fun x => P x.1 ∧ Q x.2) F := by
  intro ts rest hts hrest
  obtain ⟨ts₁, ts₂, rfl, hts₁, hts₂⟩ := exists_append_of_map_mem_mul hts
  obtain ⟨a, ha, hPa⟩ := hg hts₁ (hG ts₂ rest hts₂ hrest)
  obtain ⟨b, hb, hQb⟩ := hh hts₂ hrest
  refine ⟨(a, b), ?_, hPa, hQb⟩
  simp only [List.append_assoc, read?_seq, ha, hb, Option.bind_some, Option.map_some]

theorem Reads.seq (hg : g.Reads tok L P fun _ => True) (hh : h.Reads tok M Q F) :
    (g.seq h).Reads tok (L * M) (fun x => P x.1 ∧ Q x.2) F :=
  hg.seq_follow hh fun _ _ _ _ => trivial

theorem Reads.seq_next (hg : g.Reads tok L P (Next tok S)) (hh : h.Reads tok M Q F)
    (hM : Begins M S) : (g.seq h).Reads tok (L * M) (fun x => P x.1 ∧ Q x.2) F :=
  hg.seq_follow hh fun _ rest hts _ => (hM.next hts).append rest

theorem Reads.left {g' : Grammar τ ε α} (hg : g.Reads tok L P F) :
    (g.choice g').Reads tok L P F := by
  intro ts rest hts hrest
  obtain ⟨a, ha, hPa⟩ := hg hts hrest
  exact ⟨a, by rw [read?_choice, ha]; rfl, hPa⟩

/-- The second branch is taken where the first one starts with other symbols. -/
theorem Reads.right {g' : Grammar τ ε α} (hg : g.Reads tok L P F) (hg' : g'.Starts tok S)
    (hL : Begins L T) (hST : ∀ s, T s → ¬ S s) : (g'.choice g).Reads tok L P F := by
  intro ts rest hts hrest
  obtain ⟨a, ha, hPa⟩ := hg hts hrest
  refine ⟨a, ?_, hPa⟩
  rw [read?_choice, hg'.read?_eq_none ((hL.next hts).append rest) hST, ha]
  rfl

theorem Reads.some {Q : Option α → Prop} (hg : g.Reads tok L P F) (hQ : ∀ a, P a → Q (some a)) :
    g.optional.Reads tok L Q F := by
  intro ts rest hts hrest
  obtain ⟨a, ha, hPa⟩ := hg hts hrest
  exact ⟨_, by rw [read?_optional, ha], hQ a hPa⟩

theorem reads_none {P : Option α → Prop} (hP : P none) (hF : ∀ rest, F rest → g.read? rest = none) :
    g.optional.Reads tok 1 P F := by
  intro ts rest hts hrest
  obtain rfl := List.map_eq_nil_iff.1 hts
  exact ⟨none, by rw [List.nil_append, read?_optional, hF rest hrest], hP⟩

theorem reads_repeatRead {as : List α} {L : α → Language σ} {view : α → γ}
    (hg : ∀ a ∈ as, g.Reads tok (L a) (view · = view a) fun _ => True) (hL : ∀ a ∈ as, [] ∉ L a)
    {ts rest : List τ} (hts : ts.map tok ∈ (as.map L).prod) (hrest : g.read? rest = none)
    {bound : List τ} (hbound : ts.length ≤ bound.length) :
    ∃ as', repeatRead g.read? bound (ts ++ rest) = (as', rest) ∧ as'.map view = as.map view := by
  induction as generalizing ts bound with
  | nil =>
    obtain rfl := List.map_eq_nil_iff.1 hts
    exact ⟨[], by rw [repeatRead.eq_def, List.nil_append, hrest], rfl⟩
  | cons a as ih =>
    obtain ⟨ts₁, ts₂, rfl, hts₁, hts₂⟩ := exists_append_of_map_mem_mul hts
    obtain ⟨a', ha', hview⟩ :=
      hg a List.mem_cons_self hts₁ (show (fun _ => True) (ts₂ ++ rest) from trivial)
    have hpos : 0 < ts₁.length := by
      rw [List.length_pos_iff]
      rintro rfl
      exact hL a List.mem_cons_self hts₁
    -- each round takes a symbol, so the bound is not met before the end
    cases bound with
    | nil =>
      rw [List.length_append, List.length_nil] at hbound
      omega
    | cons _ bound =>
      have hbound' : ts₂.length ≤ bound.length := by
        rw [List.length_append, List.length_cons] at hbound
        omega
      obtain ⟨as', has', hviews⟩ := ih (fun b hb => hg b (List.mem_cons_of_mem _ hb))
        (fun b hb => hL b (List.mem_cons_of_mem _ hb)) hts₂ hbound'
      refine ⟨a' :: as', ?_, by rw [List.map_cons, List.map_cons, hview, hviews]⟩
      rw [repeatRead, List.append_assoc, ha']
      simp only [has']
      rfl

theorem Reads.many {as : List α} {L : α → Language σ} {view : α → γ}
    (hg : ∀ a ∈ as, g.Reads tok (L a) (view · = view a) fun _ => True) (hL : ∀ a ∈ as, [] ∉ L a)
    (hF : ∀ rest, F rest → g.read? rest = none) :
    g.many.Reads tok (as.map L).prod (fun as' => as'.map view = as.map view) F := by
  intro ts rest hts hrest
  have hbound : ts.length ≤ (ts ++ rest).length := by simp
  obtain ⟨as', has', hviews⟩ := reads_repeatRead hg hL hts (hF rest hrest) hbound
  exact ⟨as', by rw [read?_many, has'], hviews⟩

theorem Reads.label {name : ε} (hg : g.Reads tok L P F) : (g.label name).Reads tok L P F := hg

theorem Reads.map {f : α → β} (hg : g.Reads tok L (fun a => Q (f a)) F) :
    (g.map f).Reads tok L Q F := by
  intro ts rest hts hrest
  obtain ⟨a, ha, hQa⟩ := hg hts hrest
  exact ⟨f a, by rw [read?_map, ha]; rfl, hQa⟩

theorem Reads.skipThen (hg : g.Reads tok L P fun _ => True) (hh : h.Reads tok M Q F) :
    (g.skipThen h).Reads tok (L * M) Q F :=
  ((hg.seq hh).mono fun _ hx => hx.2).map

theorem Reads.thenSkip (hg : g.Reads tok L P fun _ => True) (hh : h.Reads tok M Q F) :
    (g.thenSkip h).Reads tok (L * M) P F :=
  ((hg.seq hh).mono fun _ hx => hx.1).map

theorem Reads.thenSkip_next (hg : g.Reads tok L P (Next tok S)) (hh : h.Reads tok M Q F)
    (hM : Begins M S) : (g.thenSkip h).Reads tok (L * M) P F :=
  ((hg.seq_next hh hM).mono fun _ hx => hx.1).map

theorem Reads.between {R : γ → Prop} {K' : Language σ} {g' : Grammar τ ε γ}
    (hg : g.Reads tok K P fun _ => True) (hg' : g'.Reads tok K' R F)
    (hh : h.Reads tok M Q (Next tok S)) (hK' : Begins K' S) :
    (Grammar.between g g' h).Reads tok (K * (M * K')) Q F :=
  hg.skipThen (hh.thenSkip_next hg' hK')

theorem Reads.separated1 {as : List α} {L : α → Language σ} {view : α → γ}
    (hh : h.Reads tok K Q fun _ => True) (hK : Begins K S)
    (hg : ∀ a ∈ as, g.Reads tok (L a) (view · = view a) fun _ => True)
    (hF : ∀ rest, F rest → h.read? rest = none) :
    (Grammar.separated1 h g).Reads tok (listed1 K L as)
      (fun as' => as'.map view = as.map view) F := by
  cases as with
  | nil => exact reads_zero
  | cons a as =>
    have htail : (h.skipThen g).many.Reads tok (as.map fun a => K * L a).prod
        (fun as' => as'.map view = as.map view) F := by
      refine Reads.many (fun b hb => hh.skipThen (hg b (List.mem_cons_of_mem _ hb)))
        (fun b _ => hK.mul.nil_notMem) fun rest hrest => ?_
      simp only [Grammar.skipThen, read?_map, read?_seq, hF rest hrest, Option.bind_none,
        Option.map_none]
    refine (((hg a List.mem_cons_self).seq htail).mono ?_).map
    rintro ⟨a', as'⟩ ⟨ha, has⟩
    exact congrArg₂ List.cons ha has

theorem Reads.separated {as : List α} {L : α → Language σ} {view : α → γ}
    (hh : h.Reads tok K Q fun _ => True) (hK : Begins K S)
    (hg : ∀ a ∈ as, g.Reads tok (L a) (view · = view a) fun _ => True)
    (hF : ∀ rest, F rest → h.read? rest = none) (hF' : ∀ rest, F rest → g.read? rest = none) :
    (Grammar.separated h g).Reads tok (listed K L as)
      (fun as' => as'.map view = as.map view) F := by
  cases as with
  | nil =>
    refine Reads.map (reads_none (by rfl) fun rest hrest => ?_)
    simp only [Grammar.separated1, read?_map, read?_seq, hF' rest hrest, Option.bind_none,
      Option.map_none]
  | cons a as => exact .map (.some (.separated1 hh hK hg hF) fun _ has => has)

end Reads

end Grammar

end PointsTo
