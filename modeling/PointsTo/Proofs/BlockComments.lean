import Mathlib.Order.Bounds.Defs
import PointsTo.Proofs.Tiling

/-!
# Where a block comment ends

`blockComment_ends_at_first_close`: the expression of a block comment may share out a run of stars
in several ways, and still it fits at most one of the texts that a given text starts with, the one
that ends with the first `*/` behind the opening `/*` (`ClosesAt`, `mem_blockComment_prefix_iff`).
So comments do not nest. The lexer skips just this text and goes on right behind it, and where there
is no `*/` it takes all that is left for a comment that stays open.
-/

namespace PointsTo.Text

/-! ## Closing places -/

/-- A `*/` stands at offset `i`, behind the two characters that open a comment. -/
def ClosesAt (cs : List Char) (i : Nat) : Prop := 2 ≤ i ∧ ['*', '/'] <+: cs.drop i

variable {cs body rest : List Char} {i : Nat}

theorem closesAt_iff : ClosesAt ('/' :: '*' :: cs) i ↔
    ∃ body rest, cs = body ++ '*' :: '/' :: rest ∧ i = body.length + 2 := by
  constructor
  · rintro ⟨hi, rest, hrest⟩
    obtain ⟨n, rfl⟩ := Nat.exists_eq_add_of_le' hi
    have hdrop : cs.drop n = '*' :: '/' :: rest := hrest.symm
    have hlt : n < cs.length := by
      by_contra hle
      rw [List.drop_eq_nil_of_le (Nat.le_of_not_lt hle)] at hdrop
      cases hdrop
    refine ⟨cs.take n, rest, ?_, ?_⟩
    · rw [← hdrop, List.take_append_drop]
    · rw [List.length_take, Nat.min_eq_left hlt.le]
  · rintro ⟨body, rest, rfl, rfl⟩
    refine ⟨Nat.le_add_left _ _, rest, ?_⟩
    rw [List.drop_succ_cons, List.drop_succ_cons, List.drop_left]
    rfl

/-- A star at the end closes nothing. -/
theorem not_infix_concat_star (hopen : ¬ ['*', '/'] <:+: body) :
    ¬ ['*', '/'] <:+: body ++ ['*'] := by
  rw [List.infix_concat_iff, List.suffix_concat_iff]
  rintro ((hnil | ⟨front, hfront, -⟩) | hinfix)
  · cases hnil
  · have hlast := congrArg List.getLast? hfront
    simp at hlast
  · exact hopen hinfix

/-- The first closing place is where the body in front of it holds no closing place. -/
theorem isLeast_closesAt_iff :
    IsLeast {j | ClosesAt ('/' :: '*' :: cs) j} i ↔
    ∃ body rest, cs = body ++ '*' :: '/' :: rest ∧ ¬ ['*', '/'] <:+: body ∧
      i = body.length + 2 := by
  constructor
  · rintro ⟨hcloses, hfirst⟩
    obtain ⟨body, rest, rfl, rfl⟩ := closesAt_iff.1 hcloses
    refine ⟨body, rest, rfl, ?_, rfl⟩
    rintro ⟨front, back, rfl⟩
    have hearlier : ClosesAt ('/' :: '*' :: (front ++ ['*', '/'] ++ back ++ '*' :: '/' :: rest))
        (front.length + 2) :=
      closesAt_iff.2 ⟨front, back ++ '*' :: '/' :: rest, by simp, rfl⟩
    have hle := hfirst hearlier
    simp only [List.length_append, List.length_cons, List.length_nil] at hle
    omega
  · rintro ⟨body, rest, rfl, hopen, rfl⟩
    refine ⟨closesAt_iff.2 ⟨body, rest, rfl, rfl⟩, fun j hj => ?_⟩
    obtain ⟨body', rest', heq, rfl⟩ := closesAt_iff.1 hj
    by_contra hlt
    -- an earlier `*/` would end in the body or at the star behind it
    have hbody : body ++ ['*'] <+: body ++ '*' :: '/' :: rest := ⟨'/' :: rest, by simp⟩
    have hbody' : body' ++ ['*', '/'] <+: body ++ '*' :: '/' :: rest := ⟨rest', by simp [heq]⟩
    have hlen : (body' ++ ['*', '/']).length ≤ (body ++ ['*']).length := by
      simp only [List.length_append, List.length_cons, List.length_nil]
      omega
    have hwithin := List.prefix_of_prefix_length_le hbody' hbody hlen
    exact not_infix_concat_star hopen ((List.suffix_append body' _).isInfix.trans hwithin.isInfix)

theorem exists_isLeast_closesAt (h : ClosesAt cs i) : ∃ j, IsLeast {j | ClosesAt cs j} j := by
  classical
  have hex : ∃ j, ClosesAt cs j := ⟨i, h⟩
  exact ⟨Nat.find hex, Nat.find_spec hex, fun j hj => Nat.find_min' hex hj⟩

/-! ## What the expression fits -/

/-- A block comment that a text starts with ends at the first closing place. -/
theorem mem_blockComment_prefix_iff {w : List Char} : w ∈ blockComment ∧ w <+: '/' :: '*' :: cs ↔
    ∃ i, IsLeast {j | ClosesAt ('/' :: '*' :: cs) j} i ∧ w = ('/' :: '*' :: cs).take (i + 2) := by
  have htake : ∀ body rest : List Char,
      ('/' :: '*' :: (body ++ '*' :: '/' :: rest)).take (body.length + 2 + 2) =
      '/' :: '*' :: body ++ ['*', '/'] := by
    intro body rest
    rw [List.take_succ_cons, List.take_succ_cons, List.take_length_add_append]
    rfl
  simp only [mem_blockComment, isLeast_closesAt_iff]
  constructor
  · rintro ⟨⟨body, hopen, rfl⟩, rest, hrest⟩
    obtain rfl : body ++ '*' :: '/' :: rest = cs := by simpa using hrest
    exact ⟨_, ⟨body, rest, rfl, hopen, rfl⟩, (htake body rest).symm⟩
  · rintro ⟨_, ⟨body, rest, rfl, hopen, rfl⟩, rfl⟩
    rw [htake]
    exact ⟨⟨body, hopen, rfl⟩, rest, by simp⟩

/-! ## What the lexer does -/

theorem scan_of_isLeast_closesAt (h : IsLeast {j | ClosesAt ('/' :: '*' :: cs) j} i) :
    scan ('/' :: '*' :: cs) = .skip (('/' :: '*' :: cs).take (i + 2))
      (('/' :: '*' :: cs).drop (i + 2)) := by
  obtain ⟨body, rest, rfl, hopen, rfl⟩ := isLeast_closesAt_iff.1 h
  rw [scan_block hopen, List.take_succ_cons, List.take_succ_cons, List.take_length_add_append,
    List.drop_succ_cons, List.drop_succ_cons, List.drop_length_add_append]
  rfl

theorem scan_of_not_closesAt (h : ∀ i, ¬ ClosesAt ('/' :: '*' :: cs) i) :
    scan ('/' :: '*' :: cs) = .stuck ('/' :: '*' :: cs) := by
  change scanComment ('*' :: cs) = _
  rw [scanComment]
  cases hclose : closeComment cs with
  | none => rfl
  | some r =>
    obtain ⟨body, -, htext⟩ := exists_body_of_closeComment hclose
    have hcs := append_of_closeComment hclose
    rw [htext] at hcs
    exact absurd (closesAt_iff.2 ⟨body, r.2, by simp [← hcs], rfl⟩) (h (body.length + 2))

/-- A block comment ends at the first `*/` behind the `/*` that opens it. The expression fits the
start of a text that is opened so exactly if there is a `*/`, and it fits no other start than the
one up to the first. The lexer skips this one and goes on with what follows it, and it does not get
past a comment that nothing closes. -/
theorem blockComment_ends_at_first_close {cs : List Char} (hopens : ['/', '*'] <+: cs) :
    ((∃ w ∈ blockComment, w <+: cs) ↔ ∃ i, ClosesAt cs i) ∧
    (∀ w, w ∈ blockComment ∧ w <+: cs ↔ ∃ i, IsLeast {j | ClosesAt cs j} i ∧ w = cs.take (i + 2)) ∧
    (∀ i, IsLeast {j | ClosesAt cs j} i → scan cs = .skip (cs.take (i + 2)) (cs.drop (i + 2)) ∧
      ∀ pos, lexAt pos cs = lexAt (pos.advance (cs.take (i + 2))) (cs.drop (i + 2))) ∧
    ((∀ i, ¬ ClosesAt cs i) → scan cs = .stuck cs ∧
      ∀ pos, lexAt pos cs = .error ⟨pos.line, String.ofList cs⟩) := by
  obtain ⟨tail, htail⟩ := hopens
  obtain rfl : '/' :: '*' :: tail = cs := htail
  refine ⟨⟨?_, ?_⟩, fun w => mem_blockComment_prefix_iff, fun i hi => ?_, fun hnone => ?_⟩
  · rintro ⟨w, hw⟩
    obtain ⟨i, hi, -⟩ := mem_blockComment_prefix_iff.1 hw
    exact ⟨i, hi.1⟩
  · rintro ⟨i, hi⟩
    obtain ⟨j, hj⟩ := exists_isLeast_closesAt hi
    exact ⟨_, mem_blockComment_prefix_iff.2 ⟨j, hj, rfl⟩⟩
  · have hscan := scan_of_isLeast_closesAt hi
    exact ⟨hscan, fun pos => lexAt_of_skip hscan⟩
  · have hscan := scan_of_not_closesAt hnone
    refine ⟨hscan, fun pos => ?_⟩
    rw [lexAt, lexFrom, hscan]

/-- A second `/*` and a longer run of stars in a comment, and a second `*/` behind it. -/
theorem sample_blockComment_ends_at_first_close :
    ['/', '*'] <+: "/*/***/x*/".toList ∧
      (∀ w, w ∈ blockComment ∧ w <+: "/*/***/x*/".toList ↔ w = "/*/***/".toList) ∧
      scan "/*/***/x*/".toList = .skip "/*/***/".toList "x*/".toList := by
  have hopens : ['/', '*'] <+: "/*/***/x*/".toList := ⟨"/***/x*/".toList, rfl⟩
  obtain ⟨-, hfits, hskips, -⟩ := blockComment_ends_at_first_close hopens
  have hfirst : IsLeast {j | ClosesAt "/*/***/x*/".toList j} 5 :=
    isLeast_closesAt_iff.2 ⟨"/**".toList, "x*/".toList, rfl, by decide, rfl⟩
  refine ⟨hopens, fun w => (hfits w).trans ⟨?_, ?_⟩, (hskips 5 hfirst).1⟩
  · rintro ⟨i, hi, rfl⟩
    rw [hi.unique hfirst]
    rfl
  · rintro rfl
    exact ⟨5, hfirst, rfl⟩

end PointsTo.Text
