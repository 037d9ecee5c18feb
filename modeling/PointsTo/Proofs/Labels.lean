import PointsTo.Proofs.Lexing
import PointsTo.Solver.Report
import Std.Data.String.ToNat

/-!
# Labels

Names, places, objects, pointers and the lines of a report are written as words with marks between
them: a word is a run of the characters that identifiers have, and all others are marks. A text can
be cut into `Legible` words and marks in one way only (`eq_of_flatMap_chars_eq`). From these a label
is read off, since the marks say of what kind it is and where its parts end
(`PointerLabel.eq_of_pieces_eq`, `LineLabel.eq_of_pieces_eq`).
-/

namespace PointsTo

open Text

/-! ## Words and marks -/

inductive Piece where
  | word (w : String)
  | mark (c : Char)
deriving DecidableEq

namespace Piece

def chars : Piece → List Char
  | word w => w.toList
  | mark c => [c]

/-- Pieces that go on with a mark, if at all. -/
def Marked : List Piece → Prop
  | word _ :: _ => False
  | _ => True

def IsWord (w : String) : Prop := w.toList ≠ [] ∧ w.toList.all isIdentChar = true

/-- Words are runs of characters of identifiers, no two of them stand side by side, and marks are
other characters. -/
def Legible : List Piece → Prop
  | [] => True
  | word w :: ps => IsWord w ∧ Marked ps ∧ Legible ps
  | mark c :: ps => isIdentChar c = false ∧ Legible ps

variable {ps ps' : List Piece}

theorem head?_of_marked (h : Legible ps) (hps : Marked ps) :
    (ps.flatMap chars).head?.all (!isIdentChar ·) = true := by
  cases ps with
  | nil => rfl
  | cons p ps =>
    cases p with
    | word w => exact hps.elim
    | mark c => simp [chars, h.1]

/-- A text begins with a word or with a mark, not with both. -/
theorem word_ne_mark {w : String} {c : Char} (h : Legible (word w :: ps))
    (h' : Legible (mark c :: ps')) :
    (word w :: ps).flatMap chars ≠ (mark c :: ps').flatMap chars := by
  intro heq
  obtain ⟨⟨hne, hall⟩, -⟩ := h
  obtain ⟨x, cs, hw⟩ := List.exists_cons_of_ne_nil hne
  rw [List.flatMap_cons, List.flatMap_cons, chars, hw] at heq
  obtain rfl : x = c := (List.cons.inj heq).1
  rw [hw, List.all_cons, Bool.and_eq_true, h'.1] at hall
  cases hall.1

theorem flatMap_chars_ne_nil {p : Piece} (h : Legible (p :: ps)) :
    (p :: ps).flatMap chars ≠ [] := by
  rw [List.flatMap_cons]
  cases p with
  | word w => exact List.append_ne_nil_of_left_ne_nil h.1.1 _
  | mark c => exact List.cons_ne_nil _ _

/-- A text can be cut into words and marks in one way only. -/
theorem eq_of_flatMap_chars_eq (h : Legible ps) (h' : Legible ps')
    (heq : ps.flatMap chars = ps'.flatMap chars) : ps = ps' := by
  induction ps generalizing ps' with
  | nil =>
    cases ps' with
    | nil => rfl
    | cons p' ps' => exact absurd heq.symm (flatMap_chars_ne_nil h')
  | cons p ps ih =>
    cases ps' with
    | nil => exact absurd heq (flatMap_chars_ne_nil h)
    | cons p' ps' =>
      match p, p' with
      | word w, word w' =>
        -- both words are the characters of identifiers up to the first other one
        obtain ⟨⟨-, hw⟩, hmarked, hps⟩ := h
        obtain ⟨⟨-, hw'⟩, hmarked', hps'⟩ := h'
        rw [List.flatMap_cons, List.flatMap_cons, chars, chars] at heq
        obtain ⟨htake, hdrop⟩ := takeWhile_append hw (head?_of_marked hps hmarked)
        obtain ⟨htake', hdrop'⟩ := takeWhile_append hw' (head?_of_marked hps' hmarked')
        rw [heq] at htake hdrop
        obtain rfl := String.toList_inj.1 (htake.symm.trans htake')
        rw [ih hps hps' (hdrop.symm.trans hdrop')]
      | word w, mark c => exact absurd heq (word_ne_mark h h')
      | mark c, word w => exact absurd heq.symm (word_ne_mark h' h)
      | mark c, mark c' =>
        obtain ⟨rfl, hrest⟩ := List.cons.inj heq
        rw [ih h.2 h'.2 hrest]

/-- A character that identifiers do not have is a mark. -/
theorem mark_mem_of_mem_chars {c : Char} (h : Legible ps) (hc : isIdentChar c = false)
    (hmem : c ∈ ps.flatMap chars) : mark c ∈ ps := by
  induction ps with
  | nil => cases hmem
  | cons p ps ih =>
    rw [List.flatMap_cons, List.mem_append] at hmem
    cases p with
    | word w =>
      obtain ⟨⟨-, hw⟩, -, hps⟩ := h
      rcases hmem with hmem | hmem
      · rw [List.all_eq_true.1 hw c hmem] at hc
        cases hc
      · exact .tail _ (ih hps hmem)
    | mark c' =>
      rcases hmem with hmem | hmem
      · rw [List.mem_singleton.1 hmem]
        exact .head _
      · exact .tail _ (ih h.2 hmem)

end Piece

open Piece

/-! ## Names -/

/-- A word that can be a name. -/
@[ext]
structure Ident where
  text : String
  isIdent : isIdent text.toList = true

/-- A class and one of its members. -/
@[ext]
structure MemberLabel where
  cls : Ident
  name : Ident

/-- A place in a method. -/
@[ext]
structure SiteLabel where
  method : MemberLabel
  position : Nat

@[ext]
structure ObjLabel where
  cls : Ident
  isArray : Bool
  site : SiteLabel

inductive PointerLabel where
  | var (method : MemberLabel) (name : Ident)
  | static (field : MemberLabel)
  | field (obj : ObjLabel) (field : MemberLabel)

inductive Heading where
  | reachable
  | calls
  | pointsTo

inductive LineLabel where
  | heading (h : Heading)
  | method (m : MemberLabel)
  | call (site : SiteLabel) (kind : CallKind) (callee : MemberLabel)
  | pointer (q : PointerLabel) (objs : List ObjLabel)

def MemberLabel.text (l : MemberLabel) : String := s!"{l.cls.text}::{l.name.text}"

def SiteLabel.text (l : SiteLabel) : String := s!"{l.method.text}#{l.position}"

def ObjLabel.text (l : ObjLabel) : String :=
  let brackets := if l.isArray then "[]" else ""
  s!"new {l.cls.text}{brackets}@{l.site.text}"

def PointerLabel.text : PointerLabel → String
  | .var method name => s!"{method.text}/{name.text}"
  | .static f => f.text
  | .field o f => s!"{o.text}.{f.text}"

def Heading.text : Heading → String
  | .reachable => "[reachable]"
  | .calls => "[calls]"
  | .pointsTo => "[points-to]"

def LineLabel.text : LineLabel → String
  | .heading h => h.text
  | .method m => m.text
  | .call site kind callee => s!"{site.text} -{kind.text}-> {callee.text}"
  | .pointer q objs =>
    let list := ", ".intercalate (objs.map ObjLabel.text)
    s!"{q.text} -> \x7b{list}\x7d"

/-! ## The pieces of labels -/

/-- The pieces of a name before further ones. -/
def MemberLabel.pieces (l : MemberLabel) (rest : List Piece) : List Piece :=
  word l.cls.text :: mark ':' :: mark ':' :: word l.name.text :: rest

def SiteLabel.pieces (l : SiteLabel) (rest : List Piece) : List Piece :=
  l.method.pieces (mark '#' :: word (toString l.position) :: rest)

def ObjLabel.pieces (l : ObjLabel) (rest : List Piece) : List Piece :=
  word "new" :: mark ' ' :: word l.cls.text ::
    ((if l.isArray then [mark '[', mark ']'] else []) ++ mark '@' :: l.site.pieces rest)

def PointerLabel.pieces (rest : List Piece) : PointerLabel → List Piece
  | .var method name => method.pieces (mark '/' :: word name.text :: rest)
  | .static f => f.pieces rest
  | .field o f => o.pieces (mark '.' :: f.pieces rest)

def Heading.pieces : Heading → List Piece
  | .reachable => [mark '[', word "reachable", mark ']']
  | .calls => [mark '[', word "calls", mark ']']
  | .pointsTo => [mark '[', word "points", mark '-', word "to", mark ']']

/-- Further objects up to the closing brace. -/
def furtherPieces : List ObjLabel → List Piece
  | [] => [mark '\x7d']
  | o :: os => mark ',' :: mark ' ' :: o.pieces (furtherPieces os)

/-- Objects after the opening brace. -/
def objPieces : List ObjLabel → List Piece
  | [] => [mark '\x7d']
  | o :: os => o.pieces (furtherPieces os)

def LineLabel.pieces : LineLabel → List Piece
  | .heading h => h.pieces
  | .method m => m.pieces []
  | .call site kind callee =>
    site.pieces (mark ' ' :: mark '-' :: word kind.text :: mark '-' :: mark '>' :: mark ' ' ::
      callee.pieces [])
  | .pointer q objs =>
    q.pieces (mark ' ' :: mark '-' :: mark '>' :: mark ' ' :: mark '\x7b' :: objPieces objs)

section Pieces

variable (rest : List Piece)

@[simp]
theorem MemberLabel.chars_pieces (l : MemberLabel) :
    (l.pieces rest).flatMap chars = l.text.toList ++ rest.flatMap chars := by
  simp [pieces, text, chars, toString]

@[simp]
theorem SiteLabel.chars_pieces (l : SiteLabel) :
    (l.pieces rest).flatMap chars = l.text.toList ++ rest.flatMap chars := by
  simp [pieces, text, chars, toString]

@[simp]
theorem ObjLabel.chars_pieces (l : ObjLabel) :
    (l.pieces rest).flatMap chars = l.text.toList ++ rest.flatMap chars := by
  rw [pieces, text]
  cases l.isArray <;> simp [chars, toString]

@[simp]
theorem PointerLabel.chars_pieces (q : PointerLabel) :
    (q.pieces rest).flatMap chars = q.text.toList ++ rest.flatMap chars := by
  cases q <;> simp [pieces, text, chars, toString]

theorem chars_objPieces (os : List ObjLabel) :
    (objPieces os).flatMap chars = (", ".intercalate (os.map ObjLabel.text)).toList ++
      ['\x7d'] := by
  rw [String.toList_intercalate, List.map_map]
  induction os with
  | nil => rfl
  | cons o os ih =>
    cases os with
    | nil => simp [objPieces, furtherPieces, chars]
    | cons o' os => simpa [objPieces, furtherPieces, chars] using ih

theorem LineLabel.chars_pieces (l : LineLabel) : l.pieces.flatMap chars = l.text.toList := by
  cases l with
  | heading h => cases h <;> rfl
  | method m => simp [pieces, text]
  | call site kind callee => simp [pieces, text, chars, toString]
  | pointer q objs => simp [pieces, text, chars, toString, chars_objPieces]

end Pieces

/-! ## Labels are legible -/

theorem Ident.isWord (x : Ident) : IsWord x.text := by
  obtain ⟨text, h⟩ := x
  cases htext : text.toList with
  | nil =>
    rw [htext] at h
    cases h
  | cons c cs =>
    rw [htext, Text.isIdent, Bool.and_eq_true] at h
    rw [IsWord, htext, List.all_cons, isIdentChar_of_isIdentStart h.1, h.2]
    exact ⟨List.cons_ne_nil c cs, rfl⟩

theorem isWord_toString (n : Nat) : IsWord (toString n) := by
  rw [IsWord, Nat.toString_eq_repr, Nat.toList_repr]
  refine ⟨Nat.toDigits_ne_nil, List.all_eq_true.2 fun c hc => isIdentChar_of_isDigit ?_⟩
  exact Nat.isDigit_of_mem_toDigits (by decide) (by decide) hc

theorem CallKind.isWord_text (kind : CallKind) : IsWord kind.text := by
  cases kind <;> exact ⟨by decide, rfl⟩

section Legible

variable {rest : List Piece}

theorem MemberLabel.legible_pieces (l : MemberLabel) (hmarked : Marked rest)
    (hrest : Legible rest) :
    Legible (l.pieces rest) :=
  ⟨l.cls.isWord, trivial, rfl, rfl, l.name.isWord, hmarked, hrest⟩

theorem SiteLabel.legible_pieces (l : SiteLabel) (hmarked : Marked rest) (hrest : Legible rest) :
    Legible (l.pieces rest) := by
  rw [pieces]
  exact l.method.legible_pieces trivial ⟨rfl, isWord_toString l.position, hmarked, hrest⟩

theorem ObjLabel.legible_pieces (l : ObjLabel) (hmarked : Marked rest) (hrest : Legible rest) :
    Legible (l.pieces rest) := by
  have hsite := l.site.legible_pieces hmarked hrest
  obtain ⟨cls, isArray, site⟩ := l
  cases isArray with
  | false => exact ⟨⟨by decide, rfl⟩, trivial, rfl, cls.isWord, trivial, rfl, hsite⟩
  | true => exact ⟨⟨by decide, rfl⟩, trivial, rfl, cls.isWord, trivial, rfl, rfl, rfl, hsite⟩

theorem PointerLabel.legible_pieces (q : PointerLabel) (hmarked : Marked rest)
    (hrest : Legible rest) : Legible (q.pieces rest) := by
  cases q <;> rw [pieces]
  case var m x => exact m.legible_pieces trivial ⟨rfl, x.isWord, hmarked, hrest⟩
  case static f => exact f.legible_pieces hmarked hrest
  case field o f => exact o.legible_pieces trivial ⟨rfl, f.legible_pieces hmarked hrest⟩

end Legible

theorem legible_furtherPieces (os : List ObjLabel) :
    Marked (furtherPieces os) ∧ Legible (furtherPieces os) := by
  induction os with
  | nil => exact ⟨trivial, rfl, trivial⟩
  | cons o os ih => exact ⟨trivial, rfl, rfl, o.legible_pieces ih.1 ih.2⟩

theorem legible_objPieces (os : List ObjLabel) : Legible (objPieces os) := by
  cases os with
  | nil => exact ⟨rfl, trivial⟩
  | cons o os =>
    obtain ⟨hmarked, hlegible⟩ := legible_furtherPieces os
    exact o.legible_pieces hmarked hlegible

theorem LineLabel.legible_pieces (l : LineLabel) : Legible l.pieces := by
  cases l <;> rw [pieces]
  case heading h =>
    cases h with
    | reachable => exact ⟨rfl, ⟨by decide, rfl⟩, trivial, rfl, trivial⟩
    | calls => exact ⟨rfl, ⟨by decide, rfl⟩, trivial, rfl, trivial⟩
    | pointsTo =>
      exact ⟨rfl, ⟨by decide, rfl⟩, trivial, rfl, ⟨by decide, rfl⟩, trivial, rfl, trivial⟩
  case method m => exact m.legible_pieces trivial trivial
  case call site kind callee =>
    exact site.legible_pieces trivial
      ⟨rfl, rfl, kind.isWord_text, trivial, rfl, rfl, rfl, callee.legible_pieces trivial trivial⟩
  case pointer q objs =>
    exact q.legible_pieces trivial ⟨rfl, rfl, rfl, rfl, rfl, legible_objPieces objs⟩

/-! ## Labels are read in one way -/

section Injective

variable {rest rest' : List Piece}

theorem MemberLabel.eq_of_pieces_eq {l l' : MemberLabel} (h : l.pieces rest = l'.pieces rest') :
    l = l' ∧ rest = rest' := by
  simp only [pieces, List.cons.injEq, Piece.word.injEq, true_and] at h
  exact ⟨MemberLabel.ext (Ident.ext h.1) (Ident.ext h.2.1), h.2.2⟩

theorem SiteLabel.eq_of_pieces_eq {l l' : SiteLabel} (h : l.pieces rest = l'.pieces rest') :
    l = l' ∧ rest = rest' := by
  obtain ⟨hmethod, h⟩ := MemberLabel.eq_of_pieces_eq h
  simp only [List.cons.injEq, Piece.word.injEq, true_and, Nat.toString_eq_repr, Nat.repr_inj] at h
  exact ⟨SiteLabel.ext hmethod h.1, h.2⟩

theorem ObjLabel.eq_of_pieces_eq {l l' : ObjLabel} (h : l.pieces rest = l'.pieces rest') :
    l = l' ∧ rest = rest' := by
  obtain ⟨cls, isArray, site⟩ := l
  obtain ⟨cls', isArray', site'⟩ := l'
  have hparts : isArray = isArray' ∧ cls.text = cls'.text ∧
      site.pieces rest = site'.pieces rest' := by
    cases isArray <;> cases isArray' <;> simp [pieces] at h ⊢
    all_goals exact h
  obtain ⟨rfl, hcls, hsite⟩ := hparts
  obtain ⟨rfl, hrest⟩ := SiteLabel.eq_of_pieces_eq hsite
  exact ⟨ObjLabel.ext (Ident.ext hcls) rfl rfl, hrest⟩

/-- What follows tells a field from a variable of a method with its name. -/
theorem PointerLabel.eq_of_pieces_eq {q q' : PointerLabel} (hrest : rest.head? ≠ some (mark '/'))
    (hrest' : rest'.head? ≠ some (mark '/')) (h : q.pieces rest = q'.pieces rest') :
    q = q' ∧ rest = rest' := by
  match q, q' with
  | .var m x, .var m' x' =>
    obtain ⟨rfl, hpieces⟩ := MemberLabel.eq_of_pieces_eq h
    simp only [List.cons.injEq, Piece.word.injEq, true_and] at hpieces
    exact ⟨congrArg _ (Ident.ext hpieces.1), hpieces.2⟩
  | .static f, .static f' =>
    obtain ⟨rfl, hpieces⟩ := MemberLabel.eq_of_pieces_eq h
    exact ⟨rfl, hpieces⟩
  | .field o f, .field o' f' =>
    obtain ⟨rfl, hpieces⟩ := ObjLabel.eq_of_pieces_eq h
    obtain ⟨rfl, htail⟩ := MemberLabel.eq_of_pieces_eq (List.cons.inj hpieces).2
    exact ⟨rfl, htail⟩
  | .var m x, .static f =>
    obtain ⟨-, rfl⟩ := MemberLabel.eq_of_pieces_eq h
    exact absurd rfl hrest'
  | .static f, .var m x =>
    obtain ⟨-, rfl⟩ := MemberLabel.eq_of_pieces_eq h
    exact absurd rfl hrest
  | .field o f, .var .. | .field o f, .static _ | .var .., .field o f | .static _, .field o f =>
    cases (List.cons.inj (List.cons.inj h).2).1

theorem eq_of_furtherPieces_eq {os os' : List ObjLabel} (h : furtherPieces os = furtherPieces os') :
    os = os' := by
  induction os generalizing os' with
  | nil =>
    cases os' with
    | nil => rfl
    | cons => cases (List.cons.inj h).1
  | cons o os ih =>
    cases os' with
    | nil => cases (List.cons.inj h).1
    | cons o' os' =>
      obtain ⟨rfl, hrest⟩ := ObjLabel.eq_of_pieces_eq (List.cons.inj (List.cons.inj h).2).2
      rw [ih hrest]

theorem eq_of_objPieces_eq {os os' : List ObjLabel} (h : objPieces os = objPieces os') :
    os = os' := by
  cases os with
  | nil =>
    cases os' with
    | nil => rfl
    | cons => cases (List.cons.inj h).1
  | cons o os =>
    cases os' with
    | nil => cases (List.cons.inj h).1
    | cons o' os' =>
      obtain ⟨rfl, hrest⟩ := ObjLabel.eq_of_pieces_eq h
      rw [eq_of_furtherPieces_eq hrest]

theorem Heading.eq_of_pieces_eq {a b : Heading} (h : a.pieces = b.pieces) : a = b := by
  cases a <;> cases b <;> first | rfl | simp [pieces] at h

theorem CallKind.text_injective {kind kind' : CallKind} (h : kind.text = kind'.text) :
    kind = kind' := by
  cases kind <;> cases kind' <;> first | rfl | simp [text] at h

/-- The marks of a line tell what it is about. -/
theorem LineLabel.eq_of_pieces_eq {l l' : LineLabel} (h : l.pieces = l'.pieces) : l = l' := by
  match l, l' with
  | .heading a, .heading b => rw [Heading.eq_of_pieces_eq h]
  | .method m, .method m' => rw [(MemberLabel.eq_of_pieces_eq h).1]
  | .call site kind callee, .call site' kind' callee' =>
    obtain ⟨rfl, hrest⟩ := SiteLabel.eq_of_pieces_eq h
    simp only [List.cons.injEq, Piece.word.injEq, true_and] at hrest
    rw [CallKind.text_injective hrest.1, (MemberLabel.eq_of_pieces_eq hrest.2).1]
  | .pointer q objs, .pointer q' objs' =>
    obtain ⟨rfl, hrest⟩ := PointerLabel.eq_of_pieces_eq (by simp) (by simp) h
    simp only [List.cons.injEq, true_and] at hrest
    rw [eq_of_objPieces_eq hrest]
  | .heading a, .method m | .heading a, .call .. | .method m, .heading a | .call .., .heading a =>
    cases a <;> cases (List.cons.inj h).1
  | .heading a, .pointer q os | .pointer q os, .heading a =>
    cases a <;> cases q <;> cases (List.cons.inj h).1
  | .method m, .call .. | .call .., .method m => cases (MemberLabel.eq_of_pieces_eq h).2
  | .method m, .pointer q os | .pointer q os, .method m =>
    cases q <;> simp [pieces, PointerLabel.pieces, ObjLabel.pieces, MemberLabel.pieces] at h
  | .call site kind callee, .pointer q os | .pointer q os, .call site kind callee =>
    cases q <;> simp [pieces, PointerLabel.pieces, ObjLabel.pieces, SiteLabel.pieces,
      MemberLabel.pieces] at h

end Injective

/-! ## Labels and their texts -/

theorem SiteLabel.text_injective {l l' : SiteLabel} (h : l.text = l'.text) : l = l' := by
  have hpieces : l.pieces [] = l'.pieces [] :=
    eq_of_flatMap_chars_eq (l.legible_pieces trivial trivial)
      (l'.legible_pieces trivial trivial) (by simp [h])
  exact (eq_of_pieces_eq hpieces).1

theorem ObjLabel.text_injective {l l' : ObjLabel} (h : l.text = l'.text) : l = l' := by
  have hpieces : l.pieces [] = l'.pieces [] :=
    eq_of_flatMap_chars_eq (l.legible_pieces trivial trivial)
      (l'.legible_pieces trivial trivial) (by simp [h])
  exact (eq_of_pieces_eq hpieces).1

theorem PointerLabel.text_injective {q q' : PointerLabel} (h : q.text = q'.text) : q = q' := by
  have hpieces : q.pieces [] = q'.pieces [] :=
    eq_of_flatMap_chars_eq (q.legible_pieces trivial trivial)
      (q'.legible_pieces trivial trivial) (by simp [h])
  exact (eq_of_pieces_eq (by simp) (by simp) hpieces).1

theorem LineLabel.text_injective {l l' : LineLabel} (h : l.text = l'.text) : l = l' := by
  refine eq_of_pieces_eq (eq_of_flatMap_chars_eq l.legible_pieces l'.legible_pieces ?_)
  rw [l.chars_pieces, l'.chars_pieces, h]

theorem ObjLabel.newline_mem_pieces {l : ObjLabel} {rest : List Piece} :
    mark '\n' ∈ l.pieces rest ↔ mark '\n' ∈ rest := by
  obtain ⟨cls, isArray, site⟩ := l
  cases isArray <;> simp [pieces, SiteLabel.pieces, MemberLabel.pieces]

theorem newline_notMem_furtherPieces (os : List ObjLabel) : mark '\n' ∉ furtherPieces os := by
  induction os with
  | nil => simp [furtherPieces]
  | cons o os ih => simpa [furtherPieces, ObjLabel.newline_mem_pieces] using ih

theorem newline_notMem_objPieces (os : List ObjLabel) : mark '\n' ∉ objPieces os := by
  cases os with
  | nil => simp [objPieces]
  | cons o os =>
    simpa [objPieces, ObjLabel.newline_mem_pieces] using newline_notMem_furtherPieces os

/-- A label is written in one line. -/
theorem LineLabel.newline_notMem (l : LineLabel) : '\n' ∉ l.text.toList := by
  intro hmem
  rw [← l.chars_pieces] at hmem
  have hmark := mark_mem_of_mem_chars l.legible_pieces rfl hmem
  cases l with
  | heading h => cases h <;> simp [pieces, Heading.pieces] at hmark
  | method m => simp [pieces, MemberLabel.pieces] at hmark
  | call site kind callee => simp [pieces, SiteLabel.pieces, MemberLabel.pieces] at hmark
  | pointer q objs =>
    have hobjs := newline_notMem_objPieces objs
    cases q <;>
      simp [pieces, PointerLabel.pieces, MemberLabel.pieces, ObjLabel.newline_mem_pieces,
        hobjs] at hmark

end PointsTo
