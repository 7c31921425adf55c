import RCode.Proofs.Node.Grammar
import RCode.Proofs.Token.LexemeReading

/-!
# Spaced layouts

In a spaced layout every lexeme can be read back, no lexeme goes on with the one that follows it
directly, and a line starts with a lexeme. The text of a spaced layout splits into the lexemes of the
layout (`scan_spaced`).
-/

set_option autoImplicit false

namespace RCode

namespace Piece

/-- The second piece can stand directly behind the first one. -/
def Beside : Piece → Piece → Prop
  | .lexeme a, .lexeme b => ∀ c ∈ b.spelling.head?, a.endsBefore c = true
  | .lineBreak _, .lexeme _ => True
  | .lineBreak _, _ => False
  | _, _ => True

/-- The text of the piece reads back as the piece. -/
def IsReadable : Piece → Prop
  | .lexeme a => a.IsReadable
  | _ => True

end Piece

namespace Layout

/-- The layout is spaced, behind the piece `before` if there is one. -/
def Spaced : Option Piece → Layout → Prop
  | _, [] => True
  | before, p :: l => (∀ q ∈ before, q.Beside p) ∧ p.IsReadable ∧ Spaced (some p) l

/-- The last piece of the layout behind `before`. -/
def endOf : Option Piece → Layout → Option Piece
  | before, [] => before
  | _, p :: l => endOf (some p) l

theorem spaced_append {before : Option Piece} {l m : Layout} :
    Spaced before (l ++ m) ↔ Spaced before l ∧ Spaced (endOf before l) m := by
  induction l generalizing before with
  | nil => exact ⟨fun h => ⟨trivial, h⟩, fun h => h.2⟩
  | cons p l ih =>
    simp only [List.cons_append, Spaced, ih, endOf, and_assoc]

theorem endOf_append (before : Option Piece) (l m : Layout) :
    endOf before (l ++ m) = endOf (endOf before l) m := by
  induction l generalizing before with
  | nil => rfl
  | cons p l ih => exact ih (some p)

theorem beside_deepen (p q : Piece) : p.deepen.Beside q.deepen ↔ p.Beside q := by
  cases p <;> cases q <;> exact Iff.rfl

theorem isReadable_deepen (p : Piece) : p.deepen.IsReadable ↔ p.IsReadable := by
  cases p <;> exact Iff.rfl

/-- A layout is as spaced one level deeper. -/
theorem spaced_deepen {before : Option Piece} {l : Layout} :
    Spaced (before.map Piece.deepen) l.deepen ↔ Spaced before l := by
  induction l generalizing before with
  | nil => exact Iff.rfl
  | cons p l ih =>
    have hfirst : (∀ q ∈ before.map Piece.deepen, q.Beside p.deepen) ↔ ∀ q ∈ before, q.Beside p := by
      cases before with
      | none => simp
      | some q => simp [beside_deepen]
    have hrest : Spaced (some p.deepen) (deepen l) ↔ Spaced (some p) l := @ih (some p)
    rw [deepen, List.map_cons, Spaced, Spaced, hfirst, isReadable_deepen]
    exact and_congr_right fun _ => and_congr_right fun _ => hrest

theorem endOf_deepen (before : Option Piece) (l : Layout) :
    endOf (before.map Piece.deepen) (deepen l) = (endOf before l).map Piece.deepen := by
  induction l generalizing before with
  | nil => rfl
  | cons p l ih => exact ih (some p)

/-! ## Splitting the text -/

theorem spelling_append (indent : List Char) (l m : Layout) :
    spelling indent (l ++ m) = spelling indent l ++ spelling indent m :=
  List.flatMap_append

theorem spelling_cons (indent : List Char) (p : Piece) (l : Layout) :
    spelling indent (p :: l) = p.spelling indent ++ spelling indent l :=
  List.flatMap_cons

end Layout

/-- Every lexeme ends before a blank. -/
theorem endsBefore_blank (a : Lexeme) {c : Char} (hc : c = ' ' ∨ c = '\n') :
    a.endsBefore c = true := by
  have hword : endsWord c = true ∧ (!Numeral.isNameChar c) = true ∧ (c != '[') = true := by
    rcases hc with rfl | rfl <;> decide
  have hoperator : ∀ name, Operator.goesOn name c = false := by
    have table : ∀ s ∈ Operator.spellings, ' ' ∉ s.toList ∧ '\n' ∉ s.toList := by decide
    intro name
    refine List.any_eq_false.mpr fun s hs hprefix => ?_
    obtain ⟨after, hafter⟩ := List.isPrefixOf_iff_prefix.mp hprefix
    have hmem : c ∈ s.toList := by
      rw [← hafter]
      simp
    rcases hc with rfl | rfl
    · exact (table s hs).1 hmem
    · exact (table s hs).2 hmem
  obtain ⟨hends, hname, hbracket⟩ := hword
  cases a with
  | leftBracket => exact hbracket
  | integer | double => exact hname
  | constant | keyword => exact hends
  | symbol name => simp only [Lexeme.endsBefore, hends, Bool.or_true]
  | operator name => simp only [Lexeme.endsBefore, hoperator name, Bool.not_false]
  | _ => rfl

/-- A lexeme that reads back has a text. -/
theorem spelling_ne_nil {a : Lexeme} (h : a.IsReadable) : a.spelling ≠ [] := by
  have hnil : ∀ c ∈ ([] : List Char).head?, a.endsBefore c = true :=
    fun c hc => (Option.not_mem_none c hc).elim
  obtain ⟨c, after, hstart, -⟩ := readLexeme_spelling h hnil
  rw [List.append_nil] at hstart
  rw [hstart]
  exact List.cons_ne_nil _ _

/-- A lexeme ends where a piece follows that can stand beside it. -/
theorem endsBefore_of_spaced {a : Lexeme} {indent : List Char} {l : Layout}
    (h : l.Spaced (some (.lexeme a))) :
    ∀ c ∈ (l.spelling indent).head?, a.endsBefore c = true := by
  cases l with
  | nil => exact fun c hc => (Option.not_mem_none c hc).elim
  | cons p l =>
    obtain ⟨hbeside, hreadable, -⟩ := h
    have hbeside : Piece.Beside (.lexeme a) p := hbeside _ rfl
    rw [Layout.spelling_cons]
    intro c hc
    cases p with
    | lexeme b =>
      obtain ⟨d, ds, hd⟩ := List.exists_cons_of_ne_nil (spelling_ne_nil hreadable)
      refine hbeside c ?_
      rw [Piece.spelling, hd] at hc
      rw [hd]
      exact hc
    | space =>
      obtain rfl : ' ' = c := Option.some.inj hc
      exact endsBefore_blank a (.inl rfl)
    | lineBreak depth =>
      obtain rfl : '\n' = c := Option.some.inj hc
      exact endsBefore_blank a (.inr rfl)

namespace TokenText

/-- The tokens of the rest of a text are those after its first lexeme. -/
theorem scan_lexeme {cs rest : List Char} {a : Lexeme} (h : ReadsAs cs a rest) (p : Position)
    (afterBreak : Bool) :
    ∃ q, scan p afterBreak cs =
      (scan q false rest).map fun t => { t with tokens := ⟨a, p⟩ :: t.tokens } :=
  ⟨_, scan_readsAs h p afterBreak⟩

theorem scan_blanks {blanks : List Char} (h : ∀ c ∈ blanks, isBlank c = true) (p : Position)
    (afterBreak : Bool) (rest : List Char) :
    ∃ q, scan p afterBreak (blanks ++ rest) = scan q afterBreak rest := by
  induction blanks generalizing p with
  | nil => exact ⟨p, rfl⟩
  | cons c blanks ih =>
    obtain ⟨hc, hblanks⟩ := List.forall_mem_cons.mp h
    obtain ⟨q, hq⟩ := ih hblanks (p.next c)
    refine ⟨q, ?_⟩
    rw [List.cons_append, scan, if_pos hc, hq]

theorem scan_lineBreak (p : Position) (rest : List Char) :
    scan p false ('\n' :: rest) =
      (scan (p.next '\n') true rest).map fun t => { t with tokens := ⟨.newline, p⟩ :: t.tokens } := by
  have hblank : isBlank '\n' = false := by decide
  have hcomment : '\n' ≠ '#' := by decide
  rw [scan, hblank, if_neg hcomment]
  simp only [Bool.false_eq_true, if_false, if_true]

/-- The text of a spaced layout splits into the lexemes of the layout. -/
theorem scan_spaced {indent : List Char} (hindent : ∀ c ∈ indent, isBlank c = true) {l : Layout}
    {before : Option Piece} (h : l.Spaced before) {afterBreak : Bool}
    (hbreak : afterBreak = true → ∃ depth, before = some (.lineBreak depth)) (p : Position) :
    ∃ t, scan p afterBreak (l.spelling indent) = .ok t ∧
      t.tokens.map Token.lexeme = l.tokens.map Token.lexeme := by
  induction l generalizing before afterBreak p with
  | nil => exact ⟨⟨[], p⟩, by rw [Layout.spelling, List.flatMap_nil, scan], rfl⟩
  | cons piece l ih =>
    obtain ⟨hbeside, hreadable, hrest⟩ := h
    -- only a lexeme stands at the start of a line
    have hstart : (∀ a, piece ≠ .lexeme a) → afterBreak = false := by
      intro hne
      cases afterBreak with
      | false => rfl
      | true =>
        obtain ⟨depth, rfl⟩ := hbreak rfl
        have := hbeside _ rfl
        cases piece with
        | lexeme a => exact absurd rfl (hne a)
        | space | lineBreak => exact this.elim
    rw [Layout.spelling_cons]
    cases piece with
    | lexeme a =>
      have hread := readLexeme_spelling hreadable
        (endsBefore_of_spaced hrest : ∀ c ∈ (Layout.spelling indent l).head?, _)
      obtain ⟨q, hq⟩ := scan_lexeme hread p afterBreak
      obtain ⟨t, ht, htokens⟩ := ih hrest (absurd · Bool.false_ne_true) q
      refine ⟨{ t with tokens := ⟨a, p⟩ :: t.tokens }, ?_, ?_⟩
      · rw [Piece.spelling, hq, ht]
        rfl
      · rw [List.map_cons, htokens]
        rfl
    | space =>
      obtain rfl := hstart fun a h => Piece.noConfusion h
      have hblank : ∀ c ∈ [' '], isBlank c = true := List.all_eq_true.mp (by decide)
      obtain ⟨q, hq⟩ := scan_blanks hblank p false (Layout.spelling indent l)
      obtain ⟨t, ht, htokens⟩ := ih hrest (absurd · Bool.false_ne_true) q
      exact ⟨t, hq.trans ht, htokens⟩
    | lineBreak depth =>
      obtain rfl := hstart fun a h => Piece.noConfusion h
      have hblanks : ∀ c ∈ (List.replicate depth indent).flatten, isBlank c = true := by
        intro c hc
        obtain ⟨cs, hcs, hmem⟩ := List.mem_flatten.mp hc
        rw [List.eq_of_mem_replicate hcs] at hmem
        exact hindent c hmem
      obtain ⟨q, hq⟩ := scan_blanks hblanks (p.next '\n') true
        (Layout.spelling indent l)
      obtain ⟨t, ht, htokens⟩ := ih hrest (fun _ => ⟨depth, rfl⟩) q
      refine ⟨{ t with tokens := ⟨.newline, p⟩ :: t.tokens }, ?_, ?_⟩
      · rw [Piece.spelling, List.cons_append, scan_lineBreak, hq, ht]
        rfl
      · rw [List.map_cons, htokens]
        rfl

end TokenText

end RCode
