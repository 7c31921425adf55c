import RCode.Proofs.Token.Joining

/-!
# The order of tokens

Positions are ordered by lines, and within a line by columns. The tokens of a text come in this
order, and no two of them stand at one place (`TokenText.Scans.ascending`).
-/

set_option autoImplicit false

namespace RCode

namespace Position

instance : LE Position where
  le p q := p.line.toInt < q.line.toInt ∨
    p.line.toInt = q.line.toInt ∧ p.column.toInt ≤ q.column.toInt

theorem le_def {p q : Position} :
    p ≤ q ↔ p.line.toInt < q.line.toInt ∨
      p.line.toInt = q.line.toInt ∧ p.column.toInt ≤ q.column.toInt :=
  Iff.rfl

theorem le_refl (p : Position) : p ≤ p :=
  .inr ⟨rfl, Int.le_refl _⟩

theorem le_trans {p q r : Position} (h : p ≤ q) (h' : q ≤ r) : p ≤ r := by
  rw [le_def] at h h' ⊢
  omega

instance : LT Position where
  lt p q := p.line.toInt < q.line.toInt ∨
    p.line.toInt = q.line.toInt ∧ p.column.toInt < q.column.toInt

theorem lt_def {p q : Position} :
    p < q ↔ p.line.toInt < q.line.toInt ∨
      p.line.toInt = q.line.toInt ∧ p.column.toInt < q.column.toInt :=
  Iff.rfl

instance (p q : Position) : Decidable (p < q) :=
  inferInstanceAs (Decidable (p.line.toInt < q.line.toInt ∨
    p.line.toInt = q.line.toInt ∧ p.column.toInt < q.column.toInt))

theorem lt_irrefl (p : Position) : ¬ p < p := by
  rw [lt_def]
  omega

theorem lt_asymm {p q : Position} (h : p < q) : ¬ q < p := by
  rw [lt_def] at h ⊢
  omega

theorem le_of_lt {p q : Position} (h : p < q) : p ≤ q := by
  rw [lt_def] at h
  rw [le_def]
  omega

theorem lt_of_lt_of_le {p q r : Position} (h : p < q) (h' : q ≤ r) : p < r := by
  rw [lt_def] at h ⊢
  rw [le_def] at h'
  omega

theorem lt_next (p : Position) (c : Char) : p < p.next c := by
  unfold next
  split
  · exact .inl (Int.lt_succ p.line.toInt)
  · exact .inr ⟨rfl, Int.lt_succ p.column.toInt⟩

theorem le_next (p : Position) (c : Char) : p ≤ p.next c :=
  le_of_lt (lt_next p c)

theorem le_after (p : Position) (cs : List Char) : p ≤ p.after cs := by
  induction cs generalizing p with
  | nil => exact le_refl p
  | cons c cs ih => exact le_trans (le_next p c) (ih (p.next c))

theorem lt_after (p : Position) {cs : List Char} (h : cs ≠ []) : p < p.after cs := by
  cases cs with
  | nil => exact absurd rfl h
  | cons c cs => exact lt_of_lt_of_le (lt_next p c) (le_after (p.next c) cs)

end Position

/-- Each token stands before the ones that follow it. -/
def Sorted (ts : List Token) : Prop :=
  ts.Pairwise fun t u => t.position ≤ u.position

/-- Each token stands before the ones that follow it, and at another place. -/
def Ascending (ts : List Token) : Prop :=
  ts.Pairwise fun t u => t.position < u.position

namespace TokenText

/-- A lexeme takes at least one character. -/
theorem upTo_ne_nil {c : Char} {rest after : List Char} {l : Lexeme}
    (h : readLexeme c rest = .ok (l, after)) : upTo (c :: rest) after ≠ [] := by
  have hlength : after.length < (c :: rest).length := readLexeme_length h
  rw [upTo, ne_eq, List.take_eq_nil_iff, not_or]
  exact ⟨Nat.sub_ne_zero_of_lt hlength, List.cons_ne_nil c rest⟩

/-- The tokens of a text that starts at `p` are ascending and not before `p`. -/
theorem Scans.ascending {p stop : Position} {afterBreak : Bool} {cs : List Char}
    {ts : List Token} (h : Scans p afterBreak cs ts stop) :
    (∀ t ∈ ts, p ≤ t.position) ∧ Ascending ts := by
  induction h with
  | done => exact ⟨fun _ ht => absurd ht List.not_mem_nil, .nil⟩
  | blank _ _ ih => exact ⟨fun t ht => Position.le_trans (Position.le_next _ _) (ih.1 t ht), ih.2⟩
  | comment _ ih => exact ⟨fun t ht => Position.le_trans (Position.le_after _ _) (ih.1 t ht), ih.2⟩
  | merged _ ih => exact ⟨fun t ht => Position.le_trans (Position.le_next _ _) (ih.1 t ht), ih.2⟩
  | lineBreak _ ih =>
    have hlater := fun t ht => Position.lt_of_lt_of_le (Position.lt_next _ _) (ih.1 t ht)
    exact ⟨List.forall_mem_cons.mpr ⟨Position.le_refl _, fun t ht => Position.le_of_lt (hlater t ht)⟩,
      .cons hlater ih.2⟩
  | lexeme _ _ _ hread _ ih =>
    have hlater := fun t ht =>
      Position.lt_of_lt_of_le (Position.lt_after _ (upTo_ne_nil hread)) (ih.1 t ht)
    exact ⟨List.forall_mem_cons.mpr ⟨Position.le_refl _, fun t ht => Position.le_of_lt (hlater t ht)⟩,
      .cons hlater ih.2⟩

/-- The tokens of a text that starts at `p` are sorted and not before `p`. -/
theorem Scans.sorted {p stop : Position} {afterBreak : Bool} {cs : List Char}
    {ts : List Token} (h : Scans p afterBreak cs ts stop) :
    (∀ t ∈ ts, p ≤ t.position) ∧ Sorted ts :=
  ⟨h.ascending.1, h.ascending.2.imp Position.le_of_lt⟩

end TokenText

end RCode
