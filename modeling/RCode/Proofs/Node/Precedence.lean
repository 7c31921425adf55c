import RCode.Proofs.Node.OperatorTree
import RCode.Proofs.Node.ProgramReading

/-!
# Operator precedence

A row of operands with operators between them is read as the one tree that respects how tightly its
operators bind (`Parser.program_row`). The reader goes through the row once. What carries the proof
is what it leaves unread: the next operator never binds tighter than the power that the reader was
asked for, so the tree in hand may stand on its left (`Climbed`).
-/

set_option autoImplicit false

namespace RCode

namespace Parser

/-- The operators and operands after the first operand of a row. -/
abbrev Pairs := List (Connective × Operand)

/-- The tokens of operators and operands. -/
def pairTokens (pairs : Pairs) : Tokens :=
  pairs.flatMap fun (o, a) => [o.token, a.token]

/-- An operand is complete by itself. -/
theorem reads_operand_token (a : Operand) (ts : Tokens) :
    Reads (.operand .top a.token) ts (.node a.toNode) ts := by
  obtain ⟨⟨lexeme, p⟩, h⟩ := a
  cases lexeme with
  | symbol name => exact .symbol rfl
  | integer n => exact .literal rfl
  | double x => exact .literal rfl
  | text s => exact .literal rfl
  | _ => cases h

theorem skipSeparators_operand (a : Operand) (ts : Tokens) :
    skipSeparators (a.token :: ts) = a.token :: ts := by
  obtain ⟨⟨lexeme, p⟩, hoperand⟩ := a
  cases lexeme with
  | newline => cases hoperand
  | semicolon => cases hoperand
  | _ => rfl

/-- The right side of an operator starts with its operand. -/
theorem reads_expression_token {power : Nat} {a : Operand} {ts rest : Tokens} {n : Node}
    (h : Reads (.operators .top power a.toNode) ts (.node n) rest) :
    Reads (.expression .top power) (skipBreaks (a.token :: ts)) (.node n) rest := by
  have hskip : skipBreaks (a.token :: ts) = a.token :: ts := by
    obtain ⟨⟨lexeme, p⟩, hoperand⟩ := a
    cases lexeme with
    | newline => cases hoperand
    | _ => rfl
  rw [hskip]
  exact .expression rfl (reads_operand_token a ts) h

/-- From `left` and the operators and operands after it the reader that was asked for operators above
`power` has made `tree`, and has left `rest`. -/
structure Climbed (power : Nat) (left : OperatorTree) (pairs : Pairs) (tree : OperatorTree)
    (rest : Pairs) : Prop where
  reads : Reads (.operators .top power left.toNode) (pairTokens pairs) (.node tree.toNode)
    (pairTokens rest)
  /-- What has been read is in the tree, in its order. -/
  row : ∃ used, pairs = used ++ rest ∧ tree.operands = left.operands ++ used.map Prod.snd ∧
    tree.connectives = left.connectives ++ used.map Prod.fst
  respects : tree.Respects
  above : tree.AtLeast (power + 1)
  /-- The next operator is left to the caller. -/
  stops : ∀ pair ∈ rest.head?, pair.1.power ≤ power

/-- A tree whose right side was read on behalf of its operator may stand left of the next one. -/
theorem fitsLeft_of_le_rightPower {o o' : Connective} {l r : OperatorTree}
    (h : o'.power ≤ rightPower o.binding) : (OperatorTree.node o l r).FitsLeft o' := by
  obtain ⟨hpositive, -, -, -⟩ := Grammar.binary?_power o.binary?_eq
  unfold rightPower at h
  cases hassoc : o.binding.rightAssociative with
  | true =>
    rw [hassoc, if_pos rfl] at h
    refine .inl ?_
    unfold Connective.power at h ⊢
    omega
  | false =>
    rw [hassoc, if_neg Bool.false_ne_true] at h
    rcases Nat.lt_or_eq_of_le h with hlt | heq
    · exact .inl hlt
    · exact .inr ⟨heq.symm, (Connective.rightAssociative_eq heq).trans hassoc⟩

/-- A tree of operators that were read on behalf of an operator may stand on its right. -/
theorem fitsRight_of_above {o : Connective} {t : OperatorTree}
    (h : t.AtLeast (rightPower o.binding + 1)) : t.FitsRight o := by
  cases t with
  | leaf a => trivial
  | node o' l r =>
    have h : rightPower o.binding + 1 ≤ o'.power := h
    obtain ⟨hpositive, -, -, -⟩ := Grammar.binary?_power o.binary?_eq
    unfold rightPower at h
    cases hassoc : o.binding.rightAssociative with
    | true =>
      rw [hassoc, if_pos rfl] at h
      have hle : o.power ≤ o'.power := by
        unfold Connective.power at h ⊢
        omega
      rcases Nat.lt_or_eq_of_le hle with hlt | heq
      · exact .inl hlt
      · exact .inr ⟨heq.symm, hassoc⟩
    | false =>
      rw [hassoc, if_neg Bool.false_ne_true] at h
      exact .inl h

/-- The reader climbs through any row, from any tree that may stand left of its first operator. -/
theorem exists_climbed (pairs : Pairs) (power : Nat) (left : OperatorTree) (hleft : left.Respects)
    (habove : left.AtLeast (power + 1)) (hfits : ∀ pair ∈ pairs.head?, left.FitsLeft pair.1) :
    ∃ tree rest, Climbed power left pairs tree rest := by
  match pairs with
  | [] =>
    refine ⟨left, [], .done ?_, ⟨[], rfl, by simp, by simp⟩, hleft, habove, ?_⟩
    · rintro t ⟨⟩
    · rintro pair ⟨⟩
  | (o, a) :: pairs =>
    have hpower : leftPower o.token.lexeme = o.power := Grammar.leftPower_operator o.binary?_eq
    by_cases hstop : o.power ≤ power
    · -- the operator is the caller's
      refine ⟨left, (o, a) :: pairs, .done ?_, ⟨[], rfl, by simp, by simp⟩, hleft, habove, ?_⟩
      · rintro t ⟨⟩
        rw [hpower]
        exact hstop
      · rintro pair ⟨⟩
        exact hstop
    · obtain ⟨right, rest, hright⟩ :=
        exists_climbed pairs (rightPower o.binding) (.leaf a) trivial trivial fun _ _ => trivial
      obtain ⟨used, hused, hoperands, hconnectives⟩ := hright.row
      have hfewer : rest.length < ((o, a) :: pairs).length := by
        rw [hused, List.length_cons, List.length_append]
        omega
      -- the right side is complete, and its call is the left side of what follows
      obtain ⟨tree, rest', htree⟩ := exists_climbed rest power (.node o left right)
        ⟨hfits (o, a) rfl, fitsRight_of_above hright.above, hleft, hright.respects⟩
        (Nat.lt_of_not_le hstop)
        fun pair hpair => fitsLeft_of_le_rightPower (hright.stops pair hpair)
      obtain ⟨used', hused', hoperands', hconnectives'⟩ := htree.row
      have hregular := o.regular
      simp only [Operator.irregular, List.mem_append, not_or] at hregular
      have hform : Reads (.operatorForm .top o.token left.toNode) (a.token :: pairTokens pairs)
          (.node (OperatorTree.node o left right).toNode) (pairTokens rest) :=
        .binary rfl hregular.1.1 hregular.1.2 o.binary?_eq (reads_expression_token hright.reads)
          (Grammar.combine_eq o.position left.toNode right.toNode hregular.2)
      have hbinds : power < leftPower o.token.lexeme := hpower ▸ Nat.lt_of_not_le hstop
      refine ⟨tree, rest', .more rfl hbinds hform htree.reads, ⟨(o, a) :: used ++ used', ?_, ?_, ?_⟩,
        htree.respects, htree.above, htree.stops⟩
      · simp only [hused, hused', List.cons_append, List.append_assoc]
      · rw [hoperands', OperatorTree.operands, hoperands]
        simp [OperatorTree.operands]
      · rw [hconnectives', OperatorTree.connectives, hconnectives]
        simp [OperatorTree.connectives]
termination_by pairs.length

/-- A row of operands with operators between them is one expression: the only tree of the row in
which every operator has on its left a leaf or an operator that binds tighter, or as tightly if it
associates to the left, and on its right a leaf or an operator that binds tighter, or as tightly if
it associates to the right. -/
theorem program_row (first : Operand) (pairs : Pairs) :
    ∃ tree : OperatorTree,
      program (first.token :: pairTokens pairs) = .ok [tree.toNode] ∧
      (tree.operands = first :: pairs.map Prod.snd ∧ tree.connectives = pairs.map Prod.fst ∧
        tree.Respects) ∧
      ∀ other : OperatorTree,
        (other.operands = first :: pairs.map Prod.snd ∧ other.connectives = pairs.map Prod.fst ∧
          other.Respects) → other = tree := by
  obtain ⟨tree, rest, h⟩ := exists_climbed pairs 0 (.leaf first) trivial trivial fun _ _ => trivial
  -- every operator binds tighter than 0, so nothing is left
  have hrest : rest = [] := by
    cases rest with
    | nil => rfl
    | cons pair rest =>
      obtain ⟨hpositive, -, -, -⟩ := Grammar.binary?_power pair.1.binary?_eq
      have := h.stops pair rfl
      unfold Connective.power at this
      omega
  subst hrest
  obtain ⟨used, hused, hoperands, hconnectives⟩ := h.row
  rw [List.append_nil] at hused
  subst hused
  refine ⟨tree, ?_, ⟨hoperands, hconnectives, h.respects⟩, ?_⟩
  · have hexpression : Reads (.expression .top 0) (first.token :: pairTokens pairs)
        (.node tree.toNode) [] := .expression rfl (reads_operand_token first _) h.reads
    obtain ⟨hfewer, hread⟩ := hexpression.succeeds
    have hempty : program (⟨[], hfewer⟩ : Fewer (first.token :: pairTokens pairs)).1 = .ok [] :=
      program_of_nil rfl
    exact program_of_expression (skipSeparators_operand first _) hread rfl hempty
  · rintro other ⟨hoperands', hconnectives', hrespects'⟩
    exact OperatorTree.eq_of_respects hrespects' h.respects (hoperands'.trans hoperands.symm)
      (hconnectives'.trans hconnectives.symm)

/-- The row `a + 1.5 %in% "s"`, in which the second operator binds tighter. -/
theorem program_row_member :
    let a : Operand := ⟨⟨.symbol "a", ⟨1, 1⟩⟩, rfl⟩
    let x : Operand := ⟨⟨.double 1.5, ⟨1, 5⟩⟩, rfl⟩
    let s : Operand := ⟨⟨.text "s", ⟨1, 14⟩⟩, rfl⟩
    let plus : Connective := ⟨"+", ⟨1, 3⟩, _, rfl, by decide⟩
    let member : Connective := ⟨"%in%", ⟨1, 9⟩, _, rfl, by decide⟩
    program [a.token, plus.token, x.token, member.token, s.token] =
      .ok [(OperatorTree.node plus (.leaf a) (.node member (.leaf x) (.leaf s))).toNode] := by
  intro a x s plus member
  obtain ⟨tree, hread, -, hunique⟩ := program_row a [(plus, x), (member, s)]
  have hrespects : (OperatorTree.node plus (.leaf a) (.node member (.leaf x) (.leaf s))).Respects :=
    ⟨trivial, .inl (by decide), trivial, trivial, trivial, trivial, trivial⟩
  rw [hunique _ ⟨rfl, rfl, hrespects⟩]
  exact hread

end Parser

end RCode
