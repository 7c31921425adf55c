import RCode.Proofs.Failure
import RCode.Proofs.Node.Derivation

/-!
# The parser and its derivations

The functions of the parser succeed exactly where there is a derivation (`expression_eq_ok_iff`). One
direction is an induction over derivations. The other follows the recursion of the functions: each
computation is taken apart at its binds, and every success on the way becomes a premise of a rule.
-/

set_option autoImplicit false

namespace RCode.Parser

/-! ## What is derived is read -/

/-- The function for a goal succeeds with a phrase and leaves `rest`. -/
def Succeeds : Goal → Tokens → Phrase → Tokens → Prop
  | .expression region power, ts, .node n, rest =>
    ∃ h, expression region power ts = .ok (n, ⟨rest, h⟩)
  | .operators region power left, ts, .node n, rest =>
    ∃ h, operators region power left ts = .ok (n, ⟨rest, h⟩)
  | .operand region t, ts, .node n, rest => ∃ h, operand region t ts = .ok (n, ⟨rest, h⟩)
  | .operatorForm region t left, ts, .node n, rest =>
    ∃ h, operatorForm region t left ts = .ok (n, ⟨rest, h⟩)
  | .condition region, ts, .node n, rest => ∃ h, condition region ts = .ok (n, ⟨rest, h⟩)
  | .statements opening, ts, .nodes ns, rest => ∃ h, statements opening ts = .ok (ns, ⟨rest, h⟩)
  | .parameters, ts, .params ps, rest => ∃ h, parameters ts = .ok (ps, ⟨rest, h⟩)
  | .parameterList seen, ts, .params ps, rest => ∃ h, parameterList seen ts = .ok (ps, ⟨rest, h⟩)
  | .parameterDefault, ts, .node n, rest => ∃ h, parameterDefault ts = .ok (n, ⟨rest, h⟩)
  | .arguments closing, ts, .args as, rest => ∃ h, arguments closing ts = .ok (as, ⟨rest, h⟩)
  | .argumentList closing, ts, .args as, rest => ∃ h, argumentList closing ts = .ok (as, ⟨rest, h⟩)
  | .argument closing, ts, .args [a], rest => ∃ h, argument closing ts = .ok (a, ⟨rest, h⟩)
  | _, _, _, _ => False

theorem expect_ok {region : Region} {wanted : String} {accepts : Lexeme → Bool}
    {ts rest : Tokens} {t : Token} (hv : visible region ts = t :: rest)
    (ha : accepts t.lexeme = true) :
    expect region wanted accepts ts = .ok ⟨rest, visible_cons_length hv⟩ := by
  unfold expect
  split
  · next u rest' h =>
    rw [hv] at h
    obtain ⟨rfl, rfl⟩ := List.cons.inj h
    simp only [ha, if_true]
  · next h => rw [hv] at h; cases h

theorem expectSymbol_ok {ts rest : Tokens} {name : String} {p : Position}
    (hv : visible .bracket ts = ⟨.symbol name, p⟩ :: rest) :
    expectSymbol ts = .ok (name, p, ⟨rest, visible_cons_length hv⟩) := by
  unfold expectSymbol
  split
  · next h =>
    rw [hv] at h
    cases h
    rfl
  · next hne => exact absurd hv (hne _ _ _)

theorem elseBranch?_eq {region : Region} {ts : Tokens} {rest : Tokens}
    (h : afterElse? region ts = some rest) : ∃ hr, elseBranch? region ts = some ⟨rest, hr⟩ := by
  unfold afterElse? at h
  obtain ⟨⟨r, hr⟩, heq, rfl⟩ := Option.map_eq_some_iff.mp h
  exact ⟨hr, heq⟩

theorem argumentName?_eq {t : Token} {ts rest : Tokens} {name : String}
    (h : afterName? t ts = some (name, rest)) :
    ∃ hr, argumentName? t ts = some (name, ⟨rest, hr⟩) := by
  unfold afterName? at h
  obtain ⟨⟨m, r, hr⟩, heq, hpair⟩ := Option.map_eq_some_iff.mp h
  obtain ⟨rfl, rfl⟩ := Prod.mk.inj hpair
  exact ⟨hr, heq⟩

theorem member_ok (operator : String) {ts rest : Tokens} {u : Token} {n : Node}
    (hs : skipBreaks ts = u :: rest) (hn : memberNode? u = some n) :
    ∃ hr, member operator ts = .ok (n, ⟨rest, hr⟩) := by
  obtain ⟨l, p⟩ := u
  unfold member
  unfold memberNode? at hn
  refine ⟨member.fits hs, ?_⟩
  split
  · next h =>
    rw [hs] at h
    cases h
    cases hn
    rfl
  · next h =>
    rw [hs] at h
    cases h
    cases hn
    rfl
  · next h₁ h₂ =>
    cases l with
    | symbol name => exact absurd hs (h₁ _ _ _)
    | text s => exact absurd hs (h₂ _ _ _)
    | _ => cases hn

/-- What can be derived is what the functions return. -/
theorem Reads.succeeds {g : Goal} {ts rest : Tokens} {r : Phrase} (h : Reads g ts r rest) :
    Succeeds g ts r rest := by
  induction h with
  | @expression region power ts ts₁ ts₂ rest t left n hv _ _ iho ihr =>
    obtain ⟨h₁, ho⟩ := iho
    obtain ⟨h₂, hr⟩ := ihr
    have := visible_cons_length hv
    refine ⟨by omega, ?_⟩
    rw [Parser.expression]
    split
    · next h => rw [hv] at h; cases h
    · next h =>
      rw [hv] at h
      obtain ⟨rfl, rfl⟩ := List.cons.inj h
      simp only [ho, hr, ok_bind]
      rfl
  | @done region power left ts hstop =>
    refine ⟨visible_length region ts, ?_⟩
    rw [operators]
    split
    · next h => simp only [h]
    · next t ts' h =>
      rw [h] at hstop
      have : leftPower t.lexeme ≤ power := hstop t rfl
      simp only [this, if_true, h]
  | @more region power left left' n ts ts₁ ts₂ rest t hv hpower _ _ ihf iho =>
    obtain ⟨h₁, hf⟩ := ihf
    obtain ⟨h₂, ho⟩ := iho
    have := visible_cons_length hv
    refine ⟨by omega, ?_⟩
    rw [operators]
    split
    · next h => rw [hv] at h; cases h
    · next h =>
      rw [hv] at h
      obtain ⟨rfl, rfl⟩ := List.cons.inj h
      simp only [Nat.not_le.mpr hpower, if_false, hf, ho, ok_bind]
      rfl
  | @literal region t ts hl =>
    refine ⟨Nat.le_refl _, ?_⟩
    rw [operand]
    unfold isLiteral at hl
    cases ht : t.lexeme with
    | integer | double | text | constant => rfl
    | _ => rw [ht] at hl; cases hl
  | @symbol region t ts name ht =>
    refine ⟨Nat.le_refl _, ?_⟩
    rw [operand]
    simp only [ht]
  | @prefixed region t ts rest name power inner ht hp _ ih =>
    obtain ⟨h₁, hi⟩ := ih
    have := skipBreaks_length ts
    refine ⟨by omega, ?_⟩
    rw [operand]
    simp only [ht, hp, hi, ok_bind]
    rfl
  | @group region t ts ts₁ rest p inner ht _ hv ih =>
    obtain ⟨h₁, hi⟩ := ih
    have := visible_cons_length hv
    refine ⟨by omega, ?_⟩
    rw [operand]
    simp only [ht, hi, ok_bind]
    rw [expect_ok hv rfl]
    rfl
  | @block region t ts rest body ht _ ih =>
    obtain ⟨h₁, hb⟩ := ih
    refine ⟨by omega, ?_⟩
    rw [operand]
    simp only [ht, hb, ok_bind]
    rfl
  | @conditional region t ts ts₁ rest c body ht _ _ he ihc ihb =>
    obtain ⟨h₁, hc⟩ := ihc
    obtain ⟨h₂, hb⟩ := ihb
    have := skipBreaks_length ts₁
    refine ⟨by omega, ?_⟩
    have hnone : elseBranch? region rest = none := Option.map_eq_none_iff.mp he
    rw [operand]
    simp only [ht, hc, hb, ok_bind, hnone]
    rfl
  | @alternative region t ts ts₁ ts₂ ts₃ rest c body other ht _ _ he _ ihc ihb iho =>
    obtain ⟨h₁, hc⟩ := ihc
    obtain ⟨h₂, hb⟩ := ihb
    obtain ⟨h₃, ho⟩ := iho
    obtain ⟨h₄, hsome⟩ := elseBranch?_eq he
    have := skipBreaks_length ts₁
    have := skipBreaks_length ts₃
    refine ⟨by omega, ?_⟩
    rw [operand]
    simp only [ht, hc, hb, ok_bind, hsome, ho]
    rfl
  | @whileLoop region t ts ts₁ rest c body ht _ _ ihc ihb =>
    obtain ⟨h₁, hc⟩ := ihc
    obtain ⟨h₂, hb⟩ := ihb
    have := skipBreaks_length ts₁
    refine ⟨by omega, ?_⟩
    rw [operand]
    simp only [ht, hc, hb, ok_bind]
    rfl
  | @forLoop region t ts ts₁ ts₂ ts₃ ts₄ ts₅ rest p q r s name sequence body ht hopen hname hin _
      hclose _ ihs ihb =>
    obtain ⟨h₁, hs⟩ := ihs
    obtain ⟨h₂, hb⟩ := ihb
    have := visible_cons_length hopen
    have := visible_cons_length hname
    have := visible_cons_length hin
    have := visible_cons_length hclose
    have := skipBreaks_length ts₅
    refine ⟨by omega, ?_⟩
    rw [operand]
    simp only [ht]
    rw [expect_ok hopen rfl, ok_bind]
    simp only [expectSymbol_ok hname, ok_bind]
    rw [expect_ok hin rfl, ok_bind]
    simp only [hs, ok_bind]
    rw [expect_ok hclose rfl, ok_bind]
    simp only [hb, ok_bind]
    rfl
  | @repeatLoop region t ts rest body ht _ ih =>
    obtain ⟨h₁, hb⟩ := ih
    have := skipBreaks_length ts
    refine ⟨by omega, ?_⟩
    rw [operand]
    simp only [ht, hb, ok_bind]
    rfl
  | @definition region t ts ts₁ ts₂ rest p items body ht hopen _ _ ihp ihb =>
    obtain ⟨h₁, hp⟩ := ihp
    obtain ⟨h₂, hb⟩ := ihb
    have := visible_cons_length hopen
    have := skipBreaks_length ts₂
    refine ⟨by omega, ?_⟩
    rw [operand]
    simp only [ht]
    rw [expect_ok hopen rfl, ok_bind]
    simp only [hp, hb, ok_bind, hopen]
    rfl
  | @breakJump region t ts ht =>
    refine ⟨Nat.le_refl _, ?_⟩
    rw [operand]
    simp only [ht]
  | @nextJump region t ts ht =>
    refine ⟨Nat.le_refl _, ?_⟩
    rw [operand]
    simp only [ht]
  | @condition region ts ts₁ ts₂ rest p q n hopen _ hclose ih =>
    obtain ⟨h₁, hn⟩ := ih
    have := visible_cons_length hopen
    have := visible_cons_length hclose
    refine ⟨by omega, ?_⟩
    rw [Parser.condition, expect_ok hopen rfl, ok_bind]
    simp only [hn, ok_bind]
    rw [expect_ok hclose rfl]
    rfl
  | @blockEnd opening p ts rest hs =>
    have := skipSeparators_length ts
    rw [hs] at this
    refine ⟨this, ?_⟩
    rw [statements]
    split
    · next h => rw [hs] at h; cases h
    · next h => rw [hs] at h; cases h; rfl
    · next hother h =>
      rw [hs] at h
      cases h
      exact (hother _ rfl).elim
  | @statement opening ts ts₁ ts₂ rest t n more hs hne _ hends _ ihn ihm =>
    obtain ⟨h₁, hn⟩ := ihn
    obtain ⟨h₂, hm⟩ := ihm
    have := skipSeparators_length ts
    rw [hs] at this
    refine ⟨by omega, ?_⟩
    rw [statements]
    split
    · next h => rw [hs] at h; cases h
    · next h => rw [hs] at h; cases h; exact absurd rfl hne
    · next h =>
      rw [hs] at h
      obtain ⟨rfl, rfl⟩ := List.cons.inj h
      simp only [hn, ok_bind, hends, if_true, hm]
      rfl
  | @noParameters ts rest p hv =>
    refine ⟨visible_cons_length hv, ?_⟩
    rw [parameters]
    split
    · next h => rw [hv] at h; cases h; rfl
    · next hne => exact absurd hv (hne _ _)
  | @someParameters ts rest items hne _ ih =>
    obtain ⟨h₁, hp⟩ := ih
    refine ⟨h₁, ?_⟩
    rw [parameters]
    split
    · next h => exact absurd h (hne _ _)
    · exact hp
  | @lastParameter seen ts ts₁ ts₂ rest name p q default hv hname _ hclose ih =>
    obtain ⟨h₁, hd⟩ := ih
    have := visible_cons_length hv
    have := visible_cons_length hclose
    refine ⟨by omega, ?_⟩
    rw [parameterList]
    simp only [expectSymbol_ok hv, ok_bind, if_neg hname, hd]
    split
    · next h => rw [hclose] at h; cases h; rfl
    · next h => rw [hclose] at h; cases h
    · next hne _ => exact absurd hclose (hne _ _)
  | @parameter seen ts ts₁ ts₂ ts₃ rest name p q default more hv hname _ hcomma _ ihd ihm =>
    obtain ⟨h₁, hd⟩ := ihd
    obtain ⟨h₂, hm⟩ := ihm
    have := visible_cons_length hv
    have := visible_cons_length hcomma
    refine ⟨by omega, ?_⟩
    rw [parameterList]
    simp only [expectSymbol_ok hv, ok_bind, if_neg hname, hd]
    split
    · next h => rw [hcomma] at h; cases h
    · next h =>
      rw [hcomma] at h
      cases h
      simp only [hm, ok_bind]
      rfl
    · next _ hne => exact absurd hcomma (hne _ _)
  | @withDefault ts ts₁ rest p default hv _ ih =>
    obtain ⟨h₁, hd⟩ := ih
    have := visible_cons_length hv
    refine ⟨by omega, ?_⟩
    rw [parameterDefault]
    split
    · next h =>
      rw [hv] at h
      cases h
      simp only [hd, ok_bind]
      rfl
    · next hne => exact absurd hv (hne _ _)
  | @noDefault ts hne =>
    refine ⟨Nat.le_refl _, ?_⟩
    rw [parameterDefault]
    split
    · next h => exact absurd h (hne _ _)
    · rfl
  | @application region t left ts rest args ht _ ih =>
    obtain ⟨h₁, ha⟩ := ih
    refine ⟨by omega, ?_⟩
    rw [operatorForm]
    simp only [ht, ha, ok_bind]
    rfl
  | @index region t left ts rest args ht _ ih =>
    obtain ⟨h₁, ha⟩ := ih
    refine ⟨by omega, ?_⟩
    rw [operatorForm]
    simp only [ht, ha, ok_bind]
    rfl
  | @doubleIndex region t left ts ts₁ rest p args ht _ hclose ih =>
    obtain ⟨h₁, ha⟩ := ih
    have := visible_cons_length hclose
    refine ⟨by omega, ?_⟩
    rw [operatorForm]
    simp only [ht, ha, ok_bind]
    rw [expect_ok hclose rfl]
    rfl
  | @member region t u left right ts rest name ht htakes hs hn =>
    obtain ⟨h₁, hm⟩ := member_ok name hs hn
    refine ⟨by omega, ?_⟩
    rw [operatorForm]
    simp only [ht]
    unfold TakesMember at htakes
    rw [if_pos htakes, hm]
    rfl
  | @binary region t left right n ts rest name binding ht hmem hqual hb _ hc ih =>
    obtain ⟨h₁, hr⟩ := ih
    have := skipBreaks_length ts
    simp only [Operator.members, Operator.qualifiers, List.mem_cons, List.not_mem_nil,
      or_false, not_or] at hmem hqual
    refine ⟨by omega, ?_⟩
    rw [operatorForm]
    unfold rightPower at hr
    simp only [ht, hmem, hqual, false_or, false_and, if_false, hb, hr, ok_bind, hc]
    rfl
  | @noArguments closing ts rest t hv ha =>
    refine ⟨visible_cons_length hv, ?_⟩
    rw [Parser.arguments]
    split
    · next h => rw [hv] at h; cases h
    · next h =>
      rw [hv] at h
      obtain ⟨rfl, rfl⟩ := List.cons.inj h
      simp only [ha, if_true]
  | @someArguments closing ts ts₁ rest t args hv ha _ ih =>
    obtain ⟨h₁, hl⟩ := ih
    refine ⟨h₁, ?_⟩
    rw [Parser.arguments]
    split
    · next h => rw [hv] at h; cases h
    · next h =>
      rw [hv] at h
      obtain ⟨rfl, rfl⟩ := List.cons.inj h
      simp only [ha, hl]
      rfl
  | @lastArgument closing ts ts₁ rest t a _ hv ha ih =>
    obtain ⟨h₁, harg⟩ := ih
    have := visible_cons_length hv
    refine ⟨by omega, ?_⟩
    rw [argumentList]
    simp only [harg, ok_bind]
    split
    · next h => rw [hv] at h; cases h
    · next h =>
      rw [hv] at h
      obtain ⟨rfl, rfl⟩ := List.cons.inj h
      rw [if_pos ha]
      rfl
  | @argument closing ts ts₁ ts₂ rest p a more _ hv _ iha ihm =>
    obtain ⟨h₁, harg⟩ := iha
    obtain ⟨h₂, hm⟩ := ihm
    have := visible_cons_length hv
    refine ⟨by omega, ?_⟩
    rw [argumentList]
    simp only [harg, ok_bind]
    split
    · next h => rw [hv] at h; cases h
    · next h =>
      rw [hv] at h
      obtain ⟨rfl, rfl⟩ := List.cons.inj h
      cases closing <;> simp only [Closing.accepts, hm, ok_bind] <;> rfl
  | @unnamed closing ts ts₁ rest t value hv he hname _ ih =>
    obtain ⟨h₁, hval⟩ := ih
    have hnone : argumentName? t ts₁ = none := Option.map_eq_none_iff.mp hname
    refine ⟨h₁, ?_⟩
    rw [Parser.argument]
    split
    · next h => rw [hv] at h; cases h
    · next h =>
      rw [hv] at h
      obtain ⟨rfl, rfl⟩ := List.cons.inj h
      simp only [he, hnone, hval, ok_bind]
      rfl
  | @named closing ts ts₁ ts₂ rest t name value hv he hname hempty hfound _ ih =>
    obtain ⟨h₁, hval⟩ := ih
    obtain ⟨h₂, hsome⟩ := argumentName?_eq hname
    have := visible_cons_length hv
    refine ⟨by omega, ?_⟩
    rw [Parser.argument]
    split
    · next h => rw [hv] at h; cases h
    · next h =>
      rw [hv] at h
      obtain ⟨rfl, rfl⟩ := List.cons.inj h
      simp only [he, hsome, hfound, hval, ok_bind, if_neg hempty]
      rfl

/-! ## What is read is derived -/

theorem expect_inv {region : Region} {wanted : String} {accepts : Lexeme → Bool}
    {ts : Tokens} {r : Fewer ts} (h : expect region wanted accepts ts = .ok r) :
    ∃ t, visible region ts = t :: r.1 ∧ accepts t.lexeme = true := by
  unfold expect at h
  split at h
  · next t rest hv =>
    split at h
    · next ha => cases h; exact ⟨t, hv, ha⟩
    · cases h
  · cases h

theorem expectSymbol_inv {ts : Tokens} {name : String} {p : Position} {r : Fewer ts}
    (h : expectSymbol ts = .ok (name, p, r)) :
    visible .bracket ts = ⟨.symbol name, p⟩ :: r.1 := by
  unfold expectSymbol at h
  split at h
  · next hv => cases h; exact hv
  · cases h

theorem afterElse?_eq {region : Region} {ts : Tokens} {r : Fewer ts}
    (h : elseBranch? region ts = some r) : afterElse? region ts = some r.1 := by
  unfold afterElse?
  rw [h]
  rfl

theorem afterName?_eq {t : Token} {ts : Tokens} {name : String} {r : NoMore ts}
    (h : argumentName? t ts = some (name, r)) : afterName? t ts = some (name, r.1) := by
  unfold afterName?
  rw [h]
  rfl

theorem member_inv {operator : String} {ts : Tokens} {n : Node} {r : Fewer ts}
    (h : member operator ts = .ok (n, r)) :
    ∃ u, skipBreaks ts = u :: r.1 ∧ memberNode? u = some n := by
  unfold member at h
  split at h
  · next hs => cases h; exact ⟨_, hs, rfl⟩
  · next hs => cases h; exact ⟨_, hs, rfl⟩
  · cases h

/-- What a test of one lexeme accepts stands first, and the rest follows it. -/
theorem expect_lexeme {region : Region} {wanted : String} {accepts : Lexeme → Bool} {l : Lexeme}
    {ts : Tokens} {r : Fewer ts} (h : expect region wanted accepts ts = .ok r)
    (hl : ∀ m, accepts m = true → m = l) : ∃ p, visible region ts = ⟨l, p⟩ :: r.1 := by
  obtain ⟨⟨m, p⟩, hv, ha⟩ := expect_inv h
  obtain rfl := hl m ha
  exact ⟨p, hv⟩

theorem eq_leftParen (m : Lexeme) (h : (m matches .leftParen) = true) : m = .leftParen := by
  cases m with
  | leftParen => rfl
  | _ => cases h

theorem eq_rightParen (m : Lexeme) (h : (m matches .rightParen) = true) : m = .rightParen := by
  cases m with
  | rightParen => rfl
  | _ => cases h

theorem eq_rightBracket (m : Lexeme) (h : (m matches .rightBracket) = true) :
    m = .rightBracket := by
  cases m with
  | rightBracket => rfl
  | _ => cases h

theorem eq_inWord (m : Lexeme) (h : (m matches .keyword .inWord) = true) :
    m = .keyword .inWord := by
  cases m with
  | keyword k =>
    cases k with
    | inWord => rfl
    | _ => cases h
  | _ => cases h

mutual

theorem reads_expression {region : Region} {power : Nat} {ts : Tokens} {n : Node} {r : Fewer ts}
    (h : expression region power ts = .ok (n, r)) :
    Reads (.expression region power) ts (.node n) r.1 := by
  rw [Parser.expression] at h
  split at h
  · cases h
  · next t ts₁ hv =>
    have hlt := visible_cons_length hv
    obtain ⟨⟨left, ts₂, h₂⟩, ho, h⟩ := bind_eq_ok h
    obtain ⟨⟨m, rest, h₃⟩, hr, h⟩ := bind_eq_ok h
    cases h
    exact .expression hv (reads_operand ho) (reads_operators hr)
termination_by 5 * ts.length

theorem reads_operators {region : Region} {power : Nat} {left : Node} {ts : Tokens} {n : Node}
    {r : NoMore ts} (h : operators region power left ts = .ok (n, r)) :
    Reads (.operators region power left) ts (.node n) r.1 := by
  rw [operators] at h
  split at h
  · next hv =>
    cases h
    have : Reads (.operators region power left) ts (.node left) (visible region ts) :=
      .done (by rw [hv]; intro t ht; cases ht)
    rw [hv] at this
    exact this
  · next t ts₁ hv =>
    have hlt := visible_cons_length hv
    split at h
    · next hp =>
      cases h
      have : Reads (.operators region power left) ts (.node left) (visible region ts) :=
        .done (by rw [hv]; intro u hu; cases hu; exact hp)
      rw [hv] at this
      exact this
    · next hp =>
      obtain ⟨⟨left', ts₂, h₂⟩, hf, h⟩ := bind_eq_ok h
      obtain ⟨⟨m, rest, h₃⟩, ho, h⟩ := bind_eq_ok h
      cases h
      exact .more hv (Nat.lt_of_not_le hp) (reads_operatorForm hf) (reads_operators ho)
termination_by 5 * ts.length

theorem reads_operand {region : Region} {t : Token} {ts : Tokens} {n : Node}
    {r : NoMore ts} (h : operand region t ts = .ok (n, r)) :
    Reads (.operand region t) ts (.node n) r.1 := by
  have hskip := skipBreaks_length ts
  have hliteral : isLiteral t.lexeme = true → n = .constant t.lexeme.value t.position →
      r.1 = ts → Reads (.operand region t) ts (.node n) r.1 := by
    intro hl hn hr
    rw [hn, hr]
    exact .literal hl
  rw [operand] at h
  split at h
  · next m ht => cases h; exact hliteral (by rw [ht]; rfl) (by rw [ht]; rfl) rfl
  · next x ht => cases h; exact hliteral (by rw [ht]; rfl) (by rw [ht]; rfl) rfl
  · next s ht => cases h; exact hliteral (by rw [ht]; rfl) (by rw [ht]; rfl) rfl
  · next c ht => cases h; exact hliteral (by rw [ht]; rfl) (by rw [ht]; rfl) rfl
  · next name ht => cases h; exact .symbol ht
  · next name ht =>
    split at h
    · cases h
    · next power hp =>
      obtain ⟨⟨inner, rest, h₁⟩, hi, h⟩ := bind_eq_ok h
      cases h
      exact .prefixed ht hp (reads_expression hi)
  · next ht =>
    obtain ⟨⟨inner, ts₁, h₁⟩, hi, h⟩ := bind_eq_ok h
    obtain ⟨⟨rest, h₂⟩, he, h⟩ := bind_eq_ok h
    obtain ⟨p, hv⟩ := expect_lexeme he eq_rightParen
    cases h
    exact .group ht (reads_expression hi) hv
  · next ht =>
    obtain ⟨⟨body, rest, h₁⟩, hb, h⟩ := bind_eq_ok h
    cases h
    exact .block ht (reads_statements hb)
  · next ht =>
    obtain ⟨⟨c, ts₁, h₁⟩, hc, h⟩ := bind_eq_ok h
    have := skipBreaks_length ts₁
    obtain ⟨⟨body, ts₂, h₂⟩, hb, h⟩ := bind_eq_ok h
    dsimp only at h
    split at h
    · next he =>
      cases h
      exact .conditional ht (reads_condition hc) (reads_expression hb)
        (Option.map_eq_none_iff.mpr he)
    · next ts₃ h₃ he =>
      have := skipBreaks_length ts₃
      obtain ⟨⟨other, rest, h₄⟩, ho, h⟩ := bind_eq_ok h
      cases h
      exact .alternative ht (reads_condition hc) (reads_expression hb) (afterElse?_eq he)
        (reads_expression ho)
  · next ht =>
    obtain ⟨⟨c, ts₁, h₁⟩, hc, h⟩ := bind_eq_ok h
    have := skipBreaks_length ts₁
    obtain ⟨⟨body, rest, h₂⟩, hb, h⟩ := bind_eq_ok h
    cases h
    exact .whileLoop ht (reads_condition hc) (reads_expression hb)
  · next ht =>
    obtain ⟨⟨ts₁, h₁⟩, hopen, h⟩ := bind_eq_ok h
    obtain ⟨⟨name, q, ts₂, h₂⟩, hname, h⟩ := bind_eq_ok h
    obtain ⟨⟨ts₃, h₃⟩, hin, h⟩ := bind_eq_ok h
    obtain ⟨⟨sequence, ts₄, h₄⟩, hs, h⟩ := bind_eq_ok h
    obtain ⟨⟨ts₅, h₅⟩, hclose, h⟩ := bind_eq_ok h
    have := skipBreaks_length ts₅
    obtain ⟨⟨body, rest, h₆⟩, hb, h⟩ := bind_eq_ok h
    obtain ⟨p, hopen⟩ := expect_lexeme hopen eq_leftParen
    obtain ⟨p', hin⟩ := expect_lexeme hin eq_inWord
    obtain ⟨p'', hclose⟩ := expect_lexeme hclose eq_rightParen
    cases h
    exact .forLoop ht hopen (expectSymbol_inv hname) hin (reads_expression hs) hclose
      (reads_expression hb)
  · next ht =>
    obtain ⟨⟨body, rest, h₁⟩, hb, h⟩ := bind_eq_ok h
    cases h
    exact .repeatLoop ht (reads_expression hb)
  · next ht =>
    obtain ⟨⟨ts₁, h₁⟩, hopen, h⟩ := bind_eq_ok h
    obtain ⟨⟨items, ts₂, h₂⟩, hi, h⟩ := bind_eq_ok h
    have := skipBreaks_length ts₂
    obtain ⟨⟨body, rest, h₃⟩, hb, h⟩ := bind_eq_ok h
    obtain ⟨p, hopen⟩ := expect_lexeme hopen eq_leftParen
    cases h
    rw [hopen]
    exact .definition ht hopen (reads_parameters hi) (reads_expression hb)
  · next ht => cases h; exact .breakJump ht
  · next ht => cases h; exact .nextJump ht
  · cases h
termination_by 5 * ts.length + 4

theorem reads_condition {region : Region} {ts : Tokens} {n : Node} {r : Fewer ts}
    (h : condition region ts = .ok (n, r)) :
    Reads (.condition region) ts (.node n) r.1 := by
  rw [condition] at h
  obtain ⟨⟨ts₁, h₁⟩, hopen, h⟩ := bind_eq_ok h
  obtain ⟨⟨m, ts₂, h₂⟩, he, h⟩ := bind_eq_ok h
  obtain ⟨⟨rest, h₃⟩, hclose, h⟩ := bind_eq_ok h
  obtain ⟨p, hopen⟩ := expect_lexeme hopen eq_leftParen
  obtain ⟨q, hclose⟩ := expect_lexeme hclose eq_rightParen
  cases h
  exact .condition hopen (reads_expression he) hclose
termination_by 5 * ts.length + 1

theorem reads_statements {opening : Position} {ts : Tokens} {ns : List Node} {r : Fewer ts}
    (h : statements opening ts = .ok (ns, r)) :
    Reads (.statements opening) ts (.nodes ns) r.1 := by
  have hskip := skipSeparators_length ts
  rw [statements] at h
  split at h
  · cases h
  · next p rest hs => cases h; exact .blockEnd hs
  · next t ts₁ hne hs =>
    have hlength : ts₁.length + 1 ≤ ts.length := by rw [hs] at hskip; exact hskip
    obtain ⟨⟨n, ts₂, h₂⟩, he, h⟩ := bind_eq_ok h
    have hlt : ts₂.length < ts.length := Nat.lt_of_lt_of_le h₂ hlength
    dsimp only at h
    split at h
    · next hends =>
      obtain ⟨⟨more, rest, h₃⟩, hm, h⟩ := bind_eq_ok h
      cases h
      refine .statement hs ?_ (reads_expression he) hends (reads_statements hm)
      intro ht
      obtain ⟨l, p⟩ := t
      exact hne p (by rw [show l = .rightBrace from ht])
    · cases h
termination_by 5 * ts.length + 1

theorem reads_parameters {ts : Tokens} {ps : List (Param Node)} {r : Fewer ts}
    (h : parameters ts = .ok (ps, r)) : Reads .parameters ts (.params ps) r.1 := by
  rw [parameters] at h
  split at h
  · next hv => cases h; exact .noParameters hv
  · next hne => exact .someParameters hne (reads_parameterList h)
termination_by 5 * ts.length + 2

theorem reads_parameterList {seen : List String} {ts : Tokens} {ps : List (Param Node)}
    {r : Fewer ts} (h : parameterList seen ts = .ok (ps, r)) :
    Reads (.parameterList seen) ts (.params ps) r.1 := by
  rw [parameterList] at h
  obtain ⟨⟨name, p, ts₁, h₁⟩, hname, h⟩ := bind_eq_ok h
  have hv := expectSymbol_inv hname
  dsimp only at h
  split at h
  · cases h
  · next hseen =>
    obtain ⟨⟨default, ts₂, h₂⟩, hd, h⟩ := bind_eq_ok h
    dsimp only at h
    split at h
    · next hclose =>
      cases h
      exact .lastParameter hv hseen (reads_parameterDefault hd) hclose
    · next q ts₃ hcomma =>
      have := visible_cons_length hcomma
      obtain ⟨⟨more, rest, h₃⟩, hm, h⟩ := bind_eq_ok h
      cases h
      exact .parameter hv hseen (reads_parameterDefault hd) hcomma (reads_parameterList hm)
    · cases h
termination_by 5 * ts.length + 1

theorem reads_parameterDefault {ts : Tokens} {n : Node} {r : NoMore ts}
    (h : parameterDefault ts = .ok (n, r)) : Reads .parameterDefault ts (.node n) r.1 := by
  rw [parameterDefault] at h
  split at h
  · next p ts₁ hv =>
    have := visible_cons_length hv
    obtain ⟨⟨default, rest, h₁⟩, hd, h⟩ := bind_eq_ok h
    cases h
    exact .withDefault hv (reads_expression hd)
  · next hne => cases h; exact .noDefault hne
termination_by 5 * ts.length + 1

theorem reads_operatorForm {region : Region} {t : Token} {left : Node} {ts : Tokens} {n : Node}
    {r : NoMore ts} (h : operatorForm region t left ts = .ok (n, r)) :
    Reads (.operatorForm region t left) ts (.node n) r.1 := by
  have hskip := skipBreaks_length ts
  rw [operatorForm] at h
  split at h
  · next ht =>
    obtain ⟨⟨args, rest, h₁⟩, ha, h⟩ := bind_eq_ok h
    cases h
    exact .application ht (reads_arguments ha)
  · next ht =>
    obtain ⟨⟨args, rest, h₁⟩, ha, h⟩ := bind_eq_ok h
    cases h
    exact .index ht (reads_arguments ha)
  · next ht =>
    obtain ⟨⟨args, ts₁, h₁⟩, ha, h⟩ := bind_eq_ok h
    obtain ⟨⟨rest, h₂⟩, hclose, h⟩ := bind_eq_ok h
    obtain ⟨p, hclose⟩ := expect_lexeme hclose eq_rightBracket
    cases h
    exact .doubleIndex ht (reads_arguments ha) hclose
  · next name ht =>
    split at h
    · next hm =>
      obtain ⟨⟨right, rest, h₁⟩, hr, h⟩ := bind_eq_ok h
      obtain ⟨u, hs, hu⟩ := member_inv hr
      cases h
      exact .member ht hm hs hu
    · next hm =>
      split at h
      · cases h
      · next hq =>
        split at h
        · cases h
        · next binding hb =>
          obtain ⟨⟨right, rest, h₁⟩, hr, h⟩ := bind_eq_ok h
          obtain ⟨m, hcombine, h⟩ := bind_eq_ok h
          cases h
          refine .binary ht ?_ ?_ hb (reads_expression hr) hcombine
          · intro hmem
            rcases (by simpa [Operator.members] using hmem) with rfl | rfl
            · exact hm (.inl rfl)
            · exact hm (.inr (.inl rfl))
          · intro hmem
            exact hq (by simpa [Operator.qualifiers] using hmem)
  · cases h
termination_by 5 * ts.length + 4

theorem reads_arguments {closing : Closing} {ts : Tokens} {as : List (Arg Node)} {r : Fewer ts}
    (h : arguments closing ts = .ok (as, r)) :
    Reads (.arguments closing) ts (.args as) r.1 := by
  rw [arguments] at h
  split at h
  · cases h
  · next t ts₁ hv =>
    split at h
    · next ha => cases h; exact .noArguments hv ha
    · next ha => exact .someArguments hv (Bool.not_eq_true _ ▸ ha) (reads_argumentList h)
termination_by 5 * ts.length + 3

theorem reads_argumentList {closing : Closing} {ts : Tokens} {as : List (Arg Node)}
    {r : Fewer ts} (h : argumentList closing ts = .ok (as, r)) :
    Reads (.argumentList closing) ts (.args as) r.1 := by
  rw [argumentList] at h
  obtain ⟨⟨a, ts₁, h₁⟩, ha, h⟩ := bind_eq_ok h
  dsimp only at h
  split at h
  · cases h
  · next t ts₂ hv =>
    have := visible_cons_length hv
    split at h
    · next hclose => cases h; exact .lastArgument (reads_argument ha) hv hclose
    · split at h
      · next hcomma =>
        obtain ⟨⟨more, rest, h₂⟩, hm, h⟩ := bind_eq_ok h
        obtain ⟨l, p⟩ := t
        obtain rfl : l = .comma := hcomma
        cases h
        exact .argument (reads_argument ha) hv (reads_argumentList hm)
      · cases h
termination_by 5 * ts.length + 2

theorem reads_argument {closing : Closing} {ts : Tokens} {a : Arg Node} {r : Fewer ts}
    (h : argument closing ts = .ok (a, r)) :
    Reads (.argument closing) ts (.args [a]) r.1 := by
  rw [argument] at h
  split at h
  · cases h
  · next t ts₁ hv =>
    have hlt := visible_cons_length hv
    split at h
    · cases h
    · next hends =>
      split at h
      · next hname =>
        obtain ⟨⟨value, rest, h₁⟩, hval, h⟩ := bind_eq_ok h
        cases h
        exact .unnamed hv (Bool.not_eq_true _ ▸ hends) (Option.map_eq_none_iff.mpr hname)
          (reads_expression hval)
      · next name ts₂ h₂ hname =>
        split at h
        · cases h
        · next hfound =>
          obtain ⟨⟨value, rest, h₃⟩, hval, h⟩ := bind_eq_ok h
          dsimp only at h
          split at h
          · cases h
          · next hempty =>
            cases h
            exact .named hv (Bool.not_eq_true _ ▸ hends) (afterName?_eq hname) hempty
              (Bool.not_eq_true _ ▸ hfound) (reads_expression hval)
termination_by 5 * ts.length + 1

end

/-- An expression is read exactly where it can be derived. -/
theorem expression_eq_ok_iff {region : Region} {power : Nat} {ts : Tokens} {n : Node}
    {r : Fewer ts} :
    expression region power ts = .ok (n, r) ↔
      Reads (.expression region power) ts (.node n) r.1 := by
  constructor
  · exact reads_expression
  · intro h
    obtain ⟨hr, he⟩ := h.succeeds
    exact he

/-- A program without expressions. -/
theorem program_of_nil {ts : Tokens} (h : skipSeparators ts = []) : program ts = .ok [] := by
  rw [program]
  split
  · rfl
  · next heq => rw [h] at heq; cases heq

/-- A program is its first expression and the program after it. -/
theorem program_of_expression {ts rest : Tokens} {t : Token} {n : Node}
    {r : Fewer (t :: rest)} {ns : List Node} (hskip : skipSeparators ts = t :: rest)
    (h : expression .top 0 (t :: rest) = .ok (n, r)) (hends : endsExpression r.1 = true)
    (hrest : program r.1 = .ok ns) : program ts = .ok (n :: ns) := by
  rw [program]
  split
  · next heq => rw [hskip] at heq; cases heq
  · next t' rest' heq =>
    rw [hskip] at heq
    cases heq
    rw [h]
    obtain ⟨r, hr⟩ := r
    simp only [ok_bind, hends, if_true, hrest]
    rfl

/-- A program is read exactly where it can be derived. -/
theorem program_eq_ok_iff {ts : Tokens} {ns : List Node} :
    program ts = .ok ns ↔ ReadsProgram ts ns := by
  constructor
  · intro h
    fun_induction program ts generalizing ns with
    | case1 ts _ hnil => cases h; exact .nil hnil
    | case2 ts hskip t rest hfirst hlength ih =>
      obtain ⟨⟨n, r, hr⟩, hn, h⟩ := bind_eq_ok h
      dsimp only at h
      split at h
      · next hends =>
        obtain ⟨more, hmore, h⟩ := bind_eq_ok h
        cases h
        exact .cons hfirst (expression_eq_ok_iff.mp hn) hends (ih r hr hmore)
      · cases h
  · intro h
    induction h with
    | nil hnil => exact program_of_nil hnil
    | cons hfirst hexpression hends _ ih =>
      obtain ⟨hfewer, hexpression⟩ := hexpression.succeeds
      exact program_of_expression hfirst hexpression hends ih

end RCode.Parser
