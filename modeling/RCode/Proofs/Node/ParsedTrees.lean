import RCode.Proofs.Node.Leftover
import RCode.Proofs.Node.ParserDerivation
import RCode.Proofs.Token.WellFormed
import RCode.Source

/-!
# Parsed trees are well formed

The parser makes well-formed trees of well-formed tokens (`Reads.wellFormed`), so every program that
can be read is well formed (`Source.program_wellFormed`). The proof is an induction over derivations:
what has been read so far is well formed, and so are the tokens that are left.
-/

set_option autoImplicit false

namespace RCode

namespace Node

/-- A well-formed tree that can stand anywhere in a tree. -/
structure IsExpression (n : Node) : Prop where
  wellFormed : n.WellFormed
  isMissing_eq : n.isMissing = false
  isParams_eq : n.isParams = false

theorem wellFormed_unnamed {ns : List Node} (h : ∀ n ∈ ns, n.IsExpression) :
    WellFormedArgs (ns.map fun n => ⟨none, n⟩) := by
  induction ns with
  | nil => trivial
  | cons n ns ih =>
    obtain ⟨hn, hns⟩ := List.forall_mem_cons.mp h
    exact ⟨nofun, hn.isMissing_eq, hn.wellFormed, ih hns⟩

theorem isExpression_call {head : Node} (hhead : head.IsExpression) {args : List (Arg Node)}
    (hargs : WellFormedArgs args) (p : Position) : (Node.call head args p).IsExpression :=
  ⟨⟨hhead.isMissing_eq, hhead.isParams_eq, hhead.wellFormed, hargs⟩, rfl, rfl⟩

theorem isExpression_symbol {name : String} (h : name ≠ "") (p : Position) :
    (Node.symbol name p).IsExpression :=
  ⟨h, rfl, rfl⟩

end Node

namespace Parser

open Node

/-- The goal carries well-formed parts. -/
def Goal.WellFormed : Goal → Prop
  | .operators _ _ left => left.IsExpression
  | .operand _ first => first.lexeme.WellFormed
  | .operatorForm _ _ left => left.IsExpression
  | _ => True

/-- What is read for the goal is well formed. A default may be missing. -/
def Goal.Yields : Goal → Phrase → Prop
  | .parameterDefault, .node n => n.WellFormed
  | .parameterList seen, .params items =>
    (items.map Param.name).Nodup ∧ (∀ name ∈ seen, name ∉ items.map Param.name) ∧
      WellFormedParams items
  | _, .node n => n.IsExpression
  | _, .nodes ns => ∀ n ∈ ns, n.IsExpression
  | _, .args args => WellFormedArgs args
  | _, .params items => (items.map Param.name).Nodup ∧ WellFormedParams items

/-! ## Tokens -/

theorem wellFormed_skipBreaks {ts : Tokens} (h : WellFormedTokens ts) :
    WellFormedTokens (skipBreaks ts) :=
  h.suffix (skipBreaks_suffix ts)

theorem wellFormed_skipSeparators {ts : Tokens} (h : WellFormedTokens ts) :
    WellFormedTokens (skipSeparators ts) :=
  h.suffix (skipSeparators_suffix ts)

theorem wellFormed_visible {region : Region} {ts : Tokens} (h : WellFormedTokens ts) :
    WellFormedTokens (visible region ts) :=
  h.suffix (visible_suffix region ts)

/-- The first token and the others. -/
theorem wellFormed_split {ts rest : Tokens} {t : Token} (h : WellFormedTokens ts)
    (heq : ts = t :: rest) : t.lexeme.WellFormed ∧ WellFormedTokens rest := by
  subst heq
  exact List.forall_mem_cons.mp h

/-! ## Operators -/

/-- No operator has an empty name. -/
theorem ne_empty_of_prefixPower {name : String} {power : Nat}
    (h : Operator.prefix? name = some power) : name ≠ "" := by
  rintro rfl
  have : Operator.prefix? "" = none := by decide
  rw [this] at h
  cases h

theorem ne_empty_of_binary {name : String} {b : Operator.Binding}
    (h : Operator.binary? name = some b) : name ≠ "" := by
  rintro rfl
  have : Operator.binary? "" = none := by decide
  rw [this] at h
  cases h

theorem ne_empty_of_takesMember {name : String} {left : Node} (h : TakesMember name left) :
    name ≠ "" := by
  rcases h with rfl | rfl | ⟨rfl | rfl, -⟩ <;> decide

theorem isExpression_member {u : Token} {n : Node} (h : memberNode? u = some n)
    (hu : u.lexeme.WellFormed) : n.IsExpression := by
  obtain ⟨l, p⟩ := u
  cases l with
  | symbol name => cases h; exact isExpression_symbol hu p
  | text s => cases h; exact ⟨rfl, rfl, rfl⟩
  | _ => cases h

theorem isExpression_literal {l : Lexeme} (h : isLiteral l = true) (hl : l.WellFormed)
    (p : Position) : (Node.constant l.value p).IsExpression := by
  refine ⟨?_, rfl, rfl⟩
  cases l with
  | integer n => exact decide_eq_true hl
  | double | text => rfl
  | constant k => cases k <;> rfl
  | _ => cases h

theorem isExpression_keywordCall {word : String} (hword : word ≠ "") (p : Position)
    {ns : List Node} (h : ∀ n ∈ ns, n.IsExpression) : (keywordCall word p ns).IsExpression :=
  isExpression_call (isExpression_symbol hword p) (wellFormed_unnamed h) p

theorem isExpression_combine {name : String} (hname : name ≠ "") {p : Position}
    {left right n : Node} (hleft : left.IsExpression) (hright : right.IsExpression)
    (h : combine name p left right = .ok n) : n.IsExpression := by
  have hcall : ∀ {head : String} {a b : Node}, head ≠ "" → a.IsExpression → b.IsExpression →
      (Node.call (.symbol head p) [⟨none, a⟩, ⟨none, b⟩] left.position).IsExpression := by
    intro head a b hhead ha hb
    have hargs : WellFormedArgs [⟨none, a⟩, ⟨none, b⟩] :=
      wellFormed_unnamed (List.forall_mem_cons.mpr ⟨ha, List.forall_mem_singleton.mpr hb⟩)
    exact isExpression_call (isExpression_symbol hhead p) hargs _
  cases combine_eq_ok_iff.mp h with
  | reversed right hreverses =>
    rcases hreverses with ⟨-, rfl⟩ | ⟨-, rfl⟩
    · exact hcall (by decide) hright hleft
    · exact hcall (by decide) hright hleft
  | @piped head args q _ =>
    obtain ⟨hmissing, hparams, hhead, hargs⟩ := hright.wellFormed
    have hall : WellFormedArgs (⟨none, left⟩ :: args) :=
      ⟨nofun, hleft.isMissing_eq, hleft.wellFormed, hargs⟩
    exact isExpression_call ⟨hhead, hmissing, hparams⟩ hall q
  | kept right hother => exact hcall hname hleft hright

/-! ## Derivations -/

/-- The visible token that is read first, and the tokens after it. -/
theorem wellFormed_visible_split {region : Region} {ts rest : Tokens} {t : Token}
    (h : WellFormedTokens ts) (heq : visible region ts = t :: rest) :
    t.lexeme.WellFormed ∧ WellFormedTokens rest :=
  wellFormed_split (wellFormed_visible h) heq

/-- What the parser reads from well-formed tokens is well formed. -/
theorem Reads.wellFormed {g : Goal} {ts rest : Tokens} {r : Phrase} (h : Reads g ts r rest) :
    g.WellFormed → WellFormedTokens ts → g.Yields r ∧ WellFormedTokens rest := by
  induction h with
  | expression hv _ _ ihoperand ihoperators =>
    intro _ hts
    obtain ⟨ht, hts⟩ := wellFormed_visible_split hts hv
    obtain ⟨hleft, hts⟩ := ihoperand ht hts
    exact ihoperators hleft hts
  | done => exact fun hleft hts => ⟨hleft, wellFormed_visible hts⟩
  | more hv _ _ _ ihform ihoperators =>
    intro hleft hts
    obtain ⟨ht, hts⟩ := wellFormed_visible_split hts hv
    obtain ⟨hleft, hts⟩ := ihform hleft hts
    exact ihoperators hleft hts
  | literal hl => exact fun ht hts => ⟨isExpression_literal hl ht _, hts⟩
  | symbol heq =>
    intro ht hts
    rw [Goal.WellFormed, heq] at ht
    exact ⟨isExpression_symbol ht _, hts⟩
  | prefixed _ hp _ ih =>
    intro _ hts
    obtain ⟨hinner, hts⟩ := ih trivial (wellFormed_skipBreaks hts)
    exact ⟨isExpression_keywordCall (ne_empty_of_prefixPower hp) _ (List.forall_mem_singleton.mpr hinner),
      hts⟩
  | group _ _ hclose ih =>
    intro _ hts
    obtain ⟨hinner, hts⟩ := ih trivial hts
    exact ⟨isExpression_keywordCall (by decide) _ (List.forall_mem_singleton.mpr hinner),
      (wellFormed_visible_split hts hclose).2⟩
  | block _ _ ih =>
    intro _ hts
    obtain ⟨hbody, hts⟩ := ih trivial hts
    exact ⟨isExpression_keywordCall (by decide) _ hbody, hts⟩
  | conditional _ _ _ _ ihcondition ihbody =>
    intro _ hts
    obtain ⟨hcondition, hts⟩ := ihcondition trivial hts
    obtain ⟨hbody, hts⟩ := ihbody trivial (wellFormed_skipBreaks hts)
    refine ⟨isExpression_keywordCall (by decide) _ ?_, hts⟩
    exact List.forall_mem_cons.mpr ⟨hcondition, List.forall_mem_singleton.mpr hbody⟩
  | alternative _ _ _ helse _ ihcondition ihbody ihother =>
    intro _ hts
    obtain ⟨hcondition, hts⟩ := ihcondition trivial hts
    obtain ⟨hbody, hts⟩ := ihbody trivial (wellFormed_skipBreaks hts)
    obtain ⟨hother, hts⟩ := ihother trivial
      (wellFormed_skipBreaks (hts.suffix (suffix_of_afterElse helse)))
    refine ⟨isExpression_keywordCall (by decide) _ ?_, hts⟩
    exact List.forall_mem_cons.mpr ⟨hcondition,
      List.forall_mem_cons.mpr ⟨hbody, List.forall_mem_singleton.mpr hother⟩⟩
  | whileLoop _ _ _ ihcondition ihbody =>
    intro _ hts
    obtain ⟨hcondition, hts⟩ := ihcondition trivial hts
    obtain ⟨hbody, hts⟩ := ihbody trivial (wellFormed_skipBreaks hts)
    refine ⟨isExpression_keywordCall (by decide) _ ?_, hts⟩
    exact List.forall_mem_cons.mpr ⟨hcondition, List.forall_mem_singleton.mpr hbody⟩
  | forLoop _ hopen hname hin _ hclose _ ihsequence ihbody =>
    intro _ hts
    obtain ⟨-, hts⟩ := wellFormed_visible_split hts hopen
    obtain ⟨hname, hts⟩ := wellFormed_visible_split hts hname
    obtain ⟨-, hts⟩ := wellFormed_visible_split hts hin
    obtain ⟨hsequence, hts⟩ := ihsequence trivial hts
    obtain ⟨-, hts⟩ := wellFormed_visible_split hts hclose
    obtain ⟨hbody, hts⟩ := ihbody trivial (wellFormed_skipBreaks hts)
    refine ⟨isExpression_keywordCall (by decide) _ ?_, hts⟩
    exact List.forall_mem_cons.mpr ⟨isExpression_symbol hname _,
      List.forall_mem_cons.mpr ⟨hsequence, List.forall_mem_singleton.mpr hbody⟩⟩
  | repeatLoop _ _ ih =>
    intro _ hts
    obtain ⟨hbody, hts⟩ := ih trivial (wellFormed_skipBreaks hts)
    exact ⟨isExpression_keywordCall (by decide) _ (List.forall_mem_singleton.mpr hbody), hts⟩
  | @definition _ t _ _ _ _ p items body _ hopen _ _ ihparameters ihbody =>
    intro _ hts
    obtain ⟨-, hts⟩ := wellFormed_visible_split hts hopen
    obtain ⟨⟨hnames, hitems⟩, hts⟩ := ihparameters trivial hts
    obtain ⟨hbody, hts⟩ := ihbody trivial (wellFormed_skipBreaks hts)
    have hargs : WellFormedArgs [⟨none, .params items p⟩, ⟨none, body⟩] :=
      ⟨nofun, rfl, ⟨hnames, hitems⟩, wellFormed_unnamed (List.forall_mem_singleton.mpr hbody)⟩
    exact ⟨isExpression_call (isExpression_symbol (by decide) _) hargs _, hts⟩
  | breakJump | nextJump =>
    intro _ hts
    exact ⟨isExpression_keywordCall (by decide) _ (List.forall_mem_nil _), hts⟩
  | condition hopen _ hclose ih =>
    intro _ hts
    obtain ⟨hn, hts⟩ := ih trivial (wellFormed_visible_split hts hopen).2
    exact ⟨hn, (wellFormed_visible_split hts hclose).2⟩
  | blockEnd hskip =>
    intro _ hts
    exact ⟨List.forall_mem_nil _, (wellFormed_split (wellFormed_skipSeparators hts) hskip).2⟩
  | statement hskip _ _ _ _ ihstatement ihmore =>
    intro _ hts
    have hts := wellFormed_skipSeparators hts
    rw [hskip] at hts
    obtain ⟨hn, hts⟩ := ihstatement trivial hts
    obtain ⟨hmore, hts⟩ := ihmore trivial hts
    exact ⟨List.forall_mem_cons.mpr ⟨hn, hmore⟩, hts⟩
  | noParameters hclose =>
    intro _ hts
    exact ⟨⟨List.nodup_nil, trivial⟩, (wellFormed_visible_split hts hclose).2⟩
  | someParameters _ _ ih =>
    intro _ hts
    obtain ⟨⟨hnames, -, hitems⟩, hts⟩ := ih trivial hts
    exact ⟨⟨hnames, hitems⟩, hts⟩
  | lastParameter hv hseen _ hclose ih =>
    intro _ hts
    obtain ⟨hname, hts⟩ := wellFormed_visible_split hts hv
    obtain ⟨hdefault, hts⟩ := ih trivial hts
    refine ⟨⟨List.nodup_cons.mpr ⟨List.not_mem_nil, List.nodup_nil⟩, fun s hs hmem => ?_, hname,
      hdefault, trivial⟩, (wellFormed_visible_split hts hclose).2⟩
    obtain rfl := List.mem_singleton.mp hmem
    exact hseen hs
  | parameter hv hseen _ hcomma _ ihdefault ihmore =>
    intro _ hts
    obtain ⟨hname, hts⟩ := wellFormed_visible_split hts hv
    obtain ⟨hdefault, hts⟩ := ihdefault trivial hts
    obtain ⟨⟨hnames, hfresh, hitems⟩, hts⟩ :=
      ihmore trivial (wellFormed_visible_split hts hcomma).2
    refine ⟨⟨?_, fun s hs => ?_, hname, hdefault, hitems⟩, hts⟩
    · exact List.nodup_cons.mpr ⟨hfresh _ List.mem_cons_self, hnames⟩
    · rintro (- | ⟨-, hmem⟩)
      · exact hseen hs
      · exact hfresh s (List.mem_cons_of_mem _ hs) hmem
  | withDefault hv _ ih =>
    intro _ hts
    obtain ⟨hdefault, hts⟩ := ih trivial (wellFormed_visible_split hts hv).2
    exact ⟨hdefault.wellFormed, hts⟩
  | noDefault => exact fun _ hts => ⟨trivial, hts⟩
  | application _ _ ih =>
    intro hleft hts
    obtain ⟨hargs, hts⟩ := ih trivial hts
    exact ⟨isExpression_call hleft hargs _, hts⟩
  | index _ _ ih =>
    intro hleft hts
    obtain ⟨hargs, hts⟩ := ih trivial hts
    refine ⟨isExpression_call (isExpression_symbol (by decide) _) ?_ _, hts⟩
    exact ⟨nofun, hleft.isMissing_eq, hleft.wellFormed, hargs⟩
  | doubleIndex _ _ hclose ih =>
    intro hleft hts
    obtain ⟨hargs, hts⟩ := ih trivial hts
    refine ⟨isExpression_call (isExpression_symbol (by decide) _) ?_ _,
      (wellFormed_visible_split hts hclose).2⟩
    exact ⟨nofun, hleft.isMissing_eq, hleft.wellFormed, hargs⟩
  | member _ htakes hskip hmember =>
    intro hleft hts
    obtain ⟨hu, hts⟩ := wellFormed_split (wellFormed_skipBreaks hts) hskip
    have hright := isExpression_member hmember hu
    refine ⟨isExpression_call (isExpression_symbol (ne_empty_of_takesMember htakes) _) ?_ _, hts⟩
    exact ⟨nofun, hleft.isMissing_eq, hleft.wellFormed,
      wellFormed_unnamed (List.forall_mem_singleton.mpr hright)⟩
  | binary _ _ _ hbinary _ hcombine ih =>
    intro hleft hts
    obtain ⟨hright, hts⟩ := ih trivial (wellFormed_skipBreaks hts)
    exact ⟨isExpression_combine (ne_empty_of_binary hbinary) hleft hright hcombine, hts⟩
  | noArguments hv => exact fun _ hts => ⟨trivial, (wellFormed_visible_split hts hv).2⟩
  | someArguments _ _ _ ih => exact fun _ hts => ih trivial hts
  | lastArgument _ hclose _ ih =>
    intro _ hts
    obtain ⟨harg, hts⟩ := ih trivial hts
    exact ⟨harg, (wellFormed_visible_split hts hclose).2⟩
  | argument _ hcomma _ iharg ihmore =>
    intro _ hts
    obtain ⟨⟨hname, hmissing, hvalue, -⟩, hts⟩ := iharg trivial hts
    obtain ⟨hmore, hts⟩ := ihmore trivial (wellFormed_visible_split hts hcomma).2
    exact ⟨⟨hname, hmissing, hvalue, hmore⟩, hts⟩
  | unnamed _ _ _ _ ih =>
    intro _ hts
    obtain ⟨hvalue, hts⟩ := ih trivial hts
    exact ⟨wellFormed_unnamed (List.forall_mem_singleton.mpr hvalue), hts⟩
  | named hv _ hafter hne _ _ ih =>
    intro _ hts
    have hrest := (wellFormed_visible_split hts hv).2
    obtain ⟨hvalue, hts⟩ := ih trivial (hrest.suffix (suffix_of_afterName hafter))
    exact ⟨⟨fun h => hne (Option.some.inj h), hvalue.isMissing_eq, hvalue.wellFormed, trivial⟩, hts⟩

/-- The trees of a program are well formed. -/
theorem program_wellFormed {ts : Tokens} (hts : WellFormedTokens ts) {ns : List Node}
    (h : program ts = .ok ns) : ∀ n ∈ ns, n.WellFormed := by
  replace h := program_eq_ok_iff.mp h
  induction h with
  | nil => exact List.forall_mem_nil _
  | cons hskip hexpression _ _ ih =>
    have hstart := wellFormed_skipSeparators hts
    rw [hskip] at hstart
    obtain ⟨hn, hrest⟩ := hexpression.wellFormed trivial hstart
    exact List.forall_mem_cons.mpr ⟨hn.wellFormed, ih hrest⟩

end Parser

namespace Source

/-- A source has a program if its text splits into tokens that are read as the program. -/
theorem program_eq_ok_iff {s : Source} {ns : List Node} :
    s.program = .ok ns ↔
      ∃ t, TokenText.ofText s.text = .ok t ∧ Parser.program t.tokens = .ok ns := by
  have hbind : s.program = s.tokens >>= programOf := rfl
  rw [hbind, bind_eq_ok_iff]
  constructor
  · rintro ⟨t, ht, hns⟩
    exact ⟨t, mapError_eq_ok_iff.mp ht, mapError_eq_ok_iff.mp hns⟩
  · rintro ⟨t, ht, hns⟩
    exact ⟨t, mapError_eq_ok_iff.mpr ht, mapError_eq_ok_iff.mpr hns⟩

/-- The program of a source is well formed. -/
theorem program_wellFormed {s : Source} {ns : List Node} (h : s.program = .ok ns) :
    ∀ n ∈ ns, n.WellFormed := by
  obtain ⟨t, htokens, hns⟩ := program_eq_ok_iff.mp h
  exact Parser.program_wellFormed (TokenText.wellFormed htokens) hns

end Source

end RCode
