import RCode.Proofs.Node.Leftover
import RCode.Proofs.Node.ParsedTrees
import RCode.Proofs.Node.Traversal
import RCode.Proofs.Node.Writable
import RCode.Proofs.Token.Order
import RCode.Proofs.Token.Unsigned

/-!
# Where parsed trees come from

Every part of a parsed tree stands at a token: `Node.From` describes the trees that can be made of
given tokens, with parameters only in function definitions and the missing marker only in the place
of a default. Without pipes, a call moreover stands where its first part stands (`Node.Ordered`). Both
are inductions over derivations.
-/

set_option autoImplicit false

namespace RCode

/-! ## Trees made of tokens -/

/-- The operators that assign to the right, and the names of the calls they make. -/
def Lexeme.Reverses (l : Lexeme) (name : String) : Prop :=
  l = .operator "->" ∧ name = "<-" ∨ l = .operator "->>" ∧ name = "<<-"

namespace Node

/-- The tree is made of the tokens: each of its parts stands at a token, a constant at a token of its
value and a symbol at a token of its name. -/
inductive From (ts : List Token) : Node → Prop where
  | constant {t : Token} : t ∈ ts → t.lexeme.value.isLiteral = true →
      t.lexeme.value.isBelowZero = false → From ts (.constant t.lexeme.value t.position)
  | symbol {t : Token} {name : String} : t ∈ ts → t.lexeme.value = .text name →
      From ts (.symbol name t.position)
  | call {t : Token} {head : Node} {args : List (Arg Node)} : t ∈ ts →
      From ts head → (∀ a ∈ args, From ts a.value) → From ts (.call head args t.position)
  /-- Only the head of such an assignment has another name than its token. -/
  | reversed {t u : Token} {name : String} {args : List (Arg Node)} : t ∈ ts → u ∈ ts →
      u.lexeme.Reverses name → (∀ a ∈ args, From ts a.value) →
        From ts (.call (.symbol name u.position) args t.position)
  | definition {t u : Token} {items : List (Param Node)} {body : Node} : t ∈ ts → u ∈ ts →
      t.lexeme.value = .text "function" → (items.map Param.name).Nodup →
        (∀ i ∈ items, i.default.isMissing = false → From ts i.default) → From ts body →
          From ts (.call (.symbol "function" t.position)
            [⟨none, .params items u.position⟩, ⟨none, body⟩] t.position)

variable {ts : List Token}

theorem From.position {n : Node} (h : From ts n) : ∃ t ∈ ts, t.position = n.position := by
  cases h with
  | constant ht | symbol ht | call ht | reversed ht | definition ht => exact ⟨_, ht, rfl⟩

theorem from_unnamed {ns : List Node} (h : ∀ n ∈ ns, From ts n) :
    ∀ a ∈ ns.map (Arg.mk none), From ts a.value := by
  intro a ha
  obtain ⟨n, hn, rfl⟩ := List.mem_map.mp ha
  exact h n hn

end Node

namespace Parser

open Node

variable {us : Tokens}

theorem from_keywordCall {t : Token} {word : String} {ns : List Node} (ht : t ∈ us)
    (hword : t.lexeme.value = .text word) (h : ∀ n ∈ ns, From us n) :
    From us (keywordCall word t.position ns) :=
  .call ht (.symbol ht hword) (from_unnamed h)

theorem from_member {u : Token} {n : Node} (hu : u ∈ us) (h : memberNode? u = some n) :
    From us n := by
  obtain ⟨l, p⟩ := u
  cases l with
  | symbol name => cases h; exact .symbol hu rfl
  | text s => cases h; exact .constant (t := ⟨.text s, p⟩) hu rfl rfl
  | _ => cases h

theorem from_combine {t : Token} {operator : String} {left right n : Node} (ht : t ∈ us)
    (hname : t.lexeme = .operator operator) (hleft : From us left) (hright : From us right)
    (h : combine operator t.position left right = .ok n) : From us n := by
  obtain ⟨u, hu, hposition⟩ := hleft.position
  have hboth : ∀ {a b : Node}, From us a → From us b →
      ∀ arg ∈ [a, b].map (Arg.mk none), From us arg.value := fun ha hb =>
    from_unnamed (List.forall_mem_cons.mpr ⟨ha, List.forall_mem_singleton.mpr hb⟩)
  cases combine_eq_ok_iff.mp h with
  | reversed right hreverses =>
    have hlexeme : ∀ {name}, Parser.Reverses operator name → t.lexeme.Reverses name := by
      rintro _ (⟨rfl, rfl⟩ | ⟨rfl, rfl⟩)
      · exact .inl ⟨hname, rfl⟩
      · exact .inr ⟨hname, rfl⟩
    rw [← hposition]
    exact .reversed hu ht (hlexeme hreverses) (hboth hright hleft)
  | piped =>
    cases hright with
    | call hq hhead hargs => exact .call hq hhead (List.forall_mem_cons.mpr ⟨hleft, hargs⟩)
    | reversed hq hv hreverses hargs =>
      exact .reversed hq hv hreverses (List.forall_mem_cons.mpr ⟨hleft, hargs⟩)
    | definition => exact absurd rfl ‹_›
  | kept right hother =>
    rw [← hposition]
    refine .call hu (.symbol ht ?_) (hboth hleft hright)
    rw [hname]
    rfl

/-- What the goal has taken is made of the tokens. -/
def Goal.From (us : Tokens) : Goal → Prop
  | .operators _ _ left => left.From us
  | .operand _ first => first ∈ us
  | .operatorForm _ operator left => operator ∈ us ∧ left.From us
  | _ => True

/-- What is read for the goal is made of the tokens. A default may be missing. -/
def Goal.MakesFrom (us : Tokens) : Goal → Phrase → Prop
  | .parameterDefault, .node n => n.isMissing = false → n.From us
  | _, .node n => n.From us
  | _, .nodes ns => ∀ n ∈ ns, n.From us
  | _, .args as => ∀ a ∈ as, a.value.From us
  | _, .params items => ∀ i ∈ items, i.default.isMissing = false → i.default.From us

/-- What the parser reads from some of the tokens is made of the tokens. -/
theorem Reads.from_tokens {g : Goal} {ts rest : Tokens} {r : Phrase} (h : Reads g ts r rest)
    (hwellFormed : WellFormedTokens us) (hunsigned : ∀ t ∈ us, t.lexeme.value.isBelowZero = false) :
    g.From us → ts ⊆ us → g.MakesFrom us r := by
  have hvisible : ∀ {region ts t rest}, visible region ts = t :: rest → ts ⊆ us →
      t ∈ us ∧ rest ⊆ us := fun hv hts =>
    List.cons_subset.mp (List.Subset.trans (suffix_of_visible hv).subset hts)
  have hskip : ∀ {ts}, ts ⊆ us → skipBreaks ts ⊆ us := fun hts =>
    List.Subset.trans (skipBreaks_suffix _).subset hts
  induction h with
  | expression hv hoperand _ ihoperand ihoperators =>
    intro _ hts
    obtain ⟨ht, hts₁⟩ := hvisible hv hts
    exact ihoperators (ihoperand ht hts₁) (List.Subset.trans hoperand.suffix.subset hts₁)
  | done => exact fun hleft _ => hleft
  | more hv _ hform _ ihform ihoperators =>
    intro hleft hts
    obtain ⟨ht, hts₁⟩ := hvisible hv hts
    exact ihoperators (ihform ⟨ht, hleft⟩ hts₁) (List.Subset.trans hform.suffix.subset hts₁)
  | literal hl =>
    intro ht _
    refine .constant ht ?_ (hunsigned _ ht)
    exact (isExpression_literal hl (hwellFormed _ ht) .nowhere).wellFormed
  | symbol heq => exact fun ht _ => .symbol ht (heq ▸ rfl)
  | prefixed heq _ _ ih =>
    intro ht hts
    exact from_keywordCall ht (heq ▸ rfl) (List.forall_mem_singleton.mpr (ih trivial (hskip hts)))
  | group heq _ _ ih =>
    intro ht hts
    exact from_keywordCall ht (heq ▸ rfl) (List.forall_mem_singleton.mpr (ih trivial hts))
  | block heq _ ih =>
    intro ht hts
    exact from_keywordCall ht (heq ▸ rfl) (ih trivial hts)
  | conditional heq hcondition _ _ ihcondition ihbody =>
    intro ht hts
    have hts₁ := List.Subset.trans hcondition.suffix.subset hts
    refine from_keywordCall ht (heq ▸ rfl) (List.forall_mem_cons.mpr ⟨ihcondition trivial hts, ?_⟩)
    exact List.forall_mem_singleton.mpr (ihbody trivial (hskip hts₁))
  | alternative heq hcondition hbody helse _ ihcondition ihbody ihother =>
    intro ht hts
    have hts₁ := hskip (List.Subset.trans hcondition.suffix.subset hts)
    have hts₃ := List.Subset.trans ((suffix_of_afterElse helse).trans hbody.suffix).subset hts₁
    refine from_keywordCall ht (heq ▸ rfl) (List.forall_mem_cons.mpr ⟨ihcondition trivial hts, ?_⟩)
    refine List.forall_mem_cons.mpr ⟨ihbody trivial hts₁, ?_⟩
    exact List.forall_mem_singleton.mpr (ihother trivial (hskip hts₃))
  | whileLoop heq hcondition _ ihcondition ihbody =>
    intro ht hts
    have hts₁ := List.Subset.trans hcondition.suffix.subset hts
    refine from_keywordCall ht (heq ▸ rfl) (List.forall_mem_cons.mpr ⟨ihcondition trivial hts, ?_⟩)
    exact List.forall_mem_singleton.mpr (ihbody trivial (hskip hts₁))
  | forLoop heq hopen hname hin hsequence hclose _ ihsequence ihbody =>
    intro ht hts
    obtain ⟨-, hts₁⟩ := hvisible hopen hts
    obtain ⟨hq, hts₂⟩ := hvisible hname hts₁
    obtain ⟨-, hts₃⟩ := hvisible hin hts₂
    obtain ⟨-, hts₅⟩ := hvisible hclose (List.Subset.trans hsequence.suffix.subset hts₃)
    refine from_keywordCall ht (heq ▸ rfl) (List.forall_mem_cons.mpr ⟨.symbol hq rfl, ?_⟩)
    refine List.forall_mem_cons.mpr ⟨ihsequence trivial hts₃, ?_⟩
    exact List.forall_mem_singleton.mpr (ihbody trivial (hskip hts₅))
  | repeatLoop heq _ ih =>
    intro ht hts
    exact from_keywordCall ht (heq ▸ rfl) (List.forall_mem_singleton.mpr (ih trivial (hskip hts)))
  | definition heq hopen hparameters _ ihparameters ihbody =>
    intro ht hts
    -- the list of parameters stands at its bracket, the definition at its keyword
    obtain ⟨hp, hts₁⟩ := hvisible hopen hts
    have hts₂ := List.Subset.trans hparameters.suffix.subset hts₁
    have hnames := (hparameters.wellFormed trivial fun t ht => hwellFormed t (hts₁ ht)).1.1
    exact .definition ht hp (heq ▸ rfl) hnames (ihparameters trivial hts₁)
      (ihbody trivial (hskip hts₂))
  | breakJump heq | nextJump heq =>
    exact fun ht _ => from_keywordCall ht (heq ▸ rfl) (List.forall_mem_nil _)
  | condition hopen _ _ ih => exact fun _ hts => ih trivial (hvisible hopen hts).2
  | blockEnd => exact fun _ _ => List.forall_mem_nil _
  | statement hseparators _ hstatement _ _ ihstatement ihmore =>
    intro _ hts
    have hts₁ := List.Subset.trans (suffix_of_skipSeparators hseparators).subset hts
    refine List.forall_mem_cons.mpr ⟨ihstatement trivial hts₁, ?_⟩
    exact ihmore trivial (List.Subset.trans hstatement.suffix.subset hts₁)
  | noParameters => exact fun _ _ => List.forall_mem_nil _
  | someParameters _ _ ih => exact fun _ hts => ih trivial hts
  | lastParameter hv _ _ _ ih =>
    exact fun _ hts => List.forall_mem_singleton.mpr (ih trivial (hvisible hv hts).2)
  | parameter hv _ hdefault hcomma _ ihdefault ihmore =>
    intro _ hts
    have hts₁ := (hvisible hv hts).2
    have hts₂ := List.Subset.trans hdefault.suffix.subset hts₁
    exact List.forall_mem_cons.mpr ⟨ihdefault trivial hts₁, ihmore trivial (hvisible hcomma hts₂).2⟩
  | withDefault hv _ ih => exact fun _ hts _ => ih trivial (hvisible hv hts).2
  | noDefault => exact fun _ _ hmissing => Bool.noConfusion hmissing
  | application _ _ ih =>
    rintro ⟨ht, hleft⟩ hts
    obtain ⟨u, hu, hposition⟩ := hleft.position
    exact hposition ▸ .call hu hleft (ih trivial hts)
  | index heq _ ih | doubleIndex heq _ _ ih =>
    rintro ⟨ht, hleft⟩ hts
    obtain ⟨u, hu, hposition⟩ := hleft.position
    exact hposition ▸ .call hu (.symbol ht (heq ▸ rfl))
      (List.forall_mem_cons.mpr ⟨hleft, ih trivial hts⟩)
  | member heq _ hskip hmember =>
    rintro ⟨ht, hleft⟩ hts
    obtain ⟨u, hu, hposition⟩ := hleft.position
    have hright := from_member
      (List.Subset.trans (suffix_of_skipBreaks hskip).subset hts List.mem_cons_self) hmember
    exact hposition ▸ .call hu (.symbol ht (heq ▸ rfl))
      (List.forall_mem_cons.mpr ⟨hleft, List.forall_mem_singleton.mpr hright⟩)
  | binary heq _ _ _ _ hcombine ih =>
    rintro ⟨ht, hleft⟩ hts
    exact from_combine ht heq hleft (ih trivial (hskip hts)) hcombine
  | noArguments => exact fun _ _ => List.forall_mem_nil _
  | someArguments _ _ _ ih => exact fun _ hts => ih trivial hts
  | lastArgument _ _ _ ih => exact fun _ hts => ih trivial hts
  | argument harg hcomma _ iharg ihmore =>
    intro _ hts
    have hts₁ := List.Subset.trans harg.suffix.subset hts
    refine List.forall_mem_cons.mpr ⟨?_, ihmore trivial (hvisible hcomma hts₁).2⟩
    exact iharg trivial hts _ List.mem_cons_self
  | unnamed _ _ _ _ ih => exact fun _ hts => List.forall_mem_singleton.mpr (ih trivial hts)
  | named hv _ hname _ _ _ ih =>
    intro _ hts
    have hts₁ := List.Subset.trans (suffix_of_afterName hname).subset (hvisible hv hts).2
    exact List.forall_mem_singleton.mpr (ih trivial hts₁)

end Parser

/-! ## Calls stand where their first part stands -/

namespace Node

/-- No part of the tree but missing markers stands before the position. -/
def NotBefore (p : Position) (n : Node) : Prop :=
  ∀ k ∈ n.preorder, k.isMissing = false → p ≤ k.position

/-- Every call in the tree stands where the first of its parts stands. -/
def Ordered (n : Node) : Prop :=
  ∀ m ∈ n.preorder, ∀ head args p, m = .call head args p → m.NotBefore p

theorem NotBefore.mono {p q : Position} {n : Node} (h : n.NotBefore q) (hpq : p ≤ q) :
    n.NotBefore p :=
  fun k hk hmissing => Position.le_trans hpq (h k hk hmissing)

/-- The tree is ordered, and no part of it stands before the position. -/
structure Behind (p : Position) (n : Node) : Prop where
  ordered : n.Ordered
  notBefore : n.NotBefore p

theorem Behind.mono {p q : Position} {n : Node} (h : n.Behind q) (hpq : p ≤ q) : n.Behind p :=
  ⟨h.ordered, h.notBefore.mono hpq⟩

theorem behind_leaf {n : Node} (hleaf : n.preorder = [n])
    (hcall : ∀ head args q, n ≠ .call head args q) {p : Position}
    (hp : n.isMissing = false → p ≤ n.position) : n.Behind p := by
  refine ⟨fun m hm head args q heq => ?_, fun k hk => ?_⟩
  · rw [hleaf, List.mem_singleton] at hm
    exact absurd (hm.symm.trans heq) (hcall head args q)
  · rw [hleaf, List.mem_singleton] at hk
    exact hk ▸ hp

theorem behind_missing (p : Position) : Node.missing.Behind p :=
  behind_leaf rfl (fun _ _ _ heq => by cases heq) nofun

theorem behind_constant (a : Atom) (p : Position) : (Node.constant a p).Behind p :=
  behind_leaf rfl (fun _ _ _ heq => by cases heq) fun _ => Position.le_refl p

theorem behind_symbol (name : String) (p : Position) : (Node.symbol name p).Behind p :=
  behind_leaf rfl (fun _ _ _ heq => by cases heq) fun _ => Position.le_refl p

theorem behind_params {items : List (Param Node)} {p : Position}
    (h : ∀ i ∈ items, i.default.Behind p) : (Node.params items p).Behind p := by
  constructor
  · refine forall_preorder_params.mpr ⟨fun _ _ _ hcall => (by cases hcall), fun i hi => ?_⟩
    exact (h i hi).ordered
  · exact forall_preorder_params.mpr ⟨fun _ => Position.le_refl p, fun i hi => (h i hi).notBefore⟩

/-- A call of parts that do not stand before it. -/
theorem behind_call {head : Node} {args : List (Arg Node)} {p : Position} (hhead : head.Behind p)
    (hargs : ∀ a ∈ args, a.value.Behind p) : (Node.call head args p).Behind p := by
  have hself : (Node.call head args p).NotBefore p :=
    forall_preorder_call.mpr ⟨fun _ => Position.le_refl p, hhead.notBefore,
      fun a ha => (hargs a ha).notBefore⟩
  refine ⟨forall_preorder_call.mpr ⟨?_, hhead.ordered, fun a ha => (hargs a ha).ordered⟩, hself⟩
  rintro _ _ _ ⟨⟩
  exact hself

theorem behind_unnamed {ns : List Node} {p : Position} (h : ∀ n ∈ ns, n.Behind p) :
    ∀ a ∈ ns.map (Arg.mk none), a.value.Behind p := by
  intro a ha
  obtain ⟨n, hn, rfl⟩ := List.mem_map.mp ha
  exact h n hn

end Node

namespace Parser

open Node

/-- The tokens come in the order of their positions, and none of them is a pipe. -/
structure Straight (ts : Tokens) : Prop where
  sorted : Sorted ts
  noPipe : ∀ t ∈ ts, t.lexeme ≠ .operator "|>"

theorem Straight.suffix {ts us : Tokens} (h : Straight ts) (hus : us <:+ ts) : Straight us :=
  ⟨h.sorted.sublist hus.sublist, fun t ht => h.noPipe t (hus.subset ht)⟩

/-- The first token and those after it. -/
theorem Straight.cons {t : Token} {ts : Tokens} (h : Straight (t :: ts)) :
    (∀ u ∈ ts, t.position ≤ u.position) ∧ Straight ts :=
  ⟨(List.pairwise_cons.mp h.sorted).1, h.suffix (List.suffix_cons t ts)⟩

theorem behind_keywordCall {word : String} {p : Position} {ns : List Node}
    (h : ∀ n ∈ ns, n.Behind p) : (keywordCall word p ns).Behind p :=
  behind_call (behind_symbol word p) (behind_unnamed h)

theorem behind_member {u : Token} {n : Node} (h : memberNode? u = some n) :
    n.Behind u.position := by
  obtain ⟨l, p⟩ := u
  cases l with
  | symbol name => cases h; exact behind_symbol name p
  | text s => cases h; exact behind_constant (.text s) p
  | _ => cases h

/-- A call of two operands stands where the left one does. -/
theorem behind_combine {name : String} {p : Position} {left right n : Node} (hpipe : name ≠ "|>")
    (hleft : left.Behind left.position) (hp : left.position ≤ p)
    (hright : right.Behind left.position) (h : combine name p left right = .ok n) :
    n.Behind n.position ∧ n.position = left.position := by
  have hcall : ∀ {head : String} {a b : Node}, a.Behind left.position → b.Behind left.position →
      (Node.call (.symbol head p) ([a, b].map (Arg.mk none)) left.position).Behind left.position :=
    fun ha hb => behind_call ((behind_symbol _ p).mono hp) (behind_unnamed
      (List.forall_mem_cons.mpr ⟨ha, List.forall_mem_singleton.mpr hb⟩))
  cases combine_eq_ok_iff.mp h with
  | reversed => exact ⟨hcall hright hleft, rfl⟩
  | piped => exact absurd rfl hpipe
  | kept => exact ⟨hcall hleft hright, rfl⟩

/-- The tokens that the goal has been given, the one included that it has taken. -/
def Goal.given : Goal → Tokens → Tokens
  | .operand _ first, ts => first :: ts
  | .operatorForm _ operator _, ts => operator :: ts
  | _, ts => ts

/-- The left operand of the goal stands where its first part stands, and before the tokens. -/
def Goal.LeftFirst : Goal → Tokens → Prop
  | .operators _ _ left, ts => left.Behind left.position ∧ ∀ t ∈ ts, left.position ≤ t.position
  | .operatorForm _ operator left, ts =>
    left.Behind left.position ∧ ∀ t ∈ operator :: ts, left.position ≤ t.position
  | _, _ => True

/-- The tree stands where its first part stands, and does not stand before the tokens. -/
def Heads (ts : Tokens) (n : Node) : Prop :=
  n.Behind n.position ∧ ∃ t ∈ ts, n.position = t.position

/-- The tree does not reach before the tokens. -/
def Within (ts : Tokens) (n : Node) : Prop :=
  ∀ p, (∀ t ∈ ts, p ≤ t.position) → n.Behind p

theorem Heads.within {ts : Tokens} {n : Node} (h : Heads ts n) : Within ts n := by
  obtain ⟨hn, t, ht, hposition⟩ := h
  exact fun p hp => hn.mono (hposition ▸ hp t ht)

theorem Within.mono {ts us : Tokens} {n : Node} (h : Within ts n) (hts : ts <:+ us) :
    Within us n :=
  fun p hp => h p fun t ht => hp t (hts.subset ht)

/-- Where the tree stands that is read for the goal. -/
def Goal.Places : Goal → Tokens → Phrase → Prop
  | .operators _ _ left, _, .node n => n.Behind n.position ∧ n.position = left.position
  | .operatorForm _ _ left, _, .node n => n.Behind n.position ∧ n.position = left.position
  | .operand _ first, _, .node n => n.Behind n.position ∧ n.position = first.position
  | .expression _ _, ts, .node n => Heads ts n
  | _, ts, .node n => Within ts n
  | _, ts, .nodes ns => ∀ n ∈ ns, Within ts n
  | _, ts, .args as => ∀ a ∈ as, Within ts a.value
  | _, ts, .params items => ∀ i ∈ items, Within ts i.default

/-- What the parser reads from sorted tokens without pipes is ordered. -/
theorem Reads.places {g : Goal} {ts rest : Tokens} {r : Phrase} (h : Reads g ts r rest) :
    Straight (g.given ts) → g.LeftFirst ts → g.Places ts r := by
  -- what is read behind a token does not reach before it
  have hlater : ∀ {p : Position} {ts us : Tokens} {n : Node}, (∀ t ∈ ts, p ≤ t.position) →
      us <:+ ts → Within us n → n.Behind p :=
    fun hp hus hn => hn _ fun t ht => hp t (hus.subset ht)
  induction h with
  | @expression region power ts ts₁ ts₂ rest t left n hv hoperand _ ihoperand ihoperators =>
    intro hs _
    have hsuffix := suffix_of_visible hv
    obtain ⟨hfirst, hs₁⟩ := (hs.suffix hsuffix).cons
    obtain ⟨hleft, hposition⟩ := ihoperand (hs.suffix hsuffix) trivial
    have hn := ihoperators (hs₁.suffix hoperand.suffix)
      ⟨hleft, fun u hu => hposition ▸ hfirst u (hoperand.suffix.subset hu)⟩
    exact ⟨hn.1, t, hsuffix.subset List.mem_cons_self, hn.2.trans hposition⟩
  | done => exact fun _ hleft => ⟨hleft.1, rfl⟩
  | more hv _ hform _ ihform ihoperators =>
    rintro hs ⟨hleft, hfirst⟩
    have hsuffix := suffix_of_visible hv
    have hrest := hform.suffix.trans (rest_suffix hsuffix)
    obtain ⟨hleft', hposition⟩ :=
      ihform (hs.suffix hsuffix) ⟨hleft, fun u hu => hfirst u (hsuffix.subset hu)⟩
    have hn := ihoperators (hs.suffix hrest)
      ⟨hleft', fun u hu => hposition ▸ hfirst u (hrest.subset hu)⟩
    exact ⟨hn.1, hn.2.trans hposition⟩
  | literal => exact fun _ _ => ⟨behind_constant _ _, rfl⟩
  | symbol => exact fun _ _ => ⟨behind_symbol _ _, rfl⟩
  | prefixed _ _ _ ih =>
    intro hs _
    obtain ⟨hfirst, hs₁⟩ := hs.cons
    have hinner := (ih (hs₁.suffix (skipBreaks_suffix _)) trivial).within
    refine ⟨behind_keywordCall (List.forall_mem_singleton.mpr ?_), rfl⟩
    exact hlater hfirst (skipBreaks_suffix _) hinner
  | group _ _ _ ih =>
    intro hs _
    obtain ⟨hfirst, hs₁⟩ := hs.cons
    refine ⟨behind_keywordCall (List.forall_mem_singleton.mpr ?_), rfl⟩
    exact hlater hfirst (List.suffix_refl _) (ih hs₁ trivial).within
  | block _ _ ih =>
    intro hs _
    obtain ⟨hfirst, hs₁⟩ := hs.cons
    exact ⟨behind_keywordCall fun n hn => ih hs₁ trivial n hn _ hfirst, rfl⟩
  | conditional _ hcondition _ _ ihcondition ihbody =>
    intro hs _
    obtain ⟨hfirst, hs₁⟩ := hs.cons
    have hsuffix := (skipBreaks_suffix _).trans hcondition.suffix
    have hbody := (ihbody (hs₁.suffix hsuffix) trivial).within
    refine ⟨behind_keywordCall (List.forall_mem_cons.mpr ⟨ihcondition hs₁ trivial _ hfirst, ?_⟩), rfl⟩
    exact List.forall_mem_singleton.mpr (hlater hfirst hsuffix hbody)
  | alternative _ hcondition hbody helse _ ihcondition ihbody ihother =>
    intro hs _
    obtain ⟨hfirst, hs₁⟩ := hs.cons
    have hsuffix := (skipBreaks_suffix _).trans hcondition.suffix
    have hsuffix' := (skipBreaks_suffix _).trans
      ((suffix_of_afterElse helse).trans (hbody.suffix.trans hsuffix))
    have hbody := (ihbody (hs₁.suffix hsuffix) trivial).within
    have hother := (ihother (hs₁.suffix hsuffix') trivial).within
    refine ⟨behind_keywordCall (List.forall_mem_cons.mpr ⟨ihcondition hs₁ trivial _ hfirst, ?_⟩), rfl⟩
    refine List.forall_mem_cons.mpr ⟨hlater hfirst hsuffix hbody, ?_⟩
    exact List.forall_mem_singleton.mpr (hlater hfirst hsuffix' hother)
  | whileLoop _ hcondition _ ihcondition ihbody =>
    intro hs _
    obtain ⟨hfirst, hs₁⟩ := hs.cons
    have hsuffix := (skipBreaks_suffix _).trans hcondition.suffix
    have hbody := (ihbody (hs₁.suffix hsuffix) trivial).within
    refine ⟨behind_keywordCall (List.forall_mem_cons.mpr ⟨ihcondition hs₁ trivial _ hfirst, ?_⟩), rfl⟩
    exact List.forall_mem_singleton.mpr (hlater hfirst hsuffix hbody)
  | @forLoop region t ts ts₁ ts₂ ts₃ ts₄ ts₅ rest p q r s name sequence body _ hopen hname hin
      hsequence hclose _ ihsequence ihbody =>
    intro hs _
    obtain ⟨hfirst, hs₁⟩ := hs.cons
    have hvariable := (suffix_of_visible hname).trans (rest_suffix_of_visible hopen)
    have hsuffix := (rest_suffix_of_visible hin).trans (rest_suffix hvariable)
    have hsuffix' := (skipBreaks_suffix _).trans
      ((rest_suffix_of_visible hclose).trans (hsequence.suffix.trans hsuffix))
    -- the variable is a part of the call that no goal reads
    have hsymbol : Within (⟨.symbol name, q⟩ :: ts₂) (.symbol name q) := fun p hp =>
      (behind_symbol name q).mono (hp ⟨.symbol name, q⟩ List.mem_cons_self)
    have hsequence := (ihsequence (hs₁.suffix hsuffix) trivial).within
    have hbody := (ihbody (hs₁.suffix hsuffix') trivial).within
    refine ⟨behind_keywordCall (List.forall_mem_cons.mpr ⟨hlater hfirst hvariable hsymbol, ?_⟩), rfl⟩
    refine List.forall_mem_cons.mpr ⟨hlater hfirst hsuffix hsequence, ?_⟩
    exact List.forall_mem_singleton.mpr (hlater hfirst hsuffix' hbody)
  | repeatLoop _ _ ih =>
    intro hs _
    obtain ⟨hfirst, hs₁⟩ := hs.cons
    have hbody := (ih (hs₁.suffix (skipBreaks_suffix _)) trivial).within
    refine ⟨behind_keywordCall (List.forall_mem_singleton.mpr ?_), rfl⟩
    exact hlater hfirst (skipBreaks_suffix _) hbody
  | @definition region t ts ts₁ ts₂ rest p items body _ hopen hparameters _ ihparameters ihbody =>
    intro hs _
    obtain ⟨hfirst, hs₁⟩ := hs.cons
    have hopening := suffix_of_visible hopen
    obtain ⟨hinner, hs₂⟩ := (hs₁.suffix hopening).cons
    have hsuffix := (skipBreaks_suffix _).trans
      (hparameters.suffix.trans (rest_suffix hopening))
    have hitems : (Node.params items p).Behind p := behind_params fun i hi =>
      ihparameters hs₂ trivial i hi p hinner
    have hbody := (ihbody (hs₁.suffix hsuffix) trivial).within
    refine ⟨behind_keywordCall (List.forall_mem_cons.mpr ⟨hitems.mono ?_, ?_⟩), rfl⟩
    · exact hfirst ⟨.leftParen, p⟩ (hopening.subset List.mem_cons_self)
    · exact List.forall_mem_singleton.mpr (hlater hfirst hsuffix hbody)
  | breakJump | nextJump => exact fun _ _ => ⟨behind_keywordCall (List.forall_mem_nil _), rfl⟩
  | condition hopen _ _ ih =>
    intro hs _
    have hsuffix := rest_suffix_of_visible hopen
    exact (ih (hs.suffix hsuffix) trivial).within.mono hsuffix
  | blockEnd => exact fun _ _ => List.forall_mem_nil _
  | statement hseparators _ hstatement _ _ ihstatement ihmore =>
    intro hs _
    have hsuffix := suffix_of_skipSeparators hseparators
    have hsuffix' := hstatement.suffix.trans hsuffix
    have hmore := ihmore (hs.suffix hsuffix') trivial
    refine List.forall_mem_cons.mpr ⟨?_, fun n hn => (hmore n hn).mono hsuffix'⟩
    exact (ihstatement (hs.suffix hsuffix) trivial).within.mono hsuffix
  | noParameters => exact fun _ _ => List.forall_mem_nil _
  | someParameters _ _ ih => exact fun hs _ => ih hs trivial
  | lastParameter hv _ _ _ ih =>
    intro hs _
    have hsuffix := rest_suffix_of_visible hv
    exact List.forall_mem_singleton.mpr ((ih (hs.suffix hsuffix) trivial).mono hsuffix)
  | parameter hv _ hdefault hcomma _ ihdefault ihmore =>
    intro hs _
    have hsuffix := rest_suffix_of_visible hv
    have hsuffix' := (rest_suffix_of_visible hcomma).trans (hdefault.suffix.trans hsuffix)
    have hmore := ihmore (hs.suffix hsuffix') trivial
    refine List.forall_mem_cons.mpr ⟨?_, fun i hi => (hmore i hi).mono hsuffix'⟩
    exact (ihdefault (hs.suffix hsuffix) trivial).mono hsuffix
  | withDefault hv _ ih =>
    intro hs _
    have hsuffix := rest_suffix_of_visible hv
    exact (ih (hs.suffix hsuffix) trivial).within.mono hsuffix
  | noDefault => exact fun _ _ p _ => behind_missing p
  | application _ _ ih =>
    rintro hs ⟨hleft, hfirst⟩
    have hargs := ih hs.cons.2 trivial
    refine ⟨behind_call hleft fun a ha => ?_, rfl⟩
    exact hargs a ha _ fun u hu => hfirst u (List.mem_cons_of_mem _ hu)
  | index _ _ ih | doubleIndex _ _ _ ih =>
    rintro hs ⟨hleft, hfirst⟩
    have hargs := ih hs.cons.2 trivial
    -- the name of the call stands at the bracket, the call at the left operand
    refine ⟨behind_call ((behind_symbol _ _).mono (hfirst _ List.mem_cons_self))
      (List.forall_mem_cons.mpr ⟨hleft, fun a ha => ?_⟩), rfl⟩
    exact hargs a ha _ fun u hu => hfirst u (List.mem_cons_of_mem _ hu)
  | member _ _ hskip hmember =>
    rintro hs ⟨hleft, hfirst⟩
    have hu := hfirst _ (List.mem_cons_of_mem _
      ((suffix_of_skipBreaks hskip).subset List.mem_cons_self))
    refine ⟨behind_call ((behind_symbol _ _).mono (hfirst _ List.mem_cons_self))
      (List.forall_mem_cons.mpr ⟨hleft, List.forall_mem_singleton.mpr ?_⟩), rfl⟩
    exact (behind_member hmember).mono hu
  | binary heq _ _ _ _ hcombine ih =>
    rintro hs ⟨hleft, hfirst⟩
    have hright := (ih (hs.cons.2.suffix (skipBreaks_suffix _)) trivial).within
    refine behind_combine ?_ hleft (hfirst _ List.mem_cons_self) ?_ hcombine
    · -- a pipe would put its left side into the call on its right, which stands behind it
      rintro rfl
      exact hs.noPipe _ List.mem_cons_self heq
    · exact hlater (fun u hu => hfirst u (List.mem_cons_of_mem _ hu)) (skipBreaks_suffix _) hright
  | noArguments => exact fun _ _ => List.forall_mem_nil _
  | someArguments _ _ _ ih => exact fun hs _ => ih hs trivial
  | lastArgument _ _ _ ih => exact fun hs _ => ih hs trivial
  | argument harg hcomma _ iharg ihmore =>
    intro hs _
    have hsuffix := (rest_suffix_of_visible hcomma).trans harg.suffix
    have hmore := ihmore (hs.suffix hsuffix) trivial
    refine List.forall_mem_cons.mpr ⟨?_, fun a ha => (hmore a ha).mono hsuffix⟩
    exact iharg hs trivial _ List.mem_cons_self
  | unnamed _ _ _ _ ih =>
    exact fun hs _ => List.forall_mem_singleton.mpr (ih hs trivial).within
  | named hv _ hname _ _ _ ih =>
    intro hs _
    have hsuffix := (suffix_of_afterName hname).trans (rest_suffix_of_visible hv)
    exact List.forall_mem_singleton.mpr ((ih (hs.suffix hsuffix) trivial).within.mono hsuffix)

/-- The trees of a program are made of its tokens. -/
theorem ReadsProgram.from_tokens {ts us : Tokens} {ns : List Node} (h : ReadsProgram ts ns)
    (hwellFormed : WellFormedTokens us) (hunsigned : ∀ t ∈ us, t.lexeme.value.isBelowZero = false)
    (hts : ts ⊆ us) : ∀ n ∈ ns, n.From us := by
  induction h with
  | nil => exact List.forall_mem_nil _
  | cons hskip hexpression _ _ ih =>
    have hts₁ := List.Subset.trans (suffix_of_skipSeparators hskip).subset hts
    refine List.forall_mem_cons.mpr ⟨hexpression.from_tokens hwellFormed hunsigned trivial hts₁, ?_⟩
    exact ih (List.Subset.trans hexpression.suffix.subset hts₁)

/-- The trees of a program without pipes are ordered. -/
theorem ReadsProgram.ordered {ts : Tokens} {ns : List Node} (h : ReadsProgram ts ns)
    (hs : Straight ts) : ∀ n ∈ ns, n.Ordered := by
  induction h with
  | nil => exact List.forall_mem_nil _
  | cons hskip hexpression _ _ ih =>
    have hsuffix := suffix_of_skipSeparators hskip
    obtain ⟨hn, -⟩ := hexpression.places (hs.suffix hsuffix) trivial
    exact List.forall_mem_cons.mpr ⟨hn.ordered, ih (hs.suffix (hexpression.suffix.trans hsuffix))⟩

end Parser

namespace Source

/-- Every tree of a program is made of the tokens of its text. Without pipes every call in it stands
where the first of its parts stands. -/
theorem program_placed {s : Source} {ns : List Node} (h : s.program = .ok ns) :
    ∃ t, TokenText.ofText s.text = .ok t ∧ ∀ n ∈ ns, n.From t.tokens ∧
      ((∀ u ∈ t.tokens, u.lexeme ≠ .operator "|>") → n.Ordered) := by
  obtain ⟨t, ht, hns⟩ := program_eq_ok_iff.mp h
  have hscans := TokenText.scans_of_scan ht
  have hprogram := Parser.program_eq_ok_iff.mp hns
  refine ⟨t, ht, fun n hn => ⟨?_, fun hpipe => ?_⟩⟩
  · exact hprogram.from_tokens (TokenText.wellFormed ht) hscans.unsigned (List.Subset.refl _) n hn
  · exact hprogram.ordered ⟨hscans.sorted.2, hpipe⟩ n hn

set_option maxRecDepth 4096 in
/-- The target of a rightward assignment stands behind the call, and so does its name. -/
theorem program_placed_rightward :
    ∃ n, (Source.mk "\\(a, b = d) a -> f" "<input>").program = .ok [n] ∧
      ∃ t, TokenText.ofText "\\(a, b = d) a -> f" = .ok t ∧ n.From t.tokens ∧
        ((∀ u ∈ t.tokens, u.lexeme ≠ .operator "|>") → n.Ordered) := by
  have h : (Source.mk "\\(a, b = d) a -> f" "<input>").program =
      .ok [.call (.symbol "function" ⟨1, 1⟩) [⟨none, .params [⟨"a", .missing⟩,
        ⟨"b", .symbol "d" ⟨1, 10⟩⟩] ⟨1, 2⟩⟩,
        ⟨none, .call (.symbol "<-" ⟨1, 15⟩) [⟨none, .symbol "f" ⟨1, 18⟩⟩, ⟨none, .symbol "a" ⟨1, 13⟩⟩]
          ⟨1, 13⟩⟩] ⟨1, 1⟩] := by cbv
  obtain ⟨t, ht, hns⟩ := program_placed h
  exact ⟨_, h, t, ht, hns _ List.mem_cons_self⟩

end Source

end RCode
