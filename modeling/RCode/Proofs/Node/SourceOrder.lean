import RCode.Proofs.Node.Arrangement
import RCode.Proofs.Node.Placement
import RCode.Proofs.Node.Relocation

/-!
# The order of symbols in parsed trees

The parser reads from the left to the right, so that each tree stands between the tokens that were
left before it and those that are left after it (`Parser.Covers`). Whatever operators then do with
their operands, any two children of a node stand apart. The induction over derivations is
`Parser.Reads.lays`.
-/

set_option autoImplicit false

namespace RCode.Parser

open Node

/-- The position is that of one of the tokens `ts`, before those that are left over. -/
def StandsIn (ts rest : Tokens) (p : Position) : Prop :=
  (∃ t ∈ ts, t.position = p) ∧ ∀ u ∈ rest, p < u.position

/-- The tree has been read from the tokens `ts`, which are some of the tokens `us` of a text, and
`rest` is left over. -/
structure Covers (us ts rest : Tokens) (n : Node) : Prop where
  leftOver : rest <:+ ts
  stands : ∀ k ∈ n.preorder, k.isMissing = false → StandsIn ts rest k.position
  arranged : ∀ k ∈ n.preorder, k.Arranged us

/-- The trees have been read from the tokens one after the other. -/
structure CoversEach (us ts rest : Tokens) (ns : List Node) : Prop where
  leftOver : rest <:+ ts
  covers : ∀ n ∈ ns, Covers us ts rest n
  ordered : ns.Pairwise Precedes

section

variable {us vs ts mid rest : Tokens} {n m : Node} {ns : List Node}

theorem StandsIn.mono {rest' : Tokens} {p : Position} (h : StandsIn ts rest p) (hts : ts <:+ vs)
    (hrest : rest' <:+ rest) : StandsIn vs rest' p := by
  obtain ⟨⟨t, ht, hposition⟩, hlater⟩ := h
  exact ⟨⟨t, hts.subset ht, hposition⟩, fun u hu => hlater u (hrest.subset hu)⟩

/-- What is read from the last tokens is read from all of them. -/
theorem Covers.ofSuffix (h : Covers us ts rest n) (hts : ts <:+ vs) : Covers us vs rest n :=
  ⟨h.leftOver.trans hts,
    fun k hk hmissing => (h.stands k hk hmissing).mono hts (List.suffix_refl rest), h.arranged⟩

/-- What stands before the tokens stands before the last of them. -/
theorem Covers.leaving (h : Covers us ts mid n) (hrest : rest <:+ mid) : Covers us ts rest n :=
  ⟨hrest.trans h.leftOver,
    fun k hk hmissing => (h.stands k hk hmissing).mono (List.suffix_refl ts) hrest, h.arranged⟩

theorem Covers.position (h : Covers us ts rest n) (hn : n.isMissing = false) :
    StandsIn ts rest n.position :=
  h.stands n n.self_mem_preorder hn

/-- What is read from the tokens left over stands behind. -/
theorem Covers.precedes (hm : Covers us ts mid m) (hn : Covers us mid rest n) : m.Precedes n := by
  intro j hj hjmissing k hk hkmissing
  obtain ⟨⟨t, ht, hposition⟩, -⟩ := hn.stands k hk hkmissing
  rw [← hposition]
  exact (hm.stands j hj hjmissing).2 t ht

theorem CoversEach.ofSuffix (h : CoversEach us ts rest ns) (hts : ts <:+ vs) :
    CoversEach us vs rest ns :=
  ⟨h.leftOver.trans hts, fun n hn => (h.covers n hn).ofSuffix hts, h.ordered⟩

theorem CoversEach.leaving (h : CoversEach us ts mid ns) (hrest : rest <:+ mid) :
    CoversEach us ts rest ns :=
  ⟨hrest.trans h.leftOver, fun n hn => (h.covers n hn).leaving hrest, h.ordered⟩

theorem CoversEach.nil (hrest : rest <:+ ts) : CoversEach us ts rest [] :=
  ⟨hrest, List.forall_mem_nil _, .nil⟩

/-- A tree, and then others from the tokens that it leaves. -/
theorem CoversEach.cons (hn : Covers us ts mid n) (hns : CoversEach us mid rest ns) :
    CoversEach us ts rest (n :: ns) where
  leftOver := hns.leftOver.trans hn.leftOver
  covers := List.forall_mem_cons.mpr
    ⟨hn.leaving hns.leftOver, fun m hm => (hns.covers m hm).ofSuffix hn.leftOver⟩
  ordered := .cons (fun m hm => hn.precedes (hns.covers m hm)) hns.ordered

theorem CoversEach.singleton (hn : Covers us ts rest n) : CoversEach us ts rest [n] :=
  ⟨hn.leftOver, List.forall_mem_singleton.mpr hn, List.pairwise_singleton _ n⟩

/-! ## Nodes and their children -/

theorem Covers.children (h : Covers us ts rest n) : ∀ c ∈ n.children, Covers us ts rest c :=
  fun c hc => ⟨h.leftOver, (forall_preorder_iff.mp h.stands).2 c hc,
    (forall_preorder_iff.mp h.arranged).2 c hc⟩

/-- A node covers what its children cover, once it is known how they are arranged. -/
theorem covers_of_children (hrest : rest <:+ ts)
    (hposition : n.isMissing = false → StandsIn ts rest n.position)
    (hchildren : ∀ c ∈ n.children, Covers us ts rest c) (harranged : n.Arranged us) :
    Covers us ts rest n :=
  ⟨hrest, forall_preorder_iff.mpr ⟨hposition, fun c hc => (hchildren c hc).stands⟩,
    forall_preorder_iff.mpr ⟨harranged, fun c hc => (hchildren c hc).arranged⟩⟩

/-- A node whose children are in the order of the source. -/
theorem covers_forward (hposition : n.isMissing = false → StandsIn ts rest n.position)
    (hchildren : CoversEach us ts rest n.children) : Covers us ts rest n :=
  covers_of_children hchildren.leftOver hposition hchildren.covers
    ⟨hchildren.ordered.imp .inl, fun _ => hchildren.ordered.imp .inl⟩

/-- The missing marker takes no token. -/
theorem covers_missing : Covers us ts ts .missing :=
  covers_forward nofun (.nil (List.suffix_refl ts))

variable {t : Token}

/-- A token stands before those that follow it. -/
theorem standsIn_first (hlater : ∀ u ∈ ts, t.position < u.position) :
    StandsIn (t :: ts) ts t.position :=
  ⟨⟨t, List.mem_cons_self, rfl⟩, hlater⟩

theorem covers_symbol (hlater : ∀ u ∈ ts, t.position < u.position) (name : String) :
    Covers us (t :: ts) ts (.symbol name t.position) :=
  covers_forward (fun _ => standsIn_first hlater) (.nil (List.suffix_cons t ts))

theorem covers_constant (hlater : ∀ u ∈ ts, t.position < u.position) (a : Atom) :
    Covers us (t :: ts) ts (.constant a t.position) :=
  covers_forward (fun _ => standsIn_first hlater) (.nil (List.suffix_cons t ts))

/-- A call of a keyword has its arguments from the tokens behind the keyword. -/
theorem covers_keywordCall (hlater : ∀ u ∈ ts, t.position < u.position)
    (hargs : CoversEach us ts rest ns) (word : String) :
    Covers us (t :: ts) rest (keywordCall word t.position ns) := by
  have hchildren : (keywordCall word t.position ns).children = .symbol word t.position :: ns := by
    simp [keywordCall, children, Function.comp_def]
  refine covers_forward (fun _ => ?_) ?_
  · exact (standsIn_first hlater).mono (List.suffix_refl (t :: ts)) hargs.leftOver
  · rw [hchildren]
    exact .cons (covers_symbol hlater word) hargs

/-- A list of parameters stands at its bracket, and its defaults come from the tokens behind it. -/
theorem covers_params {items : List (Param Node)} (hlater : ∀ u ∈ ts, t.position < u.position)
    (hitems : CoversEach us ts rest (items.map Param.default)) :
    Covers us (t :: ts) rest (.params items t.position) :=
  covers_forward (fun _ => (standsIn_first hlater).mono (List.suffix_refl (t :: ts)) hitems.leftOver)
    (hitems.ofSuffix (List.suffix_cons t ts))

theorem covers_member {u : Token} (hlater : ∀ v ∈ ts, u.position < v.position)
    (h : memberNode? u = some n) : Covers us (u :: ts) ts n := by
  obtain ⟨l, p⟩ := u
  cases l with
  | symbol name => cases h; exact covers_symbol hlater name
  | text s => cases h; exact covers_constant hlater (.text s)
  | _ => cases h

/-! ## Operators -/

theorem isInfix_of_takesMember {name : String} (h : TakesMember name n) :
    Operator.IsInfix name := by
  rcases h with rfl | rfl | ⟨rfl | rfl, -⟩
  · exact .inr (.inr rfl)
  · exact .inr (.inr rfl)
  · exact .inr (.inr rfl)
  · exact .inr (.inr rfl)

/-- The left operand stands before the operator `t`, and the other operands come from the tokens
behind it. -/
structure Operands (us vs ts rest : Tokens) (t : Token) (left : Node) (others : List Node) :
    Prop where
  present : left.isMissing = false
  operator : ∀ u ∈ ts, t.position < u.position
  left : Covers us vs (t :: ts) left
  others : CoversEach us ts rest others

namespace Operands

variable {left : Node} {others : List Node}

theorem behind (h : Operands us vs ts rest t left others) : CoversEach us (t :: ts) rest others :=
  h.others.ofSuffix (List.suffix_cons t ts)

theorem covers_left (h : Operands us vs ts rest t left others) : Covers us vs rest left :=
  h.left.leaving h.behind.leftOver

theorem covers_name (h : Operands us vs ts rest t left others) (name : String) :
    Covers us vs rest (.symbol name t.position) :=
  ((covers_symbol h.operator name).leaving h.others.leftOver).ofSuffix h.left.leftOver

theorem covers_others (h : Operands us vs ts rest t left others) : ∀ n ∈ others, Covers us vs rest n :=
  (h.behind.ofSuffix h.left.leftOver).covers

theorem left_precedes_name (h : Operands us vs ts rest t left others) (name : String) :
    left.Precedes (.symbol name t.position) :=
  h.left.precedes (covers_symbol h.operator name)

theorem left_precedes (h : Operands us vs ts rest t left others) : ∀ n ∈ others, left.Precedes n :=
  fun n hn => h.left.precedes (h.behind.covers n hn)

theorem name_precedes (h : Operands us vs ts rest t left others) (name : String) :
    ∀ n ∈ others, (Node.symbol name t.position).Precedes n :=
  fun n hn => (covers_symbol h.operator name).precedes (h.others.covers n hn)

/-- A call of the left operand. -/
theorem covers_application {args : List (Arg Node)}
    (h : Operands us vs ts rest t left (args.map Arg.value)) :
    Covers us vs rest (.call left args left.position) :=
  covers_forward (fun _ => h.covers_left.position h.present) (.cons h.left h.behind)

/-- The call of an operator or an index: its name comes before the left operand. -/
theorem covers_infix {args : List (Arg Node)} {name : String}
    (h : Operands us vs ts rest t left (args.map Arg.value)) (hname : Operator.IsInfix name) :
    Covers us vs rest (.call (.symbol name t.position) (⟨none, left⟩ :: args) left.position) := by
  refine covers_of_children h.covers_left.leftOver (fun _ => h.covers_left.position h.present) ?_
    ⟨?_, fun _ => ?_⟩
  · exact List.forall_mem_cons.mpr ⟨h.covers_name name,
      List.forall_mem_cons.mpr ⟨h.covers_left, h.covers_others⟩⟩
  · refine .cons (List.forall_mem_cons.mpr ⟨.inr (h.left_precedes_name name), fun n hn => ?_⟩) ?_
    · exact .inl (h.name_precedes name n hn)
    · exact .cons (fun n hn => .inl (h.left_precedes n hn)) (h.others.ordered.imp .inl)
  · refine .cons (fun n _ => .inr ⟨name, t.position, rfl, hname⟩) ?_
    exact .cons (fun n hn => .inl (h.left_precedes n hn)) (h.others.ordered.imp .inl)

/-- The call of a rightward assignment: the right operand comes before the left one. -/
theorem covers_reversed {right : Node} (h : Operands us vs ts rest t left [right]) (ht : t ∈ us)
    (hmoves : t.lexeme.MovesOperands) (name : String) :
    Covers us vs rest
      (.call (.symbol name t.position) [⟨none, right⟩, ⟨none, left⟩] left.position) := by
  have hright : right ∈ [right] := List.mem_cons_self
  refine covers_of_children h.covers_left.leftOver (fun _ => h.covers_left.position h.present) ?_
    ⟨?_, fun hnone => absurd hmoves (hnone t ht)⟩
  · exact List.forall_mem_cons.mpr ⟨h.covers_name name, List.forall_mem_cons.mpr
      ⟨h.covers_others right hright, List.forall_mem_singleton.mpr h.covers_left⟩⟩
  · refine .cons (List.forall_mem_cons.mpr ⟨.inl (h.name_precedes name right hright), ?_⟩) ?_
    · exact List.forall_mem_singleton.mpr (.inr (h.left_precedes_name name))
    · refine .cons (List.forall_mem_singleton.mpr (.inr (h.left_precedes right hright))) ?_
      exact List.pairwise_singleton _ _

/-- The call on the right side of a pipe: the left operand comes behind the head. -/
theorem covers_piped {head : Node} {args : List (Arg Node)} {p : Position}
    (h : Operands us vs ts rest t left [.call head args p]) (ht : t ∈ us)
    (hmoves : t.lexeme.MovesOperands) :
    Covers us vs rest (.call head (⟨none, left⟩ :: args) p) := by
  have hcall := h.covers_others _ List.mem_cons_self
  obtain ⟨harranged, -⟩ := forall_preorder_iff.mp hcall.arranged
  obtain ⟨hhead, hargs⟩ := List.pairwise_cons.mp harranged.apart
  obtain ⟨hcoversHead, hcoversArgs⟩ := List.forall_mem_cons.mp hcall.children
  -- the left operand stands before all parts of the call
  have hbefore := (h.left_precedes _ List.mem_cons_self).children
  obtain ⟨hbeforeHead, hbeforeArgs⟩ := List.forall_mem_cons.mp hbefore
  refine covers_of_children hcall.leftOver (fun _ => hcall.position rfl) ?_
    ⟨?_, fun hnone => absurd hmoves (hnone t ht)⟩
  · exact List.forall_mem_cons.mpr ⟨hcoversHead, List.forall_mem_cons.mpr ⟨h.covers_left, hcoversArgs⟩⟩
  · refine .cons (List.forall_mem_cons.mpr ⟨.inr hbeforeHead, hhead⟩) ?_
    exact .cons (fun n hn => .inl (hbeforeArgs n hn)) hargs

/-- What an operator makes of its operands. -/
theorem covers_combine {right n : Node} {name : String} {binding : Operator.Binding}
    (h : Operands us vs ts rest t left [right]) (ht : t ∈ us) (heq : t.lexeme = .operator name)
    (hbinding : Operator.binary? name = some binding)
    (hcombine : combine name t.position left right = .ok n) : Covers us vs rest n := by
  cases combine_eq_ok_iff.mp hcombine with
  | reversed right hreverses =>
    rcases hreverses with ⟨rfl, -⟩ | ⟨rfl, -⟩
    · exact h.covers_reversed ht (.inl heq) _
    · exact h.covers_reversed ht (.inr (.inl heq)) _
  | piped => exact h.covers_piped ht (.inr (.inr heq))
  | kept right hother =>
    have hinfix : Operator.IsInfix name := .inr (.inr (hbinding ▸ rfl))
    have hargs : Operands us vs ts rest t left ([Arg.mk none right].map Arg.value) := h
    exact hargs.covers_infix hinfix

end Operands

end

/-! ## Derivations -/

/-- What is read for the goal covers the tokens that it has been given, and a left operand those
before, too. -/
def Goal.Lays (us : Tokens) : Goal → Tokens → Phrase → Tokens → Prop
  | .operators _ _ left, ts, .node n, rest => ∀ vs, Covers us vs ts left → Covers us vs rest n
  | .operatorForm _ operator left, ts, .node n, rest =>
    ∀ vs, Covers us vs (operator :: ts) left → Covers us vs rest n
  | .operand _ first, ts, .node n, rest => Covers us (first :: ts) rest n
  | _, ts, .node n, rest => Covers us ts rest n
  | _, ts, .nodes ns, rest => CoversEach us ts rest ns
  | _, ts, .args as, rest => CoversEach us ts rest (as.map Arg.value)
  | _, ts, .params items, rest => CoversEach us ts rest (items.map Param.default)

variable {us : Tokens}

/-- What the parser reads from the last tokens of a text covers what it takes of them. -/
theorem Reads.lays {g : Goal} {ts rest : Tokens} {r : Phrase} (h : Reads g ts r rest)
    (hus : Ascending us) : g.Present → g.given ts <:+ us → g.Lays us ts r rest := by
  have hfirst : ∀ {t : Token} {ts : Tokens}, t :: ts <:+ us → ∀ u ∈ ts, t.position < u.position :=
    fun hts => (List.pairwise_cons.mp (hus.sublist hts.sublist)).1
  -- what is read from the last of some tokens
  have hlast : ∀ {ts vs rest : Tokens} {n : Node}, ts <:+ vs → vs <:+ us →
      (ts <:+ us → Covers us ts rest n) → Covers us vs rest n :=
    fun hsuffix hvs hn => (hn (hsuffix.trans hvs)).ofSuffix hsuffix
  induction h with
  | expression hv hoperand _ ihoperand ihoperators =>
    intro _ hts
    have hleft := hlast (suffix_of_visible hv) hts (ihoperand trivial)
    exact ihoperators (hoperand.isMissing_eq trivial nofun) (hleft.leftOver.trans hts) _ hleft
  | done => exact fun _ _ vs hleft => hleft.leaving (visible_suffix _ _)
  | more hv _ hform _ ihform ihoperators =>
    intro hpresent hts vs hleft
    have hsuffix := suffix_of_visible hv
    have hleft' := ihform hpresent (hsuffix.trans hts) vs (hleft.leaving hsuffix)
    have hrest := hform.suffix.trans (rest_suffix hsuffix)
    exact ihoperators (hform.isMissing_eq hpresent nofun) (hrest.trans hts) vs hleft'
  | literal => exact fun _ hts => covers_constant (hfirst hts) _
  | symbol => exact fun _ hts => covers_symbol (hfirst hts) _
  | prefixed _ _ _ ih | repeatLoop _ _ ih =>
    intro _ hts
    have hinner := hlast (skipBreaks_suffix _) (rest_suffix hts) (ih trivial)
    exact covers_keywordCall (hfirst hts) (.singleton hinner) _
  | group _ _ hclose ih =>
    intro _ hts
    have hinner := (ih trivial (rest_suffix hts)).leaving (rest_suffix_of_visible hclose)
    exact covers_keywordCall (hfirst hts) (.singleton hinner) _
  | block _ _ ih =>
    exact fun _ hts => covers_keywordCall (hfirst hts) (ih trivial (rest_suffix hts)) _
  | conditional _ _ _ _ ihcondition ihbody | whileLoop _ _ _ ihcondition ihbody =>
    intro _ hts
    have hcondition := ihcondition trivial (rest_suffix hts)
    have hgiven := hcondition.leftOver.trans (rest_suffix hts)
    have hbody := hlast (skipBreaks_suffix _) hgiven (ihbody trivial)
    exact covers_keywordCall (hfirst hts) (.cons hcondition (.singleton hbody)) _
  | alternative _ _ _ helse _ ihcondition ihbody ihother =>
    intro _ hts
    have hcondition := ihcondition trivial (rest_suffix hts)
    have hgiven := hcondition.leftOver.trans (rest_suffix hts)
    have hbody := hlast (skipBreaks_suffix _) hgiven (ihbody trivial)
    have hsuffix := (skipBreaks_suffix _).trans (suffix_of_afterElse helse)
    have hother := hlast hsuffix (hbody.leftOver.trans hgiven) (ihother trivial)
    exact covers_keywordCall (hfirst hts) (.cons hcondition (.cons hbody (.singleton hother))) _
  | @forLoop region t ts ts₁ ts₂ ts₃ ts₄ ts₅ rest p q r s name sequence body _ hopen hname hin _
      hclose _ ihsequence ihbody =>
    intro _ hts
    -- the variable is a part of the call that no goal reads
    have hvariable : Covers us ts ts₂ (.symbol name q) :=
      hlast ((suffix_of_visible hname).trans (rest_suffix_of_visible hopen)) (rest_suffix hts)
        fun hgiven => covers_symbol (t := ⟨.symbol name, q⟩) (hfirst hgiven) name
    have hgiven := hvariable.leftOver.trans (rest_suffix hts)
    have hsequence := hlast (rest_suffix_of_visible hin) hgiven (ihsequence trivial)
    have hsuffix := (skipBreaks_suffix _).trans (rest_suffix_of_visible hclose)
    have hbody := hlast hsuffix (hsequence.leftOver.trans hgiven) (ihbody trivial)
    exact covers_keywordCall (hfirst hts) (.cons hvariable (.cons hsequence (.singleton hbody))) _
  | @definition region t ts ts₁ ts₂ rest p items body _ hopen _ _ ihparameters ihbody =>
    intro _ hts
    have hparameters : Covers us ts ts₂ (.params items p) :=
      hlast (suffix_of_visible hopen) (rest_suffix hts) fun hgiven =>
        covers_params (t := ⟨.leftParen, p⟩) (hfirst hgiven)
          (ihparameters trivial (rest_suffix hgiven))
    have hgiven := hparameters.leftOver.trans (rest_suffix hts)
    have hbody := hlast (skipBreaks_suffix _) hgiven (ihbody trivial)
    exact covers_keywordCall (hfirst hts) (.cons hparameters (.singleton hbody)) _
  | breakJump | nextJump =>
    exact fun _ hts => covers_keywordCall (hfirst hts) (.nil (List.suffix_refl _)) _
  | condition hopen _ hclose ih =>
    intro _ hts
    have hinner := hlast (rest_suffix_of_visible hopen) hts (ih trivial)
    exact hinner.leaving (rest_suffix_of_visible hclose)
  | blockEnd hseparators => exact fun _ _ => .nil (rest_suffix (suffix_of_skipSeparators hseparators))
  | statement hseparators _ _ _ _ ihstatement ihmore =>
    intro _ hts
    have hstatement := hlast (suffix_of_skipSeparators hseparators) hts (ihstatement trivial)
    exact .cons hstatement (ihmore trivial (hstatement.leftOver.trans hts))
  | noParameters hclose => exact fun _ _ => .nil (rest_suffix_of_visible hclose)
  | someParameters _ _ ih => exact fun _ hts => ih trivial hts
  | lastParameter hv _ _ hclose ih =>
    intro _ hts
    have hdefault := hlast (rest_suffix_of_visible hv) hts (ih trivial)
    exact .singleton (hdefault.leaving (rest_suffix_of_visible hclose))
  | parameter hv _ _ hcomma _ ihdefault ihmore =>
    intro _ hts
    have hdefault := hlast (rest_suffix_of_visible hv) hts (ihdefault trivial)
    have hbehind := rest_suffix_of_visible hcomma
    have hmore := ihmore trivial (hbehind.trans (hdefault.leftOver.trans hts))
    exact .cons hdefault (hmore.ofSuffix hbehind)
  | withDefault hv _ ih => exact fun _ hts => hlast (rest_suffix_of_visible hv) hts (ih trivial)
  | noDefault => exact fun _ _ => covers_missing
  | application _ _ ih =>
    intro hpresent hts vs hleft
    have hargs := ih trivial (rest_suffix hts)
    exact Operands.covers_application ⟨hpresent, hfirst hts, hleft, hargs⟩
  | index _ _ ih =>
    intro hpresent hts vs hleft
    have hargs := ih trivial (rest_suffix hts)
    exact Operands.covers_infix ⟨hpresent, hfirst hts, hleft, hargs⟩ (.inl rfl)
  | doubleIndex _ _ hclose ih =>
    intro hpresent hts vs hleft
    have hargs := (ih trivial (rest_suffix hts)).leaving (rest_suffix_of_visible hclose)
    exact Operands.covers_infix ⟨hpresent, hfirst hts, hleft, hargs⟩ (.inr (.inl rfl))
  | @member region t u left right ts rest name heq htakes hskip hmember =>
    intro hpresent hts vs hleft
    have hright := hlast (suffix_of_skipBreaks hskip) (rest_suffix hts)
      fun hgiven => covers_member (hfirst hgiven) hmember
    have hargs : CoversEach us ts rest ([Arg.mk none right].map Arg.value) := .singleton hright
    exact Operands.covers_infix ⟨hpresent, hfirst hts, hleft, hargs⟩ (isInfix_of_takesMember htakes)
  | binary heq _ _ hbinding _ hcombine ih =>
    intro hpresent hts vs hleft
    have hright := hlast (skipBreaks_suffix _) (rest_suffix hts) (ih trivial)
    exact Operands.covers_combine ⟨hpresent, hfirst hts, hleft, .singleton hright⟩
      (hts.subset List.mem_cons_self) heq hbinding hcombine
  | noArguments hv => exact fun _ _ => .nil (rest_suffix_of_visible hv)
  | someArguments _ _ _ ih => exact fun _ hts => ih trivial hts
  | lastArgument _ hclose _ ih =>
    exact fun _ hts => (ih trivial hts).leaving (rest_suffix_of_visible hclose)
  | argument _ hcomma _ iharg ihmore =>
    intro _ hts
    have harg := iharg trivial hts
    have hbehind := rest_suffix_of_visible hcomma
    have hmore := ihmore trivial (hbehind.trans (harg.leftOver.trans hts))
    exact .cons (harg.covers _ List.mem_cons_self) (hmore.ofSuffix hbehind)
  | unnamed _ _ _ _ ih => exact fun _ hts => .singleton (ih trivial hts)
  | named hv _ hname _ _ _ ih =>
    intro _ hts
    have hsuffix := (suffix_of_afterName hname).trans (rest_suffix_of_visible hv)
    exact .singleton (hlast hsuffix hts (ih trivial))

/-- The trees of a program come one after the other. -/
theorem ReadsProgram.lays {ts : Tokens} {ns : List Node} (h : ReadsProgram ts ns)
    (hus : Ascending us) : ts <:+ us → CoversEach us ts [] ns := by
  induction h with
  | nil => exact fun _ => .nil List.nil_suffix
  | cons hseparators hexpression _ _ ih =>
    intro hts
    have hsuffix := suffix_of_skipSeparators hseparators
    have hn := (hexpression.lays hus trivial (hsuffix.trans hts)).ofSuffix hsuffix
    exact .cons hn (ih (hn.leftOver.trans hts))

end RCode.Parser
