import RCode.Proofs.Node.ParserDerivation
import RCode.Proofs.Node.RoundTrip
import RCode.Proofs.Token.Joining

/-!
# Names of operators

The table takes any name that starts and ends with a percent sign for an operator, but the lexer
ends an operator at the second percent sign, and refuses one with a line break. The two agree on the
names that hold neither in between: these are the names that are read as one operator, and the names
under which a call of two symbols comes back from its text (`Operator.reads_back_iff`). The text of
any other name starts with a shorter operator (`Node.tokens_special`), and what begins with a call
of that operator is no call of two symbols (`Parser.expression_special`).
-/

set_option autoImplicit false

namespace RCode

/-! ## Operators that are read -/

theorem specialRun?_eq_some {cs chars after : List Char}
    (h : specialRun? cs = some (chars, after)) :
    ∃ body, chars = body ++ ['%'] ∧ ∀ c ∈ body, c ≠ '%' ∧ c ≠ '\n' := by
  induction cs generalizing chars after with
  | nil => cases h
  | cons c cs ih =>
    rw [specialRun?] at h
    split at h
    · next hpercent =>
      cases h
      exact ⟨[], by rw [hpercent]; rfl, fun c hc => absurd hc List.not_mem_nil⟩
    · next hpercent =>
      split at h
      · cases h
      · next hbreak =>
        obtain ⟨⟨more, rest⟩, hmore, heq⟩ := Option.map_eq_some_iff.mp h
        cases heq
        obtain ⟨body, rfl, hbody⟩ := ih hmore
        exact ⟨c :: body, rfl, List.forall_mem_cons.mpr ⟨⟨hpercent, hbreak⟩, hbody⟩⟩

namespace Operator

theorem isSpecial_ofList (body : List Char) :
    isSpecial (String.ofList ('%' :: (body ++ ['%']))) = true ∧
      inner (String.ofList ('%' :: (body ++ ['%']))) = body := by
  constructor
  · simp [isSpecial, List.getLast?_cons_of_ne_nil]
  · rw [inner, String.toList_ofList, List.tail_cons, List.dropLast_concat]

theorem ofSpelling?_self {s name : String} (h : ofSpelling? s = some name) :
    ofSpelling? name = some name := by
  unfold ofSpelling? at h
  split at h
  · cases h
    rfl
  · next hstars =>
    split at h
    · next hfound =>
      cases h
      rw [ofSpelling?, if_neg hstars, if_pos hfound]
    · cases h

theorem ofSpelling?_of_longest? {cs after : List Char} {name : String}
    (h : longest? cs = some (name, after)) : ofSpelling? name = some name := by
  obtain ⟨length, -, hfound⟩ := List.exists_of_findSome?_eq_some h
  split at hfound
  · cases hfound
  · obtain ⟨other, hother, heq⟩ := Option.map_eq_some_iff.mp hfound
    cases heq
    exact ofSpelling?_self hother

/-- A name in the table of binary operators is its own spelling. -/
theorem ofSpelling?_of_mem {name : String} {b : Binding} (h : (name, b) ∈ binaryTable) :
    ofSpelling? name = some name := by
  have table : ∀ e ∈ binaryTable, ofSpelling? e.1 = some e.1 := by decide
  exact table (name, b) h

/-- No operator of the tables is special. -/
theorem isSpecial_of_spelling : ∀ s ∈ spellings, isSpecial s = false := by
  decide

theorem binary?_of_isSpecial {name : String} (h : isSpecial name = true) :
    binary? name = some ⟨specialPower, false⟩ := by
  cases hlookup : binaryTable.lookup name with
  | some b =>
    obtain ⟨before, after, htable, -⟩ := List.lookup_eq_some_iff.mp hlookup
    have hmem : (name, b) ∈ binaryTable := by
      rw [htable]
      exact List.mem_append_right before List.mem_cons_self
    rw [isSpecial_of_spelling name (mem_spellings (ofSpelling?_of_mem hmem))] at h
    cases h
  | none => rw [binary?, hlookup, if_pos h, Option.none_or]

/-- A special operator is none of those that are written in another way. -/
theorem notMem_of_isSpecial {name : String} (h : isSpecial name = true) :
    name ∉ members ∧ name ∉ qualifiers ∧ name ∉ Printer.notInfix := by
  have table : ∀ s ∈ members ++ qualifiers ++ Printer.notInfix, isSpecial s = false := by decide
  have hnot (names : List String) (hsubset : names ⊆ members ++ qualifiers ++ Printer.notInfix) :
      name ∉ names := by
    intro hmem
    rw [table name (hsubset hmem)] at h
    cases h
  exact ⟨hnot members (by decide), hnot qualifiers (by decide), hnot Printer.notInfix (by decide)⟩

/-- If the name stands between percent signs, nothing in between ends it as an operator. -/
def IsUnbroken (name : String) : Prop :=
  isSpecial name = true → ∀ c ∈ inner name, c ≠ '%' ∧ c ≠ '\n'

theorem IsReadable.isUnbroken {name : String} (h : IsReadable name) : IsUnbroken name := by
  intro hspecial
  rcases h with htable | ⟨-, hinner⟩
  · rw [isSpecial_of_spelling name (mem_spellings htable)] at hspecial
    cases hspecial
  · exact hinner

/-- A binary operator can be read if nothing between its percent signs ends it. -/
theorem isReadable_iff {name : String} (h : binary? name ≠ none) :
    IsReadable name ↔ IsUnbroken name := by
  refine ⟨IsReadable.isUnbroken, fun hinner => ?_⟩
  obtain ⟨b, hb⟩ := Option.ne_none_iff_exists'.mp h
  rcases Grammar.binary?_cases hb with htable | ⟨hspecial, -⟩
  · exact .inl (ofSpelling?_of_mem htable)
  · exact .inr ⟨hspecial, hinner hspecial⟩

end Operator

theorem ofWord_ne_operator (word name : String) : ofWord word ≠ .operator name := by
  unfold ofWord
  split
  · nofun
  · split <;> nofun

/-- What starts with a percent sign is a special operator, which nothing in between ends. -/
theorem readWord_special {rest : List Char} {r : Lexeme × List Char}
    (h : readWord '%' rest = .ok r) :
    ∃ op, r.1 = .operator op ∧ Operator.isSpecial op = true ∧ Operator.IsReadable op := by
  have hstarts : startsName '%' rest = false := startsName_of_ne (by decide) (by decide) rest
  have hbackslash : '%' ≠ '\\' := by decide
  unfold readWord at h
  simp only [hstarts, Bool.false_eq_true, if_false, hbackslash, if_true] at h
  split at h
  · next chars after hrun =>
    cases h
    obtain ⟨body, rfl, hbody⟩ := specialRun?_eq_some hrun
    obtain ⟨hspecial, hinner⟩ := Operator.isSpecial_ofList body
    exact ⟨_, rfl, hspecial, .inr ⟨hspecial, by rw [hinner]; exact hbody⟩⟩
  · cases h

/-- An operator that is read can be read back. -/
theorem readWord_isReadable {c : Char} {rest : List Char} {r : Lexeme × List Char} {name : String}
    (h : readWord c rest = .ok r) (hname : r.1 = .operator name) : Operator.IsReadable name := by
  by_cases hpercent : c = '%'
  · subst hpercent
    obtain ⟨op, hop, -, hreadable⟩ := readWord_special h
    obtain rfl := Lexeme.operator.inj (hop.symm.trans hname)
    exact hreadable
  · unfold readWord at h
    simp only [hpercent, if_false] at h
    split at h
    · cases h
      exact absurd hname (ofWord_ne_operator _ name)
    · split at h
      · cases h
        cases hname
      · split at h
        · next other after hlongest =>
          cases h
          cases hname
          exact .inl (Operator.ofSpelling?_of_longest? hlongest)
        · cases h

theorem readLexeme_isReadable {c : Char} {rest after : List Char} {name : String}
    (h : readLexeme c rest = .ok (.operator name, after)) : Operator.IsReadable name := by
  have hread : IsRead c rest (.operator name) := isRead_readLexeme h
  generalize hl : Lexeme.operator name = l at hread
  cases hread with
  | delimiter h => subst hl; unfold delimiter? at h; split at h <;> cases h
  | leftBracket | leftDouble | text | name => cases hl
  | number h =>
    rcases Numeral.read_cases h with ⟨n, hn, -⟩ | ⟨value, _, hvalue, -⟩
    · rw [hn] at hl; cases hl
    · rw [hvalue] at hl; cases hl
  | word h => exact readWord_isReadable h hl.symm

namespace TokenText

/-- A text that starts with the first character of a lexeme splits into a lexeme and more. -/
theorem Scans.exists_lexeme {p stop : Position} {afterBreak : Bool} {c : Char} {rest : List Char}
    {ts : List Token} (h : Scans p afterBreak (c :: rest) ts stop) (hblank : isBlank c = false)
    (hcomment : c ≠ '#') (hbreak : c ≠ '\n') :
    ∃ l after more, ts = ⟨l, p⟩ :: more ∧ readLexeme c rest = .ok (l, after) := by
  cases h with
  | blank h =>
    rw [hblank] at h
    cases h
  | comment => exact absurd rfl hcomment
  | merged | lineBreak => exact absurd rfl hbreak
  | lexeme _ _ _ hread => exact ⟨_, _, _, rfl, hread⟩

/-- Every operator in a text can be read back. -/
theorem Scans.isReadable {p stop : Position} {afterBreak : Bool} {cs : List Char} {ts : List Token}
    (h : Scans p afterBreak cs ts stop) :
    ∀ t ∈ ts, ∀ name, t.lexeme = .operator name → Operator.IsReadable name := by
  induction h with
  | done => exact fun t ht => absurd ht List.not_mem_nil
  | blank _ _ ih => exact ih
  | comment _ ih => exact ih
  | merged _ ih => exact ih
  | lineBreak _ ih => exact List.forall_mem_cons.mpr ⟨nofun, ih⟩
  | lexeme _ _ _ hread _ ih =>
    refine List.forall_mem_cons.mpr ⟨fun name hname => ?_, ih⟩
    dsimp only at hname
    subst hname
    exact readLexeme_isReadable hread

/-- The names that are read as one operator are those that can be read back. -/
theorem ofText_eq_operator_iff (name : String) :
    (∃ stop, ofText name = .ok ⟨[⟨.operator name, .start⟩], stop⟩) ↔ Operator.IsReadable name := by
  constructor
  · rintro ⟨stop, h⟩
    exact (scans_of_scan h).isReadable _ (List.mem_singleton_self _) name rfl
  · intro h
    have hreadable : (Lexeme.operator name).IsReadable := h
    have hend : ∀ c ∈ ([] : List Char).head?, (Lexeme.operator name).endsBefore c = true :=
      fun c hc => absurd hc (Option.not_mem_none c)
    have hread := readLexeme_spelling hreadable hend
    obtain ⟨q, hq⟩ := scan_lexeme hread .start false
    refine ⟨q, ?_⟩
    rw [List.append_nil] at hq
    rw [ofText, show name.toList = (Lexeme.operator name).spelling from rfl, hq, scan]
    rfl

end TokenText

/-! ## Trees that start with an operator -/

namespace Parser

open Printer (isCall unnamed)

/-- A call of a call, or a call with a call as an argument. -/
def HasCallPart : Node → Prop
  | .call head args _ => isCall head = true ∨ ∃ a ∈ args, isCall a.value = true
  | _ => False

variable {region : Region} {power : Nat} {left n : Node} {t : Token} {ts rest : Tokens}
  {name : String} {p : Position}

theorem HasCallPart.isCall (h : HasCallPart n) : isCall n = true := by
  cases n with
  | call => rfl
  | _ => exact h.elim

theorem hasCallPart_of_mem {args : List (Arg Node)} {head : Node} (hleft : isCall left = true)
    (hmem : unnamed left ∈ args) : HasCallPart (.call head args p) :=
  .inr ⟨_, hmem, hleft⟩

theorem combine_hasCallPart {right : Node} (h : combine name p left right = .ok n)
    (hleft : isCall left = true) : HasCallPart n := by
  cases combine_eq_ok_iff.mp h with
  | reversed =>
    exact hasCallPart_of_mem hleft (List.mem_cons_of_mem _ List.mem_cons_self)
  | piped | kept => exact hasCallPart_of_mem hleft List.mem_cons_self

/-- What is made of a call has it as a part. -/
theorem operatorForm_hasCallPart (h : Reads (.operatorForm region t left) ts (.node n) rest)
    (hleft : isCall left = true) : HasCallPart n := by
  cases h with
  | application => exact .inl hleft
  | index => exact hasCallPart_of_mem hleft List.mem_cons_self
  | doubleIndex => exact hasCallPart_of_mem hleft List.mem_cons_self
  | member => exact hasCallPart_of_mem hleft List.mem_cons_self
  | binary _ _ _ _ _ hcombine => exact combine_hasCallPart hcombine hleft

/-- What operators make of a call has a call as a part, or there are no operators. -/
theorem operators_hasCallPart {g : Goal} {r : Phrase} (h : Reads g ts r rest) :
    ∀ region power left n, g = .operators region power left → r = .node n → isCall left = true →
      n = left ∨ HasCallPart n := by
  -- by the operators read: what one operator makes of a call is a call for the next one
  induction h with
  | done =>
    intro _ _ _ _ hg hr _
    cases hg
    cases hr
    exact .inl rfl
  | more _ _ hform _ _ ih =>
    intro _ _ _ _ hg hr hleft
    cases hg
    cases hr
    have hpart := operatorForm_hasCallPart hform hleft
    rcases ih _ _ _ _ rfl rfl hpart.isCall with rfl | hmore
    · exact .inr hpart
    · exact .inr hmore
  | _ =>
    intro _ _ _ _ hg
    cases hg

theorem combine_special (h : Operator.isSpecial name = true) (left right : Node) :
    combine name p left right =
      .ok (.call (.symbol name p) [unnamed left, unnamed right] left.position) := by
  obtain ⟨-, -, hinfix⟩ := Operator.notMem_of_isSpecial h
  refine combine_eq_ok_iff.mpr (.kept right fun hmem => hinfix ?_)
  exact List.mem_append_left ["$", "@", "::", ":::"] hmem

/-- An expression that starts with a symbol and a special operator is a call of the operator, or
some part of it is a call. -/
theorem expression_special {op : String} {q : Position} (hop : Operator.isSpecial op = true)
    (h : Reads (.expression .top 0) (⟨.symbol name, p⟩ :: ⟨.operator op, q⟩ :: ts) (.node n) rest) :
    (∃ args s, n = .call (.symbol op q) args s) ∨ HasCallPart n := by
  have hbinary := Operator.binary?_of_isSpecial hop
  cases h with
  | expression hvisible hoperand hoperators =>
    cases hvisible
    cases hoperand with
    | literal h => cases h
    | symbol h =>
      -- a special operator binds more than the power at the start of an expression
      cases h
      cases hoperators with
      | done hstop =>
        have := hstop _ rfl
        rw [leftPower, hbinary] at this
        exact absurd this (by decide)
      | more hvisible _ hform hmore =>
        cases hvisible
        cases hform with
        | application h | index h | doubleIndex h => cases h
        | member h htakes =>
          cases h
          rcases htakes with rfl | rfl | ⟨rfl | rfl, -⟩ <;> exact absurd hop (by decide)
        | binary h _ _ _ _ hcombine =>
          cases h
          rw [combine_special hop] at hcombine
          cases hcombine
          rcases operators_hasCallPart hmore _ _ _ _ rfl rfl rfl with rfl | hpart
          · exact .inl ⟨_, _, rfl⟩
          · exact .inr hpart
    | prefixed h | group h | block h | conditional h | alternative h | whileLoop h | forLoop h
    | repeatLoop h | definition h | breakJump h | nextJump h => cases h

end Parser

/-! ## Calls of two symbols -/

theorem Source.expression_eq_ok_iff {s : Source} {n : Node} :
    s.expression = .ok n ↔ s.program = .ok [n] := by
  rw [expression]
  cases hprogram : s.program with
  | error e => exact ⟨nofun, nofun⟩
  | ok ns =>
    match ns with
    | [] => exact ⟨nofun, nofun⟩
    | [m] => exact ⟨fun h => by cases h; rfl, fun h => by cases h; rfl⟩
    | _ :: _ :: _ => exact ⟨nofun, nofun⟩

namespace Node

open Printer (unnamed)

/-- A call of the name with two symbols. -/
inductive IsOperation (name : String) : Node → Prop
  | intro {left right : String} (p q r s : Position) : left ≠ "" → right ≠ "" →
      IsOperation name
        (.call (.symbol name p) [unnamed (.symbol left q), unnamed (.symbol right r)] s)

/-- The tree comes back from its text. -/
def Returns (n : Node) (source : String) : Prop :=
  ∃ m, (Source.mk n.render source).expression = .ok m ∧ n.same m = true

variable {name left right : String}

/-- A special operator is written between its operands. -/
theorem render_special (h : Operator.isSpecial name = true) (p q r s : Position) :
    (Node.call (.symbol name p) [unnamed (.symbol left q), unnamed (.symbol right r)] s).render =
      String.ofList (Spelling.name left ++ ' ' :: (name.toList ++ ' ' :: Spelling.name right)) := by
  obtain ⟨hmember, hqualifier, hinfix⟩ := Operator.notMem_of_isSpecial h
  have hgap : ¬ (name = "^" ∨ name = ":") := by
    rintro (rfl | rfl) <;> exact absurd h (by decide)
  have hform := Printer.specialForm?_of_hasForm (.binary
    (.symbol left q, Printer.fragment (.symbol left q))
    (.symbol right r, Printer.fragment (.symbol right r)) (Operator.binary?_of_isSpecial h) hmember
    hqualifier hinfix)
  have hlayout : (Node.call (.symbol name p)
      [unnamed (.symbol left q), unnamed (.symbol right r)] s).layout =
      [.symbol left, .space, .operator name, .space, .symbol right] := by
    rw [Printer.binaryForm, if_neg hgap] at hform
    simp only [Printer.fragment] at hform
    simp only [layout, Printer.fragment, Printer.fragmentArgs, Printer.callFragment, hform]
    split <;> rfl
  rw [render, hlayout]
  simp only [Layout.spelling_cons]
  rw [show Layout.spelling Printer.standardIndent.toList [] = [] from rfl, List.append_nil]
  rfl

/-- The text of a call of a special name starts with a symbol and a special operator that can be
read. -/
theorem tokens_special (h : Operator.isSpecial name = true) (hleft : left ≠ "") {rest : List Char}
    {t : TokenText}
    (ht : TokenText.ofText
      (String.ofList (Spelling.name left ++ ' ' :: (name.toList ++ rest))) = .ok t) :
    ∃ op q ts, t.tokens = ⟨.symbol left, .start⟩ :: ⟨.operator op, q⟩ :: ts ∧
      Operator.isSpecial op = true ∧ Operator.IsReadable op := by
  have hsymbol : (Lexeme.symbol left).IsReadable := hleft
  have hspace : ∀ c ∈ (' ' :: (name.toList ++ rest)).head?,
      (Lexeme.symbol left).endsBefore c = true :=
    fun c hc => endsBefore_blank _ (.inl (Option.some.inj hc).symm)
  obtain ⟨q, hq⟩ := TokenText.scan_lexeme (readLexeme_spelling hsymbol hspace) .start false
  have hblanks : ∀ c ∈ [' '], isBlank c = true := List.all_eq_true.mp (by decide)
  obtain ⟨q', hq'⟩ := TokenText.scan_blanks hblanks q false (name.toList ++ rest)
  rw [TokenText.ofText, String.toList_ofList,
    show Spelling.name left = (Lexeme.symbol left).spelling from rfl, hq] at ht
  obtain ⟨u, hu, rfl⟩ := Literal.map_eq_ok ht
  have hscan := TokenText.scans_of_scan (hq'.symm.trans hu)
  rw [Operator.toList_of_isSpecial h] at hscan
  obtain ⟨l, after, ts, htokens, hread⟩ :=
    hscan.exists_lexeme (by decide) (by decide) (by decide)
  rw [readLexeme_operator (by decide)] at hread
  obtain ⟨op, hop, hopSpecial, hopReadable⟩ := readWord_special hread
  dsimp only at hop
  subst hop
  exact ⟨op, q', ts, by rw [htokens], hopSpecial, hopReadable⟩

theorem IsOperation.returns {n : Node} (h : n.IsOperation name)
    (hreadable : Operator.IsReadable name) (source : String) :
    n.Returns source := by
  cases h with
  | @intro left right p q r s hleft hright =>
    have hspelling : (Lexeme.operator name).spelling ≠ [] := spelling_ne_nil hreadable
    have hname : name ≠ "" := by
      rintro rfl
      exact hspelling rfl
    have hwritable : ∀ n ∈ [Node.call (.symbol name p)
        [unnamed (.symbol left q), unnamed (.symbol right r)] s], n.WellFormed ∧ n.Writable := by
      refine List.forall_mem_singleton.mpr ⟨⟨rfl, rfl, hname, ?_⟩, ?_⟩
      · exact ⟨nofun, rfl, hleft, nofun, rfl, hright, trivial⟩
      · refine .call s (.symbol name p) ?_ ?_
        · exact List.forall_mem_cons.mpr
            ⟨.symbol left q, List.forall_mem_singleton.mpr (.symbol right r)⟩
        · rintro _ _ _ _ ⟨⟩ - hspecial
          exact hreadable.isUnbroken hspecial
    have hunguarded : (Node.call (.symbol name p)
        [unnamed (.symbol left q), unnamed (.symbol right r)] s).IsUnguarded := by
      refine List.forall_mem_cons.mpr ⟨⟨id, nofun⟩, List.forall_mem_cons.mpr ⟨⟨id, nofun⟩, ?_⟩⟩
      exact List.forall_mem_cons.mpr ⟨⟨id, nofun⟩, List.forall_mem_singleton.mpr ⟨id, nofun⟩⟩
    obtain ⟨again, hagain, hreads, -⟩ := exists_program_rendered hwritable source
    cases hreads with
    | cons hread hrest =>
      cases hrest
      refine ⟨_, ?_, hread.same_of_unguarded hunguarded⟩
      rw [renderProgram, List.map_singleton, String.intercalate_singleton] at hagain
      exact Source.expression_eq_ok_iff.mpr hagain

theorem isCall_of_same {n m : Node} (h : n.same m = true) :
    Printer.isCall m = Printer.isCall n := by
  cases n with
  | call =>
    cases m with
    | call => rfl
    | _ => cases h
  | _ =>
    cases m with
    | call => cases h
    | _ => rfl

theorem exists_same_of_sameArgs {as bs : List (Arg Node)} (h : sameArgs as bs = true) {b : Arg Node}
    (hb : b ∈ bs) : ∃ a ∈ as, a.value.same b.value = true := by
  induction bs generalizing as with
  | nil => cases hb
  | cons b' bs ih =>
    cases as with
    | nil => cases h
    | cons a as =>
      rw [sameArgs, Bool.and_eq_true, Bool.and_eq_true] at h
      rcases List.mem_cons.mp hb with rfl | hb
      · exact ⟨a, List.mem_cons_self, h.1.2⟩
      · obtain ⟨a', ha', hsame⟩ := ih h.2 hb
        exact ⟨a', List.mem_cons_of_mem a ha', hsame⟩

/-- No part of a call of two symbols is a call. -/
theorem IsOperation.not_hasCallPart {n m : Node} (h : n.IsOperation name)
    (hsame : n.same m = true) : ¬ Parser.HasCallPart m := by
  cases h with
  | intro =>
    cases m with
    | call head args =>
      rw [Node.same, Bool.and_eq_true] at hsame
      rintro (hhead | ⟨a, ha, hcall⟩)
      · rw [isCall_of_same hsame.1] at hhead
        cases hhead
      · obtain ⟨b, hb, hvalue⟩ := exists_same_of_sameArgs hsame.2 ha
        rw [isCall_of_same hvalue] at hcall
        simp only [List.mem_cons, List.not_mem_nil, or_false] at hb
        rcases hb with rfl | rfl <;> cases hcall
    | _ => exact id

/-- A call of a special name that cannot be read does not come back from its text. -/
theorem IsOperation.not_returns {n : Node} (h : n.IsOperation name)
    (hspecial : Operator.isSpecial name = true) (hnot : ¬ Operator.IsReadable name)
    (source : String) : ¬ n.Returns source := by
  rintro ⟨m, hm, hsame⟩
  have hparts := h.not_hasCallPart hsame
  cases h with
  | @intro left right p q r s hleft hright =>
    -- the text starts with the left symbol and some operator `op` that can be read
    rw [Source.expression_eq_ok_iff, render_special hspecial, Source.program_eq_ok_iff] at hm
    obtain ⟨t, ht, hprogram⟩ := hm
    obtain ⟨op, place, ts, htokens, hop, hreadable⟩ := tokens_special hspecial hleft ht
    rw [htokens, Parser.program_eq_ok_iff] at hprogram
    cases hprogram with
    | cons hskip hexpression =>
      cases hskip
      rcases Parser.expression_special hop hexpression with ⟨args, place', rfl⟩ | hpart
      · -- the tree is a call of the operator that was read
        rw [Node.same, Bool.and_eq_true, Node.same, beq_iff_eq] at hsame
        obtain rfl := hsame.1
        exact hnot hreadable
      · exact hparts hpart

end Node

/-- The table of operators and the lexer agree on a name if and only if nothing ends the operator
between its percent signs. Exactly then the name alone is read as the operator, and exactly then a
call of it with two symbols comes back from its text. -/
theorem Operator.reads_back_iff {name : String} (hname : binary? name ≠ none) :
    ((∃ stop, TokenText.ofText name = .ok ⟨[⟨.operator name, .start⟩], stop⟩) ↔
      IsUnbroken name) ∧
    ∀ n : Node, n.IsOperation name → ∀ source,
      (n.Returns source ↔ IsUnbroken name) := by
  rw [← isReadable_iff hname]
  refine ⟨TokenText.ofText_eq_operator_iff name, fun n hn source => ?_⟩
  refine ⟨fun hreturns => ?_, fun hreadable => hn.returns hreadable source⟩
  by_contra hnot
  -- the other operators of the table can all be read
  have hspecial : isSpecial name = true := by
    by_contra hplain
    exact hnot ((isReadable_iff hname).mpr fun h => absurd h hplain)
  exact hn.not_returns hspecial hnot source hreturns

theorem Operator.reads_back_iff_in :
    binary? "%in%" ≠ none ∧
    (∃ stop, TokenText.ofText "%in%" = .ok ⟨[⟨.operator "%in%", .start⟩], stop⟩) ∧
    (Node.call (.symbol "%in%" .nowhere)
      [⟨none, .symbol "x" .nowhere⟩, ⟨none, .symbol "if" .nowhere⟩] .nowhere).Returns
        "<input>" := by
  have hname : binary? "%in%" ≠ none := by decide
  have hinner : IsUnbroken "%in%" := fun _ => by decide
  obtain ⟨htokens, hcalls⟩ := reads_back_iff hname
  refine ⟨hname, htokens.mpr hinner, (hcalls _ ?_ "<input>").mpr hinner⟩
  exact .intro .nowhere .nowhere .nowhere .nowhere (by decide) (by decide)

/-- The table takes `%a%b%c%` for an operator, but it is read as the operators `%a%` and `%c%` with
`b` between them, and a call of it comes back as a call of `%c%`. -/
theorem Operator.reads_apart :
    binary? "%a%b%c%" = some ⟨specialPower, false⟩ ∧
    TokenText.ofText "%a%b%c%" = .ok ⟨[⟨.operator "%a%", ⟨1, 1⟩⟩, ⟨.symbol "b", ⟨1, 4⟩⟩,
      ⟨.operator "%c%", ⟨1, 5⟩⟩], ⟨1, 8⟩⟩ ∧
    (Node.call (.symbol "%a%b%c%" .nowhere)
      [⟨none, .symbol "x" .nowhere⟩, ⟨none, .symbol "y" .nowhere⟩] .nowhere).render =
        "x %a%b%c% y" ∧
    (Source.mk "x %a%b%c% y" "<input>").expression =
      .ok (.call (.symbol "%c%" ⟨1, 7⟩) [⟨none, .call (.symbol "%a%" ⟨1, 3⟩)
        [⟨none, .symbol "x" ⟨1, 1⟩⟩, ⟨none, .symbol "b" ⟨1, 6⟩⟩] ⟨1, 1⟩⟩,
        ⟨none, .symbol "y" ⟨1, 11⟩⟩] ⟨1, 1⟩) := by
  refine ⟨by decide, by cbv, ?_, by cbv⟩
  rw [Node.render_special (by decide)]
  decide

end RCode
