import RCode.Proofs.Node.SourceOrder
import RCode.Proofs.Reformatting
import RCode.Proofs.Surveys

/-!
# Uses of deprecated names

A survey of deprecated names lists each of their uses in a program once, with its place, and the
workbench gives a warning for each of them in the same order. In general this is the order of the
nodes and not that of the text: an operator comes before its operands, and a rightward assignment or a
pipe moves operands (`Source.program_uses_ordered`). A survey of other names in a text without such
operators keeps to the order of the text.
-/

set_option autoImplicit false

namespace RCode

/-- The nodes are in the order in which they stand in a text. -/
def Node.InTextOrder (nodes : List Node) : Prop :=
  nodes.Pairwise fun i j => i.position < j.position

instance (nodes : List Node) : Decidable (Node.InTextOrder nodes) :=
  inferInstanceAs (Decidable (nodes.Pairwise fun i j => i.position < j.position))

/-! ## First uses -/

namespace Survey

/-- Where items are in order, the first one with the one name stands before all those with the
other. -/
theorem exists_first {α : Type} {R : α → α → Prop} {f : α → Option String} {items : List α}
    {a b : String} (h : items.Pairwise R) (ha : a ∈ items.filterMap f)
    (hlt : (items.filterMap f).idxOf a < (items.filterMap f).idxOf b) :
    ∃ i ∈ items, f i = some a ∧ ∀ j ∈ items, f j = some b → R i j := by
  induction items with
  | nil => cases ha
  | cons k rest ih =>
    obtain ⟨hk, hrest⟩ := List.pairwise_cons.mp h
    cases hname : f k with
    | none =>
      rw [List.filterMap_cons_none hname] at ha hlt
      obtain ⟨i, hi, hia, hij⟩ := ih hrest ha hlt
      refine ⟨i, List.mem_cons_of_mem k hi, hia, List.forall_mem_cons.mpr ⟨fun hb => ?_, hij⟩⟩
      rw [hname] at hb
      cases hb
    | some c =>
      rw [List.filterMap_cons_some hname] at ha hlt
      have hcb : c ≠ b := by
        rintro rfl
        rw [List.idxOf_cons_self] at hlt
        exact Nat.not_lt_zero _ hlt
      have hkb : f k ≠ some b := by
        rw [hname]
        exact fun heq => hcb (Option.some.inj heq)
      by_cases hca : c = a
      · subst hca
        exact ⟨k, List.mem_cons_self, hname,
          List.forall_mem_cons.mpr ⟨fun hb => absurd hb hkb, fun j hj _ => hk j hj⟩⟩
      · rw [List.idxOf_cons_ne _ hca, List.idxOf_cons_ne _ hcb] at hlt
        have hmem := List.mem_of_ne_of_mem (Ne.symm hca) ha
        obtain ⟨i, hi, hia, hij⟩ := ih hrest hmem (Nat.lt_of_succ_lt_succ hlt)
        exact ⟨i, List.mem_cons_of_mem k hi, hia,
          List.forall_mem_cons.mpr ⟨fun hb => absurd hb hkb, hij⟩⟩

/-- If the uses are in the order of the text, then the names are listed in the order of their first
uses in it. -/
theorem Deprecated.byName_ordered {d : Deprecated} (h : Node.InTextOrder d.found) :
    d.byName.Pairwise fun a b => ∃ i ∈ d.found, i.name? = some a.1 ∧
      ∀ j ∈ d.found, j.name? = some b.1 → i.position < j.position := by
  have horder := pairwise_eraseDups (d.found.filterMap Node.name?)
  rw [byName, tally, List.pairwise_map]
  exact horder.imp_of_mem fun ha _ hlt => exists_first h (List.mem_eraseDups.mp ha) hlt

end Survey

/-! ## Warnings -/

namespace Workbench

namespace Task

variable {α β ε : Type} {s : Settings}

/-- The task succeeds and gives these warnings. -/
def Warns (task : Task α) (s : Settings) (a : α) (warnings : List String) : Prop :=
  ∀ j, ∃ k, perform task s j = (.ok a, k) ∧ k.warnings = j.warnings ++ warnings

/-- The task gives these warnings, whether it succeeds or not. -/
def Gives (task : Task α) (s : Settings) (warnings : List String) : Prop :=
  ∀ j, (perform task s j).2.warnings = j.warnings ++ warnings

theorem Warns.gives {task : Task α} {a : α} {ws : List String} (h : Warns task s a ws) :
    Gives task s ws := by
  intro j
  obtain ⟨k, hk, hwarnings⟩ := h j
  rw [hk]
  exact hwarnings

theorem warns_pure (a : α) : Warns (pure a) s a [] :=
  fun j => ⟨j, rfl, (List.append_nil _).symm⟩

theorem warns_read : Warns read s s [] :=
  fun j => ⟨j, rfl, (List.append_nil _).symm⟩

theorem Warns.bind {task : Task α} {f : α → Task β} {a : α} {b : β} {ws vs : List String}
    (h : Warns task s a ws) (hf : Warns (f a) s b vs) : Warns (task >>= f) s b (ws ++ vs) := by
  intro j
  obtain ⟨k, hk, hwarnings⟩ := h j
  obtain ⟨k', hk', hwarnings'⟩ := hf k
  refine ⟨k', ?_, ?_⟩
  · rw [perform_bind, hk]
    exact hk'
  · rw [hwarnings', hwarnings, List.append_assoc]

/-- A task goes on with warnings after a step that succeeds. -/
theorem Warns.gives_bind {task : Task α} {f : α → Task β} {a : α} {ws vs : List String}
    (h : Warns task s a ws) (hf : Gives (f a) s vs) : Gives (task >>= f) s (ws ++ vs) := by
  intro j
  obtain ⟨k, hk, hwarnings⟩ := h j
  rw [perform_bind, hk]
  exact (hf k).trans (by rw [hwarnings, List.append_assoc])

/-- A task that goes on without warnings gives those of its first step only. -/
theorem Gives.bind_silent {task : Task α} {f : α → Task β} {ws : List String}
    (h : Gives task s ws) (hf : ∀ a, Gives (f a) s []) : Gives (task >>= f) s ws := by
  intro j
  have hfirst := h j
  rw [perform_bind]
  rcases hperform : perform task s j with ⟨r, k⟩
  rw [hperform] at hfirst
  cases r with
  | ok a => exact (hf a k).trans ((List.append_nil _).trans hfirst)
  | error e => exact hfirst

theorem gives_ofExcept (error : ε → TaskError) (x : Except ε α) : Gives (ofExcept error x) s [] := by
  intro j
  rw [perform_ofExcept, List.append_nil]

theorem warns_ofExcept (error : ε → TaskError) {x : Except ε α} {a : α} (h : x = .ok a) :
    Warns (ofExcept error x) s a [] := by
  intro j
  rw [perform_ofExcept, h]
  exact ⟨j, rfl, (List.append_nil _).symm⟩

/-- What is written down is no warning. -/
theorem warns_write (lines : List String) : Warns (write lines) s () [] := by
  intro j
  unfold write
  rw [perform_bind]
  have hread : perform read s j = (.ok s, j) := rfl
  rw [hread]
  dsimp only
  split
  · exact ⟨_, rfl, (List.append_nil _).symm⟩
  · exact ⟨_, rfl, (List.append_nil _).symm⟩

theorem warns_warn (code message : String) :
    Warns (warn code message) s () [code ++ ": " ++ message] := by
  have hnoted : Warns
      (modify fun j => { j with warnings := j.warnings ++ [code ++ ": " ++ message] }) s ()
      [code ++ ": " ++ message] := fun j => ⟨_, rfl, rfl⟩
  exact hnoted.bind (warns_write ["[rexpr] " ++ ("Warning: " ++ (code ++ ": " ++ message))])

/-- A warning for each item. -/
theorem warns_each (items : List α) (code : String) (message : α → String) :
    Warns (forIn items PUnit.unit fun i _ => do
      warn code (message i)
      pure (ForInStep.yield PUnit.unit)) s PUnit.unit
      (items.map fun i => code ++ ": " ++ message i) := by
  induction items with
  | nil => exact warns_pure PUnit.unit
  | cons i rest ih =>
    rw [List.forIn_cons, List.map_cons, bind_assoc]
    refine (warns_warn code (message i)).bind ?_
    rw [pure_bind]
    exact ih

theorem warns_log (message : String) : Warns (log message) s () [] :=
  warns_write _

end Task

variable {s : Settings} {text : String} {nodes : List Node}

theorem warns_nameOr_none : (nameOr none).Warns s s.sourceName [] :=
  fun j => ⟨j, rfl, (List.append_nil _).symm⟩

/-- The name of the settings is not replaced, also if it is empty. -/
theorem warns_nameOr_sourceName : (nameOr (some s.sourceName)).Warns s s.sourceName [] := by
  intro j
  have hname : ((some s.sourceName).filter (· ≠ "")).getD s.sourceName = s.sourceName := by
    rw [Option.filter_some]
    split
    · rfl
    · rfl
  refine ⟨j, ?_, (List.append_nil _).symm⟩
  exact congrArg (fun name => (Except.ok name, j)) hname

/-- Parsing gives no warnings. -/
theorem warns_parse (h : (Source.mk text s.sourceName).program = .ok nodes) :
    (parse text (some s.sourceName)).Warns s nodes [] := by
  obtain ⟨t, htokens, hnodes⟩ := bind_eq_ok h
  unfold parse
  refine warns_nameOr_sourceName.bind ((Task.warns_log _).bind ?_)
  refine (Task.warns_ofExcept _ htokens).bind ((Task.warns_log _).bind ?_)
  exact (Task.warns_ofExcept _ hnodes).bind ((Task.warns_log _).bind (Task.warns_pure nodes))

/-- The warnings about the uses of deprecated names. -/
def usesWarnings (name : String) (uses : List Node) : List String :=
  uses.map fun n => "RX0101: " ++ Deprecation.warning name (n.name?.getD "") n.position

/-- An analysis gives a warning for each use that its survey has found, in the same order. Whether it
can go on after that depends on the search for global names. -/
theorem gives_analyze (h : (Source.mk text s.sourceName).program = .ok nodes) :
    (analyze (.text text) none).Gives s
      (usesWarnings s.sourceName (Survey.Deprecated.ofProgram s.deprecated nodes).found) := by
  unfold analyze
  refine warns_nameOr_none.gives_bind ?_
  refine (warns_parse h).gives_bind ?_
  refine (Task.warns_log _).gives_bind ?_
  refine Task.warns_read.gives_bind ?_
  refine (Task.warns_write _).gives_bind ?_
  -- what comes after the warnings may fail, but gives no further ones
  have hrest : ∀ u : PUnit, Task.Gives (do
      let assigned := Survey.Assigned.ofProgram nodes
      write assigned.lines
      let globals ← Task.ofExcept .node (Survey.Globals.ofProgram s.withFunctions nodes)
      write globals.lines
      return (⟨nodes.length, assigned.names, globals.names,
        (Survey.Deprecated.ofProgram s.deprecated nodes).found⟩ : Report)) s [] := by
    intro _
    refine (Task.warns_write _).gives_bind ?_
    refine (Task.gives_ofExcept _ _).bind_silent fun globals => ?_
    exact (Task.warns_write _).gives_bind (Task.warns_pure _).gives
  exact Task.Gives.bind_silent (Task.warns_each _ _ _).gives hrest

end Workbench

/-! ## Texts -/

namespace Source

variable {s : Source} {ns : List Node}

/-- The trees of a text cover its tokens, one after the other. -/
theorem program_covers (h : s.program = .ok ns) :
    ∃ t, TokenText.ofText s.text = .ok t ∧ Parser.CoversEach t.tokens t.tokens [] ns := by
  obtain ⟨t, ht, hns⟩ := program_eq_ok_iff.mp h
  have hascending := (TokenText.scans_of_scan ht).ascending.2
  exact ⟨t, ht, (Parser.program_eq_ok_iff.mp hns).lays hascending (List.suffix_refl _)⟩

/-- The uses in a program are in the order of the text exactly if those in each of its trees are. -/
theorem inTextOrder_programUses {us ts rest : List Token} {names : List String}
    (h : Parser.CoversEach us ts rest ns) :
    Node.InTextOrder (Node.programUses names ns) ↔
      ∀ n ∈ ns, Node.InTextOrder (n.symbolsNamed names) := by
  rw [Node.InTextOrder, Node.programUses, List.pairwise_flatMap]
  exact and_iff_left (h.ordered.imp fun hprecedes => hprecedes.symbols)

/-- Each use of some names in a program is listed once, at the place of a token of its own. The uses
in a tree are in the order of the text exactly if any two children of a node are that both hold such
uses, and those in a program if this is so in all trees. If the text has no rightward assignment and no
pipe and none of the names is that of an operator, they are always in this order. The names are then
counted in the order of their first uses, and the warnings always come in the order of the list. -/
theorem program_uses_ordered (h : s.program = .ok ns) (names : List String) :
    let survey := Survey.Deprecated.ofProgram names ns
    ∃ t, TokenText.ofText s.text = .ok t ∧
      (∀ n ∈ ns,
        n.symbolsNamed names = n.preorder.filter (Node.isSymbolOf names) ∧
        (∀ k ∈ n.symbolsNamed names, ∃ u ∈ t.tokens, u.position = k.position) ∧
        (n.symbolsNamed names).Pairwise (fun i j => i.position ≠ j.position) ∧
        (Node.InTextOrder (n.symbolsNamed names) ↔
          ∀ k ∈ n.preorder, k.children.Pairwise fun c d =>
            c.uses names = true → d.uses names = true → c.position < d.position)) ∧
      (Node.InTextOrder survey.found ↔ ∀ n ∈ ns, Node.InTextOrder (n.symbolsNamed names)) ∧
      ((∀ u ∈ t.tokens, ¬ u.lexeme.MovesOperands) → (∀ name ∈ names, ¬ Operator.IsInfix name) →
        Node.InTextOrder survey.found) ∧
      (Node.InTextOrder survey.found → survey.byName.Pairwise fun a b =>
        ∃ i ∈ survey.found, i.name? = some a.1 ∧
          ∀ j ∈ survey.found, j.name? = some b.1 → i.position < j.position) ∧
      ∀ settings : Workbench.Settings, settings.sourceName = s.name → settings.deprecated = names →
        (Workbench.analyze (.text s.text) none).Gives settings
          (Workbench.usesWarnings s.name survey.found) := by
  intro survey
  obtain ⟨t, ht, hcovers⟩ := program_covers h
  have harranged : ∀ n ∈ ns, ∀ k ∈ n.preorder, k.Arranged t.tokens :=
    fun n hn => (hcovers.covers n hn).arranged
  refine ⟨t, ht, fun n hn => ⟨n.symbolsNamed_eq names, fun k hk => ?_, ?_, ?_⟩, ?_, ?_, ?_, ?_⟩
  · obtain ⟨hk, hmissing⟩ := Node.mem_preorder_of_symbolsNamed hk
    exact ((hcovers.covers n hn).stands k hk hmissing).1
  · exact Node.distinct_symbolsNamed (harranged n hn)
  · exact Node.ascending_symbolsNamed_iff (harranged n hn)
  · exact inTextOrder_programUses hcovers
  · intro hmoves hnames
    exact (inTextOrder_programUses hcovers).mpr fun n hn =>
      Node.ascending_symbolsNamed (harranged n hn) hmoves hnames
  · exact Survey.Deprecated.byName_ordered
  · rintro settings hname rfl
    have hsource : (Source.mk s.text settings.sourceName).program = .ok ns := by
      rw [hname]
      exact h
    rw [← hname]
    exact Workbench.gives_analyze hsource

/-- The two uses in a function call. -/
theorem program_uses_ordered_call :
    ∃ n, (Source.mk "x <- f(T, F)" "<input>").program = .ok [n] ∧
      Node.InTextOrder (n.symbolsNamed ["T", "F"]) := by
  have h : (Source.mk "x <- f(T, F)" "<input>").program =
      .ok [.call (.symbol "<-" ⟨1, 3⟩) [⟨none, .symbol "x" ⟨1, 1⟩⟩,
        ⟨none, .call (.symbol "f" ⟨1, 6⟩) [⟨none, .symbol "T" ⟨1, 8⟩⟩, ⟨none, .symbol "F" ⟨1, 11⟩⟩]
          ⟨1, 6⟩⟩] ⟨1, 1⟩] := by cbv
  obtain ⟨t, ht, htrees, -⟩ := program_uses_ordered h ["T", "F"]
  obtain ⟨-, -, -, horder⟩ := htrees _ List.mem_cons_self
  exact ⟨_, h, horder.mpr (by decide)⟩

/-- In the text `T -> F` the later use comes first. -/
theorem program_uses_reversed :
    ∃ n, (Source.mk "T -> F" "<input>").program = .ok [n] ∧
      n.symbolsNamed ["T", "F"] = [.symbol "F" ⟨1, 6⟩, .symbol "T" ⟨1, 1⟩] ∧
      ¬ Node.InTextOrder (n.symbolsNamed ["T", "F"]) := by
  have h : (Source.mk "T -> F" "<input>").program =
      .ok [.call (.symbol "<-" ⟨1, 3⟩) [⟨none, .symbol "F" ⟨1, 6⟩⟩, ⟨none, .symbol "T" ⟨1, 1⟩⟩]
        ⟨1, 1⟩] := by cbv
  exact ⟨_, h, rfl, by decide⟩

end Source

end RCode
