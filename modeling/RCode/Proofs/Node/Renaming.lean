import RCode.Node.Replacement
import RCode.Proofs.Node.Traversal

/-!
# Renaming symbols

What a replacement of symbols makes of a tree, whether or not it builds anything (`replaced`). The
labels of the nodes in their order tell a tree (`eq_of_labels`), since the label of a call or of a
parameter list says how many children there are. Renaming changes the labels of the renamed symbols
and no other label (`labels_replaced`), and it can be taken back where the new name is not in use
(`erase_replaced_back`).
-/

set_option autoImplicit false

namespace RCode.Node

/-! ## What becomes of a tree -/

/-- The tree with another node for each symbol of a name. -/
def replaced (name : String) (new n : Node) : Node :=
  (replaceSymbol? name new n).getD n

section

variable (name : String) (new : Node)

theorem replaceSymbol?_symbol (s : String) (p : Position) :
    replaceSymbol? name new (.symbol s p) = if s = name then some new else none := rfl

theorem replaceSymbol?_call (head : Node) (args : List (Arg Node)) (p : Position) :
    replaceSymbol? name new (.call head args p) =
      match replaceSymbol? name new head, replaceSymbolArgs? name new args with
      | none, none => none
      | head', args' => some (.call (head'.getD head) (args'.getD args) p) := rfl

theorem replaceSymbol?_params (items : List (Param Node)) (p : Position) :
    replaceSymbol? name new (.params items p) =
      (replaceSymbolParams? name new items).map fun items => .params items p := rfl

theorem replaceSymbolArgs?_cons (a : Arg Node) (rest : List (Arg Node)) :
    replaceSymbolArgs? name new (a :: rest) =
      match replaceSymbol? name new a.value, replaceSymbolArgs? name new rest with
      | none, none => none
      | value', rest' => some (⟨a.name, value'.getD a.value⟩ :: rest'.getD rest) := rfl

theorem replaceSymbolParams?_cons (q : Param Node) (rest : List (Param Node)) :
    replaceSymbolParams? name new (q :: rest) =
      match replaceSymbol? name new q.default, replaceSymbolParams? name new rest with
      | none, none => none
      | default', rest' => some (⟨q.name, default'.getD q.default⟩ :: rest'.getD rest) := rfl

theorem replaceSymbolArgs?_getD (args : List (Arg Node)) :
    (replaceSymbolArgs? name new args).getD args = args.map (Arg.map (replaced name new)) := by
  induction args with
  | nil => rfl
  | cons a rest ih =>
    rw [List.map_cons, ← ih, replaceSymbolArgs?_cons]
    change _ = Arg.mk a.name ((replaceSymbol? name new a.value).getD a.value) :: _
    cases replaceSymbol? name new a.value with
    | none => cases replaceSymbolArgs? name new rest <;> rfl
    | some value => rfl

theorem replaceSymbolParams?_getD (items : List (Param Node)) :
    (replaceSymbolParams? name new items).getD items =
      items.map (Param.map (replaced name new)) := by
  induction items with
  | nil => rfl
  | cons q rest ih =>
    rw [List.map_cons, ← ih, replaceSymbolParams?_cons]
    change _ = Param.mk q.name ((replaceSymbol? name new q.default).getD q.default) :: _
    cases replaceSymbol? name new q.default with
    | none => cases replaceSymbolParams? name new rest <;> rfl
    | some default => rfl

theorem replaced_symbol (s : String) (p : Position) :
    replaced name new (.symbol s p) = if s = name then new else .symbol s p := by
  change (if s = name then some new else none).getD (.symbol s p) = _
  split <;> rfl

theorem replaced_call (head : Node) (args : List (Arg Node)) (p : Position) :
    replaced name new (.call head args p) =
      .call (replaced name new head) (args.map (Arg.map (replaced name new))) p := by
  rw [← replaceSymbolArgs?_getD]
  change (replaceSymbol? name new (.call head args p)).getD _ =
    .call ((replaceSymbol? name new head).getD head) _ p
  rw [replaceSymbol?_call]
  cases replaceSymbol? name new head with
  | none => cases replaceSymbolArgs? name new args <;> rfl
  | some head => rfl

theorem replaced_params (items : List (Param Node)) (p : Position) :
    replaced name new (.params items p) =
      .params (items.map (Param.map (replaced name new))) p := by
  rw [← replaceSymbolParams?_getD]
  change (replaceSymbol? name new (.params items p)).getD _ = _
  rw [replaceSymbol?_params]
  cases replaceSymbolParams? name new items <;> rfl

end

/-! ## Whether anything is built again -/

section

variable {name : String} {new : Node}

theorem replaceSymbolArgs?_eq_none_iff {args : List (Arg Node)}
    (ih : ∀ a ∈ args, replaceSymbol? name new a.value = none ↔ name ∉ a.value.symbolNames) :
    replaceSymbolArgs? name new args = none ↔ name ∉ symbolNamesArgs args := by
  induction args with
  | nil => exact ⟨fun _ => List.not_mem_nil, fun _ => rfl⟩
  | cons a rest tail =>
    obtain ⟨iha, ihrest⟩ := List.forall_mem_cons.mp ih
    change _ ↔ name ∉ a.value.symbolNames ++ symbolNamesArgs rest
    rw [List.mem_append, not_or, ← iha, ← tail ihrest, replaceSymbolArgs?_cons]
    cases replaceSymbol? name new a.value with
    | none => cases replaceSymbolArgs? name new rest <;> simp
    | some value => simp

theorem replaceSymbolParams?_eq_none_iff {items : List (Param Node)}
    (ih : ∀ q ∈ items, replaceSymbol? name new q.default = none ↔ name ∉ q.default.symbolNames) :
    replaceSymbolParams? name new items = none ↔ name ∉ symbolNamesParams items := by
  induction items with
  | nil => exact ⟨fun _ => List.not_mem_nil, fun _ => rfl⟩
  | cons q rest tail =>
    obtain ⟨ihq, ihrest⟩ := List.forall_mem_cons.mp ih
    change _ ↔ name ∉ q.default.symbolNames ++ symbolNamesParams rest
    rw [List.mem_append, not_or, ← ihq, ← tail ihrest, replaceSymbolParams?_cons]
    cases replaceSymbol? name new q.default with
    | none => cases replaceSymbolParams? name new rest <;> simp
    | some default => simp

/-- A tree stays as it is exactly if it has no symbol of the name. -/
theorem replaceSymbol?_eq_none_iff (n : Node) :
    replaceSymbol? name new n = none ↔ name ∉ n.symbolNames := by
  induction n using Node.ind with
  | constant a p => exact ⟨fun _ => List.not_mem_nil, fun _ => rfl⟩
  | missing => exact ⟨fun _ => List.not_mem_nil, fun _ => rfl⟩
  | symbol s p =>
    change _ ↔ name ∉ [s]
    rw [replaceSymbol?_symbol, List.mem_singleton]
    by_cases h : s = name
    · simp [h]
    · simp [h, Ne.symm h]
  | params items p ih =>
    change _ ↔ name ∉ symbolNamesParams items
    rw [replaceSymbol?_params, ← replaceSymbolParams?_eq_none_iff ih, Option.map_eq_none_iff]
  | call head args p ihHead ihArgs =>
    change _ ↔ name ∉ head.symbolNames ++ symbolNamesArgs args
    rw [List.mem_append, not_or, ← ihHead, ← replaceSymbolArgs?_eq_none_iff ihArgs,
      replaceSymbol?_call]
    cases replaceSymbol? name new head with
    | none => cases replaceSymbolArgs? name new args <;> simp
    | some head => simp

theorem replaced_of_not_mem {n : Node} (h : name ∉ n.symbolNames) : replaced name new n = n := by
  have hnone : replaceSymbol? name new n = none := (replaceSymbol?_eq_none_iff n).mpr h
  exact congrArg (Option.getD · n) hnone

/-- Renaming to a name that can stand says whether the tree is built again. -/
theorem rename?_eq {old new : String} (hnew : new ≠ "") (n : Node) :
    n.rename? old new =
      .ok (if old ∈ n.symbolNames then some (replaced old (.symbol new .nowhere) n) else none) := by
  unfold rename? replaced
  have hnone : replaceSymbol? old (.symbol new .nowhere) n = none ↔ old ∉ n.symbolNames :=
    replaceSymbol?_eq_none_iff n
  cases h : replaceSymbol? old (.symbol new .nowhere) n with
  | none =>
    rw [if_neg (hnone.mp h)]
  | some n' =>
    have hmem : old ∈ n.symbolNames := by
      by_contra hmem
      rw [hnone.mpr hmem] at h
      cases h
    rw [if_pos hmem, Option.getD_some]
    exact if_neg hnew

end

/-! ## Labels -/

/-- All that a node says, but for its children. -/
inductive Label where
  | constant (a : Atom) (position : Position)
  | symbol (name : String) (position : Position)
  | missing
  /-- A call of as many arguments, under these names. -/
  | call (names : List (Option String)) (position : Position)
  /-- A list of as many parameters, under these names. -/
  | params (names : List String) (position : Position)

def label : Node → Label
  | .constant a p => .constant a p
  | .symbol name p => .symbol name p
  | .missing => .missing
  | .call _ args p => .call (args.map Arg.name) p
  | .params items p => .params (items.map Param.name) p

/-- The labels of the nodes of a tree, each before those of its children. -/
def labels (n : Node) : List Label :=
  n.preorder.map label

/-- Another label for each symbol of a name. -/
def Label.rename (old new : String) : Label → Label
  | .symbol name p => if name = old then .symbol new .nowhere else .symbol name p
  | l => l

theorem labels_call (head : Node) (args : List (Arg Node)) (p : Position) :
    (Node.call head args p).labels =
      .call (args.map Arg.name) p :: (head.labels ++ args.flatMap fun a => a.value.labels) := by
  rw [labels, preorder_call, preorderArgs_eq, List.map_cons, List.map_append, List.map_flatMap]
  rfl

theorem labels_params (items : List (Param Node)) (p : Position) :
    (Node.params items p).labels =
      .params (items.map Param.name) p :: items.flatMap fun i => i.default.labels := by
  rw [labels, preorder_params, preorderParams_eq, List.map_cons, List.map_flatMap]
  rfl

/-- Rows under the same names are equal if the labels of their values are, where these tell the
values. -/
theorem row_eq_of_labels {α γ : Type} {name : α → γ} {value : α → Node}
    (hext : ∀ a b, name a = name b → value a = value b → a = b) {row : List α}
    (ih : ∀ a ∈ row, ∀ m rest rest', (value a).labels ++ rest = m.labels ++ rest' →
      value a = m ∧ rest = rest') :
    ∀ row' rest rest', row.map name = row'.map name →
      (row.flatMap fun a => (value a).labels) ++ rest =
        (row'.flatMap fun a => (value a).labels) ++ rest' → row = row' ∧ rest = rest' := by
  induction row with
  | nil =>
    intro row' rest rest' hnames h
    cases row' with
    | nil => exact ⟨rfl, h⟩
    | cons b row' => cases hnames
  | cons a row tail =>
    intro row' rest rest' hnames h
    obtain ⟨iha, ihrow⟩ := List.forall_mem_cons.mp ih
    cases row' with
    | nil => cases hnames
    | cons b row' =>
      obtain ⟨hname, hnames⟩ := List.cons.inj hnames
      rw [List.flatMap_cons, List.flatMap_cons, List.append_assoc, List.append_assoc] at h
      obtain ⟨hvalue, h⟩ := iha _ _ _ h
      obtain ⟨rfl, hrest⟩ := tail ihrow row' rest rest' hnames h
      obtain rfl := hext a b hname hvalue
      exact ⟨rfl, hrest⟩

/-- The labels of a tree end where the tree ends, and tell it. -/
theorem eq_of_labels_append (n : Node) : ∀ m rest rest',
    n.labels ++ rest = m.labels ++ rest' → n = m ∧ rest = rest' := by
  induction n using Node.ind with
  | constant a p =>
    intro m rest rest' h
    cases m with
    | constant b q => obtain ⟨⟨⟩, rfl⟩ := List.cons.inj h; exact ⟨rfl, rfl⟩
    | _ => cases (List.cons.inj h).1
  | symbol name p =>
    intro m rest rest' h
    cases m with
    | symbol name' q => obtain ⟨⟨⟩, rfl⟩ := List.cons.inj h; exact ⟨rfl, rfl⟩
    | _ => cases (List.cons.inj h).1
  | missing =>
    intro m rest rest' h
    cases m with
    | missing => exact ⟨rfl, (List.cons.inj h).2⟩
    | _ => cases (List.cons.inj h).1
  | params items p ih =>
    intro m rest rest' h
    cases m with
    | params items' q =>
      rw [labels_params, labels_params, List.cons_append, List.cons_append] at h
      obtain ⟨hlabel, hrow⟩ := List.cons.inj h
      obtain ⟨hnames, rfl⟩ := Label.params.inj hlabel
      have hext : ∀ a b : Param Node, a.name = b.name → a.default = b.default → a = b := by
        rintro ⟨name, n⟩ ⟨_, _⟩ rfl rfl
        rfl
      obtain ⟨rfl, hrest⟩ := row_eq_of_labels hext ih items' rest rest' hnames hrow
      exact ⟨rfl, hrest⟩
    | _ => cases (List.cons.inj h).1
  | call head args p ihHead ihArgs =>
    intro m rest rest' h
    cases m with
    | call head' args' q =>
      rw [labels_call, labels_call, List.cons_append, List.cons_append, List.append_assoc,
        List.append_assoc] at h
      obtain ⟨hlabel, hparts⟩ := List.cons.inj h
      obtain ⟨hnames, rfl⟩ := Label.call.inj hlabel
      obtain ⟨rfl, hrow⟩ := ihHead head' _ _ hparts
      have hext : ∀ a b : Arg Node, a.name = b.name → a.value = b.value → a = b := by
        rintro ⟨name, n⟩ ⟨_, _⟩ rfl rfl
        rfl
      obtain ⟨rfl, hrest⟩ := row_eq_of_labels hext ihArgs args' rest rest' hnames hrow
      exact ⟨rfl, hrest⟩
    | _ => cases (List.cons.inj h).1

/-- Trees with the same labels in the same order are equal. -/
theorem eq_of_labels {m n : Node} (h : m.labels = n.labels) : m = n := by
  have happend : m.labels ++ [] = n.labels ++ [] := by rw [h]
  exact (eq_of_labels_append m n [] [] happend).1

/-- Of all labels of a tree, renaming changes those of the renamed symbols. -/
theorem labels_replaced (old new : String) (n : Node) :
    (replaced old (.symbol new .nowhere) n).labels = n.labels.map (Label.rename old new) := by
  induction n using Node.ind with
  | constant a p => rfl
  | missing => rfl
  | symbol name p =>
    rw [replaced_symbol]
    change _ = [if name = old then Label.symbol new .nowhere else .symbol name p]
    by_cases h : name = old
    · rw [if_pos h, if_pos h]
      rfl
    · rw [if_neg h, if_neg h]
      rfl
  | params items p ih =>
    have hnames : (items.map (Param.map (replaced old (.symbol new .nowhere)))).map Param.name =
        items.map Param.name := by
      rw [List.map_map]
      rfl
    rw [replaced_params, labels_params, labels_params, List.map_cons, hnames, List.flatMap_map,
      List.map_flatMap]
    exact congrArg _ (List.flatMap_congr ih)
  | call head args p ihHead ihArgs =>
    have hnames : (args.map (Arg.map (replaced old (.symbol new .nowhere)))).map Arg.name =
        args.map Arg.name := by
      rw [List.map_map]
      rfl
    rw [replaced_call, labels_call, labels_call, List.map_cons, List.map_append, hnames,
      List.flatMap_map, List.map_flatMap, ihHead]
    exact congrArg (_ :: _ ++ ·) (List.flatMap_congr ihArgs)

/-! ## Taking it back -/

theorem eraseArgs_eq (args : List (Arg Node)) : eraseArgs args = args.map (Arg.map erase) := by
  induction args with
  | nil => rfl
  | cons a rest ih => exact congrArg (List.cons (a.map erase)) ih

theorem eraseParams_eq (items : List (Param Node)) :
    eraseParams items = items.map (Param.map erase) := by
  induction items with
  | nil => rfl
  | cons q rest ih => exact congrArg (List.cons (q.map erase)) ih

theorem erase_call (head : Node) (args : List (Arg Node)) (p : Position) :
    (Node.call head args p).erase = .call head.erase (args.map (Arg.map erase)) .nowhere :=
  congrArg (Node.call head.erase · .nowhere) (eraseArgs_eq args)

theorem erase_params (items : List (Param Node)) (p : Position) :
    (Node.params items p).erase = .params (items.map (Param.map erase)) .nowhere :=
  congrArg (Node.params · .nowhere) (eraseParams_eq items)

/-- Renaming to a name that is not in use can be taken back, but for positions. -/
theorem erase_replaced_back {old new : String} (n : Node) :
    new ∉ n.symbolNames →
      (replaced new (.symbol old .nowhere) (replaced old (.symbol new .nowhere) n)).erase =
        n.erase := by
  induction n using Node.ind with
  | constant a p => exact fun _ => rfl
  | missing => exact fun _ => rfl
  | symbol name p =>
    intro h
    have hname : name ≠ new := fun heq => h (List.mem_singleton.mpr heq.symm)
    rw [replaced_symbol]
    by_cases hold : name = old
    · rw [if_pos hold, replaced_symbol, if_pos rfl, hold]
      rfl
    · rw [if_neg hold, replaced_symbol, if_neg hname]
  | params items p ih =>
    intro h
    have hfresh : ∀ q ∈ items, new ∉ q.default.symbolNames :=
      fun q hq hmem => h (mem_symbolNamesParams hq hmem)
    rw [replaced_params, replaced_params, erase_params, erase_params, List.map_map, List.map_map]
    exact congrArg (Node.params · _) (List.map_congr_left fun q hq =>
      congrArg (Param.mk q.name) (ih q hq (hfresh q hq)))
  | call head args p ihHead ihArgs =>
    intro h
    obtain ⟨hhead, hargs⟩ := not_or.mp (mt List.mem_append.mpr h)
    have hfresh : ∀ a ∈ args, new ∉ a.value.symbolNames :=
      fun a ha hmem => hargs (mem_symbolNamesArgs ha hmem)
    rw [replaced_call, replaced_call, erase_call, erase_call, ihHead hhead, List.map_map,
      List.map_map]
    exact congrArg (Node.call _ · _) (List.map_congr_left fun a ha =>
      congrArg (Arg.mk a.name) (ihArgs a ha (hfresh a ha)))

end RCode.Node
