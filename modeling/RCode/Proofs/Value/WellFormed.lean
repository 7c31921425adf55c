import RCode.Function
import RCode.Proofs.Failure

/-!
# Well-formed values

The trees in a value are well formed, and the functions in it are those of the base environment. The
operations on values keep this: what they compute is made of atoms and of parts of what they are
given.
-/

set_option autoImplicit false

namespace RCode

/-- Every tree in the value is well formed, and every function in it belongs to the base
environment. -/
inductive Value.WellFormed : Value → Prop where
  | atom (a : Atom) : WellFormed (.atom a)
  | list {items : List Value} : (∀ v ∈ items, v.WellFormed) → WellFormed (.list items)
  | dict {entries : List (Entry Value)} : (∀ e ∈ entries, e.value.WellFormed) →
      WellFormed (.dict entries)
  | function {f : Builtin} : f ∈ Builtin.base.map Prod.snd → WellFormed (.function (.builtin f))
  | node {n : Node} : n.WellFormed → WellFormed (.node n)

/-- A value has no tree. The other errors are those of parts that do not fit a node. -/
def NodeError.isUnsupported : NodeError → Bool
  | .integerOutOfRange _ | .notAtomic _ _ | .sequence _ | .unquotable _ _ => true
  | _ => false

/-! ## Values under names -/

section

variable {α : Type} {P : α → Prop}

theorem Entry.forall_put {entries : List (Entry α)} (h : ∀ e ∈ entries, P e.value) {name : String}
    {value : α} (hvalue : P value) : ∀ e ∈ Entry.put entries name value, P e.value := by
  induction entries with
  | nil => exact List.forall_mem_singleton.mpr hvalue
  | cons e rest ih =>
    obtain ⟨he, hrest⟩ := List.forall_mem_cons.mp h
    rw [Entry.put]
    split
    · exact List.forall_mem_cons.mpr ⟨hvalue, hrest⟩
    · exact List.forall_mem_cons.mpr ⟨he, ih hrest⟩

theorem Entry.forall_distinct {entries : List (Entry α)} (h : ∀ e ∈ entries, P e.value) :
    ∀ e ∈ Entry.distinct entries, P e.value := by
  -- what was put in before is as good as what is still to be put in
  have hfold : ∀ acc : List (Entry α), (∀ e ∈ acc, P e.value) →
      ∀ e ∈ entries.foldl (fun acc e => Entry.put acc e.name e.value) acc, P e.value := by
    induction entries with
    | nil => exact fun acc hacc => hacc
    | cons e rest ih =>
      intro acc hacc
      obtain ⟨he, hrest⟩ := List.forall_mem_cons.mp h
      exact ih hrest _ (Entry.forall_put hacc he)
  exact hfold [] (List.forall_mem_nil _)

theorem Entry.of_find? {entries : List (Entry α)} (h : ∀ e ∈ entries, P e.value) {name : String}
    {value : α} (hfind : Entry.find? entries name = some value) : P value := by
  induction entries with
  | nil => cases hfind
  | cons e rest ih =>
    obtain ⟨he, hrest⟩ := List.forall_mem_cons.mp h
    rw [Entry.find?] at hfind
    split at hfind
    · exact Option.some.inj hfind ▸ he
    · exact ih hrest hfind

end

namespace Value

/-! ## Operations on values -/

variable {w : Workspace}

theorem wellFormed_toValue (n : Number) : (n.toValue w).WellFormed := by
  cases n with
  | integer n => exact .atom _
  | double x =>
    rw [Number.toValue]
    split
    · exact .atom _
    · exact .atom _

theorem wellFormed_numeric {op : Number → Number → Except Failure Number} {a b v : Value}
    (h : numeric w op a b = .ok v) : v.WellFormed := by
  obtain ⟨m, -, h⟩ := bind_eq_ok h
  obtain ⟨n, -, h⟩ := bind_eq_ok h
  obtain ⟨r, -, h⟩ := bind_eq_ok h
  cases h
  exact wellFormed_toValue r

/-- A number is left as it is, or becomes an integer. -/
theorem wellFormed_plus {a v : Value} (ha : a.WellFormed) (h : plus a = .ok v) : v.WellFormed := by
  obtain ⟨n, -, h⟩ := bind_eq_ok h
  cases n with
  | integer n => cases h; exact .atom _
  | double x => cases h; exact ha

theorem wellFormed_minus {a v : Value} (h : minus w a = .ok v) : v.WellFormed := by
  obtain ⟨n, -, h⟩ := bind_eq_ok h
  cases n with
  | integer n => cases h; exact .atom _
  | double x => cases h; exact wellFormed_toValue _

/-- Only the sum of two lists is a list. -/
theorem wellFormed_add {a b v : Value} (ha : a.WellFormed) (hb : b.WellFormed)
    (h : add w a b = .ok v) : v.WellFormed := by
  unfold add at h
  split at h
  · cases h
    exact .atom _
  · cases h
    cases ha with
    | list has =>
      cases hb with
      | list hbs => exact .list (List.forall_mem_append.mpr ⟨has, hbs⟩)
  · exact wellFormed_numeric h

theorem wellFormed_repeatText {s : String} {count v : Value} (h : repeatText w s count = .ok v) :
    v.WellFormed := by
  obtain ⟨k, -, h⟩ := bind_eq_ok h
  obtain ⟨n, -, h⟩ := bind_eq_ok h
  cases h
  exact .atom _

theorem wellFormed_repeatList {items : List Value} {count v : Value}
    (hitems : ∀ v ∈ items, v.WellFormed) (h : repeatList w items count = .ok v) : v.WellFormed := by
  obtain ⟨k, -, h⟩ := bind_eq_ok h
  obtain ⟨n, -, h⟩ := bind_eq_ok h
  cases h
  refine .list fun item hitem => ?_
  obtain ⟨row, hrow, hmem⟩ := List.mem_flatten.mp hitem
  exact hitems item (List.eq_of_mem_replicate hrow ▸ hmem)

theorem wellFormed_multiply {a b v : Value} (ha : a.WellFormed) (hb : b.WellFormed)
    (h : multiply w a b = .ok v) : v.WellFormed := by
  unfold multiply at h
  split at h
  · exact wellFormed_repeatText h
  · cases ha with
    | list hitems => exact wellFormed_repeatList hitems h
  · exact wellFormed_repeatText h
  · cases hb with
    | list hitems => exact wellFormed_repeatList hitems h
  · exact wellFormed_numeric h

theorem wellFormed_divideByZero {a b v : Value} (h : divideByZero a b = .ok v) :
    v.WellFormed := by
  obtain ⟨dividend, -, h⟩ := bind_eq_ok h
  split at h
  · cases h
    exact .atom _
  · obtain ⟨x, -, h⟩ := bind_eq_ok h
    obtain ⟨divisor, -, h⟩ := bind_eq_ok h
    cases h
    exact .atom _

theorem wellFormed_divide {a b v : Value} (h : divide w a b = .ok v) : v.WellFormed := by
  unfold divide at h
  split at h
  · exact wellFormed_divideByZero h
  · exact wellFormed_numeric h

theorem wellFormed_floorDivide {a b v : Value} (h : floorDivide w a b = .ok v) : v.WellFormed := by
  unfold floorDivide at h
  split at h
  · exact wellFormed_divideByZero h
  · exact wellFormed_numeric h

theorem wellFormed_modulo {a b v : Value} (h : modulo w a b = .ok v) : v.WellFormed := by
  unfold modulo at h
  split at h
  · cases h
    exact .atom _
  · split at h
    · obtain ⟨text, -, rfl⟩ := map_eq_ok_iff.mp h
      exact .atom _
    · exact wellFormed_numeric h

theorem wellFormed_power {a b v : Value} (h : power w a b = .ok v) : v.WellFormed := by
  obtain ⟨x, -, h⟩ := bind_eq_ok h
  obtain ⟨y, -, h⟩ := bind_eq_ok h
  dsimp only at h
  split at h
  · cases h
    exact .atom _
  · cases h
    exact wellFormed_toValue _

/-! ## Vectors -/

theorem flatten_eq (values : List Value) : flatten values = values.flatMap flattenOne := by
  induction values with
  | nil => rfl
  | cons v rest ih => rw [flatten, ih, List.flatMap_cons]

/-- The items of a vector are parts of its values. -/
theorem wellFormed_flattenOne {v : Value} (h : v.WellFormed) :
    ∀ item ∈ v.flattenOne, item.WellFormed := by
  induction h with
  | atom a =>
    cases a with
    | null => exact List.forall_mem_nil _
    | _ => exact List.forall_mem_singleton.mpr (.atom _)
  | list _ ih =>
    intro item hitem
    rw [flattenOne, flatten_eq] at hitem
    obtain ⟨v, hv, hitem⟩ := List.mem_flatMap.mp hitem
    exact ih v hv item hitem
  | dict h _ => exact List.forall_mem_singleton.mpr (.dict h)
  | function h => exact List.forall_mem_singleton.mpr (.function h)
  | node h => exact List.forall_mem_singleton.mpr (.node h)

theorem wellFormed_flatten {values : List Value} (h : ∀ v ∈ values, v.WellFormed) :
    ∀ item ∈ flatten values, item.WellFormed := by
  intro item hitem
  rw [flatten_eq] at hitem
  obtain ⟨v, hv, hitem⟩ := List.mem_flatMap.mp hitem
  exact wellFormed_flattenOne (h v hv) item hitem

theorem wellFormed_combine {values : List Value} (h : ∀ v ∈ values, v.WellFormed) :
    (combine values).WellFormed := by
  have hitems := wellFormed_flatten h
  unfold combine
  split
  · next v heq => exact hitems v (heq ▸ List.mem_cons_self)
  · exact .list hitems

theorem wellFormed_paste {separator : String} {values : List Value} {v : Value}
    (h : paste separator values = .ok v) : v.WellFormed := by
  obtain ⟨texts, -, h⟩ := bind_eq_ok h
  cases h
  exact .atom _

theorem wellFormed_sum {values : List Value} (h : ∀ v ∈ values, v.WellFormed) {v : Value}
    (hsum : sum w values = .ok v) : v.WellFormed := by
  -- the sum so far is well formed
  have hfold : ∀ (items : List Value) (acc : Value), (∀ v ∈ items, v.WellFormed) →
      acc.WellFormed → items.foldlM (add w) acc = .ok v → v.WellFormed := by
    intro items
    induction items with
    | nil =>
      intro acc _ hacc hfold
      cases hfold
      exact hacc
    | cons item rest ih =>
      intro acc hitems hacc hfold
      obtain ⟨hitem, hrest⟩ := List.forall_mem_cons.mp hitems
      rw [List.foldlM_cons] at hfold
      obtain ⟨acc', hadd, hfold⟩ := bind_eq_ok hfold
      exact ih acc' hrest (wellFormed_add hacc hitem hadd) hfold
  exact hfold (flatten values) (.integer 0) (wellFormed_flatten h) (.atom _) hsum

/-! ## Trees -/

theorem refusedBy_eq (v : Value) (error : String → NodeError) :
    (∃ shown, v.refusedBy error = error shown) ∨
      v.refusedBy error = .unwritable ∧ v.isWritable = false := by
  unfold refusedBy shown?
  cases v.isWritable with
  | true => exact .inl ⟨_, rfl⟩
  | false => exact .inr ⟨rfl, rfl⟩

/-- The tree of a well-formed value is well formed. A value without a tree is unsupported, or too
long for a message. -/
theorem quote_ends {v : Value} (h : v.WellFormed) :
    Ends (fun e => e.isUnsupported = true ∨ e = .unwritable ∧ v.isWritable = false)
      Node.WellFormed v.quote := by
  induction h with
  | node h => exact .ok h
  | atom a =>
    cases a with
    | integer k =>
      rw [quote, Node.ofAtom]
      split
      · next hrange => exact .ok (decide_eq_true hrange)
      · refine .error ?_
        rw [isWritable]
        cases Atom.isWritable (.integer k) with
        | true => exact .inl rfl
        | false => exact .inr ⟨rfl, rfl⟩
    | _ => exact .ok rfl
  | @list items _ ih =>
    rcases items with _ | ⟨item, _ | ⟨other, rest⟩⟩
    · exact .error (.inl rfl)
    · -- a list of one item has a text if the item has
      refine (ih item List.mem_cons_self).mono fun e he => he.imp_right fun he => ⟨he.1, ?_⟩
      rw [isWritable, areWritable, he.2, Bool.false_and]
    · exact .error (.inl rfl)
  | @dict entries _ =>
    refine .error ?_
    rcases (Value.dict entries).refusedBy_eq (.unquotable "dict") with ⟨shown, heq⟩ | h
    · exact .inl (heq ▸ rfl)
    · exact .inr h
  | function => exact .error (.inl rfl)

end Value

end RCode
