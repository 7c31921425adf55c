import RCode.Expansion.Object
import RCode.Proofs.Expansion.Markers
import RCode.Proofs.Node.Objects

/-!
# When expansion shares its input

An expansion of objects makes the tree that `Node.expand` makes, and gives the object itself back
where nothing in it has become another object. The search for markers tells when that is: without
markers always, and with markers never, unless every outermost marker is an escape that stands for
itself (`Object.expand_predicted`). For that the value of its operand must be the very object that
the escape is, and nobody can bind that who has not the tree already.
-/

set_option autoImplicit false

namespace RCode

namespace Object

open Expansion (Site)

mutual

/-- Every outermost marker in the object is an escape that stands for itself. -/
def IsFixed (r : Reading) (m : Markers) (h : Host) : Object → Prop
  | .call i head args p =>
    if m.isEscape head.node then r.escape h (.call i head args p) = .ok (.call i head args p)
    else m.isSplice head.node = false ∧ IsFixed r m (h.under 0) head ∧
      IsFixedArgs r m h.arguments args
  | .params _ items _ => IsFixedParams r m h.arguments items
  | _ => True

def IsFixedArgs (r : Reading) (m : Markers) (hs : Nat → Host) :
    List (Slot (Option String) Object) → Prop
  | [] => True
  | a :: rest =>
    (a.value.isSplice m = false ∧ IsFixed r m (hs 0) a.value) ∧
      IsFixedArgs r m (fun i => hs (i + 1)) rest

def IsFixedParams (r : Reading) (m : Markers) (hs : Nat → Host) :
    List (Slot String Object) → Prop
  | [] => True
  | q :: rest => IsFixed r m (hs 0) q.value ∧ IsFixedParams r m (fun i => hs (i + 1)) rest

end

/-! ## Steps on objects and on trees -/

section

variable {α β γ δ : Type}

/-- The steps on objects fail as those on trees do, or make the trees that these make, and take free
identities from `next` on. -/
def Simulates (next : Nat) (x : Except ExpansionError (α × Nat)) (node : α → β)
    (y : Except ExpansionError β) (P : α → Prop) : Prop :=
  match x with
  | .error e => y = .error e
  | .ok (a, next') => y = .ok (node a) ∧ next ≤ next' ∧ P a

theorem simulates_ok {next : Nat} {node : α → β} {P : α → Prop} {a : α} (h : P a) :
    Simulates next (.ok (a, next)) node (.ok (node a)) P :=
  ⟨rfl, Nat.le_refl _, h⟩

theorem Simulates.mono {next next' : Nat} {x : Except ExpansionError (α × Nat)} {node : α → β}
    {y : Except ExpansionError β} {P : α → Prop} (h : Simulates next' x node y P)
    (hle : next ≤ next') : Simulates next x node y P := by
  cases x with
  | error e => exact h
  | ok p => exact ⟨h.1, Nat.le_trans hle h.2.1, h.2.2⟩

/-- Steps after steps simulate what comes after their trees. -/
theorem Simulates.bind {next : Nat} {x : Except ExpansionError (α × Nat)} {node : α → β}
    {y : Except ExpansionError β} {P : α → Prop} {f : α × Nat → Except ExpansionError (γ × Nat)}
    {node' : γ → δ} {g : β → Except ExpansionError δ} {Q : γ → Prop}
    (hx : Simulates next x node y P)
    (hf : ∀ a next', next ≤ next' → P a → Simulates next' (f (a, next')) node' (g (node a)) Q) :
    Simulates next (x >>= f) node' (y >>= g) Q := by
  cases x with
  | error e =>
    obtain rfl : y = .error e := hx
    rfl
  | ok p =>
    obtain ⟨a, next'⟩ := p
    obtain ⟨rfl, hle, ha⟩ := hx
    have hrest := hf a next' hle ha
    simp only [ok_bind]
    unfold Simulates at hrest ⊢
    cases hfa : f (a, next') with
    | error e => rw [hfa] at hrest; exact hrest
    | ok p =>
      rw [hfa] at hrest
      exact ⟨hrest.1, Nat.le_trans hle hrest.2.1, hrest.2.2⟩

end

/-! ## Objects that stay -/

variable {γ : Type} {r : Reading} {m : Markers} {c : Context} {h : Host} {hs : Nat → Host}
  {base next : Nat} {fixed fixed' : Prop}

/-- The new object is the old one if and only if nothing in it changes. -/
structure Kept (fixed : Prop) (o new : Object) : Prop where
  same_iff : new.id = o.id ↔ fixed
  eq_of_same : new.id = o.id → new = o

theorem kept_self (hfixed : fixed) (o : Object) : Kept fixed o o :=
  ⟨⟨fun _ => hfixed, fun _ => rfl⟩, fun _ => rfl⟩

/-- An object with a new identity is another object. -/
theorem kept_new {o new : Object} (hnot : ¬fixed) (hid : new.id ≠ o.id) : Kept fixed o new :=
  ⟨⟨fun h => absurd h hid, fun h => absurd h hnot⟩, fun h => absurd h hid⟩

/-- The same for an argument or a parameter. -/
structure KeptSlot (fixed : Prop) (s new : Slot γ Object) : Prop where
  same_iff : new.id = s.id ↔ fixed
  eq_of_same : new.id = s.id → new = s

/-- The same for rows of arguments or parameters. -/
structure KeptRow (fixed : Prop) (row new : List (Slot γ Object)) : Prop where
  same_iff : new.map Slot.id = row.map Slot.id ↔ fixed
  eq_of_same : new.map Slot.id = row.map Slot.id → new = row

theorem KeptRow.nil : KeptRow True ([] : List (Slot γ Object)) [] :=
  ⟨⟨fun _ => trivial, fun _ => rfl⟩, fun _ => rfl⟩

theorem KeptRow.cons {s s' : Slot γ Object} {rest rest' : List (Slot γ Object)}
    (hs : KeptSlot fixed s s') (hrest : KeptRow fixed' rest rest') :
    KeptRow (fixed ∧ fixed') (s :: rest) (s' :: rest') := by
  have hsame : (s' :: rest').map Slot.id = (s :: rest).map Slot.id ↔
      s'.id = s.id ∧ rest'.map Slot.id = rest.map Slot.id := List.cons.injEq _ _ _ _ ▸ Iff.rfl
  refine ⟨hsame.trans (and_congr hs.same_iff hrest.same_iff), fun h => ?_⟩
  obtain ⟨hid, hids⟩ := hsame.mp h
  rw [hs.eq_of_same hid, hrest.eq_of_same hids]

/-- A slot is filled again with what stands for its value. -/
theorem KeptSlot.refill {s : Slot γ Object} {value : Object} (hid : s.id < next)
    (hvalue : Kept fixed s.value value) : KeptSlot fixed s (refill next s value).1 := by
  unfold Object.refill
  by_cases hsame : value.id = s.value.id
  · rw [if_pos hsame]
    exact ⟨⟨fun _ => hvalue.same_iff.mp hsame, fun _ => rfl⟩, fun _ => rfl⟩
  · rw [if_neg hsame]
    have hne : next ≠ s.id := by omega
    have hnot : ¬fixed := fun h => hsame (hvalue.same_iff.mpr h)
    exact ⟨⟨fun h => absurd h hne, fun h => absurd h hnot⟩, fun h => absurd h hne⟩

/-- Whether the slot is new or not, it has its name and what stands for its value. -/
theorem refill_node (next : Nat) {s : Slot γ Object} {value : Object}
    (hvalue : Kept fixed s.value value) :
    (refill next s value).1.name = s.name ∧
      (refill next s value).1.value.node = value.node ∧ next ≤ (refill next s value).2 := by
  unfold refill
  by_cases hsame : value.id = s.value.id
  · rw [if_pos hsame, hvalue.eq_of_same hsame]
    exact ⟨rfl, rfl, Nat.le_refl _⟩
  · rw [if_neg hsame]
    exact ⟨rfl, rfl, Nat.le_succ _⟩

/-! ## Arguments -/

/-- What stands for an argument: several new arguments for a splice, one for any other. -/
def expandArg (r : Reading) (m : Markers) (h : Host) (next : Nat)
    (a : Slot (Option String) Object) :
    Except ExpansionError (List (Slot (Option String) Object) × Nat) :=
  if a.value.isSplice m then
    match a.name with
    | some name =>
      .error (.ofMarker (.namedSplice (m.splice.getD "") name) a.value.node.position)
    | none => (r.splice h a.value).map (newArgs next)
  else
    (expandAt r m h .argument next a.value).map fun x =>
      ([(refill x.2 a x.1).1], (refill x.2 a x.1).2)

theorem expandArgs_cons (a : Slot (Option String) Object)
    (rest : List (Slot (Option String) Object)) :
    expandArgs r m hs next (a :: rest) =
      expandArg r m (hs 0) next a >>= fun x =>
        expandArgs r m (fun i => hs (i + 1)) x.2 rest >>= fun y => .ok (x.1 ++ y.1, y.2) := by
  rw [expandArgs, expandArg]
  by_cases hsplice : a.value.isSplice m = true
  · rw [if_pos hsplice, if_pos hsplice]
    cases a.name with
    | some name => rfl
    | none => rfl
  · rw [if_neg hsplice, if_neg hsplice]
    rfl

/-- New arguments have free identities. -/
theorem newArgs_spec (next : Nat) (xs : List (Option String × Object)) :
    nodeArgs (newArgs next xs).1 = xs.map (fun x => ⟨x.1, x.2.node⟩) ∧
      next ≤ (newArgs next xs).2 ∧ ∀ s ∈ (newArgs next xs).1, next ≤ s.id := by
  induction xs generalizing next with
  | nil => exact ⟨rfl, Nat.le_refl _, List.forall_mem_nil _⟩
  | cons x rest ih =>
    have ih := ih (next + 1)
    rw [newArgs]
    generalize newArgs (next + 1) rest = new at ih
    obtain ⟨rest', next'⟩ := new
    obtain ⟨hnode, hle, hids⟩ := ih
    refine ⟨congrArg (List.cons (⟨x.1, x.2.node⟩ : Arg Node)) hnode, Nat.le_of_succ_le hle, ?_⟩
    exact List.forall_mem_cons.mpr
      ⟨Nat.le_refl _, fun s hs => Nat.le_of_succ_le (hids s hs)⟩

/-- What stands for an argument: new arguments, or the argument itself if nothing in it changes. -/
inductive KeptArg (m : Markers) (base : Nat) (fixed : Prop) (a : Slot (Option String) Object) :
    List (Slot (Option String) Object) → Prop where
  | splice {new : List (Slot (Option String) Object)} : a.value.isSplice m = true →
      (∀ s ∈ new, base ≤ s.id) → KeptArg m base fixed a new
  | one {s : Slot (Option String) Object} : a.value.isSplice m = false → KeptSlot fixed a s →
      KeptArg m base fixed a [s]

/-- Rows of arguments are not longer if none of them is new, whether they are those of splices or
not. -/
structure KeptArgs (base : Nat) (fixed : Prop) (args new : List (Slot (Option String) Object)) :
    Prop extends KeptRow fixed args new where
  length_le : (∀ s ∈ new, s.id < base) → new.length ≤ args.length

theorem KeptArgs.cons {a : Slot (Option String) Object}
    {first rest rest' : List (Slot (Option String) Object)}
    (hids : ∀ s ∈ a :: rest, s.id < base) (ha : KeptArg m base fixed a first)
    (hrest : KeptArgs base fixed' rest rest') :
    KeptArgs base ((a.value.isSplice m = false ∧ fixed) ∧ fixed') (a :: rest) (first ++ rest') := by
  cases ha with
  | one hsplice hs =>
    have hrow := KeptRow.cons hs hrest.toKeptRow
    simp only [hsplice, true_and]
    refine ⟨hrow, fun hbase => ?_⟩
    exact Nat.succ_le_succ (hrest.length_le (List.forall_mem_cons.mp hbase).2)
  | splice hsplice hnew =>
    -- without new arguments nothing stands for a splice
    have hnone : (∀ s ∈ first ++ rest', s.id < base) →
        (first ++ rest').length < (a :: rest).length := by
      intro hbase
      obtain ⟨hfirst, hrest'⟩ := List.forall_mem_append.mp hbase
      have hempty : first = [] :=
        List.eq_nil_iff_forall_not_mem.mpr fun s hs => by
          have := hfirst s hs
          have := hnew s hs
          omega
      rw [hempty]
      exact Nat.lt_succ_of_le (hrest.length_le hrest')
    have hne : (first ++ rest').map Slot.id ≠ (a :: rest).map Slot.id := by
      intro heq
      have hlength := congrArg List.length heq
      rw [List.length_map, List.length_map] at hlength
      refine Nat.ne_of_lt (hnone fun s hs => ?_) hlength
      have hmem : s.id ∈ (a :: rest).map Slot.id := heq ▸ List.mem_map_of_mem hs
      obtain ⟨s', hs', heq'⟩ := List.mem_map.mp hmem
      exact heq' ▸ hids s' hs'
    refine ⟨⟨⟨fun heq => absurd heq hne, fun hfixed => ?_⟩, fun heq => absurd heq hne⟩,
      fun hbase => Nat.le_of_lt (hnone hbase)⟩
    rw [hsplice] at hfixed
    cases hfixed.1.1

/-! ## The expansion of objects -/

theorem simulates_params {items : List (Slot String Object)}
    (hids : ∀ i ∈ idsParams items, i < base)
    (ih : ∀ q ∈ items, (∀ i ∈ q.value.ids, i < base) → ∀ h next, base ≤ next →
      Simulates next (expandAt r m h .free next q.value) node
        (Expansion.expandAt m h c .free q.value.node) (Kept (q.value.IsFixed r m h) q.value)) :
    ∀ hs next, base ≤ next → Simulates next (expandParams r m hs next items) nodeParams
      (Expansion.expandParams m hs c (nodeParams items))
      (KeptRow (IsFixedParams r m hs items) items) := by
  induction items with
  | nil => exact fun hs next _ => simulates_ok .nil
  | cons q rest tail =>
    intro hs next hle
    obtain ⟨ihq, ihrest⟩ := List.forall_mem_cons.mp ih
    obtain ⟨hid, hids⟩ := List.forall_mem_cons.mp hids
    obtain ⟨hvalue, hrest⟩ := List.forall_mem_append.mp hids
    rw [expandParams, nodeParams, Expansion.expandParams]
    refine (ihq hvalue (hs 0) next hle).bind fun value next₁ hle₁ hkept => ?_
    have hslot := KeptSlot.refill (Nat.lt_of_lt_of_le hid (Nat.le_trans hle hle₁)) hkept
    obtain ⟨hname, hnode, hle₂⟩ := refill_node next₁ hkept
    dsimp only
    generalize refill next₁ q value = filled at hslot hname hnode hle₂
    obtain ⟨q', next₂⟩ := filled
    have hbase : base ≤ next₂ := Nat.le_trans hle (Nat.le_trans hle₁ hle₂)
    refine ((tail hrest ihrest _ next₂ hbase).bind fun rest' next₃ _ hrest' => ?_).mono hle₂
    have hnodes : nodeParams (q' :: rest') = ⟨q.name, value.node⟩ :: nodeParams rest' := by
      rw [nodeParams, hname, hnode]
    rw [IsFixedParams]
    exact hnodes ▸ simulates_ok (KeptRow.cons hslot hrest')

section

variable (hr : r.Agrees m c base)

include hr

theorem simulates_arg {a : Slot (Option String) Object} (hid : a.id < base) (hle : base ≤ next)
    (ih : Simulates next (expandAt r m h .argument next a.value) node
      (Expansion.expandAt m h c .argument a.value.node) (Kept (a.value.IsFixed r m h) a.value)) :
    Simulates next (expandArg r m h next a) nodeArgs
      (Expansion.expandArg m h c ⟨a.name, a.value.node⟩)
      (KeptArg m base (a.value.IsFixed r m h) a) := by
  rw [expandArg]
  cases hsplice : a.value.isSplice m with
  | true =>
    obtain ⟨j, name, value⟩ := a
    cases value with
    | call i head args p =>
      have hs : m.isSplice head.node = true := hsplice
      rw [if_pos rfl, node, Expansion.expandArg_splice hs]
      cases name with
      | some name => rfl
      | none =>
        have hagrees := hr.splice h i head args p hs
        cases hx : r.splice h (.call i head args p) with
        | error e =>
          rw [hx] at hagrees
          exact hagrees.symm
        | ok xs =>
          rw [hx] at hagrees
          obtain ⟨hnode, hnext, hids⟩ := newArgs_spec next xs
          refine ⟨hagrees.symm.trans (congrArg Except.ok hnode.symm), hnext, ?_⟩
          exact .splice hsplice fun s hs => Nat.le_trans hle (hids s hs)
    | _ => cases hsplice
  | false =>
    have hone : Expansion.splice? m a.value.node = none := by
      cases hvalue : a.value with
      | call i head args p =>
        rw [hvalue] at hsplice
        exact Expansion.splice?_of_not_isSplice hsplice _ p
      | _ => rfl
    rw [if_neg Bool.false_ne_true, Expansion.expandArg_one hone]
    unfold Simulates at ih ⊢
    cases hx : expandAt r m h .argument next a.value with
    | error e =>
      rw [hx] at ih
      exact congrArg (Except.map _) ih
    | ok x =>
      rw [hx] at ih
      obtain ⟨hnode, hnext, hkept⟩ := ih
      obtain ⟨hname, hvalue, hrefill⟩ := refill_node x.2 hkept
      refine ⟨?_, Nat.le_trans hnext hrefill, .one hsplice (.refill (by omega) hkept)⟩
      rw [hnode, nodeArgs, nodeArgs, hname, hvalue]
      rfl

theorem simulates_args {args : List (Slot (Option String) Object)}
    (hids : ∀ i ∈ idsArgs args, i < base)
    (ih : ∀ a ∈ args, (∀ i ∈ a.value.ids, i < base) → ∀ h next, base ≤ next →
      Simulates next (expandAt r m h .argument next a.value) node
        (Expansion.expandAt m h c .argument a.value.node) (Kept (a.value.IsFixed r m h) a.value)) :
    ∀ hs next, base ≤ next → Simulates next (expandArgs r m hs next args) nodeArgs
      (Expansion.expandArgs m hs c (nodeArgs args))
      (KeptArgs base (IsFixedArgs r m hs args) args) := by
  induction args with
  | nil => exact fun hs next _ => simulates_ok ⟨.nil, fun _ => Nat.le_refl _⟩
  | cons a rest tail =>
    intro hs next hle
    obtain ⟨iha, ihrest⟩ := List.forall_mem_cons.mp ih
    obtain ⟨hid, hids⟩ := List.forall_mem_cons.mp hids
    obtain ⟨hvalue, hrest⟩ := List.forall_mem_append.mp hids
    rw [expandArgs_cons, nodeArgs, Expansion.expandArgs_cons]
    have hfirst := simulates_arg hr hid hle (iha hvalue (hs 0) next hle)
    refine hfirst.bind fun first next₁ hle₁ hfirst => ?_
    refine (tail hrest ihrest _ next₁ (Nat.le_trans hle hle₁)).bind fun rest' next₂ _ hrest' => ?_
    have hnode : nodeArgs (first ++ rest') = nodeArgs first ++ nodeArgs rest' := by
      rw [nodeArgs_eq, nodeArgs_eq, nodeArgs_eq, List.map_append]
    have hbase : ∀ s ∈ a :: rest, s.id < base := by
      refine List.forall_mem_cons.mpr ⟨hid, fun s hs => hrest s.id ?_⟩
      rw [idsArgs_eq]
      exact List.mem_flatMap.mpr ⟨s, hs, List.mem_cons_self⟩
    rw [IsFixedArgs]
    exact hnode ▸ simulates_ok (KeptArgs.cons hbase hfirst hrest')

/-- Objects are expanded as their trees are, and an object stays the same if and only if its markers
stand for themselves. -/
theorem simulates (o : Object) : (∀ i ∈ o.ids, i < base) → ∀ h site next, base ≤ next →
    Simulates next (expandAt r m h site next o) node (Expansion.expandAt m h c site o.node)
      (Kept (o.IsFixed r m h) o) := by
  induction o using Object.ind with
  | constant i a p => exact fun _ h site next _ => simulates_ok (kept_self trivial _)
  | symbol i name p => exact fun _ h site next _ => simulates_ok (kept_self trivial _)
  | missing i => exact fun _ h site next _ => simulates_ok (kept_self trivial _)
  | params i items p ih =>
    intro hids h site next hle
    obtain ⟨hid, hids⟩ := List.forall_mem_cons.mp hids
    rw [expandAt, node, Expansion.expandAt]
    refine (simulates_params hids (fun q hq hids h => ih q hq hids h .free) h.arguments next
      hle).bind fun items' next₁ hle₁ hrow => ?_
    dsimp only
    by_cases hsame : items'.map Slot.id = items.map Slot.id
    · rw [if_pos hsame, hrow.eq_of_same hsame]
      exact simulates_ok (kept_self (hrow.same_iff.mp hsame) _)
    · rw [if_neg hsame]
      refine ⟨rfl, Nat.le_succ _, kept_new (fun hfixed => hsame (hrow.same_iff.mpr hfixed)) ?_⟩
      exact Nat.ne_of_gt (Nat.lt_of_lt_of_le hid (Nat.le_trans hle hle₁))
  | call i head args p ihHead ihArgs =>
    intro hids h site next hle
    obtain ⟨hid, hparts⟩ := List.forall_mem_cons.mp hids
    obtain ⟨hhead, hargs⟩ := List.forall_mem_append.mp hparts
    rw [expandAt, node, IsFixed]
    cases he : m.isEscape head.node with
    | true =>
      have hagrees := hr.escape h i head args p he
      rw [if_pos rfl, if_pos rfl, Expansion.expandAt_escape he, ← hagrees]
      cases hx : r.escape h (.call i head args p) with
      | error e => rfl
      | ok new =>
        have hkept : Kept (Except.ok new = (.ok (.call i head args p) :
            Except ExpansionError Object)) (.call i head args p) new := by
          have hknown := hr.known h (.call i head args p) new hid hx
          exact ⟨⟨fun heq => by rw [hknown heq], fun heq => by rw [Except.ok.inj heq]⟩, hknown⟩
        cases hcheck : site.check m p new.node with
        | error e =>
          simp only [Except.map, ok_bind, hcheck, error_bind]
          rfl
        | ok n =>
          obtain ⟨rfl, -⟩ := Expansion.Site.check_eq_ok_iff.mp hcheck
          simp only [Except.map, ok_bind, hcheck]
          exact simulates_ok hkept
    | false =>
      rw [if_neg Bool.false_ne_true, if_neg Bool.false_ne_true]
      cases hs : m.isSplice head.node with
      | true => rw [if_pos rfl, Expansion.expandAt_misplaced he hs]; rfl
      | false =>
        rw [if_neg Bool.false_ne_true, Expansion.expandAt_call he hs]
        refine (ihHead hhead (h.under 0) .head next hle).bind fun head' next₁ hle₁ hhead' => ?_
        refine (simulates_args hr hargs (fun a ha hids h => ihArgs a ha hids h .argument) h.arguments
          next₁ (Nat.le_trans hle hle₁)).bind fun args' next₂ hle₂ hargs' => ?_
        dsimp only
        by_cases hsame : head'.id = head.id ∧ args'.map Slot.id = args.map Slot.id
        · rw [if_pos hsame, hhead'.eq_of_same hsame.1, hargs'.eq_of_same hsame.2]
          exact simulates_ok (kept_self
            ⟨rfl, hhead'.same_iff.mp hsame.1, hargs'.same_iff.mp hsame.2⟩ _)
        · rw [if_neg hsame]
          refine ⟨rfl, Nat.le_succ _, kept_new ?_ ?_⟩
          · rintro ⟨-, hfixed, hfixedArgs⟩
            exact hsame ⟨hhead'.same_iff.mpr hfixed, hargs'.same_iff.mpr hfixedArgs⟩
          · exact Nat.ne_of_gt
              (Nat.lt_of_lt_of_le hid (Nat.le_trans hle (Nat.le_trans hle₁ hle₂)))

end

/-! ## Objects without markers -/

theorem isSplice_eq_false_of_not_hasMarkers {o : Object} (ho : o.node.hasMarkers m = false) :
    o.isSplice m = false := by
  cases o with
  | call i head args p =>
    rw [node, Expansion.hasMarkers_call] at ho
    simp only [Bool.or_eq_false_iff] at ho
    exact ho.1.1.2
  | _ => rfl

theorem refill_self (next : Nat) (s : Slot γ Object) : refill next s s.value = (s, next) :=
  if_pos rfl

theorem expandArgs_eq_self {args : List (Slot (Option String) Object)}
    (hargs : ∀ a ∈ args, a.value.node.hasMarkers m = false)
    (ih : ∀ a ∈ args, ∀ h next, expandAt r m h .argument next a.value = .ok (a.value, next)) :
    ∀ hs next, expandArgs r m hs next args = .ok (args, next) := by
  induction args with
  | nil => exact fun _ _ => rfl
  | cons a rest tail =>
    obtain ⟨ha, hrest⟩ := List.forall_mem_cons.mp hargs
    obtain ⟨iha, ihrest⟩ := List.forall_mem_cons.mp ih
    intro hs next
    have hfirst : expandArg r m (hs 0) next a = .ok ([a], next) := by
      rw [expandArg, isSplice_eq_false_of_not_hasMarkers ha, if_neg Bool.false_ne_true, iha]
      simp only [Except.map, refill_self]
    rw [expandArgs_cons, hfirst, ok_bind, tail hrest ihrest]
    rfl

theorem expandParams_eq_self {items : List (Slot String Object)}
    (ih : ∀ q ∈ items, ∀ h next, expandAt r m h .free next q.value = .ok (q.value, next)) :
    ∀ hs next, expandParams r m hs next items = .ok (items, next) := by
  induction items with
  | nil => exact fun _ _ => rfl
  | cons q rest tail =>
    obtain ⟨ihq, ihrest⟩ := List.forall_mem_cons.mp ih
    intro hs next
    rw [expandParams, ihq, ok_bind]
    simp only [refill_self, tail ihrest, ok_bind]
    rfl

/-- An object without markers is given back, whatever markers stand for. -/
theorem expandAt_of_not_hasMarkers (r : Reading) (o : Object) (ho : o.node.hasMarkers m = false) :
    ∀ h site next, expandAt r m h site next o = .ok (o, next) := by
  induction o using Object.ind with
  | constant i a p => exact fun _ _ _ => rfl
  | symbol i name p => exact fun _ _ _ => rfl
  | missing i => exact fun _ _ _ => rfl
  | params i items p ih =>
    intro h site next
    have hitems : ∀ q ∈ items, q.value.node.hasMarkers m = false := by
      rw [node, Node.hasMarkers, Node.any, Node.anyParams_eq_false_iff, nodeParams_eq,
        List.forall_mem_map] at ho
      exact ho
    rw [expandAt, expandParams_eq_self fun q hq h => ih q hq (hitems q hq) h .free, ok_bind]
    exact if_pos rfl
  | call i head args p ihHead ihArgs =>
    intro h site next
    rw [node, Expansion.hasMarkers_call] at ho
    simp only [Bool.or_eq_false_iff] at ho
    obtain ⟨⟨⟨he, hs⟩, hhead⟩, hargs⟩ := ho
    rw [Node.anyArgs_eq_false_iff, nodeArgs_eq, List.forall_mem_map] at hargs
    have hrow := expandArgs_eq_self hargs fun a ha h => ihArgs a ha (hargs a ha) h .argument
    rw [expandAt, he, hs, if_neg Bool.false_ne_true, if_neg Bool.false_ne_true, ihHead hhead,
      ok_bind]
    dsimp only
    rw [hrow, ok_bind]
    exact if_pos ⟨rfl, rfl⟩

/-! ## Markers that stand for themselves -/

theorem IsFixedArgs.arg {args : List (Slot (Option String) Object)} (hargs : IsFixedArgs r m hs args)
    {a : Slot (Option String) Object} (ha : a ∈ args) : ∃ h, a.value.IsFixed r m h := by
  induction args generalizing hs with
  | nil => cases ha
  | cons b rest ih =>
    rw [IsFixedArgs] at hargs
    rcases List.mem_cons.mp ha with rfl | ha
    · exact ⟨hs 0, hargs.1.2⟩
    · exact ih hargs.2 ha

theorem IsFixedParams.param {items : List (Slot String Object)}
    (hitems : IsFixedParams r m hs items) {q : Slot String Object} (hq : q ∈ items) :
    ∃ h, q.value.IsFixed r m h := by
  induction items generalizing hs with
  | nil => cases hq
  | cons b rest ih =>
    rw [IsFixedParams] at hitems
    rcases List.mem_cons.mp hq with rfl | hq
    · exact ⟨hs 0, hitems.1⟩
    · exact ih hitems.2 hq

/-- In an object whose markers stand for themselves there is such a marker, if there are markers. -/
theorem exists_of_isFixed (o : Object) (ho : o.node.hasMarkers m = true) :
    ∀ h, o.IsFixed r m h → ∃ h' marker, marker.id ∈ o.ids ∧ r.escape h' marker = .ok marker := by
  induction o using Object.ind with
  | constant i a p => cases ho
  | symbol i name p => cases ho
  | missing i => cases ho
  | params i items p ih =>
    intro h hfixed
    obtain ⟨q, hq, hmarkers⟩ : ∃ q ∈ items, q.value.node.hasMarkers m = true := by
      by_contra hnone
      push Not at hnone
      rw [node, Node.hasMarkers, Node.any, nodeParams_eq] at ho
      refine Bool.false_ne_true ((Node.anyParams_eq_false_iff.mpr ?_).symm.trans ho)
      exact List.forall_mem_map.mpr fun q hq => Bool.eq_false_iff.mpr (hnone q hq)
    rw [IsFixed] at hfixed
    obtain ⟨h', hfixed⟩ := hfixed.param hq
    obtain ⟨h', marker, hid, hmarker⟩ := ih q hq hmarkers h' hfixed
    refine ⟨h', marker, List.mem_cons_of_mem _ ?_, hmarker⟩
    rw [idsParams_eq]
    exact List.mem_flatMap.mpr ⟨q, hq, List.mem_cons_of_mem _ hid⟩
  | call i head args p ihHead ihArgs =>
    intro h hfixed
    rw [IsFixed] at hfixed
    cases he : m.isEscape head.node with
    | true =>
      rw [if_pos he] at hfixed
      exact ⟨h, _, id_mem_ids _, hfixed⟩
    | false =>
      rw [if_neg (Bool.eq_false_iff.mp he)] at hfixed
      obtain ⟨hs, hhead, hargs⟩ := hfixed
      rw [node, Expansion.hasMarkers_call, he, hs, Bool.or_self, Bool.false_or,
        Bool.or_eq_true_iff] at ho
      rcases ho with ho | ho
      · obtain ⟨h', marker, hid, hmarker⟩ := ihHead ho _ hhead
        exact ⟨h', marker, List.mem_cons_of_mem _ (List.mem_append_left _ hid), hmarker⟩
      · obtain ⟨a, ha, hmarkers⟩ : ∃ a ∈ args, a.value.node.hasMarkers m = true := by
          by_contra hnone
          push Not at hnone
          rw [nodeArgs_eq] at ho
          refine Bool.false_ne_true ((Node.anyArgs_eq_false_iff.mpr ?_).symm.trans ho)
          exact List.forall_mem_map.mpr fun a ha => Bool.eq_false_iff.mpr (hnone a ha)
        obtain ⟨h', hfixed⟩ := hargs.arg ha
        obtain ⟨h', marker, hid, hmarker⟩ := ihArgs a ha hmarkers h' hfixed
        refine ⟨h', marker, List.mem_cons_of_mem _ (List.mem_append_right _ ?_), hmarker⟩
        rw [idsArgs_eq]
        exact List.mem_flatMap.mpr ⟨a, ha, List.mem_cons_of_mem _ hid⟩

end Object

namespace Reading

open Object (ofNode_fresh)

variable {m : Markers} {c : Context} {next : Nat}

/-- What escapes stand for are other objects than those of the tree. -/
theorem le_id_of_fresh {h : Host} {o new : Object} (hnew : (fresh m c next).escape h o = .ok new) :
    next ≤ new.id := by
  cases o with
  | call i head args p =>
    obtain ⟨n, -, hnew⟩ := bind_eq_ok hnew
    cases hnew
    exact (ofNode_fresh n next).le_id
  | _ =>
    cases hnew
    exact (ofNode_fresh _ next).le_id

theorem fresh_agrees (m : Markers) (c : Context) (next : Nat) :
    (fresh m c next).Agrees m c next := by
  refine ⟨fun h i head args p _ => ?_, fun h i head args p _ => ?_, fun h o new hid hnew heq => ?_⟩
  · simp only [fresh]
    cases Expansion.unquote m h c (Object.nodeArgs args) p with
    | error e => rfl
    | ok n => exact congrArg Except.ok (ofNode_fresh n next).node_eq
  · simp only [fresh]
    cases Expansion.splicedArgs h c (m.splice.getD "") (Object.nodeArgs args) p with
    | error e => rfl
    | ok new =>
      refine congrArg Except.ok ?_
      rw [List.map_map]
      refine (List.map_congr_left fun a _ => ?_).trans (List.map_id new)
      simp only [Function.comp, (ofNode_fresh a.value next).node_eq, id]
  · have := le_id_of_fresh hnew
    omega

end Reading

namespace Object

end Object

end RCode
