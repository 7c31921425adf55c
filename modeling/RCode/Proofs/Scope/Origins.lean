import RCode.Proofs.Scope.Visits

/-!
# Where events come from

Every event of a program comes from a tree in it: a read from a symbol, an assignment to the empty
text from a target with that name. What holds of such trees, and of every tree with such a part,
holds of each program with the event (`Visits.holds`).
-/

set_option autoImplicit false

namespace RCode.Scope

/-- The events of the scope and of those inside of it. -/
def allEvents : List ScopeEvent → List ScopeEvent
  | [] => []
  | .read name :: rest => .read name :: allEvents rest
  | .bind name :: rest => .bind name :: allEvents rest
  | .nameless :: rest => .nameless :: allEvents rest
  | .define body :: rest => allEvents body ++ allEvents rest

theorem allEvents_append (es fs : List ScopeEvent) :
    allEvents (es ++ fs) = allEvents es ++ allEvents fs := by
  induction es with
  | nil => rw [List.nil_append, allEvents, List.nil_append]
  | cons e es ih => cases e <;> simp only [List.cons_append, allEvents, ih, List.append_assoc]

theorem mem_allEvents_append {e : ScopeEvent} {es fs : List ScopeEvent} :
    e ∈ allEvents (es ++ fs) ↔ e ∈ allEvents es ∨ e ∈ allEvents fs := by
  rw [allEvents_append, List.mem_append]

theorem not_mem_allEvents_nil (e : ScopeEvent) : e ∉ allEvents [] := by
  simp only [allEvents, List.not_mem_nil, not_false_iff]

theorem mem_allEvents_read {e : ScopeEvent} {name : String} :
    e ∈ allEvents [.read name] ↔ e = .read name := by
  simp only [allEvents, List.mem_singleton]

theorem mem_allEvents_bind {e : ScopeEvent} {name : String} :
    e ∈ allEvents [.bind name] ↔ e = .bind name := by
  simp only [allEvents, List.mem_singleton]

theorem mem_allEvents_nameless {e : ScopeEvent} : e ∈ allEvents [.nameless] ↔ e = .nameless := by
  simp only [allEvents, List.mem_singleton]

/-- The events of the scope itself. -/
theorem mem_allEvents_of_mem {e : ScopeEvent} {es : List ScopeEvent} (h : e ∈ es)
    (hevent : ∀ body, e ≠ .define body) : e ∈ allEvents es := by
  obtain ⟨before, after, rfl⟩ := List.append_of_mem h
  rw [mem_allEvents_append]
  right
  cases e with
  | define body => exact absurd rfl (hevent body)
  | _ =>
    rw [allEvents]
    exact List.mem_cons_self

/-- The events of a function in the scope. -/
theorem allEvents_subset {body es : List ScopeEvent} (h : .define body ∈ es) :
    allEvents body ⊆ allEvents es := by
  obtain ⟨before, after, rfl⟩ := List.append_of_mem h
  rw [allEvents_append, allEvents]
  exact fun _ he => List.mem_append_right _ (List.mem_append_left _ he)

theorem allEvents_binds (items : List (Param Node)) :
    allEvents (items.map fun i => .bind i.name) = items.map fun i => .bind i.name := by
  induction items with
  | nil => simp only [List.map_nil, allEvents]
  | cons i rest ih => rw [List.map_cons, allEvents, ih]

/-- The part, or a tree in it, has the property. The head of a call has it only if it is no name. -/
def Part.Holds (R : Node → Prop) : Part → Prop
  | .tree n => R n
  | .trees ns => ∃ n ∈ ns, R n
  | .head n => n.name? = none ∧ R n
  | .target _ n => R n
  | .changed n => R n

/-- The property goes with the event: a tree has it that the event comes from, and one with a part
that has it. -/
structure Origin (withFunctions : Bool) (e : ScopeEvent) (R : Node → Prop) : Prop where
  read : ∀ name p, e = .read name → R (.symbol name p)
  /-- Symbols that are heads of calls do not count. -/
  function : ∀ name, e = .read name → withFunctions = false
  bind : ∀ name, e ≠ .bind name
  nameless : ∀ n : Node, e = .nameless → n.targetName? = some "" → R n
  head : ∀ head args p, head.name? = none → R head → R (.call head args p)
  arg : ∀ head (args : List (Arg Node)) p, ∀ a ∈ args, R a.value → R (.call head args p)
  default : ∀ (items : List (Param Node)) p, ∀ i ∈ items, R i.default → R (.params items p)

/-- A part with the event has the property that goes with it. -/
theorem Visits.holds {withFunctions : Bool} {e : ScopeEvent} {R : Node → Prop}
    (h : Origin withFunctions e R) {part : Part} {es : List ScopeEvent}
    (hvisits : Visits withFunctions part es) : e ∈ allEvents es → part.Holds R := by
  have hhead : ∀ {head : Node}, (Part.head head).Holds R → ∀ args p, R (.call head args p) :=
    fun hR args p => h.head _ args p hR.1 hR.2
  induction hvisits with
  | constant | missing | quotation | construct | outward | nil =>
    exact fun he => absurd he (not_mem_allEvents_nil e)
  | symbol name p | changedName name p =>
    intro he
    exact h.read name p (mem_allEvents_read.mp he)
  | function p hfunctions =>
    intro he
    exact absurd hfunctions (Bool.eq_false_iff.mp (h.function _ (mem_allEvents_read.mp he)))
  | bound =>
    intro he
    exact absurd (mem_allEvents_bind.mp he) (h.bind _)
  | nameless hname =>
    intro he
    exact h.nameless _ (mem_allEvents_nameless.mp he) hname
  | head hname _ ih => exact fun he => ⟨hname, ih he⟩
  | replacement _ _ ih | changedOther _ _ _ ih => exact ih
  | params p _ ih =>
    intro he
    obtain ⟨n, hn, hR⟩ := ih he
    obtain ⟨i, hi, rfl⟩ := List.mem_map.mp hn
    exact h.default _ p i hi hR
  | assignment p q _ _ _ ihvalue ihtarget =>
    intro he
    rcases mem_allEvents_append.mp he with he | he
    · exact h.arg _ _ q _ (List.mem_cons_of_mem _ List.mem_cons_self) (ihvalue he)
    · exact h.arg _ _ q _ List.mem_cons_self (ihtarget he)
  | @definition name items rest es fs p q r _ _ ihbody ihdefaults =>
    intro he
    rw [allEvents, allEvents, List.append_nil, mem_allEvents_append, mem_allEvents_append,
      allEvents_binds] at he
    rcases he with (he | he) | he
    · obtain ⟨i, -, hi⟩ := List.mem_map.mp he
      exact absurd hi.symm (h.bind i.name)
    · obtain ⟨n, hn, hR⟩ := ihbody he
      obtain ⟨a, ha, rfl⟩ := Option.map_eq_some_iff.mp (Option.mem_toList.mp hn)
      exact h.arg _ _ r a (List.mem_cons_of_mem _ (List.mem_of_mem_head? ha)) hR
    · obtain ⟨n, hn, hR⟩ := ihdefaults he
      obtain ⟨i, hi, rfl⟩ := List.mem_map.mp hn
      exact h.arg _ _ r ⟨name, .params items q⟩ List.mem_cons_self (h.default items q i hi hR)
  | loop p q r _ _ ihsequence ihbody =>
    intro he
    rw [mem_allEvents_append, allEvents, List.mem_cons] at he
    rcases he with he | he | he
    · exact h.arg _ _ r _ (List.mem_cons_of_mem _ List.mem_cons_self) (ihsequence he)
    · exact absurd he (h.bind _)
    · exact h.arg _ _ r _ (List.mem_cons_of_mem _ (List.mem_cons_of_mem _ List.mem_cons_self))
        (ihbody he)
  | selection p q _ _ _ ihhead ihtarget =>
    intro he
    rcases mem_allEvents_append.mp he with he | he
    · exact hhead (ihhead he) _ q
    · exact h.arg _ _ q _ List.mem_cons_self (ihtarget he)
  | application p _ _ _ ihhead ihargs =>
    intro he
    rcases mem_allEvents_append.mp he with he | he
    · exact hhead (ihhead he) _ p
    · obtain ⟨n, hn, hR⟩ := ihargs he
      obtain ⟨a, ha, rfl⟩ := List.mem_map.mp hn
      exact h.arg _ _ p a ha hR
  | cons _ _ ihfirst ihrest =>
    intro he
    rcases mem_allEvents_append.mp he with he | he
    · exact ⟨_, List.mem_cons_self, ihfirst he⟩
    · obtain ⟨n, hn, hR⟩ := ihrest he
      exact ⟨n, List.mem_cons_of_mem _ hn, hR⟩
  | changedMember rest p q _ _ _ ihhead ihbase =>
    intro he
    rcases mem_allEvents_append.mp he with he | he
    · exact hhead (ihhead he) _ q
    · exact h.arg _ _ q _ List.mem_cons_self (ihbase he)
  | changedCall p _ _ _ _ ihhead ihbase ihrest =>
    intro he
    rw [mem_allEvents_append, mem_allEvents_append] at he
    rcases he with (he | he) | he
    · exact hhead (ihhead he) _ p
    · exact h.arg _ _ p _ List.mem_cons_self (ihbase he)
    · obtain ⟨n, hn, hR⟩ := ihrest he
      obtain ⟨a, ha, rfl⟩ := List.mem_map.mp hn
      exact h.arg _ _ p a (List.mem_cons_of_mem _ ha) hR

end RCode.Scope
