import RCode.Proofs.Text.Characters
import RCode.Proofs.Token.Readable
import RCode.Token.Spelling

/-!
# Reading words and operators

A word is read up to the first character that a name could not go on with. An operator is read as
the longest one of the table: it is read back where no longer operator starts.
-/

set_option autoImplicit false

namespace RCode

open Numeral (isNameChar StopsName)

/-! ## Words -/

/-- The text is a word: it starts a name and goes on as one. -/
structure IsWord (c : Char) (cs : List Char) : Prop where
  starts : startsName c cs = true
  all : ∀ d ∈ cs, isNameChar d = true

/-- The first character of a word is a letter or a point. -/
theorem isLetter_of_startsName {c : Char} {cs : List Char} (h : startsName c cs = true) :
    c = '.' ∨ Text.isLetter c = true := by
  unfold startsName at h
  split at h
  · next hpoint => exact .inl hpoint
  · exact .inr h

/-- No character that starts a lexeme of another kind starts a word. -/
theorem ne_of_startsName {c : Char} {cs : List Char} (h : startsName c cs = true) :
    delimiter? c = none ∧ ∀ d ∈ ['[', '"', '\'', '`', ' ', '\t', '\r', '\x0c', '\n', '#'], c ≠ d := by
  have table : ∀ d ∈ ['(', ')', '\x7b', '\x7d', ']', ',', ';'] ++
      ['[', '"', '\'', '`', ' ', '\t', '\r', '\x0c', '\n', '#'],
      Text.isLetter d = false ∧ d ≠ '.' := by decide
  have hne : ∀ d ∈ ['(', ')', '\x7b', '\x7d', ']', ',', ';'] ++
      ['[', '"', '\'', '`', ' ', '\t', '\r', '\x0c', '\n', '#'], c ≠ d := by
    rintro d hd rfl
    obtain ⟨hletter, hpoint⟩ := table c hd
    rcases isLetter_of_startsName h with heq | heq
    · exact hpoint heq
    · rw [hletter] at heq
      cases heq
  refine ⟨?_, fun d hd => hne d (List.mem_append_right _ hd)⟩
  unfold delimiter?
  split
  · exact absurd rfl (hne '(' (by decide))
  · exact absurd rfl (hne ')' (by decide))
  · exact absurd rfl (hne '\x7b' (by decide))
  · exact absurd rfl (hne '\x7d' (by decide))
  · exact absurd rfl (hne ']' (by decide))
  · exact absurd rfl (hne ',' (by decide))
  · exact absurd rfl (hne ';' (by decide))
  · rfl

/-- Neither a name nor a text goes on here. -/
def StopsWord (rest : List Char) : Prop :=
  StopsName rest ∧ ∀ c ∈ rest.head?, c ≠ '"' ∧ c ≠ '\''

variable {c : Char} {cs rest : List Char}

theorem IsWord.startsName_append (h : IsWord c cs) (hrest : StopsName rest) :
    startsName c (cs ++ rest) = true := by
  have hstarts := h.starts
  unfold startsName at hstarts ⊢
  split
  · next hpoint =>
    rw [if_pos hpoint] at hstarts
    cases cs with
    | cons d cs => exact hstarts
    | nil =>
      cases rest with
      | nil => rfl
      | cons d rest =>
        cases hdigit : Text.isDigit d with
        | false =>
          simp only [List.nil_append, hdigit]
          rfl
        | true =>
          exact absurd (Numeral.isNameChar_of_isDigit hdigit) (by rw [hrest d rfl]; decide)
  · next hpoint =>
    rw [if_neg hpoint] at hstarts
    exact hstarts

/-- The lexeme of a word. -/
theorem IsWord.readWord (h : IsWord c cs) (hrest : StopsName rest) :
    readWord c (cs ++ rest) = .ok (ofWord (String.ofList (c :: cs)), rest) := by
  have htake : (cs ++ rest).takeWhile isNameChar = cs := by
    rw [List.takeWhile_append_of_pos h.all, hrest.takeWhile (fun _ h => h), List.append_nil]
  have hdrop : (cs ++ rest).dropWhile isNameChar = rest := by
    have := List.takeWhile_append_dropWhile (p := isNameChar) (l := cs ++ rest)
    rw [htake] at this
    exact List.append_cancel_left this
  unfold RCode.readWord
  simp only [h.startsName_append hrest, if_true, htake, hdrop]

/-- The first character of a word starts no number. -/
theorem IsWord.not_digit (h : IsWord c cs) (hrest : StopsName rest) :
    (Text.isDigit c || (c == '.' && (cs ++ rest).head?.any Text.isDigit)) = false := by
  have hdigit : Text.isDigit c = false := by
    rcases isLetter_of_startsName h.starts with rfl | hletter
    · decide
    · exact Text.isDigit_of_isLetter hletter
  have hstarts := h.startsName_append hrest
  rw [hdigit, Bool.false_or]
  cases hpoint : c == '.' with
  | false => rfl
  | true =>
    obtain rfl := beq_iff_eq.mp hpoint
    cases htext : cs ++ rest with
    | nil => rfl
    | cons d after =>
      rw [htext] at hstarts
      simpa [startsName] using hstarts

/-- A word is read as a word. -/
theorem IsWord.readLexeme (h : IsWord c cs) (hrest : StopsWord rest) :
    readLexeme c (cs ++ rest) = .ok (ofWord (String.ofList (c :: cs)), rest) := by
  obtain ⟨hdelimiter, hne⟩ := ne_of_startsName h.starts
  have hbracket : c ≠ '[' := hne '[' (by simp)
  have hquote : ¬ (c = '"' ∨ c = '\'') :=
    not_or.mpr ⟨hne '"' (by simp), hne '\'' (by simp)⟩
  have hbacktick : c ≠ '`' := hne '`' (by simp)
  have hword := h.readWord hrest.1
  have hdigit := h.not_digit hrest.1
  unfold RCode.readLexeme
  simp only [hdelimiter, hbracket, hquote, hbacktick, if_false]
  cases htext : cs ++ rest with
  | nil =>
    rw [htext] at hword hdigit
    have hdigit' : Text.isDigit c = false := (Bool.or_eq_false_iff.mp hdigit).1
    simp only [hdigit', Bool.false_eq_true, if_false]
    exact hword
  | cons next body =>
    rw [htext] at hword hdigit
    have hnext : ¬ (next = '"' ∨ next = '\'') := by
      cases cs with
      | nil =>
        have := hrest.2 next (by rw [show rest = next :: body from htext]; rfl)
        exact not_or.mpr this
      | cons d cs =>
        obtain ⟨rfl, -⟩ := List.cons.inj htext
        have := h.all d List.mem_cons_self
        rintro (rfl | rfl)
        · exact absurd this (by decide)
        · exact absurd this (by decide)
    have hdigit' : (Text.isDigit c || (c == '.' && Text.isDigit next)) = false := hdigit
    simp only [hnext, and_false, if_false, hdigit', Bool.false_eq_true]
    exact hword

/-! ## Operators -/

namespace Operator

/-- All spellings of operators in the tables. -/
def spellings : List String :=
  "**" :: (binaryTable.map Prod.fst ++ prefixTable.map Prod.fst)

/-- A longer operator starts with the name and the character. -/
def goesOn (name : String) (c : Char) : Bool :=
  spellings.any fun s => (name.toList ++ [c]).isPrefixOf s.toList

theorem mem_spellings {s name : String} (h : ofSpelling? s = some name) : s ∈ spellings := by
  have hlookup : ∀ (α : Type) (table : List (String × α)), (table.lookup s).isSome = true →
      s ∈ table.map Prod.fst := by
    intro α table h
    obtain ⟨b, hb⟩ := Option.isSome_iff_exists.mp h
    obtain ⟨before, after, htable, -⟩ := List.lookup_eq_some_iff.mp hb
    rw [htable]
    simp
  unfold ofSpelling? at h
  split at h
  · next hstars => rw [hstars]; exact List.mem_cons_self
  · split at h
    · next hfound =>
      rcases Bool.or_eq_true_iff.mp hfound with hfound | hfound
      · exact List.mem_cons_of_mem _ (List.mem_append_left _ (hlookup _ _ hfound))
      · exact List.mem_cons_of_mem _ (List.mem_append_right _ (hlookup _ _ hfound))
    · cases h

/-- No operator is longer where none goes on. -/
theorem ofSpelling?_longer {name : String} {c : Char} {cs : List Char} (h : goesOn name c = false) :
    ofSpelling? (String.ofList (name.toList ++ c :: cs)) = none := by
  cases hfound : ofSpelling? (String.ofList (name.toList ++ c :: cs)) with
  | none => rfl
  | some other =>
    have := List.any_eq_false.mp h _ (mem_spellings hfound)
    refine absurd ?_ this
    rw [String.toList_ofList, List.isPrefixOf_iff_prefix]
    exact ⟨cs, by simp⟩

/-- The operator of a length at the start of a text, and the text after it. -/
def ofLength? (cs : List Char) (length : Nat) : Option (String × List Char) :=
  if cs.length < length then none
  else (ofSpelling? (String.ofList (cs.take length))).map fun name => (name, cs.drop length)

theorem longest?_eq (cs : List Char) : longest? cs = [3, 2, 1].findSome? (ofLength? cs) := rfl

/-- An operator of the table is the longest at the start of a text if none goes on. -/
theorem longest?_append {name : String} (hname : ofSpelling? name = some name)
    {rest : List Char} (hrest : ∀ c ∈ rest.head?, goesOn name c = false) :
    longest? (name.toList ++ rest) = some (name, rest) := by
  have hlength : name.toList.length = 1 ∨ name.toList.length = 2 ∨ name.toList.length = 3 := by
    have table : ∀ s ∈ spellings,
        s.toList.length = 1 ∨ s.toList.length = 2 ∨ s.toList.length = 3 := by decide
    exact table name (mem_spellings hname)
  -- what is tried first is longer than the name
  have hlonger : ∀ length, name.toList.length < length →
      ofLength? (name.toList ++ rest) length = none := by
    intro length hlt
    unfold ofLength?
    split
    · rfl
    · next hlong =>
      rw [List.length_append] at hlong
      cases rest with
      | nil =>
        rw [List.length_nil] at hlong
        omega
      | cons c rest =>
        have htake : (name.toList ++ c :: rest).take length =
            name.toList ++ c :: rest.take (length - name.toList.length - 1) := by
          obtain ⟨more, rfl⟩ := Nat.exists_eq_add_of_lt hlt
          rw [Nat.add_assoc, List.take_length_add_append, List.take_succ_cons]
          congr 3
          omega
        rw [htake, ofSpelling?_longer (hrest c rfl)]
        rfl
  have hself : ofLength? (name.toList ++ rest) name.toList.length = some (name, rest) := by
    have hnot : ¬ (name.toList ++ rest).length < name.toList.length := by
      rw [List.length_append]
      omega
    rw [ofLength?, if_neg hnot, List.take_left, List.drop_left, String.ofList_toList, hname]
    rfl
  rw [longest?_eq]
  rcases hlength with h | h | h
  · rw [h] at hself
    simp only [List.findSome?_cons, hlonger 3 (by omega), hlonger 2 (by omega), hself]
  · rw [h] at hself
    simp only [List.findSome?_cons, hlonger 3 (by omega), hself]
  · rw [h] at hself
    simp only [List.findSome?_cons, hself]

end Operator

end RCode
