import RCode.Proofs.Token.Joining
import RCode.Proofs.Token.LexemeReading
import RCode.Proofs.Token.Truncation
import RCode.Proofs.Token.WellFormed

/-!
# Tokens tile their text

A text that splits into tokens is a row of tiles and a gap at its end (`TokenText.isTiling`). A tile is
a token with its characters and the gap before them. Gaps hold blanks, comments and those line breaks
that are merged into the line break before them, and nothing else: no character is skipped and none is
read twice. Every token stands where its characters do.
-/

set_option autoImplicit false

namespace RCode

namespace Position

/-- The place behind a text: its line counts the line breaks, its column the characters since the last
one. -/
def behind (cs : List Char) : Position :=
  ⟨.number (1 + cs.count '\n'), .number (1 + (cs.reverse.takeWhile (· != '\n')).length)⟩

theorem after_concat (p : Position) (cs : List Char) (c : Char) :
    p.after (cs ++ [c]) = (p.after cs).next c :=
  after_append p cs [c]

/-- Counting along a text leads to the place behind it. -/
theorem after_start (cs : List Char) : start.after cs = behind cs := by
  -- the place moves with the last character, and the column is counted from the end
  induction cs using List.reverseRecOn with
  | nil => rfl
  | append_singleton cs c ih =>
    rw [after_concat, ih, next, behind, behind, List.reverse_concat, List.takeWhile_cons,
      List.count_append, List.count_singleton]
    by_cases hbreak : c = '\n'
    · subst hbreak
      simp only [if_true, bne_self_eq_false, Bool.false_eq_true, if_false, List.length_nil,
        beq_self_eq_true, Position.mk.injEq, Coordinate.plus, Coordinate.toInt,
        Coordinate.number.injEq]
      exact ⟨by omega, rfl⟩
    · have hne : (c == '\n') = false := beq_eq_false_iff_ne.mpr hbreak
      simp only [if_neg hbreak, bne, hne, Bool.not_false, if_true, List.length_cons,
        Bool.false_eq_true, if_false, Position.mk.injEq, Coordinate.plus, Coordinate.toInt,
        Coordinate.number.injEq]
      omega

end Position

/-! ## Gaps and tiles -/

/-- The characters are no part of a token, where `rest` follows them: blanks, comments up to the end
of their line, and, if they are `merged`, line breaks. -/
inductive Gap (merged : Bool) : List Char → List Char → Prop where
  | nil (rest : List Char) : Gap merged [] rest
  | blank {c : Char} {gap rest : List Char} :
      isBlank c = true → Gap merged gap rest → Gap merged (c :: gap) rest
  | comment {body gap rest : List Char} :
      '\n' ∉ body → (∀ c ∈ (gap ++ rest).head?, c = '\n') → Gap merged gap rest →
        Gap merged ('#' :: body ++ gap) rest
  | lineBreak {gap rest : List Char} :
      merged = true → Gap merged gap rest → Gap merged ('\n' :: gap) rest

/-- Unless they are merged, line breaks are tokens. -/
theorem Gap.not_mem {gap rest : List Char} (h : Gap false gap rest) : '\n' ∉ gap := by
  induction h with
  | nil => exact List.not_mem_nil
  | blank hblank _ ih =>
    refine List.not_mem_cons_of_ne_of_not_mem ?_ ih
    rintro rfl
    cases hblank
  | comment hbody _ _ ih =>
    exact List.not_mem_append (List.not_mem_cons_of_ne_of_not_mem (by decide) hbody) ih
  | lineBreak hmerged => cases hmerged

/-- A token with its characters and the gap before them. -/
structure Tile where
  gap : List Char
  chars : List Char
  token : Token

namespace Tile

def text (tile : Tile) : List Char :=
  tile.gap ++ tile.chars

/-- The token is a line break. -/
def isBreak (tile : Tile) : Bool :=
  tile.token.lexeme matches .newline

/-- The characters are those of the token: a line break, or what the lexeme is read from when it
stands alone. -/
def IsLexeme (tile : Tile) : Prop :=
  if tile.isBreak then tile.chars = ['\n'] else ReadsAs tile.chars tile.token.lexeme []

/-- The text of a row of tiles. -/
def textOf (tiles : List Tile) : List Char :=
  tiles.flatMap text

/-- The row ends with a line break, or it is empty and stands after one. -/
def endsLine (afterBreak : Bool) (tiles : List Tile) : Bool :=
  (tiles.getLast?.map isBreak).getD afterBreak

/-- The gap behind a row of tiles that the tiles `after` and the gap `last` follow. -/
def nextGap (after : List Tile) (last : List Char) : List Char :=
  (after.head?.map gap).getD last

@[simp]
theorem textOf_nil : textOf [] = [] := rfl

@[simp]
theorem textOf_cons (tile : Tile) (tiles : List Tile) :
    textOf (tile :: tiles) = tile.gap ++ tile.chars ++ textOf tiles := rfl

@[simp]
theorem endsLine_nil (afterBreak : Bool) : endsLine afterBreak [] = afterBreak := rfl

@[simp]
theorem endsLine_cons (afterBreak : Bool) (tile : Tile) (tiles : List Tile) :
    endsLine afterBreak (tile :: tiles) = endsLine tile.isBreak tiles := by
  cases tiles with
  | nil => rfl
  | cons next tiles => simp only [endsLine, List.getLast?_cons, Option.map_some, Option.getD_some]

end Tile

/-! ## Tilings along a scan -/

/-- The text at `p`, which stands after a line break or not, is the row of tiles and the gap at its
end. -/
inductive Tiled : Position → Bool → List Char → List Tile → List Char → Prop where
  | last {p : Position} {afterBreak : Bool} {last : List Char} :
      Gap afterBreak last [] → Tiled p afterBreak last [] last
  | cons {p : Position} {afterBreak : Bool} {tile : Tile} {rest last : List Char}
      {tiles : List Tile} :
      Gap afterBreak tile.gap (tile.chars ++ rest) → tile.IsLexeme →
      tile.token.position = p.after tile.gap → (tile.isBreak = true → afterBreak = false) →
      Tiled (p.after tile.text) tile.isBreak rest tiles last →
        Tiled p afterBreak (tile.text ++ rest) (tile :: tiles) last

namespace Tiled

variable {p : Position} {afterBreak : Bool} {cs last : List Char} {tiles : List Tile}

/-- A gap in front of a tiled text becomes part of its first gap. -/
theorem prepend (skipped : List Char) (h : Tiled (p.after skipped) afterBreak cs tiles last)
    (hgap : ∀ gap rest, gap ++ rest = cs → Gap afterBreak gap rest →
      Gap afterBreak (skipped ++ gap) rest) :
    ∃ tiles' last', tiles'.map Tile.token = tiles.map Tile.token ∧
      Tiled p afterBreak (skipped ++ cs) tiles' last' := by
  cases h with
  | last hlast => exact ⟨[], skipped ++ cs, rfl, .last (hgap _ _ (List.append_nil _) hlast)⟩
  | @cons _ _ tile rest last tiles hfirst hlexeme hposition hbreak hrest =>
    have htext : skipped ++ (tile.text ++ rest) =
        Tile.text ⟨skipped ++ tile.gap, tile.chars, tile.token⟩ ++ rest := by
      simp only [Tile.text, List.append_assoc]
    refine ⟨⟨skipped ++ tile.gap, tile.chars, tile.token⟩ :: tiles, last, rfl, ?_⟩
    rw [htext]
    refine .cons (hgap _ _ ?_ hfirst) hlexeme ?_ hbreak ?_
    · rw [Tile.text, List.append_assoc]
    · rw [hposition, Position.after_append]
    · rw [Tile.text, List.append_assoc, Position.after_append]
      exact hrest

/-- Behind a part of the row the rest of the text is the rest of the row. -/
theorem split {before after : List Tile} (h : Tiled p afterBreak cs (before ++ after) last) :
    ∃ rest, Tile.textOf before ++ rest = cs ∧
      Tiled (p.after (Tile.textOf before)) (Tile.endsLine afterBreak before) rest after last := by
  induction before generalizing p afterBreak cs with
  | nil => exact ⟨cs, rfl, h⟩
  | cons tile before ih =>
    cases h with
    | cons _ _ _ _ hrest =>
      obtain ⟨rest, rfl, htiled⟩ := ih hrest
      refine ⟨rest, ?_, ?_⟩
      · rw [Tile.textOf_cons, Tile.text, List.append_assoc]
      · rw [Tile.textOf_cons, Tile.endsLine_cons, Position.after_append]
        exact htiled

/-- The gap in front of a row of tiles. -/
theorem gap (h : Tiled p afterBreak cs tiles last) {rest : List Char}
    (hrest : Tile.nextGap tiles last ++ rest = cs) :
    Gap afterBreak (Tile.nextGap tiles last) rest := by
  cases h with
  | last hlast =>
    obtain rfl := List.append_right_eq_self.mp hrest
    exact hlast
  | cons hgap =>
    rw [Tile.text, List.append_assoc] at hrest
    rw [List.append_cancel_left hrest]
    exact hgap

theorem lexemes (h : Tiled p afterBreak cs tiles last) : ∀ tile ∈ tiles, tile.IsLexeme := by
  induction h with
  | last => exact fun _ hmem => absurd hmem List.not_mem_nil
  | cons _ hlexeme _ _ _ ih => exact List.forall_mem_cons.mpr ⟨hlexeme, ih⟩

/-- After something else than a line break a line break is the first of its stretch and the only
one. -/
theorem single_break {breaks after : List Tile} (h : Tiled p false cs (breaks ++ after) last)
    (hbreaks : ∀ tile ∈ breaks, tile.isBreak = true)
    (hmem : '\n' ∈ Tile.textOf breaks ++ Tile.nextGap after last) :
    ∃ tile, breaks = [tile] ∧ '\n' ∉ tile.gap := by
  rcases breaks with _ | ⟨tile, _ | ⟨next, more⟩⟩
  · -- without a token the line break would be in the gap, where none is merged
    obtain ⟨rest, hrest⟩ : ∃ rest, Tile.nextGap after last ++ rest = cs := by
      cases h with
      | last => exact ⟨[], List.append_nil _⟩
      | cons => exact ⟨_, (List.append_assoc _ _ _).symm⟩
    exact absurd hmem (h.gap hrest).not_mem
  · cases h with
    | cons hgap => exact ⟨tile, rfl, hgap.not_mem⟩
  · cases h with
    | cons _ _ _ _ hrest =>
      cases hrest with
      | cons _ _ _ hfirst _ =>
        -- a line break after a line break is no token
        have hnext := hfirst (hbreaks next (by simp))
        rw [hbreaks tile (by simp)] at hnext
        cases hnext

/-- What stands at the place of a lexeme is a tile without a gap. -/
theorem lexeme (chars : List Char) (token : Token) (hposition : token.position = p)
    (hlexeme : (Tile.mk [] chars token).IsLexeme)
    (hbreak : (Tile.mk [] chars token).isBreak = true → afterBreak = false)
    (h : Tiled (p.after chars) (Tile.mk [] chars token).isBreak cs tiles last) :
    Tiled p afterBreak (chars ++ cs) (⟨[], chars, token⟩ :: tiles) last :=
  @cons p afterBreak ⟨[], chars, token⟩ cs last tiles (.nil _) hlexeme hposition hbreak h

end Tiled

/-- The characters that a lexeme takes from a text are read as the lexeme. -/
theorem readsAs_upTo {c : Char} {rest after : List Char} {l : Lexeme}
    (hblank : ¬ isBlank c = true) (hcomment : c ≠ '#') (hbreak : c ≠ '\n')
    (h : readLexeme c rest = .ok (l, after)) :
    ReadsAs (TokenText.upTo (c :: rest) after) l [] := by
  obtain ⟨chars, rfl⟩ := (readLexeme_local h).suffix
  have hchars : TokenText.upTo (c :: (chars ++ after)) after = c :: chars :=
    TokenText.upTo_left (c :: chars) after
  rw [hchars]
  exact ⟨c, chars, rfl, Bool.not_eq_true _ ▸ hblank, hcomment, hbreak, readLexeme_cut h⟩

/-- Every step of a scan puts characters into a gap or adds a tile. -/
theorem TokenText.Scans.tiled {p stop : Position} {afterBreak : Bool} {cs : List Char}
    {ts : List Token} (h : Scans p afterBreak cs ts stop) :
    ∃ tiles last, tiles.map Tile.token = ts ∧ Tiled p afterBreak cs tiles last := by
  induction h with
  | done p afterBreak => exact ⟨[], [], rfl, .last (.nil _)⟩
  | @blank p stop afterBreak c rest ts hblank _ ih =>
    obtain ⟨tiles, last, htokens, htiled⟩ := ih
    obtain ⟨tiles', last', htokens', htiled'⟩ := Tiled.prepend [c] htiled
      fun gap rest _ hgap => .blank hblank hgap
    exact ⟨tiles', last', htokens'.trans htokens, htiled'⟩
  | @comment p stop afterBreak rest ts _ ih =>
    obtain ⟨tiles, last, htokens, htiled⟩ := ih
    obtain ⟨body, left, rfl, hbody, hends, htake, hdrop⟩ := exists_comment rest
    rw [htake, hdrop] at htiled
    obtain ⟨tiles', last', htokens', htiled'⟩ := htiled.prepend _ fun gap rest heq hgap =>
      .comment hbody (heq ▸ hends) hgap
    exact ⟨tiles', last', htokens'.trans htokens, htiled'⟩
  | @merged p stop rest ts _ ih =>
    obtain ⟨tiles, last, htokens, htiled⟩ := ih
    obtain ⟨tiles', last', htokens', htiled'⟩ := Tiled.prepend ['\n'] htiled
      fun gap rest _ hgap => .lineBreak rfl hgap
    exact ⟨tiles', last', htokens'.trans htokens, htiled'⟩
  | lineBreak _ ih =>
    obtain ⟨tiles, last, htokens, htiled⟩ := ih
    refine ⟨_, last, ?_, Tiled.lexeme ['\n'] ⟨.newline, _⟩ rfl rfl (fun _ => rfl) htiled⟩
    exact congrArg (List.cons _) htokens
  | @lexeme p stop afterBreak c rest after l ts hblank hcomment hbreak hread _ ih =>
    obtain ⟨tiles, last, htokens, htiled⟩ := ih
    -- no lexeme is a line break, so that the tile is one whose characters read as its token
    have hplain : (Tile.mk [] (upTo (c :: rest) after) ⟨l, p⟩).isBreak = false := by
      have := (isRead_readLexeme hread).ne_newline
      cases l <;> first | rfl | exact absurd rfl this
    have hlexeme : (Tile.mk [] (upTo (c :: rest) after) ⟨l, p⟩).IsLexeme := by
      rw [Tile.IsLexeme, if_neg (Bool.eq_false_iff.mp hplain)]
      exact readsAs_upTo hblank hcomment hbreak hread
    rw [← hplain] at htiled
    have hbreak : (Tile.mk [] (upTo (c :: rest) after) ⟨l, p⟩).isBreak = true → afterBreak = false :=
      fun hnewline => absurd hnewline (Bool.eq_false_iff.mp hplain)
    have hcut := Tiled.lexeme _ _ rfl hlexeme hbreak htiled
    rw [upTo_append ((readLexeme_local hread).suffix.trans (List.suffix_cons c rest))] at hcut
    refine ⟨_, last, ?_, hcut⟩
    exact congrArg (List.cons _) htokens

/-! ## Tilings of texts -/

/-- The text is the row of tiles and the gap `last` at its end, and the tokens are those of the
tiles. -/
structure IsTiling (cs : List Char) (t : TokenText) (tiles : List Tile) (last : List Char) : Prop where
  tokens : tiles.map Tile.token = t.tokens
  text : Tile.textOf tiles ++ last = cs
  lexemes : ∀ tile ∈ tiles, tile.IsLexeme
  /-- A token stands where its first character does. -/
  position : ∀ before tile after, tiles = before ++ tile :: after →
    tile.token.position = .behind (Tile.textOf before ++ tile.gap)
  /-- Before the first token, between tokens and behind the last one there are gaps. -/
  gaps : ∀ before after rest, tiles = before ++ after →
    Tile.textOf before ++ Tile.nextGap after last ++ rest = cs →
      Gap (Tile.endsLine false before) (Tile.nextGap after last) rest
  /-- Line breaks with their gaps and the gap behind them are one stretch. If a stretch starts behind
  another token or with the text and holds a line break, the first one is a token, and no other. -/
  stretches : ∀ before breaks after, tiles = before ++ breaks ++ after →
    Tile.endsLine false before = false → (∀ tile ∈ breaks, tile.isBreak = true) →
      '\n' ∈ Tile.textOf breaks ++ Tile.nextGap after last →
        ∃ tile, breaks = [tile] ∧ '\n' ∉ tile.gap
  stop : t.stop = .behind cs

theorem Tiled.tiling {cs last : List Char} {t : TokenText} {tiles : List Tile}
    (h : Tiled .start false cs tiles last) (htokens : tiles.map Tile.token = t.tokens)
    (hstop : t.stop = .behind cs) : IsTiling cs t tiles last where
  tokens := htokens
  text := by
    rw [← List.append_nil tiles] at h
    obtain ⟨rest, hrest, hlast⟩ := h.split
    cases hlast
    exact hrest
  lexemes := h.lexemes
  position := by
    rintro before tile after rfl
    obtain ⟨rest, -, hrest⟩ := h.split
    cases hrest with
    | cons _ _ hposition _ _ =>
      rw [hposition, ← Position.after_append, Position.after_start]
  gaps := by
    rintro before after rest rfl hcs
    obtain ⟨rest', hrest', htiled⟩ := h.split
    refine htiled.gap ?_
    rwa [← hrest', List.append_assoc, List.append_right_inj] at hcs
  stretches := by
    rintro before breaks after rfl hbefore hbreaks hmem
    rw [List.append_assoc] at h
    obtain ⟨rest, -, htiled⟩ := h.split
    rw [hbefore] at htiled
    exact htiled.single_break hbreaks hmem
  stop := hstop

namespace TokenText

/-- A text that splits into tokens is tiled by them. -/
theorem isTiling {text : String} {t : TokenText} (h : ofText text = .ok t) :
    ∃ tiles last, IsTiling text.toList t tiles last := by
  have hscans := scans_of_scan h
  obtain ⟨tiles, last, htokens, htiled⟩ := hscans.tiled
  refine ⟨tiles, last, htiled.tiling htokens ?_⟩
  rw [hscans.stop_eq, Position.after_start]

/-- Comments and further line breaks belong to the gap behind a line break. -/
theorem isTiling_comment :
    ofText "a # b\n\n c" = .ok ⟨[⟨.symbol "a", ⟨1, 1⟩⟩, ⟨.newline, ⟨1, 6⟩⟩,
      ⟨.symbol "c", ⟨3, 2⟩⟩], ⟨3, 3⟩⟩ ∧
    ∃ tiles last, IsTiling "a # b\n\n c".toList ⟨[⟨.symbol "a", ⟨1, 1⟩⟩, ⟨.newline, ⟨1, 6⟩⟩,
      ⟨.symbol "c", ⟨3, 2⟩⟩], ⟨3, 3⟩⟩ tiles last := by
  have h : ofText "a # b\n\n c" = .ok ⟨[⟨.symbol "a", ⟨1, 1⟩⟩, ⟨.newline, ⟨1, 6⟩⟩,
      ⟨.symbol "c", ⟨3, 2⟩⟩], ⟨3, 3⟩⟩ := by cbv
  exact ⟨h, isTiling h⟩

end TokenText

end RCode
