import BooleanSearch.Proofs.Text.Form

/-!
# The tokens of texts of the same form

* `Token.bare`: a token without the case of its letters and without its place in the text.
* `Alike`: pieces that differ in the blanks of their gaps and in the case of letters only.
* `SameForm.alike`: texts of the same form are cut into such pieces.
* `SameForm.scan_bare`, `SameForm.hasGlued_eq`: their tokens are the same, and touch in the same
  places, although the places have other offsets.
-/

namespace BooleanSearch
set_option autoImplicit false

/-! ## The case of letters in tokens -/

/-- A kind with the letters that were read outside brackets in capitals. -/
def Kind.inCapitals : Kind → Kind
  | fieldPrefix code => fieldPrefix (String.ofList (Text.upper code.toList))
  | word text => word (String.ofList (Text.upper text.toList))
  | k => k

/-- A token in capitals, as if it stood nowhere. -/
def Token.bare (t : Token) : Token := ⟨t.kind.inCapitals, ⟨0, 0⟩⟩

@[simp] theorem Kind.isKeyword_inCapitals (k : Kind) : k.inCapitals.isKeyword = k.isKeyword := by
  cases k <;> rfl

@[simp] theorem Kind.isTerm_inCapitals (k : Kind) : k.inCapitals.isTerm = k.isTerm := by
  cases k <;> rfl

theorem kinds_bare (tokens : List Token) :
    (tokens.map Token.bare).map (·.kind) = (tokens.map (·.kind)).map Kind.inCapitals := by
  rw [List.map_map, List.map_map]
  rfl

/-- What a word is, up to the case of its letters, does not depend on that case, nor on the case of the
letters behind it. -/
theorem SameForm.wordKind_inCapitals {run run' behind behind' : List Char}
    (hrun : Text.upper run = Text.upper run') (h : SameForm behind behind') :
    (wordKind run behind).inCapitals = (wordKind run' behind').inCapitals := by
  have hword : Keyword.ofWord? run = Keyword.ofWord? run' := by
    unfold Keyword.ofWord?
    rw [hrun]
  have hall : run.all Text.isLetter = run'.all Text.isLetter := by
    rw [← Text.all_isLetter_upper, hrun, Text.all_isLetter_upper]
  unfold wordKind
  rw [hword, h.head_eq '[' rfl rfl, h.head_eq '(' rfl rfl, hall]
  cases Keyword.ofWord? run' with
  | some k => rfl
  | none =>
    dsimp only
    split <;> simp only [Kind.inCapitals, String.toList_ofList, hrun]

/-! ## The pieces of a text, from its beginning -/

theorem pieces_of_spelled {kind : Kind} {written behind : List Char}
    (h : Spelled kind written behind) :
    pieces (written ++ behind) = .lexeme kind written :: pieces behind :=
  (Tiles.lexeme kind written h (tiles_pieces behind)).eq_pieces.symm

theorem pieces_blanks_append (gap text : List Char) (hb : ∀ c ∈ gap, Text.isBlank c = true) :
    pieces (gap ++ text) = gap.map .blank ++ pieces text :=
  ((tiles_pieces text).blanks_append gap hb).eq_pieces.symm

theorem pieces_of_run (c : Char) (text : List Char) (hw : isWordChar c = true) :
    pieces (c :: text) =
      .lexeme (wordKind ((c :: text).takeWhile isWordChar) ((c :: text).dropWhile isWordChar))
        ((c :: text).takeWhile isWordChar) :: pieces ((c :: text).dropWhile isWordChar) := by
  have hne : (c :: text).takeWhile isWordChar ≠ [] := by
    rw [List.takeWhile_cons_of_pos hw]
    exact List.cons_ne_nil _ _
  have hspelled := Spelled.word _ _ hne (fun d hd => List.mem_takeWhile_imp hd)
    (stops_dropWhile isWordChar (c :: text))
  rw [← pieces_of_spelled hspelled, List.takeWhile_append_dropWhile]

/-- A character that is neither blank nor in a word nor an opening bracket is a token alone. -/
theorem exists_spelled_mark {c : Char} (hc : Text.isBlank c = false) (ho : c ≠ '[')
    (hw : ¬ isWordChar c = true) : ∃ kind, ∀ behind, Spelled kind [c] behind := by
  rw [isWordChar_iff] at hw
  by_cases hstray : c = ']'
  · exact ⟨_, hstray ▸ Spelled.stray⟩
  by_cases hopening : c = '('
  · exact ⟨_, hopening ▸ Spelled.opening⟩
  by_cases hclosing : c = ')'
  · exact ⟨_, hclosing ▸ Spelled.closing⟩
  exact absurd ⟨hc, ho, hstray, hopening, hclosing⟩ hw

/-! ## Pieces that are alike -/

/-- Pieces that differ in the blanks of their gaps and in the case of letters outside brackets. -/
inductive Alike : List Piece → List Piece → Prop
  | nil : Alike [] []
  | gap {ps qs : List Piece} (gap gap' : List Char) (hne : gap ≠ []) (hne' : gap' ≠ [])
      (rest : Alike ps qs) : Alike (gap.map .blank ++ ps) (gap'.map .blank ++ qs)
  | lexeme {ps qs : List Piece} {k l : Kind} (w v : List Char) (same : k.inCapitals = l.inCapitals)
      (rest : Alike ps qs) : Alike (.lexeme k w :: ps) (.lexeme l v :: qs)

theorem SameForm.alike {text text' : List Char} (h : SameForm text text') :
    Alike (pieces text) (pieces text') := by
  -- a word takes many characters at once, so the induction is on the length
  induction hn : text.length using Nat.strong_induction_on generalizing text text' with
  | _ n ih =>
    subst hn
    have hless : ∀ {front : List Char} (behind : List Char), front ≠ [] →
        behind.length < (front ++ behind).length := by
      intro front behind hne
      have hpos := List.length_pos_iff.mpr hne
      rw [List.length_append]
      omega
    cases h with
    | nil => exact pieces_nil ▸ Alike.nil
    | @char text text' c d same hc ho rest =>
      by_cases hw : isWordChar c = true
      · obtain ⟨hrun, hbehind⟩ := (SameForm.char c d same hc ho rest).run
        have hshort : ((c :: text).dropWhile isWordChar).length < (c :: text).length := by
          rw [List.dropWhile_cons_of_pos hw]
          exact Nat.lt_succ_of_le (List.dropWhile_suffix _).length_le
        rw [pieces_of_run c text hw, pieces_of_run d text' ((isWordChar_congr same).symm.trans hw)]
        exact Alike.lexeme _ _ (hbehind.wordKind_inCapitals hrun) (ih _ hshort hbehind rfl)
      · obtain rfl : c = d := (eq_or_isWordChar same).resolve_right fun both => hw both.1
        obtain ⟨kind, hkind⟩ := exists_spelled_mark hc ho hw
        have hcut := pieces_of_spelled (hkind text)
        have hcut' := pieces_of_spelled (hkind text')
        rw [List.singleton_append] at hcut hcut'
        rw [hcut, hcut']
        exact Alike.lexeme _ _ rfl (ih _ (Nat.lt_succ_self _) rest rfl)
    | gap gap gap' hne hne' hb hb' rest =>
      rw [pieces_blanks_append gap _ hb, pieces_blanks_append gap' _ hb']
      exact Alike.gap gap gap' hne hne' (ih _ (hless _ hne) rest rfl)
    | bracket inside h rest =>
      rw [pieces_of_spelled (Spelled.term inside _ h), pieces_of_spelled (Spelled.term inside _ h)]
      exact Alike.lexeme _ _ rfl (ih _ (hless _ (List.cons_ne_nil _ _)) rest rfl)
    | unclosed inside h =>
      have hcut := pieces_of_spelled (Spelled.unclosed inside h)
      rw [List.append_nil] at hcut
      rw [hcut, pieces_nil]
      exact Alike.lexeme _ _ rfl Alike.nil

namespace Alike

variable {ps qs : List Piece}

theorem kindsOf_eq (h : Alike ps qs) :
    (kindsOf ps).map Kind.inCapitals = (kindsOf qs).map Kind.inCapitals := by
  have hblanks : ∀ gap : List Char, kindsOf (gap.map .blank) = [] := by
    intro gap
    simp [kindsOf, List.filterMap_map, Function.comp_def, Piece.kind?]
  induction h with
  | nil => rfl
  | gap gap gap' hne hne' rest ih =>
    rw [kindsOf_append, kindsOf_append, hblanks, hblanks]
    exact ih
  | lexeme w v same rest ih =>
    rw [kindsOf_lexeme, kindsOf_lexeme, List.map_cons, List.map_cons, same, ih]

/-- A gap keeps two tokens apart however many blanks it has. -/
theorem gluedPieces_eq (h : Alike ps qs) : gluedPieces ps = gluedPieces qs := by
  have hgap : ∀ (k : Kind) (w gap : List Char) (ps : List Piece), gap ≠ [] →
      gluedPieces (.lexeme k w :: (gap.map .blank ++ ps)) = gluedPieces ps := by
    intro k w gap ps hne
    cases gap with
    | nil => exact absurd rfl hne
    | cons c gap => exact (gluedPieces_gap k w c _).trans (gluedPieces_blanks_append gap ps)
  induction h with
  | nil => rfl
  | gap gap gap' hne hne' rest ih =>
    rw [gluedPieces_blanks_append, gluedPieces_blanks_append, ih]
  | @lexeme ps qs k l w v same rest ih =>
    cases rest with
    | nil => rfl
    | gap gap gap' hne hne' rest =>
      rw [gluedPieces_blanks_append, gluedPieces_blanks_append] at ih
      rw [hgap k w gap _ hne, hgap l v gap' _ hne', ih]
    | @lexeme ps qs k' l' w' v' same' rest =>
      have hclass : ∀ {a b : Kind}, a.inCapitals = b.inCapitals →
          a.isKeyword = b.isKeyword ∧ a.isTerm = b.isTerm := by
        intro a b he
        rw [← a.isKeyword_inCapitals, ← a.isTerm_inCapitals, he, b.isKeyword_inCapitals,
          b.isTerm_inCapitals]
        exact ⟨rfl, rfl⟩
      rw [gluedPieces, gluedPieces, ih, (hclass same).1, (hclass same).2, (hclass same').1,
        (hclass same').2]

end Alike

/-! ## The tokens -/

namespace SameForm

variable {text text' : String}

theorem kinds_scan (h : SameForm text.toList text'.toList) :
    ((Token.scan text).map (·.kind)).map Kind.inCapitals =
      ((Token.scan text').map (·.kind)).map Kind.inCapitals := by
  have hkinds := h.alike.kindsOf_eq
  rw [← kindsIn_eq, ← kindsIn_eq] at hkinds
  exact hkinds

theorem scan_bare (h : SameForm text.toList text'.toList) :
    (Token.scan text).map Token.bare = (Token.scan text').map Token.bare := by
  have hbare : ∀ tokens : List Token, tokens.map Token.bare =
      ((tokens.map (·.kind)).map Kind.inCapitals).map fun k => ⟨k, ⟨0, 0⟩⟩ := by
    intro tokens
    rw [List.map_map, List.map_map]
    rfl
  rw [hbare, hbare, h.kinds_scan]

theorem hasGlued_eq (h : SameForm text.toList text'.toList) :
    Rule.hasGlued (Token.scan text) = Rule.hasGlued (Token.scan text') := by
  rw [hasGlued_scan, hasGlued_scan, h.alike.gluedPieces_eq]

end SameForm

end BooleanSearch
