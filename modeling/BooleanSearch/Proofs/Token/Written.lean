import BooleanSearch.Proofs.Token.Tiling

/-!
# The characters that tokens stand on

* `Token.written`: the characters of a text between the two ends of a token.
* `lexemesOf`: the tokens among some pieces, with the characters that they are written with.
* `map_written_scan`: both say the same of the tokens of a text.
* `Tiles.first_token`, `Tiles.behind_tokens`: where the first token of a text stands, and what is left
  of a text behind some of its tokens.
-/

namespace BooleanSearch
set_option autoImplicit false

/-! ## Written tokens -/

/-- The characters of a text that a token stands on. -/
def Token.written (text : String) (t : Token) : List Char :=
  Text.slice text.toList t.span.start t.span.stop

def Piece.lexeme? : Piece → Option (Kind × List Char)
  | blank _ => none
  | lexeme kind written => some (kind, written)

/-- The tokens among some pieces, each with the characters that it is written with. -/
def lexemesOf (ps : List Piece) : List (Kind × List Char) := ps.filterMap Piece.lexeme?

@[simp] theorem lexemesOf_nil : lexemesOf [] = [] := rfl

@[simp] theorem lexemesOf_blank (c : Char) (ps : List Piece) :
    lexemesOf (.blank c :: ps) = lexemesOf ps := rfl

@[simp] theorem lexemesOf_lexeme (kind : Kind) (written : List Char) (ps : List Piece) :
    lexemesOf (.lexeme kind written :: ps) = (kind, written) :: lexemesOf ps := rfl

theorem map_written_ofPieces (text : String) (ps : List Piece) (front : List Char)
    (htext : text.toList = front ++ ps.flatMap Piece.written) :
    (Token.ofPieces (Text.byteCount front) ps).map (fun t => (t.kind, t.written text)) =
      lexemesOf ps := by
  induction ps generalizing front with
  | nil => rfl
  | cons p ps ih =>
    rw [List.flatMap_cons] at htext
    have hmore := ih (front ++ p.written) (by rw [htext, List.append_assoc])
    rw [Text.byteCount_append] at hmore
    cases p with
    | blank c => exact hmore
    | lexeme kind written =>
      have hslice := Text.slice_append front written (ps.flatMap Piece.written)
      rw [Piece.written] at htext
      rw [← htext] at hslice
      rw [Token.ofPieces, List.map_cons, lexemesOf_lexeme, ← hmore, Token.written, hslice]
      rfl

theorem map_written_scan (text : String) :
    (Token.scan text).map (fun t => (t.kind, t.written text)) = lexemesOf (pieces text.toList) :=
  map_written_ofPieces text _ [] (written_pieces text.toList).symm

/-! ## Token by token -/

/-- The first token of a text stands behind blanks, and the other tokens behind it. -/
theorem Tiles.first_token {ps : List Piece} {text : List Char} (h : Tiles ps text)
    (front : List Char) {t : Token} {ts : List Token}
    (hts : Token.ofPieces (Text.byteCount front) ps = t :: ts) :
    ∃ gap written behind qs, text = gap ++ (written ++ behind) ∧
      (∀ c ∈ gap, Text.isBlank c = true) ∧ Spelled t.kind written behind ∧
      t.span = ⟨Text.byteCount (front ++ gap), Text.byteCount (front ++ (gap ++ written))⟩ ∧
      Tiles qs behind ∧ Token.ofPieces (Text.byteCount (front ++ (gap ++ written))) qs = ts := by
  induction h generalizing front with
  | nil => cases hts
  | @blank ps text c hc rest ih =>
    have hcount : Text.byteCount front + c.utf8Size = Text.byteCount (front ++ [c]) :=
      (Text.byteCount_append front [c]).symm
    rw [Token.ofPieces, hcount] at hts
    obtain ⟨gap, written, behind, qs, rfl, hgap, hspelled, hspan, htiles, hrest⟩ := ih _ hts
    rw [List.append_assoc, List.append_assoc] at hspan
    rw [List.append_assoc] at hrest
    exact ⟨c :: gap, written, behind, qs, rfl, List.forall_mem_cons.mpr ⟨hc, hgap⟩, hspelled, hspan,
      htiles, hrest⟩
  | @lexeme ps text kind written spelled rest ih =>
    obtain ⟨rfl, htail⟩ := List.cons.inj hts
    rw [← Text.byteCount_append] at htail
    refine ⟨[], written, text, ps, rfl, List.forall_mem_nil _, spelled, ?_, rest, htail⟩
    rw [List.append_nil, List.nil_append, Text.byteCount_append]

/-- Behind some of its tokens the rest of a text has the other ones. -/
theorem Tiles.behind_tokens {ps : List Piece} {text : List Char} (h : Tiles ps text)
    (front : List Char) {before behind : List Token}
    (hts : Token.ofPieces (Text.byteCount front) ps = before ++ behind) :
    ∃ more rest qs, text = more ++ rest ∧ Tiles qs rest ∧
      Token.ofPieces (Text.byteCount (front ++ more)) qs = behind := by
  induction before generalizing ps text front with
  | nil => exact ⟨[], text, ps, rfl, h, by rw [List.append_nil, hts, List.nil_append]⟩
  | cons t before ih =>
    obtain ⟨gap, written, rest, qs, rfl, -, -, -, htiles, hrest⟩ := h.first_token front hts
    obtain ⟨more, rest, qs, rfl, htiles, hbehind⟩ := ih htiles _ hrest
    refine ⟨gap ++ written ++ more, rest, qs, by simp only [List.append_assoc], htiles, ?_⟩
    rw [← List.append_assoc]
    exact hbehind

end BooleanSearch
