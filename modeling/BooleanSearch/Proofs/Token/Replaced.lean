import BooleanSearch.Token.Scan

/-!
# Texts with their tokens replaced

A text can be changed token by token: something else is written in the place of each token, and all
that stands between the tokens is copied.

* `Token.replaceFrom`, `Token.replaceAll`: the text that this gives, by the spans of the tokens.
* `Piece.replaced`: what is written in the place of a piece.
* `Token.toList_replaceAll`: the text is changed piece by piece.
-/

namespace BooleanSearch
set_option autoImplicit false

variable (replace : Kind → List Char → List Char)

/-- What is written in the place of a piece, when `replace` tells it for a token and its text. -/
def Piece.replaced : Piece → List Char
  | blank c => [c]
  | lexeme kind text => replace kind text

namespace Token

/-- A text from an offset on, with something else in the place of each of the tokens that follow. -/
def replaceFrom (text : List Char) : (here : Nat) → List Token → List Char
  | here, [] => Text.slice text here (Text.byteCount text)
  | here, t :: ts =>
    Text.slice text here t.span.start ++
      (replace t.kind (Text.slice text t.span.start t.span.stop) ++ replaceFrom text t.span.stop ts)

def replaceAll (text : String) : String :=
  String.ofList (replaceFrom replace text.toList 0 (scan text))

/-- Behind the last token that was replaced, blanks were read up to the pieces that follow. -/
theorem replaceFrom_ofPieces (ps : List Piece) (text front blanks : List Char)
    (htext : text = front ++ (blanks ++ ps.flatMap Piece.written)) :
    replaceFrom replace text (Text.byteCount front)
        (ofPieces (Text.byteCount front + Text.byteCount blanks) ps) =
      blanks ++ ps.flatMap (Piece.replaced replace) := by
  induction ps generalizing front blanks with
  | nil =>
    have hlast := Text.slice_append front blanks []
    rw [List.flatMap_nil] at htext
    rw [← htext, ← Text.byteCount_append, ← List.append_nil blanks, ← htext] at hlast
    rw [ofPieces, replaceFrom, hlast, List.flatMap_nil]
  | cons p ps ih =>
    cases p with
    | blank c =>
      have hblanks : Text.byteCount front + Text.byteCount blanks + c.utf8Size =
          Text.byteCount front + Text.byteCount (blanks ++ [c]) := by
        rw [Text.byteCount_append, Nat.add_assoc]
        rfl
      have hmore := ih front (blanks ++ [c]) (by simp [htext, Piece.written])
      rw [ofPieces, hblanks, hmore, List.append_assoc]
      rfl
    | lexeme kind written =>
      have hgap : Text.slice text (Text.byteCount front)
          (Text.byteCount front + Text.byteCount blanks) = blanks := by
        rw [htext]
        exact Text.slice_append front blanks _
      have hsplit : text = (front ++ blanks) ++ (written ++ ps.flatMap Piece.written) := by
        rw [htext, List.append_assoc]
        rfl
      have hslice := Text.slice_append (front ++ blanks) written (ps.flatMap Piece.written)
      have hrest := ih (front ++ blanks ++ written) [] (by simp [htext, Piece.written])
      rw [← hsplit, Text.byteCount_append] at hslice
      rw [Text.byteCount_append, Text.byteCount_append, Text.byteCount_nil, Nat.add_zero] at hrest
      rw [ofPieces, replaceFrom, hgap, hslice, hrest]
      rfl

theorem toList_replaceAll (text : String) : (replaceAll replace text).toList =
    (pieces text.toList).flatMap (Piece.replaced replace) := by
  have htext : text.toList = [] ++ ([] ++ (pieces text.toList).flatMap Piece.written) :=
    (written_pieces text.toList).symm
  rw [replaceAll, String.toList_ofList]
  exact replaceFrom_ofPieces replace _ _ [] [] htext

end Token
end BooleanSearch
