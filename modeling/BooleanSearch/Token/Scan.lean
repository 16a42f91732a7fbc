import BooleanSearch.Token
import BooleanSearch.Text.Offset

/-!
# Reading a text as tokens

A text is first cut into pieces, each a blank character or the written form of one token, so that the
pieces put together again are the text. The spans of the tokens are then counted off.

* `Piece`: a blank character, or a token with the characters it is written with.
* `firstPiece`: the piece that a text begins with, and what follows it.
* `pieces`: the whole text as pieces.
* `Token.scan`: the tokens of a text.

The main facts are `written_firstPiece` and `written_pieces`: nothing of the text is lost.
-/

namespace BooleanSearch
set_option autoImplicit false

/-! ## Pieces -/

/-- A part of a text: one blank character, or one token as it is written. -/
inductive Piece where
  | blank (c : Char)
  | lexeme (kind : Kind) (text : List Char)
  deriving DecidableEq, Repr

def Piece.written : Piece → List Char
  | blank c => [c]
  | lexeme _ text => text

/-- The characters that end a word although they are not blank. -/
def isDelimiter (c : Char) : Bool := c == '[' || c == ']' || c == '(' || c == ')'

/-- The characters that a word goes on with. -/
def isWordChar (c : Char) : Bool := !Text.isBlank c && !isDelimiter c

/-- What a word is, given the text behind it: a keyword, a field code glued to a term or a group, or a
word without a meaning. -/
def wordKind (word behind : List Char) : Kind :=
  match Keyword.ofWord? word with
  | some k => .keyword k
  | none =>
    let glued := behind.head? == some '[' || behind.head? == some '('
    if glued && word.all Text.isLetter then .fieldPrefix (String.ofList word)
    else .word (String.ofList word)

/-- The piece that a text with the first character `c` begins with, and the text behind that piece. -/
def firstPiece (c : Char) (cs : List Char) : Piece × List Char :=
  if Text.isBlank c then (.blank c, cs)
  else match c with
    | '(' => (.lexeme .opening [c], cs)
    | ')' => (.lexeme .closing [c], cs)
    | ']' => (.lexeme .illegal [c], cs)
    | '[' =>
      let inside := cs.takeWhile (· != ']')
      match cs.dropWhile (· != ']') with
      | [] => (.lexeme .illegal (c :: cs), [])
      | bracket :: behind =>
        (.lexeme (.term (String.ofList inside)) (c :: inside ++ [bracket]), behind)
    | _ =>
      let word := c :: cs.takeWhile isWordChar
      let behind := cs.dropWhile isWordChar
      (.lexeme (wordKind word behind) word, behind)

theorem written_firstPiece (c : Char) (cs : List Char) :
    (firstPiece c cs).1.written ++ (firstPiece c cs).2 = c :: cs := by
  unfold firstPiece
  split
  · rfl
  · split
    · rfl
    · rfl
    · rfl
    · have h := List.takeWhile_append_dropWhile (p := (· != ']')) (l := cs)
      dsimp only
      split
      · next heq => simp [Piece.written]
      · next b behind heq => rw [heq] at h; simp [Piece.written, h]
    · simp [Piece.written]

theorem written_firstPiece_ne_nil (c : Char) (cs : List Char) :
    (firstPiece c cs).1.written ≠ [] := by
  unfold firstPiece
  split
  · simp [Piece.written]
  · split
    · simp [Piece.written]
    · simp [Piece.written]
    · simp [Piece.written]
    · dsimp only
      split <;> simp [Piece.written]
    · simp [Piece.written]

theorem length_behind_firstPiece (c : Char) (cs : List Char) :
    (firstPiece c cs).2.length < (c :: cs).length := by
  have h := congrArg List.length (written_firstPiece c cs)
  have hne := List.length_pos_iff.mpr (written_firstPiece_ne_nil c cs)
  rw [List.length_append] at h
  omega

/-- A text as pieces. -/
def pieces : List Char → List Piece
  | [] => []
  | c :: cs => (firstPiece c cs).1 :: pieces (firstPiece c cs).2
termination_by text => text.length
decreasing_by exact length_behind_firstPiece c cs

@[simp] theorem pieces_nil : pieces [] = [] := by simp [pieces]

theorem written_pieces (text : List Char) : (pieces text).flatMap Piece.written = text := by
  fun_induction pieces text with
  | case1 => rfl
  | case2 c cs ih => rw [List.flatMap_cons, ih, written_firstPiece]

/-! ## Tokens -/

namespace Token

/-- The tokens among some pieces, when the first piece begins at the offset `start`. -/
def ofPieces (start : Nat) : List Piece → List Token
  | [] => []
  | .blank c :: rest => ofPieces (start + c.utf8Size) rest
  | .lexeme kind text :: rest =>
    let stop := start + Text.byteCount text
    ⟨kind, ⟨start, stop⟩⟩ :: ofPieces stop rest

def scan (text : String) : List Token := ofPieces 0 (pieces text.toList)

end Token
end BooleanSearch
