import BooleanSearch.Proofs.Text.Runs
import BooleanSearch.Token.Scan

/-!
# A text has one cut into pieces

How the pieces of a text look, said without the function that cuts it.

* `Spelled kind written behind`: a token of this kind is written so when `behind` follows it.
* `Tiles ps text`: the pieces `ps` lie side by side on the text, each blank alone and each token as it
  is spelled.
* `tiles_pieces`, `Tiles.eq_pieces`: the pieces of a text tile it, and nothing else does. Facts about
  the tokens of a text are inductions over `Tiles`.
-/

namespace BooleanSearch
set_option autoImplicit false

/-! ## Contents of brackets -/

theorem all_ne_bracket (run : List Char) (h : ']' ∉ run) : ∀ c ∈ run, (c != ']') = true := by
  intro c hc
  have hne : c ≠ ']' := fun e => h (e ▸ hc)
  simpa using hne

theorem bracket_not_mem_takeWhile (text : List Char) : ']' ∉ text.takeWhile (· != ']') := by
  intro h
  have := List.mem_takeWhile_imp h
  simp at this

/-! ## How pieces look -/

/-- A token of a kind is written so when `behind` follows it. A word goes on as far as it can, and what
it is may depend on what follows. -/
inductive Spelled : Kind → List Char → List Char → Prop
  | opening (behind : List Char) : Spelled .opening ['('] behind
  | closing (behind : List Char) : Spelled .closing [')'] behind
  | stray (behind : List Char) : Spelled .illegal [']'] behind
  | unclosed (inside : List Char) (h : ']' ∉ inside) : Spelled .illegal ('[' :: inside) []
  | term (inside behind : List Char) (h : ']' ∉ inside) :
      Spelled (.term (String.ofList inside)) ('[' :: (inside ++ [']'])) behind
  | word (run behind : List Char) (hne : run ≠ []) (hw : ∀ c ∈ run, isWordChar c = true)
      (hb : Stops isWordChar behind) : Spelled (wordKind run behind) run behind

/-- Pieces that lie side by side on a text. -/
inductive Tiles : List Piece → List Char → Prop
  | nil : Tiles [] []
  | blank {ps : List Piece} {text : List Char} (c : Char) (hc : Text.isBlank c = true)
      (rest : Tiles ps text) : Tiles (.blank c :: ps) (c :: text)
  | lexeme {ps : List Piece} {text : List Char} (kind : Kind) (written : List Char)
      (spelled : Spelled kind written text) (rest : Tiles ps text) :
      Tiles (.lexeme kind written :: ps) (written ++ text)

theorem isWordChar_iff (c : Char) : isWordChar c = true ↔
    Text.isBlank c = false ∧ c ≠ '[' ∧ c ≠ ']' ∧ c ≠ '(' ∧ c ≠ ')' := by
  simp only [isWordChar, isDelimiter, Bool.and_eq_true, Bool.not_eq_true', Bool.or_eq_false_iff,
    beq_eq_false_iff_ne, and_assoc]

theorem Spelled.ne_nil {kind : Kind} {written behind : List Char}
    (h : Spelled kind written behind) : written ≠ [] := by
  cases h with
  | word run behind hne hw hb => exact hne
  | _ => simp

theorem Spelled.not_isBlank {kind : Kind} {c : Char} {inside behind : List Char}
    (h : Spelled kind (c :: inside) behind) : Text.isBlank c = false := by
  cases h with
  | word run behind hne hrun hstops =>
    exact ((isWordChar_iff c).mp (hrun c List.mem_cons_self)).1
  | _ => rfl

/-! ## The cut is such a tiling -/

theorem firstPiece_blank (c : Char) (cs : List Char) (hc : Text.isBlank c = true) :
    firstPiece c cs = (.blank c, cs) := by
  unfold firstPiece
  rw [if_pos hc]

theorem firstPiece_word (c : Char) (cs : List Char) (hc : isWordChar c = true) :
    firstPiece c cs =
      (.lexeme (wordKind (c :: cs.takeWhile isWordChar) (cs.dropWhile isWordChar))
        (c :: cs.takeWhile isWordChar), cs.dropWhile isWordChar) := by
  obtain ⟨hblank, h1, h2, h3, h4⟩ := (isWordChar_iff c).mp hc
  unfold firstPiece
  rw [if_neg (by simp [hblank])]
  split
  · exact absurd rfl h3
  · exact absurd rfl h4
  · exact absurd rfl h2
  · exact absurd rfl h1
  · rfl

theorem firstPiece_bracket (cs : List Char) :
    firstPiece '[' cs = match cs.dropWhile (· != ']') with
      | [] => (.lexeme .illegal ('[' :: cs), [])
      | bracket :: behind =>
        (.lexeme (.term (String.ofList (cs.takeWhile (· != ']'))))
          ('[' :: cs.takeWhile (· != ']') ++ [bracket]), behind) := by
  have hblank : Text.isBlank '[' = false := by rfl
  unfold firstPiece
  rw [if_neg (by rw [hblank]; exact Bool.false_ne_true)]
  rfl

/-- A character that is no blank begins a token, spelled with what follows it. -/
theorem spelled_firstPiece (c : Char) (cs : List Char) (hc : Text.isBlank c = false) :
    ∃ kind written behind, firstPiece c cs = (.lexeme kind written, behind) ∧
      written ++ behind = c :: cs ∧ Spelled kind written behind := by
  by_cases hw : isWordChar c = true
  · refine ⟨_, _, _, firstPiece_word c cs hw, by simp, Spelled.word _ _ (by simp) ?_ ?_⟩
    · intro d hd
      rcases List.mem_cons.mp hd with rfl | hd
      · exact hw
      · exact List.mem_takeWhile_imp hd
    · exact stops_dropWhile isWordChar cs
  · have hd : c = '[' ∨ c = ']' ∨ c = '(' ∨ c = ')' := by
      by_contra hn
      simp only [not_or] at hn
      exact hw ((isWordChar_iff c).mpr ⟨hc, hn⟩)
    rcases hd with rfl | rfl | rfl | rfl
    · rw [firstPiece_bracket]
      have hcut := List.takeWhile_append_dropWhile (p := (· != ']')) (l := cs)
      have hin := bracket_not_mem_takeWhile cs
      have hstop := stops_dropWhile (· != ']') cs
      cases hb : cs.dropWhile (· != ']') with
      | nil =>
        rw [hb, List.append_nil] at hcut
        rw [hcut] at hin
        exact ⟨_, _, _, rfl, by simp, Spelled.unclosed cs hin⟩
      | cons bracket behind =>
        rw [hb] at hcut hstop
        obtain rfl : bracket = ']' := by simpa using hstop bracket (by simp)
        refine ⟨_, _, _, rfl, ?_, Spelled.term _ behind hin⟩
        rw [List.cons_append, List.cons_append, List.append_assoc, List.singleton_append, hcut]
    · exact ⟨_, _, _, rfl, rfl, Spelled.stray cs⟩
    · exact ⟨_, _, _, rfl, rfl, Spelled.opening cs⟩
    · exact ⟨_, _, _, rfl, rfl, Spelled.closing cs⟩

theorem tiles_pieces (text : List Char) : Tiles (pieces text) text := by
  fun_induction pieces text with
  | case1 => exact Tiles.nil
  | case2 c cs ih =>
    by_cases hc : Text.isBlank c = true
    · rw [firstPiece_blank c cs hc] at ih ⊢
      exact Tiles.blank c hc ih
    · obtain ⟨kind, written, behind, hfirst, hcut, hspelled⟩ :=
        spelled_firstPiece c cs (by simpa using hc)
      rw [hfirst] at ih ⊢
      rw [← hcut]
      exact Tiles.lexeme kind written hspelled ih

/-! ## There is no other tiling -/

/-- A text that begins with a spelled token is cut behind it. -/
theorem Spelled.firstPiece_eq {kind : Kind} {written behind : List Char}
    (h : Spelled kind written behind) {c : Char} {cs : List Char}
    (hcut : written ++ behind = c :: cs) : firstPiece c cs = (.lexeme kind written, behind) := by
  cases h with
  | opening => obtain ⟨rfl, rfl⟩ := List.cons.inj hcut; rfl
  | closing => obtain ⟨rfl, rfl⟩ := List.cons.inj hcut; rfl
  | stray => obtain ⟨rfl, rfl⟩ := List.cons.inj hcut; rfl
  | unclosed inside h =>
    rw [List.append_nil] at hcut
    obtain ⟨rfl, rfl⟩ := List.cons.inj hcut
    rw [firstPiece_bracket, List.dropWhile_eq_nil_iff.mpr (all_ne_bracket inside h)]
  | term inside behind h =>
    obtain ⟨rfl, hcs⟩ := List.cons.inj hcut
    have hstop : Stops (· != ']') (']' :: behind) := by
      intro c hc
      obtain rfl : ']' = c := by simpa using hc
      simp
    have hrun := all_ne_bracket inside h
    have hcs' : cs = inside ++ ']' :: behind := by rw [← hcs]; simp
    rw [hcs', firstPiece_bracket, dropWhile_run _ _ _ hrun hstop, takeWhile_run _ _ _ hrun hstop]
    rfl
  | word written behind hne hw hb =>
    cases written with
    | nil => exact absurd rfl hne
    | cons d run =>
      rw [List.cons_append] at hcut
      obtain ⟨rfl, rfl⟩ := List.cons.inj hcut
      have hrun : ∀ c ∈ run, isWordChar c = true := fun c hc => hw c (List.mem_cons_of_mem _ hc)
      rw [firstPiece_word _ _ (hw _ List.mem_cons_self), takeWhile_run _ _ _ hrun hb,
        dropWhile_run _ _ _ hrun hb]

theorem Tiles.eq_pieces {ps : List Piece} {text : List Char} (h : Tiles ps text) :
    ps = pieces text := by
  induction h with
  | nil => simp
  | blank c hc rest ih => rw [pieces, firstPiece_blank c _ hc, ← ih]
  | @lexeme ps text kind written spelled rest ih =>
    cases hcut : written ++ text with
    | nil => exact absurd (List.append_eq_nil_iff.mp hcut).1 spelled.ne_nil
    | cons c cs => rw [pieces, spelled.firstPiece_eq hcut, ← ih]

/-! ## The kinds of the tokens -/

def Piece.kind? : Piece → Option Kind
  | blank _ => none
  | lexeme kind _ => some kind

def kindsOf (ps : List Piece) : List Kind := ps.filterMap Piece.kind?

@[simp] theorem kindsOf_nil : kindsOf [] = [] := rfl

@[simp] theorem kindsOf_blank (c : Char) (ps : List Piece) :
    kindsOf (.blank c :: ps) = kindsOf ps := rfl

@[simp] theorem kindsOf_lexeme (kind : Kind) (written : List Char) (ps : List Piece) :
    kindsOf (.lexeme kind written :: ps) = kind :: kindsOf ps := rfl

@[simp] theorem kindsOf_append (ps qs : List Piece) :
    kindsOf (ps ++ qs) = kindsOf ps ++ kindsOf qs := by
  simp [kindsOf]

theorem kinds_ofPieces (start : Nat) (ps : List Piece) :
    (Token.ofPieces start ps).map (·.kind) = kindsOf ps := by
  induction ps generalizing start with
  | nil => rfl
  | cons p ps ih =>
    cases p with
    | blank c => exact ih _
    | lexeme kind written =>
      rw [Token.ofPieces, List.map_cons, ih]
      rfl

def kindsIn (text : String) : List Kind := (Token.scan text).map (·.kind)

theorem kindsIn_eq (text : String) : kindsIn text = kindsOf (pieces text.toList) :=
  kinds_ofPieces 0 _

end BooleanSearch
