import BooleanSearch.Json.Lexeme

/-!
# Cutting a text

* `Begins text parts rest`: a text is cut into these parts up to the rest, whatever the bound on their
  number, as long as it is no smaller than the text.
-/

namespace BooleanSearch.Json
set_option autoImplicit false

/-- The text is cut into the parts, and then the rest is cut. The bound that is left is large enough for
the rest. -/
def Begins (text : List Char) (parts : List Lexeme) (rest : List Char) : Prop :=
  ∀ limit, text.length ≤ limit →
    ∃ left, rest.length ≤ left ∧ lexemesWithin limit text = parts ++ lexemesWithin left rest

theorem Begins.nil (text : List Char) : Begins text [] text := fun limit h => ⟨limit, h, rfl⟩

theorem Begins.append {a b c : List Char} {ps qs : List Lexeme} (h : Begins a ps b)
    (h' : Begins b qs c) : Begins a (ps ++ qs) c := by
  intro limit ha
  obtain ⟨fewer, hb, hps⟩ := h limit ha
  obtain ⟨left, hc, hqs⟩ := h' fewer hb
  exact ⟨left, hc, by rw [hps, hqs, List.append_assoc]⟩

theorem Begins.cons {a b c : List Char} {p : Lexeme} {qs : List Lexeme} (h : Begins a [p] b)
    (h' : Begins b qs c) : Begins a (p :: qs) c := h.append h'

theorem begins_first (c : Char) (cs rest : List Char) (part : Lexeme) (hc : isSpace c = false)
    (hfirst : firstLexeme c cs = (part, rest)) (hle : rest.length ≤ cs.length) :
    Begins (c :: cs) [part] rest := by
  intro limit hlimit
  cases limit with
  | zero => exact absurd hlimit (Nat.not_succ_le_zero _)
  | succ limit =>
    have hcs := Nat.le_of_succ_le_succ hlimit
    refine ⟨limit, Nat.le_trans hle hcs, ?_⟩
    rw [lexemesWithin, hc, if_neg Bool.false_ne_true, hfirst]
    rfl

theorem begins_mark (m : Mark) (rest : List Char) : Begins (m.char :: rest) [.mark m] rest := by
  refine begins_first m.char rest rest _ ?_ ?_ (Nat.le_refl _)
  · cases m <;> rfl
  · cases m <;> rfl

end BooleanSearch.Json
