import Mathlib.Data.List.Chain
import BooleanSearch.Proofs.Json.Escape
import BooleanSearch.Proofs.Json.Lexeme
import BooleanSearch.Proofs.Json.Literal

/-!
# The words of a JSON text

A JSON text is marks, names, numbers and strings, with spaces wherever one likes between them.

* `Word`: one of these as it is written, and the part that it is read as.
* `Lays ws text`: the text is made of the words `ws`, with any spaces around them.
* `lexemes_of_lays`: a text that is made of words is cut into their parts.
* `exists_words`: a text in which no part is broken is made of words.
-/

namespace BooleanSearch.Json
set_option autoImplicit false

/-! ## Words -/

/-- A part of a JSON text as it is written. -/
inductive Word where
  | mark (m : Mark)
  | null
  | bool (b : Bool)
  | number (l : Literal)
  | string (parts : List StringPart)

namespace Word

def chars : Word → List Char
  | mark m => [m.char]
  | null => "null".toList
  | bool true => "true".toList
  | bool false => "false".toList
  | number l => l.chars
  | string parts => '"' :: quotedParts parts

/-- What a word is read as. -/
def lexeme : Word → Lexeme
  | mark m => .mark m
  | null => .null
  | bool b => .bool b
  | number l => .number l.numeral.number
  | string parts => .string ((meaning parts).map String.ofList)

def isMark : Word → Bool
  | mark _ => true
  | _ => false

def isNumber : Word → Bool
  | number _ => true
  | _ => false

end Word

/-- Characters that mean nothing between words. -/
def IsGap (text : List Char) : Prop := ∀ c ∈ text, isSpace c = true

/-- The text is made of these words, with gaps before, between and behind them. -/
def Lays : List Word → List Char → Prop
  | [], text => IsGap text
  | w :: ws, text => ∃ gap rest, IsGap gap ∧ text = gap ++ (w.chars ++ rest) ∧ Lays ws rest

/-- No number is directly before another word that could go on with its digits. -/
def NumbersApart (ws : List Word) : Prop :=
  ws.IsChain fun v w => v.isNumber = true → w.isMark = true

/-! ## From words to parts -/

theorem stops_mark (m : Mark) (rest : List Char) : Stops goesOn (m.char :: rest) := by
  intro c hc
  obtain rfl := Option.some.inj hc
  cases m <;> rfl

theorem stringLexeme_parts (parts : List StringPart) (rest : List Char) :
    stringLexeme (quotedParts parts ++ rest) = (.string ((meaning parts).map String.ofList), rest) := by
  have hused := decode_parts parts rest
  unfold stringLexeme
  rw [pass_parts]
  cases hmeaning : meaning parts with
  | none =>
    cases hdecode : decode (quotedParts parts ++ rest) with
    | error s => rfl
    | ok found =>
      rw [hmeaning, hdecode] at hused
      cases hused
  | some text =>
    cases hdecode : decode (quotedParts parts ++ rest) with
    | error s =>
      rw [hmeaning, hdecode] at hused
      cases hused
    | ok found =>
      rw [hmeaning, hdecode] at hused
      obtain rfl := Option.some.inj hused
      rfl

theorem Literal.exists_head (l : Literal) :
    ∃ c cs, l.chars = c :: cs ∧ (c == '-' || c.isDigit) = true := by
  cases hminus : l.minus with
  | true => exact ⟨'-', _, by rw [chars, hminus, if_pos rfl]; rfl, rfl⟩
  | false =>
    obtain ⟨c, cs, hd⟩ := List.exists_cons_of_ne_nil l.whole.ne_nil
    have hc := l.whole.isDigit c (by rw [hd]; exact List.mem_cons_self)
    refine ⟨c, cs ++ (fractionChars l.fraction ++ powerChars l.power), ?_, ?_⟩
    · rw [chars, hminus, if_neg Bool.false_ne_true, hd]
      rfl
    · rw [hc, Bool.or_true]

theorem begins_literal (l : Literal) {rest : List Char} (h : Stops goesOn rest) :
    Begins (l.chars ++ rest) [.number l.numeral.number] rest := by
  have hscan := l.scanNumeral_chars h
  obtain ⟨c, cs, hchars, hc⟩ := l.exists_head
  rw [hchars] at hscan ⊢
  have hother : ∀ d, d ∈ [' ', '\n', '\t', '\r', '"'] → c ≠ d := by
    rintro d hd rfl
    have hall : [' ', '\n', '\t', '\r', '"'].all (fun d => !(d == '-' || d.isDigit)) = true := rfl
    have hnot := List.all_eq_true.mp hall c hd
    rw [hc] at hnot
    exact Bool.noConfusion hnot
  have hfirst : isSpace c = false ∧ (c == '"') = false := by
    simpa [isSpace, and_assoc] using hother
  refine begins_first c (cs ++ rest) rest _ hfirst.1 ?_ ?_
  · unfold firstLexeme
    rw [hfirst.2, if_neg Bool.false_ne_true, if_pos hc]
    unfold numberLexeme
    rw [← List.cons_append, hscan]
  · rw [List.length_append]
    omega

theorem begins_word (w : Word) {rest : List Char} (h : w.isNumber = true → Stops goesOn rest) :
    Begins (w.chars ++ rest) [w.lexeme] rest := by
  cases w with
  | mark m => exact begins_mark m rest
  | null => exact begins_first 'n' ('u' :: 'l' :: 'l' :: rest) rest _ rfl rfl (by simp; omega)
  | bool b =>
    cases b with
    | true => exact begins_first 't' ('r' :: 'u' :: 'e' :: rest) rest _ rfl rfl (by simp; omega)
    | false =>
      exact begins_first 'f' ('a' :: 'l' :: 's' :: 'e' :: rest) rest _ rfl rfl (by simp; omega)
  | number l => exact begins_literal l (h rfl)
  | string parts =>
    refine begins_first '"' (quotedParts parts ++ rest) rest _ rfl ?_ ?_
    · exact stringLexeme_parts parts rest
    · rw [List.length_append]
      omega

theorem begins_gap {gap : List Char} (rest : List Char) (h : IsGap gap) :
    Begins (gap ++ rest) [] rest := by
  induction gap with
  | nil => exact Begins.nil rest
  | cons c gap ih =>
    obtain ⟨hc, hmore⟩ := List.forall_mem_cons.mp h
    intro limit hlimit
    cases limit with
    | zero => exact absurd hlimit (Nat.not_succ_le_zero _)
    | succ limit =>
      obtain ⟨left, hleft, hsame⟩ := ih hmore limit (Nat.le_of_succ_le_succ hlimit)
      refine ⟨left, hleft, ?_⟩
      rw [List.cons_append, lexemesWithin, if_pos hc]
      exact hsame

theorem stops_lays {ws : List Word} {rest : List Char} (h : Lays ws rest)
    (hmark : ∀ w ∈ ws.head?, w.isMark = true) : Stops goesOn rest := by
  have hspace : ∀ c, isSpace c = true → goesOn c = false := by
    intro c hc
    simp only [isSpace, Bool.or_eq_true, beq_iff_eq] at hc
    rcases hc with ((rfl | rfl) | rfl) | rfl <;> decide
  have hgap : ∀ gap behind : List Char, IsGap gap → Stops goesOn behind →
      Stops goesOn (gap ++ behind) := by
    intro gap behind hgap hbehind
    cases gap with
    | nil => exact hbehind
    | cons c gap =>
      intro d hd
      obtain rfl := Option.some.inj hd
      exact hspace c (hgap c List.mem_cons_self)
  cases ws with
  | nil =>
    have hstop := hgap rest [] h fun c hc => absurd hc (Option.not_mem_none c)
    rwa [List.append_nil] at hstop
  | cons w ws =>
    obtain ⟨gap, behind, hspaces, rfl, -⟩ := h
    have hw := hmark w rfl
    cases w with
    | mark m => exact hgap gap _ hspaces (stops_mark m behind)
    | _ => exact Bool.noConfusion hw

theorem begins_of_lays {ws : List Word} {text : List Char} (h : Lays ws text)
    (hapart : NumbersApart ws) : Begins text (ws.map Word.lexeme) [] := by
  induction ws generalizing text with
  | nil =>
    have hgap := begins_gap [] h
    rwa [List.append_nil] at hgap
  | cons w ws ih =>
    obtain ⟨gap, rest, hgap, rfl, hrest⟩ := h
    obtain ⟨hnext, hmore⟩ := List.isChain_cons.mp hapart
    have hstops : w.isNumber = true → Stops goesOn rest := fun hw =>
      stops_lays hrest fun v hv => hnext v hv hw
    exact (begins_gap _ hgap).append ((begins_word w hstops).cons (ih hrest hmore))

theorem lexemes_of_lays {ws : List Word} {text : List Char} (h : Lays ws text)
    (hapart : NumbersApart ws) : lexemes text = ws.map Word.lexeme := by
  obtain ⟨left, -, hparts⟩ := begins_of_lays h hapart text.length (Nat.le_refl _)
  have hend : lexemesWithin left [] = [] := by cases left <;> rfl
  rw [hend, List.append_nil] at hparts
  exact hparts

/-! ## From parts to words -/

/-- The part is no word or string that breaks off. -/
def Lexeme.isWhole : Lexeme → Bool
  | .broken _ _ | .brokenString _ _ => false
  | _ => true

theorem eq_of_wordFault? {word text : List Char} (h : wordFault? word text = none) :
    text = word ++ text.drop word.length := by
  induction word generalizing text with
  | nil => rfl
  | cons w word ih =>
    cases text with
    | nil => cases h
    | cons c text =>
      rw [wordFault?] at h
      split at h
      · next hsame =>
        obtain rfl := beq_iff_eq.mp hsame
        rw [List.cons_append, List.length_cons, List.drop_succ_cons, ← ih h]
      · cases h

section OneWord

variable {part : Lexeme} {rest : List Char}

theorem exists_name {text : List Char} (h : literalLexeme text = (part, rest))
    (hwhole : part.isWhole = true) : ∃ w : Word, w.lexeme = part ∧ text = w.chars ++ rest := by
  unfold literalLexeme at h
  split at h
  · obtain ⟨rfl, -⟩ := Prod.mk.inj h
    exact Bool.noConfusion hwhole
  · next word value hfound =>
    split at h
    · next hfault =>
      obtain ⟨rfl, rfl⟩ := Prod.mk.inj h
      have htext := eq_of_wordFault? hfault
      have hmem := List.mem_of_find?_eq_some hfound
      simp only [literals, List.mem_cons, Prod.mk.injEq, List.not_mem_nil, or_false] at hmem
      rcases hmem with ⟨rfl, rfl⟩ | ⟨rfl, rfl⟩ | ⟨rfl, rfl⟩
      · exact ⟨.null, rfl, htext⟩
      · exact ⟨.bool true, rfl, htext⟩
      · exact ⟨.bool false, rfl, htext⟩
    · obtain ⟨rfl, -⟩ := Prod.mk.inj h
      exact Bool.noConfusion hwhole

theorem exists_number {text : List Char} (h : numberLexeme text = (part, rest))
    (hwhole : part.isWhole = true) : ∃ w : Word, w.lexeme = part ∧ text = w.chars ++ rest := by
  unfold numberLexeme at h
  split at h
  · next hscan =>
    obtain ⟨rfl, rfl⟩ := Prod.mk.inj h
    obtain ⟨l, rfl, htext⟩ := exists_literal hscan
    exact ⟨.number l, rfl, htext⟩
  · obtain ⟨rfl, -⟩ := Prod.mk.inj h
    exact Bool.noConfusion hwhole

theorem exists_string {cs : List Char} (h : stringLexeme cs = (part, rest))
    (hwhole : part.isWhole = true) : ∃ w : Word, w.lexeme = part ∧ '"' :: cs = w.chars ++ rest := by
  cases hpass : pass cs with
  | ok behind =>
    obtain ⟨parts, rfl⟩ := exists_parts hpass
    rw [stringLexeme_parts] at h
    obtain ⟨rfl, rfl⟩ := Prod.mk.inj h
    exact ⟨.string parts, rfl, rfl⟩
  | error passed =>
    unfold stringLexeme at h
    rw [hpass] at h
    cases hdecode : decode cs <;> rw [hdecode] at h <;> obtain ⟨rfl, -⟩ := Prod.mk.inj h <;>
      exact Bool.noConfusion hwhole

theorem exists_word {c : Char} {cs : List Char} (h : firstLexeme c cs = (part, rest))
    (hwhole : part.isWhole = true) : ∃ w : Word, w.lexeme = part ∧ c :: cs = w.chars ++ rest := by
  unfold firstLexeme at h
  split at h
  · next hquote =>
    obtain rfl := beq_iff_eq.mp hquote
    exact exists_string h hwhole
  · split at h
    · exact exists_number h hwhole
    · split at h
      · next m hm =>
        obtain ⟨rfl, rfl⟩ := Prod.mk.inj h
        unfold Mark.ofChar? at hm
        have hchar : m.char = c := by simpa using List.find?_some hm
        exact ⟨.mark m, rfl, by rw [← hchar]; rfl⟩
      · exact exists_name h hwhole

end OneWord

theorem Word.chars_ne_nil (w : Word) : w.chars ≠ [] := by
  cases w with
  | bool b => cases b <;> exact List.cons_ne_nil _ _
  | number l =>
    obtain ⟨c, cs, hchars, -⟩ := l.exists_head
    rw [chars, hchars]
    exact List.cons_ne_nil _ _
  | _ => exact List.cons_ne_nil _ _

theorem lays_gap {ws : List Word} {gap text : List Char} (hgap : IsGap gap) (h : Lays ws text) :
    Lays ws (gap ++ text) := by
  have happend : ∀ more, IsGap more → IsGap (gap ++ more) := fun more hmore c hc =>
    (List.mem_append.mp hc).elim (hgap c) (hmore c)
  cases ws with
  | nil => exact happend text h
  | cons w ws =>
    obtain ⟨more, rest, hmore, rfl, hrest⟩ := h
    exact ⟨gap ++ more, rest, happend more hmore, by rw [List.append_assoc], hrest⟩

theorem lays_words (ws : List Word) : Lays ws (ws.flatMap Word.chars) := by
  induction ws with
  | nil => exact List.forall_mem_nil _
  | cons w ws ih => exact ⟨[], _, List.forall_mem_nil _, List.flatMap_cons, ih⟩

theorem exists_words_within (limit : Nat) (text : List Char) (hlimit : text.length ≤ limit)
    (h : ∀ part ∈ lexemesWithin limit text, part.isWhole = true) :
    ∃ ws : List Word, ws.map Word.lexeme = lexemesWithin limit text ∧ Lays ws text := by
  induction limit generalizing text with
  | zero =>
    obtain rfl := List.length_eq_zero_iff.mp (Nat.le_zero.mp hlimit)
    exact ⟨[], rfl, List.forall_mem_nil _⟩
  | succ limit ih =>
    cases text with
    | nil => exact ⟨[], rfl, List.forall_mem_nil _⟩
    | cons c cs =>
      have hcs := Nat.le_of_succ_le_succ hlimit
      rw [lexemesWithin] at h ⊢
      by_cases hspace : isSpace c = true
      · rw [if_pos hspace] at h ⊢
        obtain ⟨ws, hws, hlays⟩ := ih cs hcs h
        exact ⟨ws, hws, lays_gap (List.forall_mem_singleton.mpr hspace) hlays⟩
      · rw [if_neg hspace] at h ⊢
        cases hfirst : firstLexeme c cs with
        | mk part rest =>
          rw [hfirst] at h
          obtain ⟨hpart, hparts⟩ := List.forall_mem_cons.mp h
          obtain ⟨w, hw, htext⟩ := exists_word hfirst hpart
          have hlength := congrArg List.length htext
          have hpos := List.length_pos_iff.mpr w.chars_ne_nil
          rw [List.length_append] at hlength
          obtain ⟨ws, hws, hlays⟩ := ih rest (by simp only [List.length_cons] at hlength; omega) hparts
          exact ⟨w :: ws, congrArg₂ List.cons hw hws, [], rest, List.forall_mem_nil _, htext, hlays⟩

theorem exists_words {text : List Char} (h : ∀ part ∈ lexemes text, part.isWhole = true) :
    ∃ ws : List Word, ws.map Word.lexeme = lexemes text ∧ Lays ws text :=
  exists_words_within text.length text (Nat.le_refl _) h

end BooleanSearch.Json
