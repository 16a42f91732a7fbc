import BooleanSearch.Proofs.Token.Blanks
import BooleanSearch.Proofs.Token.Written
import BooleanSearch.Rule.Text

/-!
# The rules on characters, read on tokens

Each rule that looks at the characters of a text says something about the tokens of that text.

* `bracketed_eq`: the contents of the square brackets are the terms.
* `parenthesesBalance_eq`: parentheses balance outside terms when the group tokens do.
* `bracketsBalance_eq`: where no bracket stands alone, brackets balance when no term holds another
  opening bracket.
* `Kind.EndsBracket`, `Kind.BeginsBracket`: the tokens that end and begin a bracket, closed or not;
  `Spelled.hasAdjoiningBrackets_append`: brackets adjoin where one of each follow each other.
* `hasAdjoiningBrackets_eq`: where no bracket stands alone, brackets adjoin when two terms follow each
  other.
* `not_hasEmptyBrackets`, `all_isBlank_false`: the other two rules follow from what a term is.
-/

namespace BooleanSearch
set_option autoImplicit false

/-! ## What the rules say about tokens -/

def Kind.term? : Kind → Option String
  | term value => some value
  | _ => none

def termsOf (kinds : List Kind) : List String := kinds.filterMap Kind.term?

/-- With `depth` groups open, every parenthesis among the tokens finds its partner. -/
def groupsBalance : (depth : Nat) → List Kind → Bool
  | depth, [] => depth == 0
  | depth, .opening :: ks => groupsBalance (depth + 1) ks
  | 0, .closing :: _ => false
  | depth + 1, .closing :: ks => groupsBalance depth ks
  | depth, _ :: ks => groupsBalance depth ks

def termsAdjoin : List Kind → Bool
  | .term _ :: .term _ :: _ => true
  | _ :: ks => termsAdjoin ks
  | [] => false

@[simp] theorem termsOf_nil : termsOf [] = [] := rfl

@[simp] theorem termsOf_term (value : String) (ks : List Kind) :
    termsOf (.term value :: ks) = value :: termsOf ks := rfl

@[simp] theorem termsOf_append (ks ls : List Kind) :
    termsOf (ks ++ ls) = termsOf ks ++ termsOf ls := by
  simp [termsOf]

theorem mem_termsOf (ks : List Kind) (value : String) :
    value ∈ termsOf ks ↔ Kind.term value ∈ ks := by
  simp only [termsOf, List.mem_filterMap]
  constructor
  · rintro ⟨k, hk, hv⟩
    cases k with
    | term v => obtain rfl := Option.some.inj hv; exact hk
    | _ => simp [Kind.term?] at hv
  · intro h
    exact ⟨_, h, rfl⟩

/-- A word outside brackets is no term, and neither a parenthesis nor a bracket. -/
theorem wordKind_cases (run behind : List Char) :
    (∃ k, wordKind run behind = .keyword k) ∨ (∃ code, wordKind run behind = .fieldPrefix code) ∨
      ∃ text, wordKind run behind = .word text := by
  unfold wordKind
  split
  · exact Or.inl ⟨_, rfl⟩
  · dsimp only
    split
    · exact Or.inr (Or.inl ⟨_, rfl⟩)
    · exact Or.inr (Or.inr ⟨_, rfl⟩)

theorem termsOf_wordKind (run behind : List Char) (ks : List Kind) :
    termsOf (wordKind run behind :: ks) = termsOf ks := by
  rcases wordKind_cases run behind with ⟨_, e⟩ | ⟨_, e⟩ | ⟨_, e⟩ <;> rw [e] <;> rfl

theorem groupsBalance_wordKind (run behind : List Char) (depth : Nat) (ks : List Kind) :
    groupsBalance depth (wordKind run behind :: ks) = groupsBalance depth ks := by
  rcases wordKind_cases run behind with ⟨_, e⟩ | ⟨_, e⟩ | ⟨_, e⟩ <;> rw [e] <;> cases depth <;> rfl

/-! ## The terms -/

theorem bracketed_cons_of_ne (c : Char) (cs : List Char) (h : c ≠ '[') :
    Rule.bracketed (c :: cs) = Rule.bracketed cs := by
  rw [Rule.bracketed, if_pos (by simpa using h)]

theorem bracketed_run (run text : List Char) (h : '[' ∉ run) :
    Rule.bracketed (run ++ text) = Rule.bracketed text := by
  induction run with
  | nil => rfl
  | cons c run ih =>
    have hc : c ≠ '[' := fun e => h (e ▸ List.mem_cons_self)
    rw [List.cons_append, bracketed_cons_of_ne c _ hc, ih fun hm => h (List.mem_cons_of_mem _ hm)]

theorem bracketed_term (inside text : List Char) (h : ']' ∉ inside) :
    Rule.bracketed ('[' :: (inside ++ [']']) ++ text) =
      String.ofList inside :: Rule.bracketed text := by
  have hstop : Stops (· != ']') (']' :: text) := by
    intro c hc
    obtain rfl : ']' = c := by simpa using hc
    rfl
  have hrun := all_ne_bracket inside h
  rw [List.cons_append, List.append_assoc, List.singleton_append, Rule.bracketed, if_neg (by simp),
    if_pos (by simp), takeWhile_run _ _ _ hrun hstop, dropWhile_run _ _ _ hrun hstop, List.tail_cons]

theorem bracketed_unclosed (inside : List Char) (h : ']' ∉ inside) :
    Rule.bracketed ('[' :: inside) = [] := by
  rw [Rule.bracketed, if_neg (by simp), if_neg (by simpa using h)]

theorem not_mem_of_all_isWordChar (run : List Char) (h : ∀ c ∈ run, isWordChar c = true) :
    '[' ∉ run ∧ ']' ∉ run ∧ '(' ∉ run ∧ ')' ∉ run := by
  refine ⟨fun hm => ?_, fun hm => ?_, fun hm => ?_, fun hm => ?_⟩
  · exact ((isWordChar_iff _).mp (h _ hm)).2.1 rfl
  · exact ((isWordChar_iff _).mp (h _ hm)).2.2.1 rfl
  · exact ((isWordChar_iff _).mp (h _ hm)).2.2.2.1 rfl
  · exact ((isWordChar_iff _).mp (h _ hm)).2.2.2.2 rfl

theorem isBlank_ne (c d : Char) (h : Text.isBlank c = true) (hd : Text.isBlank d = false) :
    c ≠ d := by
  intro e
  rw [e, hd] at h
  exact Bool.false_ne_true h

theorem not_mem_of_all_isBlank (gap : List Char) (hb : ∀ c ∈ gap, Text.isBlank c = true) (mark : Char)
    (h : Text.isBlank mark = false) : mark ∉ gap :=
  fun hm => isBlank_ne mark mark (hb mark hm) h rfl

theorem bracketed_eq {ps : List Piece} {text : List Char} (h : Tiles ps text) :
    Rule.bracketed text = termsOf (kindsOf ps) := by
  induction h with
  | nil => simp [Rule.bracketed]
  | blank c hc rest ih => rw [bracketed_cons_of_ne c _ (isBlank_ne c _ hc rfl), ih, kindsOf_blank]
  | lexeme kind written spelled rest ih =>
    rw [kindsOf_lexeme]
    cases spelled with
    | opening => exact (bracketed_cons_of_ne _ _ (by decide)).trans ih
    | closing => exact (bracketed_cons_of_ne _ _ (by decide)).trans ih
    | stray => exact (bracketed_cons_of_ne _ _ (by decide)).trans ih
    | unclosed inside hin =>
      obtain rfl := rest.eq_pieces
      rw [List.append_nil, bracketed_unclosed inside hin]
      simp [termsOf, Kind.term?]
    | term inside _ hin => rw [bracketed_term inside _ hin, ih, termsOf_term]
    | word _ _ hne hw hb =>
      rw [bracketed_run _ _ (not_mem_of_all_isWordChar _ hw).1, ih, termsOf_wordKind]

/-! ## Parentheses -/

theorem parenthesesBalance_inside (inside text : List Char) (depth : Nat) (h : ']' ∉ inside) :
    Rule.parenthesesBalance true depth (inside ++ text) =
      Rule.parenthesesBalance true depth text := by
  induction inside with
  | nil => rfl
  | cons c inside ih =>
    have hc : c ≠ ']' := fun e => h (e ▸ List.mem_cons_self)
    have hrest := ih fun hm => h (List.mem_cons_of_mem _ hm)
    by_cases ho : c = '['
    · subst ho
      exact hrest
    · rw [List.cons_append, Rule.parenthesesBalance, hrest]
      · exact ho
      · exact hc
      · simp
      · simp
      · simp

theorem parenthesesBalance_cons (c : Char) (text : List Char) (depth : Nat)
    (h : c ≠ '[' ∧ c ≠ ']' ∧ c ≠ '(' ∧ c ≠ ')') :
    Rule.parenthesesBalance false depth (c :: text) = Rule.parenthesesBalance false depth text := by
  rw [Rule.parenthesesBalance]
  · exact h.1
  · exact h.2.1
  · intro _; exact h.2.2.1
  · intro _ _; exact h.2.2.2
  · intro _ _ _; exact h.2.2.2

theorem parenthesesBalance_run (run text : List Char) (depth : Nat)
    (h : ∀ c ∈ run, isWordChar c = true) :
    Rule.parenthesesBalance false depth (run ++ text) =
      Rule.parenthesesBalance false depth text := by
  induction run with
  | nil => rfl
  | cons c run ih =>
    rw [List.cons_append, parenthesesBalance_cons c _ _ ((isWordChar_iff c).mp (h c (by simp))).2,
      ih fun d hd => h d (by simp [hd])]

theorem parenthesesBalance_eq {ps : List Piece} {text : List Char} (h : Tiles ps text)
    (depth : Nat) :
    Rule.parenthesesBalance false depth text = groupsBalance depth (kindsOf ps) := by
  induction h generalizing depth with
  | nil => rfl
  | blank c hc rest ih =>
    rw [parenthesesBalance_cons c _ _ ⟨isBlank_ne c _ hc rfl, isBlank_ne c _ hc rfl,
      isBlank_ne c _ hc rfl, isBlank_ne c _ hc rfl⟩, ih, kindsOf_blank]
  | @lexeme ps text kind written spelled rest ih =>
    rw [kindsOf_lexeme]
    cases spelled with
    | opening => exact ih (depth + 1)
    | closing =>
      cases depth with
      | zero => rfl
      | succ depth => exact ih depth
    | stray => cases depth <;> exact ih _
    | unclosed inside hin =>
      obtain rfl := rest.eq_pieces
      have hrun := parenthesesBalance_inside inside [] depth hin
      rw [List.cons_append, Rule.parenthesesBalance, hrun]
      cases depth <;> simp [Rule.parenthesesBalance, groupsBalance]
    | term inside _ hin =>
      have hrun := parenthesesBalance_inside inside (']' :: text) depth hin
      rw [List.cons_append, List.append_assoc, List.singleton_append, Rule.parenthesesBalance, hrun,
        Rule.parenthesesBalance, ih]
      cases depth <;> rfl
    | word _ _ hne hw hb => rw [parenthesesBalance_run _ _ _ hw, ih, groupsBalance_wordKind]

/-! ## Brackets -/

theorem bracketsBalance_cons (c : Char) (text : List Char) (depth : Nat) (ho : c ≠ '[')
    (hc : c ≠ ']') : Rule.bracketsBalance depth (c :: text) = Rule.bracketsBalance depth text := by
  rw [Rule.bracketsBalance]
  · exact ho
  · intro _; exact hc
  · intro _ _; exact hc

/-- Characters without a closing bracket add their opening ones to the open brackets. -/
theorem bracketsBalance_run (run text : List Char) (depth : Nat) (h : ']' ∉ run) :
    Rule.bracketsBalance depth (run ++ text) =
      Rule.bracketsBalance (depth + run.count '[') text := by
  induction run generalizing depth with
  | nil => rfl
  | cons c run ih =>
    have hc : c ≠ ']' := fun e => h (e ▸ List.mem_cons_self)
    have hrest := fun d => ih d fun hm => h (List.mem_cons_of_mem _ hm)
    by_cases ho : c = '['
    · subst ho
      rw [List.cons_append, Rule.bracketsBalance, hrest, List.count_cons_self]
      congr 1
      omega
    · rw [List.cons_append, bracketsBalance_cons c _ _ ho hc, hrest, List.count_cons_of_ne ho]

theorem bracketsBalance_term (inside text : List Char) (depth : Nat) (h : ']' ∉ inside) :
    Rule.bracketsBalance depth ('[' :: (inside ++ [']']) ++ text) =
      Rule.bracketsBalance (depth + inside.count '[') text := by
  rw [List.cons_append, List.append_assoc, List.singleton_append, Rule.bracketsBalance,
    bracketsBalance_run inside _ _ h]
  have e : depth + 1 + inside.count '[' = depth + inside.count '[' + 1 := by omega
  rw [e, Rule.bracketsBalance]

/-- A term without an opening bracket of its own. -/
def isPlainTerm (value : String) : Bool := !value.toList.contains '['

theorem isPlainTerm_iff (value : String) : isPlainTerm value = true ↔ '[' ∉ value.toList := by
  simp [isPlainTerm]

/-- Every term has one closing bracket, so where no bracket stands alone the brackets balance when no
term holds a second opening one. -/
theorem bracketsBalance_eq {ps : List Piece} {text : List Char} (h : Tiles ps text)
    (hill : .illegal ∉ kindsOf ps) (depth : Nat) :
    Rule.bracketsBalance depth text = (depth == 0 && (termsOf (kindsOf ps)).all isPlainTerm) := by
  induction h generalizing depth with
  | nil => simp [Rule.bracketsBalance]
  | blank c hc rest ih =>
    rw [bracketsBalance_cons c _ _ (isBlank_ne c _ hc rfl) (isBlank_ne c _ hc rfl), ih hill,
      kindsOf_blank]
  | @lexeme ps text kind written spelled rest ih =>
    rw [kindsOf_lexeme] at hill ⊢
    have hrest := ih fun hm => hill (List.mem_cons_of_mem _ hm)
    cases spelled with
    | opening => exact (bracketsBalance_cons _ _ _ (by decide) (by decide)).trans (hrest depth)
    | closing => exact (bracketsBalance_cons _ _ _ (by decide) (by decide)).trans (hrest depth)
    | stray => exact absurd List.mem_cons_self hill
    | unclosed inside hin => exact absurd List.mem_cons_self hill
    | term inside _ hin =>
      rw [bracketsBalance_term inside _ _ hin, hrest, termsOf_term, List.all_cons, ← Bool.and_assoc]
      congr 1
      rw [Bool.eq_iff_iff, Bool.and_eq_true, isPlainTerm_iff, String.toList_ofList,
        ← List.count_eq_zero, beq_iff_eq, beq_iff_eq]
      omega
    | word _ _ hne hw hb =>
      have hno := not_mem_of_all_isWordChar _ hw
      rw [bracketsBalance_run _ _ _ hno.2.1, List.count_eq_zero.mpr hno.1, Nat.add_zero, hrest,
        termsOf_wordKind]

/-! ## Terms beside each other -/

theorem hasAdjoiningBrackets_run (run text : List Char) (h : ']' ∉ run) :
    Rule.hasAdjoiningBrackets (run ++ text) = Rule.hasAdjoiningBrackets text := by
  induction run with
  | nil => rfl
  | cons c run ih =>
    have hc : (c == ']') = false := beq_eq_false_iff_ne.mpr fun e => h (e ▸ List.mem_cons_self)
    rw [List.cons_append, Rule.hasAdjoiningBrackets, hc, Bool.false_and, Bool.false_or,
      ih fun hm => h (List.mem_cons_of_mem _ hm)]

/-- A token ends a bracket: a term does, and a closing bracket that stands alone. -/
def Kind.EndsBracket (kind : Kind) (written : List Char) : Prop :=
  kind.isTerm = true ∨ kind = .illegal ∧ written = [']']

/-- A token begins a bracket: a term does, and an opening bracket that is never closed. -/
def Kind.BeginsBracket (kind : Kind) (written : List Char) : Prop :=
  kind.isTerm = true ∨ kind = .illegal ∧ written.head? = some '['

theorem Kind.endsBracket_iff {kind : Kind} (h : kind ≠ .illegal) (written : List Char) :
    kind.EndsBracket written ↔ kind.isTerm = true :=
  or_iff_left fun hill => h hill.1

theorem Kind.beginsBracket_iff {kind : Kind} (h : kind ≠ .illegal) (written : List Char) :
    kind.BeginsBracket written ↔ kind.isTerm = true :=
  or_iff_left fun hill => h hill.1

theorem wordKind_facts (run behind : List Char) :
    (wordKind run behind).isTerm = false ∧ wordKind run behind ≠ .illegal := by
  rcases wordKind_cases run behind with ⟨_, e⟩ | ⟨_, e⟩ | ⟨_, e⟩ <;> rw [e] <;> exact ⟨rfl, nofun⟩

/-- Behind its blanks a text begins with a bracket when its first token does. -/
theorem Tiles.begins_iff {ps : List Piece} {text : List Char} (h : Tiles ps text) :
    (text.dropWhile Text.isBlank).head? = some '[' ↔
      ∃ l ∈ (lexemesOf ps).head?, l.1.BeginsBracket l.2 := by
  induction h with
  | nil => exact ⟨nofun, fun ⟨_, hl, _⟩ => absurd hl (by simp)⟩
  | blank c hc rest ih => rw [List.dropWhile_cons_of_pos hc, ih, lexemesOf_blank]
  | @lexeme ps text kind written spelled rest ih =>
    obtain ⟨c, cs, rfl⟩ := List.exists_cons_of_ne_nil spelled.ne_nil
    have hhead : ((c :: cs ++ text).dropWhile Text.isBlank).head? = some c := by
      rw [List.cons_append, List.dropWhile_cons_of_neg (by rw [spelled.not_isBlank]; simp)]
      rfl
    rw [hhead, lexemesOf_lexeme, List.head?_cons]
    simp only [Option.mem_def, Option.some.injEq, exists_eq_left']
    cases spelled with
    | opening | closing | stray => simp [Kind.BeginsBracket, Kind.isTerm]
    | unclosed | term => simp [Kind.BeginsBracket, Kind.isTerm]
    | word _ _ hne hw hb =>
      obtain ⟨hterm, hill⟩ := wordKind_facts (c :: cs) text
      rw [Kind.beginsBracket_iff hill, hterm]
      have hc := ((isWordChar_iff c).mp (hw c List.mem_cons_self)).2.1
      simp [hc]

/-- Brackets adjoin at the end of the first token, or in the text behind it. -/
theorem Spelled.hasAdjoiningBrackets_append {kind : Kind} {written text : List Char}
    (h : Spelled kind written text) : Rule.hasAdjoiningBrackets (written ++ text) = true ↔
      kind.EndsBracket written ∧ (text.dropWhile Text.isBlank).head? = some '[' ∨
        Rule.hasAdjoiningBrackets text = true := by
  have hpast : ∀ front : List Char, ']' ∉ front →
      (Rule.hasAdjoiningBrackets (front ++ ']' :: text) = true ↔
        (text.dropWhile Text.isBlank).head? = some '[' ∨ Rule.hasAdjoiningBrackets text = true) := by
    intro front hfront
    rw [hasAdjoiningBrackets_run front _ hfront, Rule.hasAdjoiningBrackets, Bool.or_eq_true,
      Bool.and_eq_true, beq_iff_eq, beq_iff_eq]
    exact or_congr_left (and_iff_right rfl)
  have hfree : ']' ∉ written → ¬ kind.EndsBracket written →
      (Rule.hasAdjoiningBrackets (written ++ text) = true ↔
        kind.EndsBracket written ∧ (text.dropWhile Text.isBlank).head? = some '[' ∨
          Rule.hasAdjoiningBrackets text = true) := by
    intro hno hends
    rw [hasAdjoiningBrackets_run written text hno]
    exact (or_iff_right fun hand => hends hand.1).symm
  cases h with
  | opening | closing => exact hfree (by decide) (by simp [Kind.EndsBracket, Kind.isTerm])
  | stray =>
    have hends : Kind.illegal.EndsBracket [']'] := Or.inr ⟨rfl, rfl⟩
    rw [and_iff_right hends]
    exact hpast [] (by simp)
  | unclosed inside hin =>
    refine hfree (by simpa using hin) ?_
    simp [Kind.EndsBracket, Kind.isTerm]
  | term inside _ hin =>
    have hends : (Kind.term (String.ofList inside)).EndsBracket ('[' :: (inside ++ [']'])) :=
      Or.inl rfl
    have hsplit : '[' :: (inside ++ [']']) ++ text = '[' :: inside ++ ']' :: text := by simp
    rw [and_iff_right hends, hsplit]
    exact hpast ('[' :: inside) (by simpa using hin)
  | word _ _ hne hw hb =>
    obtain ⟨hterm, hill⟩ := wordKind_facts written text
    refine hfree (not_mem_of_all_isWordChar _ hw).2.1 ?_
    rw [Kind.endsBracket_iff hill, hterm]
    exact Bool.false_ne_true

theorem termsAdjoin_cons (k : Kind) (ks : List Kind) :
    termsAdjoin (k :: ks) = (k.isTerm && ks.head?.any Kind.isTerm || termsAdjoin ks) := by
  cases k <;> cases ks with
  | nil => rfl
  | cons l ls => cases l <;> rfl

theorem head_kindsOf (ps : List Piece) (hill : .illegal ∉ kindsOf ps) :
    (∃ l ∈ (lexemesOf ps).head?, l.1.BeginsBracket l.2) ↔
      (kindsOf ps).head?.any Kind.isTerm = true := by
  induction ps with
  | nil => exact ⟨fun ⟨_, hl, _⟩ => absurd hl (by simp), nofun⟩
  | cons p ps ih =>
    cases p with
    | blank c => exact ih hill
    | lexeme kind written =>
      have hkind : kind ≠ .illegal := fun e => hill (e ▸ List.mem_cons_self)
      simp [Kind.beginsBracket_iff hkind]

/-- A closing bracket before an opening one, with blanks at most between them, is where a term follows
a term. -/
theorem hasAdjoiningBrackets_eq {ps : List Piece} {text : List Char} (h : Tiles ps text)
    (hill : .illegal ∉ kindsOf ps) :
    Rule.hasAdjoiningBrackets text = termsAdjoin (kindsOf ps) := by
  induction h with
  | nil => rfl
  | @blank ps text c hc rest ih =>
    have hrun := hasAdjoiningBrackets_run [c] text (by simpa using (isBlank_ne c ']' hc rfl).symm)
    rw [← List.singleton_append, hrun, ih hill, kindsOf_blank]
  | @lexeme ps text kind written spelled rest ih =>
    rw [kindsOf_lexeme, List.mem_cons, not_or] at hill
    rw [Bool.eq_iff_iff, spelled.hasAdjoiningBrackets_append, kindsOf_lexeme, termsAdjoin_cons,
      Bool.or_eq_true, Bool.and_eq_true, ih hill.2, rest.begins_iff, head_kindsOf ps hill.2,
      Kind.endsBracket_iff (Ne.symm hill.1)]

/-! ## Empty brackets and empty texts -/

theorem hasEmptyBrackets_cons (c : Char) (text : List Char) (h : c ≠ '[') :
    Rule.hasEmptyBrackets (c :: text) = Rule.hasEmptyBrackets text := by
  rw [Rule.hasEmptyBrackets]
  intro _ e
  exact absurd e h

theorem hasEmptyBrackets_cons_eq (c : Char) (text : List Char) : Rule.hasEmptyBrackets (c :: text) =
    ((c == '[' && text.head? == some ']') || Rule.hasEmptyBrackets text) := by
  by_cases ho : c = '['
  · subst ho
    cases text with
    | nil => rfl
    | cons d text =>
      by_cases hd : d = ']'
      · subst hd
        rfl
      · rw [Rule.hasEmptyBrackets]
        · simp [hd]
        · intro _ _ e
          exact hd (List.cons.inj e).1
  · rw [hasEmptyBrackets_cons c text ho, beq_eq_false_iff_ne.mpr ho, Bool.false_and, Bool.false_or]

/-- Behind a closing bracket no pair of brackets is left open. -/
theorem hasEmptyBrackets_closed (front : List Char) {text text' : List Char}
    (h : Rule.hasEmptyBrackets text = Rule.hasEmptyBrackets text') :
    Rule.hasEmptyBrackets (front ++ ']' :: text) = Rule.hasEmptyBrackets (front ++ ']' :: text') := by
  induction front with
  | nil => exact h
  | cons c front ih =>
    have hhead : (front ++ ']' :: text).head? = (front ++ ']' :: text').head? := by
      cases front <;> rfl
    rw [List.cons_append, List.cons_append, hasEmptyBrackets_cons_eq, hasEmptyBrackets_cons_eq, hhead,
      ih]

theorem hasEmptyBrackets_run (run text : List Char) (h : '[' ∉ run) :
    Rule.hasEmptyBrackets (run ++ text) = Rule.hasEmptyBrackets text := by
  induction run with
  | nil => rfl
  | cons c run ih =>
    have hc : c ≠ '[' := fun e => h (e ▸ List.mem_cons_self)
    rw [List.cons_append, hasEmptyBrackets_cons c _ hc, ih fun hm => h (List.mem_cons_of_mem _ hm)]

/-- Where each term has a character and no second opening bracket, no brackets are empty. -/
theorem not_hasEmptyBrackets {ps : List Piece} {text : List Char} (h : Tiles ps text)
    (hill : .illegal ∉ kindsOf ps)
    (hterms : ∀ v ∈ termsOf (kindsOf ps), v ≠ "" ∧ '[' ∉ v.toList) :
    Rule.hasEmptyBrackets text = false := by
  induction h with
  | nil => rfl
  | blank c hc rest ih =>
    rw [hasEmptyBrackets_cons c _ (isBlank_ne c _ hc rfl)]
    exact ih hill hterms
  | @lexeme ps text kind written spelled rest ih =>
    rw [kindsOf_lexeme] at hill hterms
    have hrest := ih (fun hm => hill (List.mem_cons_of_mem _ hm))
      (fun v hv => hterms v (by
        rw [mem_termsOf] at hv ⊢
        exact List.mem_cons_of_mem _ hv))
    cases spelled with
    | opening => exact (hasEmptyBrackets_cons _ _ (by decide)).trans hrest
    | closing => exact (hasEmptyBrackets_cons _ _ (by decide)).trans hrest
    | stray => exact absurd List.mem_cons_self hill
    | unclosed inside hin => exact absurd List.mem_cons_self hill
    | word _ _ hne hw hb =>
      rw [hasEmptyBrackets_run _ _ (not_mem_of_all_isWordChar _ hw).1]
      exact hrest
    | term inside _ hin =>
      obtain ⟨hne, hplain⟩ := hterms _ (by rw [termsOf_term]; exact List.mem_cons_self)
      rw [String.toList_ofList] at hplain
      cases inside with
      | nil => exact absurd rfl hne
      | cons c inside =>
        have hc : c ≠ ']' := fun e => hin (e ▸ List.mem_cons_self)
        have hrun := hasEmptyBrackets_run (c :: (inside ++ [']'])) text (by simpa using hplain)
        rw [List.cons_append, Rule.hasEmptyBrackets]
        · exact hrun.trans hrest
        · intro _ _ e
          exact hc (List.cons.inj e).1

theorem all_isBlank_false {ps : List Piece} {text : List Char} (h : Tiles ps text)
    (hne : kindsOf ps ≠ []) : text.all Text.isBlank = false := by
  rw [Bool.eq_false_iff]
  intro hall
  have hblank := Tiles.nil.blanks_append text (List.all_eq_true.mp hall)
  rw [List.append_nil, List.append_nil] at hblank
  rw [h.eq_pieces, ← hblank.eq_pieces] at hne
  exact hne (by simp [kindsOf, List.filterMap_map, Function.comp_def, Piece.kind?])

end BooleanSearch
