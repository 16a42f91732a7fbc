import BooleanSearch.Proofs.Grammar.Readable
import BooleanSearch.Proofs.Grammar.Recognition

/-!
# The rules on characters and the tokens of any text

What the rules on characters say of a text, whether it keeps the other rules or not, told from its
tokens.

* `Pattern`, `Pattern.Leftmost`, `Pattern.Captures`: looking for a pattern in a text, from left to
  right, each time behind the match before.
* `captures_iff`: what the square brackets of a text capture is one list, the contents of its brackets.
* `forM_eq_error_iff`: the complaint about a list is the first one about its members.
* `Rule.AgreesWithScan`, `Rule.agreesWithScan`: the rules on terms see the terms that the tokens hold.
* `Rule.balancedParentheses_iff`: parentheses balance when no front of the tokens closes more groups
  than it opens, and all tokens together close what they open.
-/

namespace BooleanSearch
set_option autoImplicit false

/-! ## Patterns -/

/-- Which characters a pattern matches, and what it captures of them. -/
abbrev Pattern := (found captured : List Char) → Prop

namespace Pattern

/-- An opening square bracket, characters that are no closing one, which are captured, and a closing
square bracket. -/
def brackets : Pattern := fun found inside => found = '[' :: (inside ++ [']']) ∧ ']' ∉ inside

/-- A closing square bracket, blanks, which are captured, and an opening square bracket. -/
def adjoining : Pattern := fun found gap =>
  found = ']' :: (gap ++ ['[']) ∧ ∀ c ∈ gap, Text.isBlank c = true

/-- A pattern matches a part of a text. -/
structure Occurs (p : Pattern) (text before found captured behind : List Char) : Prop where
  cut : text = before ++ (found ++ behind)
  fits : p found captured

/-- A match that no other one begins before. -/
structure Leftmost (p : Pattern) (text before found captured behind : List Char) : Prop where
  occurs : p.Occurs text before found captured behind
  first : ∀ before' found' captured' behind', p.Occurs text before' found' captured' behind' →
    before.length ≤ before'.length

/-- What is captured by the leftmost match in a text, by the leftmost match behind it, and so on. -/
inductive Captures (p : Pattern) : List Char → List (List Char) → Prop
  | done {text : List Char}
      (h : ∀ before found captured behind, ¬ p.Occurs text before found captured behind) :
      Captures p text []
  | next {text before found captured behind : List Char} {more : List (List Char)}
      (h : p.Leftmost text before found captured behind) (rest : Captures p behind more) :
      Captures p text (captured :: more)

/-! ## Square brackets -/

theorem brackets_inj {found found' inside inside' behind behind' : List Char}
    (h : brackets found inside) (h' : brackets found' inside')
    (hcut : found ++ behind = found' ++ behind') : inside = inside' ∧ behind = behind' := by
  obtain ⟨rfl, hin⟩ := h
  obtain ⟨rfl, hin'⟩ := h'
  have hstop : ∀ behind : List Char, Stops (· != ']') (']' :: behind) := by
    intro behind c hc
    obtain rfl : ']' = c := Option.some.inj hc
    rfl
  simp only [List.cons_append, List.append_assoc, List.nil_append, List.cons.injEq, true_and] at hcut
  have hsame := congrArg (List.takeWhile (· != ']')) hcut
  rw [takeWhile_run _ _ _ (all_ne_bracket inside hin) (hstop behind),
    takeWhile_run _ _ _ (all_ne_bracket inside' hin') (hstop behind')] at hsame
  rw [hsame] at hcut
  exact ⟨hsame, (List.cons.inj (List.append_cancel_left hcut)).2⟩

theorem Leftmost.unique {text before found inside behind before' found' inside' behind' : List Char}
    (h : brackets.Leftmost text before found inside behind)
    (h' : brackets.Leftmost text before' found' inside' behind') :
    inside = inside' ∧ behind = behind' := by
  have hlength := Nat.le_antisymm (h.first _ _ _ _ h'.occurs) (h'.first _ _ _ _ h.occurs)
  have hcut := h.occurs.cut.symm.trans h'.occurs.cut
  exact brackets_inj h.occurs.fits h'.occurs.fits (List.append_inj hcut hlength).2

theorem Captures.unique {text : List Char} {captured captured' : List (List Char)}
    (h : brackets.Captures text captured) (h' : brackets.Captures text captured') :
    captured = captured' := by
  induction h generalizing captured' with
  | done hnone =>
    cases h' with
    | done => rfl
    | next hfirst => exact absurd hfirst.occurs (hnone _ _ _ _)
  | next hfirst rest ih =>
    cases h' with
    | done hnone => exact absurd hfirst.occurs (hnone _ _ _ _)
    | next hfirst' rest' =>
      obtain ⟨rfl, rfl⟩ := hfirst.unique hfirst'
      rw [ih rest']

/-- A match in a text that does not begin with an opening bracket lies behind the first character. -/
theorem Occurs.of_cons {c : Char} {cs before found inside behind : List Char} (hc : c ≠ '[')
    (h : brackets.Occurs (c :: cs) before found inside behind) :
    ∃ before', before = c :: before' ∧ brackets.Occurs cs before' found inside behind := by
  obtain ⟨hcut, hfits⟩ := h
  cases before with
  | nil =>
    obtain ⟨rfl, -⟩ := hfits
    exact absurd (List.cons.inj hcut).1 hc
  | cons d before =>
    obtain ⟨rfl, hcs⟩ := List.cons.inj hcut
    exact ⟨before, rfl, hcs, hfits⟩

theorem Captures.cons {c : Char} {cs : List Char} {captured : List (List Char)} (hc : c ≠ '[')
    (h : brackets.Captures cs captured) : brackets.Captures (c :: cs) captured := by
  cases h with
  | done hnone =>
    refine Captures.done fun before found inside behind hoccurs => ?_
    obtain ⟨before', -, hlater⟩ := hoccurs.of_cons hc
    exact hnone _ _ _ _ hlater
  | @next _ before found inside behind more hfirst rest =>
    obtain ⟨⟨hcut, hfits⟩, hleast⟩ := hfirst
    have hoccurs : brackets.Occurs (c :: cs) (c :: before) found inside behind :=
      ⟨congrArg (c :: ·) hcut, hfits⟩
    refine Captures.next ⟨hoccurs, fun before' found' inside' behind' h' => ?_⟩ rest
    obtain ⟨tail, rfl, hlater⟩ := h'.of_cons hc
    exact Nat.succ_le_succ (hleast _ _ _ _ hlater)

/-- The contents of the brackets of a text are captured. The cases are those of the function that
collects them: no bracket here, a bracket with its partner, and a bracket that is never closed. -/
theorem captures_bracketed (text : List Char) :
    brackets.Captures text ((Rule.bracketed text).map String.toList) := by
  fun_induction Rule.bracketed text with
  | case1 =>
    refine Captures.done fun before found inside behind ⟨hcut, hfits, _⟩ => ?_
    rw [hfits] at hcut
    exact absurd hcut (by simp)
  | case2 c cs hc ih => exact ih.cons (by simpa using hc)
  | case3 c cs hc hin ih =>
    obtain rfl : c = '[' := by simpa using hc
    have hstop := stops_dropWhile (· != ']') cs
    have hcut := List.takeWhile_append_dropWhile (p := (· != ']')) (l := cs)
    rw [List.map_cons, String.toList_ofList]
    cases hrest : cs.dropWhile (· != ']') with
    | nil =>
      have hall := List.dropWhile_eq_nil_iff.mp hrest _ (List.contains_iff_mem.mp hin)
      exact absurd hall (by decide)
    | cons bracket behind =>
      rw [hrest] at hstop hcut ih
      obtain rfl : bracket = ']' := by simpa using hstop bracket rfl
      have hoccurs : brackets.Occurs ('[' :: cs) [] ('[' :: (cs.takeWhile (· != ']') ++ [']']))
          (cs.takeWhile (· != ']')) behind :=
        ⟨by simp [hcut], rfl, bracket_not_mem_takeWhile cs⟩
      exact Captures.next ⟨hoccurs, fun _ _ _ _ _ => Nat.zero_le _⟩ ih
  | case4 c cs hc hin =>
    refine Captures.done fun before found inside behind ⟨hcut, hfits, _⟩ => ?_
    obtain rfl : c = '[' := by simpa using hc
    have hclosing : ']' ∈ '[' :: cs := by
      rw [hcut, hfits]
      simp
    rw [List.mem_cons] at hclosing
    exact hin (List.contains_iff_mem.mpr (hclosing.resolve_left (by decide)))

end Pattern

theorem captures_iff (text : List Char) (captured : List (List Char)) :
    Pattern.brackets.Captures text captured ↔
      captured = (Rule.bracketed text).map String.toList :=
  ⟨fun h => h.unique (Pattern.captures_bracketed text),
    fun h => h ▸ Pattern.captures_bracketed text⟩

/-! ## Brackets beside each other -/

theorem hasAdjoiningBrackets_iff (text : List Char) : Rule.hasAdjoiningBrackets text = true ↔
    ∃ before found gap behind, Pattern.adjoining.Occurs text before found gap behind := by
  induction text with
  | nil =>
    refine ⟨nofun, fun ⟨before, found, gap, behind, hcut, hfits, _⟩ => ?_⟩
    rw [hfits] at hcut
    exact absurd hcut (by simp)
  | cons c cs ih =>
    rw [Rule.hasAdjoiningBrackets, Bool.or_eq_true, Bool.and_eq_true, beq_iff_eq, beq_iff_eq, ih]
    constructor
    · rintro (⟨rfl, hhead⟩ | ⟨before, found, gap, behind, hcut, hfits⟩)
      · obtain ⟨behind, hbehind⟩ := List.head?_eq_some_iff.mp hhead
        refine ⟨[], _, cs.takeWhile Text.isBlank, behind, ?_, rfl,
          fun c hc => List.mem_takeWhile_imp hc⟩
        have hsplit := List.takeWhile_append_dropWhile (p := Text.isBlank) (l := cs)
        rw [hbehind] at hsplit
        simp [hsplit]
      · exact ⟨c :: before, found, gap, behind, congrArg (c :: ·) hcut, hfits⟩
    · rintro ⟨before, found, gap, behind, hcut, hfits, hgap⟩
      cases before with
      | nil =>
        rw [hfits, List.nil_append, List.cons_append, List.append_assoc] at hcut
        obtain ⟨rfl, rfl⟩ := List.cons.inj hcut
        have hstop : Stops Text.isBlank ('[' :: behind) := by
          intro d hd
          obtain rfl : '[' = d := Option.some.inj hd
          rfl
        rw [List.singleton_append, dropWhile_run _ _ _ hgap hstop]
        exact Or.inl ⟨rfl, rfl⟩
      | cons d before =>
        exact Or.inr ⟨before, found, gap, behind, (List.cons.inj hcut).2, hfits, hgap⟩

/-- No brackets adjoin when no token that ends a bracket has one that begins a bracket behind it. -/
theorem Tiles.apart_iff {ps : List Piece} {text : List Char} (h : Tiles ps text) :
    Rule.hasAdjoiningBrackets text = false ↔
      (lexemesOf ps).IsChain fun a b => ¬ (a.1.EndsBracket a.2 ∧ b.1.BeginsBracket b.2) := by
  induction h with
  | nil => exact iff_of_true rfl List.IsChain.nil
  | @blank ps text c hc rest ih =>
    have hrun := hasAdjoiningBrackets_run [c] text (by simpa using (isBlank_ne c ']' hc rfl).symm)
    rw [← List.singleton_append, hrun, ih, lexemesOf_blank]
  | @lexeme ps text kind written spelled rest ih =>
    rw [← Bool.not_eq_true] at ih ⊢
    rw [spelled.hasAdjoiningBrackets_append, not_or, ih, rest.begins_iff, lexemesOf_lexeme,
      List.isChain_cons]
    refine and_congr_left fun _ => ⟨fun hapart l hl hboth => ?_, ?_⟩
    · exact hapart ⟨hboth.1, l, hl, hboth.2⟩
    · rintro hapart ⟨hends, l, hl, hbegins⟩
      exact hapart l hl ⟨hends, hbegins⟩

theorem hasAdjoiningBrackets_scan (text : String) : Rule.hasAdjoiningBrackets text.toList = true ↔
    ∃ before a b behind, Token.scan text = before ++ a :: b :: behind ∧
      a.kind.EndsBracket (a.written text) ∧ b.kind.BeginsBracket (b.written text) := by
  have hchain := (tiles_pieces text.toList).apart_iff
  rw [← map_written_scan, List.isChain_map, List.isChain_iff_forall_rel_of_append_cons_cons] at hchain
  rw [← Bool.not_eq_false, hchain]
  simp only [not_forall, not_not, exists_prop]
  constructor
  · rintro ⟨a, b, before, behind, hscan, hboth⟩
    exact ⟨before, a, b, behind, hscan, hboth⟩
  · rintro ⟨before, a, b, behind, hscan, hboth⟩
    exact ⟨a, b, before, behind, hscan, hboth⟩

/-! ## The rules on terms -/

theorem exists_split_cons {α : Type} {P : List α → α → Prop} {a : α} {l : List α} :
    (∃ before x behind, a :: l = before ++ x :: behind ∧ P before x) ↔
      P [] a ∨ ∃ before x behind, l = before ++ x :: behind ∧ P (a :: before) x := by
  constructor
  · rintro ⟨before, x, behind, hsplit, hP⟩
    cases before with
    | nil =>
      obtain ⟨rfl, -⟩ := List.cons.inj hsplit
      exact .inl hP
    | cons b before =>
      obtain ⟨rfl, hl⟩ := List.cons.inj hsplit
      exact .inr ⟨before, x, behind, hl, hP⟩
  · rintro (hP | ⟨before, x, behind, rfl, hP⟩)
    · exact ⟨[], a, l, rfl, hP⟩
    · exact ⟨a :: before, x, behind, rfl, hP⟩

/-- The complaint about a list is the one about its first member that breaks the rule. -/
theorem forM_eq_error_iff (rule : String → Check) (values : List String) (v : Violation) :
    values.forM rule = .error v ↔ ∃ before value behind, values = before ++ value :: behind ∧
      (∀ earlier ∈ before, rule earlier = .ok ()) ∧ rule value = .error v := by
  induction values with
  | nil =>
    refine ⟨nofun, fun ⟨before, value, behind, hsplit, _⟩ => ?_⟩
    exact absurd hsplit (by simp)
  | cons first values ih =>
    have hstep : (first :: values).forM rule = rule first >>= fun _ => values.forM rule := rfl
    rw [hstep, exists_split_cons]
    cases hfirst : rule first with
    | error w =>
      refine ⟨fun h => .inl ⟨List.forall_mem_nil _, h⟩, ?_⟩
      rintro (⟨-, h⟩ | ⟨before, value, behind, -, hbefore, -⟩)
      · exact h
      · have hkept := hbefore first List.mem_cons_self
        rw [hfirst] at hkept
        cases hkept
    | ok u =>
      simp only [List.forall_mem_cons, hfirst, true_and]
      exact ih.trans (or_iff_right fun h => nomatch h.2).symm

theorem bracketed_scan (text : String) :
    Rule.bracketed text.toList = termsOf (kindsIn text) := by
  rw [kindsIn_eq]
  exact bracketed_eq (tiles_pieces text.toList)

/-- The rules that look for square brackets among the characters of a text see what its tokens say. -/
structure Rule.AgreesWithScan (text : String) : Prop where
  /-- What the brackets of the text capture, in order, are the values of its terms. -/
  captures : ∀ captured, Pattern.brackets.Captures text.toList captured ↔
    captured = (termsOf (kindsIn text)).map String.toList
  kept : Rule.terms text.toList = .ok () ↔
    ∀ value ∈ termsOf (kindsIn text), Rule.term value = .ok ()
  /-- The complaint is about the first term that breaks the rule for one term. -/
  broken : ∀ v, Rule.terms text.toList = .error v ↔
    ∃ before value behind, termsOf (kindsIn text) = before ++ value :: behind ∧
      (∀ earlier ∈ before, Rule.term earlier = .ok ()) ∧ Rule.term value = .error v
  adjoining : ∀ v, Rule.termsSeparated text.toList = .error v ↔
    (∃ before found gap behind, Pattern.adjoining.Occurs text.toList before found gap behind) ∧
      v = .missingOperator
  /-- Two tokens that follow each other adjoin when the first is a term or a closing bracket that
  stands alone, and the second a term or an opening bracket that is never closed. -/
  separated : ∀ v, Rule.termsSeparated text.toList = .error v ↔
    (∃ before a b behind, Token.scan text = before ++ a :: b :: behind ∧
      a.kind.EndsBracket (a.written text) ∧ b.kind.BeginsBracket (b.written text)) ∧
      v = .missingOperator

theorem Rule.agreesWithScan (text : String) : Rule.AgreesWithScan text where
  captures captured := by rw [captures_iff, bracketed_scan]
  kept := by rw [terms_iff, bracketed_scan]
  broken v := by rw [← bracketed_scan, ← forM_eq_error_iff, Rule.terms]
  adjoining v := by
    rw [← hasAdjoiningBrackets_iff, Rule.termsSeparated, Check.unless_eq_error, Bool.not_eq_false']
  separated v := by
    rw [← hasAdjoiningBrackets_scan, Rule.termsSeparated, Check.unless_eq_error, Bool.not_eq_false']

/-! ## Parentheses -/

/-- The limit that the tokens keep on their own takes no part: it is their number. -/
theorem groupsBalance_iff (ks : List Kind) : groupsBalance 0 ks = true ↔
    (∀ front, front <+: ks → front.count .closing ≤ front.count .opening) ∧
      ks.count .opening = ks.count .closing := by
  constructor
  · intro h
    have hnested := (nested_iff (mostOpen 0 ks) 0 ks).mpr ⟨h, Nat.le_refl _⟩
    refine ⟨fun front hfront => ?_, ?_⟩
    · have halong := (hnested.along front hfront).1
      rwa [Nat.zero_add] at halong
    · have hclosed := hnested.closed
      rwa [Nat.zero_add] at hclosed
  · rintro ⟨halong, hclosed⟩
    have hnested : Nested ks.length 0 ks := by
      refine ⟨fun front hfront => ?_, by rw [Nat.zero_add, hclosed]⟩
      have hcount := List.count_le_length (a := Kind.opening) (l := front)
      have hlength := hfront.length_le
      have hmore := halong front hfront
      omega
    exact ((nested_iff ks.length 0 ks).mp hnested).1

theorem Rule.balancedParentheses_iff (text : String) :
    Rule.balancedParentheses text.toList = .ok () ↔
      (∀ front, front <+: kindsIn text → front.count .closing ≤ front.count .opening) ∧
        (kindsIn text).count .opening = (kindsIn text).count .closing := by
  have hscan := parenthesesBalance_eq (tiles_pieces text.toList) 0
  rw [← kindsIn_eq] at hscan
  rw [Rule.balancedParentheses, Check.unless_eq_ok, hscan, groupsBalance_iff]

end BooleanSearch
