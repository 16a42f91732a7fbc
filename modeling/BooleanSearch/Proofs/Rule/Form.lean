import BooleanSearch.Proofs.Rule.Characters
import BooleanSearch.Proofs.Token.Form

/-!
# The rules on texts of the same form

Two texts of the same form keep the same rules, and break the same rule first. A complaint may quote
the text as it is written, so only the kind of the complaint is the same.

* `Check.Agrees`: both checks pass, or both complain in the same way.
* `SameForm.validateText_eq`: the rules on characters.
* `validateTokens_agrees`: the rules on tokens, from the tokens in capitals and where they touch.
* `SameForm.validate_agrees`: all rules.
-/

namespace BooleanSearch
set_option autoImplicit false

/-! ## Checks that agree -/

/-- Both checks pass, or both complain in the same way, whatever text the complaints quote. -/
def Check.Agrees (a b : Check) : Prop :=
  a.mapError Violation.ctorIdx = b.mapError Violation.ctorIdx

theorem Check.Agrees.of_eq {a b : Check} (h : a = b) : a.Agrees b := congrArg _ h

theorem Check.Agrees.cases {a b : Check} (h : a.Agrees b) :
    (a = .ok () ∧ b = .ok ()) ∨ ∃ v w, a = .error v ∧ b = .error w ∧ v.ctorIdx = w.ctorIdx := by
  cases a with
  | ok u =>
    cases b with
    | ok u' => exact Or.inl ⟨rfl, rfl⟩
    | error w => cases h
  | error v =>
    cases b with
    | ok u' => cases h
    | error w => exact Or.inr ⟨v, w, rfl, rfl, Except.error.inj h⟩

theorem Check.Agrees.bind {a a' b b' : Check} (ha : a.Agrees a') (hb : b.Agrees b') :
    Check.Agrees (a >>= fun _ => b) (a' >>= fun _ => b') := by
  rcases ha.cases with ⟨rfl, rfl⟩ | ⟨v, w, rfl, rfl, hsame⟩
  · exact hb
  · exact congrArg Except.error hsame

/-! ## The rules on characters -/

namespace SameForm

variable {text text' : List Char}

theorem all_isBlank_eq (h : SameForm text text') :
    text.all Text.isBlank = text'.all Text.isBlank := by
  induction h with
  | nil => rfl
  | char c d same hc ho rest ih =>
    rw [List.all_cons, List.all_cons, ← isBlank_congr same, hc, Bool.false_and, Bool.false_and]
  | gap gap gap' hne hne' hb hb' rest ih =>
    rw [List.all_append, List.all_append, List.all_eq_true.mpr hb, List.all_eq_true.mpr hb', ih]
  | bracket inside h rest ih => rfl
  | unclosed inside h => rfl

theorem bracketsBalance_eq (h : SameForm text text') (depth : Nat) :
    Rule.bracketsBalance depth text = Rule.bracketsBalance depth text' := by
  have hgap : ∀ (gap text : List Char) (depth : Nat), (∀ c ∈ gap, Text.isBlank c = true) →
      Rule.bracketsBalance depth (gap ++ text) = Rule.bracketsBalance depth text := by
    intro gap text depth hb
    have hno := not_mem_of_all_isBlank gap hb
    rw [bracketsBalance_run gap text depth (hno ']' rfl), List.count_eq_zero.mpr (hno '[' rfl)]
    rfl
  induction h generalizing depth with
  | nil => rfl
  | char c d same hc ho rest ih =>
    by_cases hclose : c = ']'
    · obtain rfl := (eq_mark_iff same rfl).mp hclose
      subst hclose
      cases depth with
      | zero => rfl
      | succ depth => exact ih depth
    · have hopen' : d ≠ '[' := mt (eq_mark_iff same rfl).mpr ho
      have hclose' : d ≠ ']' := mt (eq_mark_iff same rfl).mpr hclose
      rw [bracketsBalance_cons c _ _ ho hclose, bracketsBalance_cons d _ _ hopen' hclose', ih]
  | gap gap gap' hne hne' hb hb' rest ih => rw [hgap gap _ _ hb, hgap gap' _ _ hb', ih]
  | bracket inside h rest ih =>
    rw [bracketsBalance_term inside _ _ h, bracketsBalance_term inside _ _ h, ih]
  | unclosed inside h => rfl

theorem hasEmptyBrackets_eq (h : SameForm text text') :
    Rule.hasEmptyBrackets text = Rule.hasEmptyBrackets text' := by
  induction h with
  | nil => rfl
  | char c d same hc ho rest ih =>
    have hopen' : d ≠ '[' := mt (eq_mark_iff same rfl).mpr ho
    rw [hasEmptyBrackets_cons c _ ho, hasEmptyBrackets_cons d _ hopen', ih]
  | gap gap gap' hne hne' hb hb' rest ih =>
    rw [hasEmptyBrackets_run gap _ (not_mem_of_all_isBlank gap hb '[' rfl),
      hasEmptyBrackets_run gap' _ (not_mem_of_all_isBlank gap' hb' '[' rfl), ih]
  | bracket inside h rest ih =>
    rw [bracket_append, bracket_append]
    exact hasEmptyBrackets_closed ('[' :: inside) ih
  | unclosed inside h => rfl

theorem hasAdjoiningBrackets_eq (h : SameForm text text') :
    Rule.hasAdjoiningBrackets text = Rule.hasAdjoiningBrackets text' := by
  induction h with
  | nil => rfl
  | char c d same hc ho rest ih =>
    have hclose : (c == ']') = (d == ']') := by
      rw [Bool.eq_iff_iff, beq_iff_eq, beq_iff_eq]
      exact eq_mark_iff same rfl
    rw [Rule.hasAdjoiningBrackets, Rule.hasAdjoiningBrackets, hclose,
      rest.trimStart.head_eq '[' rfl rfl, ih]
  | gap gap gap' hne hne' hb hb' rest ih =>
    rw [hasAdjoiningBrackets_run gap _ (not_mem_of_all_isBlank gap hb ']' rfl),
      hasAdjoiningBrackets_run gap' _ (not_mem_of_all_isBlank gap' hb' ']' rfl), ih]
  | bracket inside h rest ih =>
    have hinside : ']' ∉ '[' :: inside := by simpa using h
    rw [bracket_append, bracket_append, hasAdjoiningBrackets_run _ _ hinside,
      hasAdjoiningBrackets_run _ _ hinside, Rule.hasAdjoiningBrackets, Rule.hasAdjoiningBrackets,
      rest.trimStart.head_eq '[' rfl rfl, ih]
  | unclosed inside h => rfl

end SameForm

theorem termsOf_inCapitals (ks : List Kind) : termsOf (ks.map Kind.inCapitals) = termsOf ks := by
  induction ks with
  | nil => rfl
  | cons k ks ih =>
    cases k with
    | term value => exact congrArg (value :: ·) ih
    | _ => exact ih

theorem groupsBalance_inCapitals (depth : Nat) (ks : List Kind) :
    groupsBalance depth (ks.map Kind.inCapitals) = groupsBalance depth ks := by
  induction ks generalizing depth with
  | nil => rfl
  | cons k ks ih =>
    cases k with
    | opening => exact ih (depth + 1)
    | closing =>
      cases depth with
      | zero => rfl
      | succ depth => exact ih depth
    | _ => cases depth <;> exact ih _

/-- The contents of brackets are the same in both texts, so the complaints about them are the same to
the letter. -/
theorem SameForm.validateText_eq {text text' : List Char} (h : SameForm text text') :
    validateText text = validateText text' := by
  have hkinds := h.alike.kindsOf_eq
  have hterms : Rule.bracketed text = Rule.bracketed text' := by
    rw [bracketed_eq (tiles_pieces text), bracketed_eq (tiles_pieces text'), ← termsOf_inCapitals,
      hkinds, termsOf_inCapitals]
  have hgroups : Rule.parenthesesBalance false 0 text = Rule.parenthesesBalance false 0 text' := by
    rw [parenthesesBalance_eq (tiles_pieces text), parenthesesBalance_eq (tiles_pieces text'),
      ← groupsBalance_inCapitals, hkinds, groupsBalance_inCapitals]
  simp only [validateText, Rule.notEmpty, Rule.balancedBrackets, Rule.balancedParentheses,
    Rule.noEmptyBrackets, Rule.terms, Rule.termsSeparated, h.all_isBlank_eq, h.bracketsBalance_eq,
    hgroups, h.hasEmptyBrackets_eq, hterms, h.hasAdjoiningBrackets_eq]

/-! ## The rules on tokens -/

theorem notsFollowAnd_inCapitals (after : Bool) (ks : List Kind) :
    Rule.notsFollowAnd after (ks.map Kind.inCapitals) = Rule.notsFollowAnd after ks := by
  induction ks generalizing after with
  | nil => rfl
  | cons k ks ih =>
    cases k with
    | keyword w =>
      cases w with
      | not => exact congrArg (after && ·) (ih false)
      | _ => exact ih _
    | _ => exact ih _

theorem roles_inCapitals (depth : Nat) (ks : List Kind) :
    Rule.roles depth (ks.map Kind.inCapitals) = Rule.roles depth ks := by
  induction ks generalizing depth with
  | nil => rfl
  | cons k ks ih =>
    cases depth with
    | succ depth => cases k <;> exact ih _
    | zero =>
      cases k with
      | opening => exact congrArg (.operand :: ·) (ih 1)
      | term value => exact congrArg (.operand :: ·) (ih 0)
      | keyword w =>
        cases w with
        | and =>
          -- a `NOT` behind it belongs to the same connector
          cases ks with
          | nil => rfl
          | cons l ls =>
            cases l with
            | keyword w' =>
              cases w' with
              | not => exact ih 0
              | _ => exact congrArg (.connector :: ·) (ih 0)
            | _ => exact congrArg (.connector :: ·) (ih 0)
        | _ => exact congrArg (.connector :: ·) (ih 0)
      | _ => exact ih 0

theorem connectorsApart_inCapitals (after : Bool) (ks : List Kind) :
    Rule.connectorsApart after (ks.map Kind.inCapitals) = Rule.connectorsApart after ks := by
  induction ks generalizing after with
  | nil => rfl
  | cons k ks ih =>
    cases k with
    | keyword w =>
      cases w with
      | and =>
        cases ks with
        | nil => rfl
        | cons l ls =>
          cases l with
          | keyword w' =>
            cases w' with
            | not => exact congrArg (!after && ·) (ih false)
            | _ => exact congrArg (!after && ·) (ih true)
          | _ => exact congrArg (!after && ·) (ih true)
      | _ => exact congrArg (!after && ·) (ih true)
    | _ => exact ih false

theorem ofCode?_upper (code : String) :
    Field.ofCode? (String.ofList (Text.upper code.toList)) = Field.ofCode? code := by
  rw [Field.ofCode?, Field.ofCode?, String.toList_ofList, Text.lower_upper]

theorem aboutWord_upper (word : String) :
    (Rule.aboutWord (String.ofList (Text.upper word.toList))).ctorIdx =
      (Rule.aboutWord word).ctorIdx := by
  unfold Rule.aboutWord
  rw [String.toList_ofList, Text.upper_upper]
  split <;> rfl

theorem bareWords_bare (text : List Char) (tokens : List Token) :
    (Rule.bareWords text tokens).Agrees (Rule.bareWords [] (tokens.map Token.bare)) := by
  induction tokens with
  | nil => rfl
  | cons t tokens ih =>
    obtain ⟨kind, span⟩ := t
    cases kind with
    | word word => exact congrArg Except.error (aboutWord_upper word).symm
    | illegal => rfl
    | _ => exact ih

theorem knownFields_bare (tokens : List Token) :
    (Rule.knownFields tokens).Agrees (Rule.knownFields (tokens.map Token.bare)) := by
  induction tokens with
  | nil => rfl
  | cons t tokens ih =>
    obtain ⟨kind, span⟩ := t
    cases kind with
    | fieldPrefix code =>
      have hcut : Rule.knownFields ((⟨.fieldPrefix code, span⟩ :: tokens).map Token.bare) =
          if (Field.ofCode? (String.ofList (Text.upper code.toList))).isSome then
            Rule.knownFields (tokens.map Token.bare)
          else .error (.unknownField (String.ofList (Text.upper code.toList))) := rfl
      rw [hcut, ofCode?_upper, Rule.knownFields]
      split
      · exact ih
      · rfl
    | _ => exact ih

theorem any_isTerm_bare (tokens : List Token) :
    (tokens.map Token.bare).any (·.kind.isTerm) = tokens.any (·.kind.isTerm) := by
  rw [List.any_map]
  exact congrArg (List.any tokens) (funext fun t => t.kind.isTerm_inCapitals)

/-- The rules on tokens look at the kinds in capitals and at where tokens touch. -/
theorem validateTokens_agrees {text text' : List Char} {tokens tokens' : List Token}
    (hbare : tokens.map Token.bare = tokens'.map Token.bare)
    (hglued : Rule.hasGlued tokens = Rule.hasGlued tokens') :
    (validateTokens text tokens).Agrees (validateTokens text' tokens') := by
  have hkinds : (tokens.map (·.kind)).map Kind.inCapitals =
      (tokens'.map (·.kind)).map Kind.inCapitals := by
    rw [← kinds_bare, hbare, kinds_bare]
  have hspacing : Rule.operatorSpacing tokens = Rule.operatorSpacing tokens' := by
    rw [Rule.operatorSpacing, Rule.operatorSpacing, hglued]
  have hwords : (Rule.bareWords text tokens).Agrees (Rule.bareWords text' tokens') :=
    (bareWords_bare text tokens).trans (hbare ▸ (bareWords_bare text' tokens').symm)
  have hnots : Rule.notPlacement tokens = Rule.notPlacement tokens' := by
    rw [Rule.notPlacement, Rule.notPlacement, ← notsFollowAnd_inCapitals, hkinds,
      notsFollowAnd_inCapitals]
  have hplaces : Rule.connectorPlacement tokens = Rule.connectorPlacement tokens' := by
    rw [Rule.connectorPlacement, Rule.connectorPlacement, ← roles_inCapitals, hkinds,
      roles_inCapitals]
  have hruns : Rule.connectorRuns tokens = Rule.connectorRuns tokens' := by
    rw [Rule.connectorRuns, Rule.connectorRuns, ← connectorsApart_inCapitals, hkinds,
      connectorsApart_inCapitals]
  have hterm : Rule.hasTerm tokens = Rule.hasTerm tokens' := by
    rw [Rule.hasTerm, Rule.hasTerm, ← any_isTerm_bare, hbare, any_isTerm_bare]
  have hfields : (Rule.knownFields tokens).Agrees (Rule.knownFields tokens') :=
    (knownFields_bare tokens).trans (hbare ▸ (knownFields_bare tokens').symm)
  exact (Check.Agrees.of_eq hspacing).bind (hwords.bind ((Check.Agrees.of_eq hnots).bind
    ((Check.Agrees.of_eq hplaces).bind ((Check.Agrees.of_eq hruns).bind
      ((Check.Agrees.of_eq hterm).bind hfields)))))

/-! ## All rules -/

theorem SameForm.validate_agrees {raw raw' : String} (h : SameForm raw.toList raw'.toList) :
    (validate raw).Agrees (validate raw') := by
  have htrimmed := h.toList_trimmed
  exact (Check.Agrees.of_eq htrimmed.validateText_eq).bind
    (validateTokens_agrees htrimmed.scan_bare htrimmed.hasGlued_eq)

end BooleanSearch
