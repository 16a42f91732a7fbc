/-!
# What a query can be refused for

* `Violation`: the ways in which a text breaks a rule of the query language.
* `Violation.message`: the complaint about each.
* `Check`: the outcome of one rule.
-/

namespace BooleanSearch
set_option autoImplicit false

/-- How a text breaks a rule of the query language. -/
inductive Violation where
  | emptyQuery
  | unbalancedBrackets
  | unbalancedParentheses
  | emptyTerm
  | quoteInTerm (term : String)
  | wildcardFirst (term : String)
  | severalWildcards (term : String)
  | asteriskNotLast (term : String)
  | asteriskTooEarly (term : String)
  | wildcardBesideBlank (term : String)
  | missingOperator
  | notWithoutAnd
  | unsupportedOperator (word : String)
  | missingSpace
  | connectorFirst
  | connectorLast
  | consecutiveConnectors
  | noTerm
  | textOutsideBrackets (text : String)
  | unknownField (code : String)
  deriving DecidableEq, Repr

namespace Violation

/-- A term in square brackets at the end of a complaint. -/
def about (complaint term : String) : String := complaint ++ ": [" ++ term ++ "]"

def message : Violation → String
  | emptyQuery => "Query cannot be empty"
  | unbalancedBrackets => "Unbalanced square brackets"
  | unbalancedParentheses => "Unbalanced parentheses"
  | emptyTerm => "Terms cannot be empty"
  | quoteInTerm term => about "Terms cannot contain double quotes" term
  | wildcardFirst term => about "Wildcards cannot be used at the start of a search term" term
  | severalWildcards term => about "Only one wildcard can be included in a search term" term
  | asteriskNotLast term =>
    about "The asterisk wildcard can only be used at the end of a search term" term
  | asteriskTooEarly term =>
    about "A minimum of 3 characters preceding the asterisk wildcard is required" term
  | wildcardBesideBlank term => about "Wildcards can be used only in single terms (no spaces)" term
  | missingOperator => "Terms must be separated by boolean operators (AND, OR, AND NOT)"
  | notWithoutAnd =>
    "NOT operator must be preceded by AND: use 'AND NOT' instead of 'OR NOT' or just 'NOT'"
  | unsupportedOperator word => "Invalid boolean operator: " ++ word
  | missingSpace => "Operators must have whitespace before and after them"
  | connectorFirst => "Connectors cannot appear at the beginning of a query or subquery"
  | connectorLast => "Connectors cannot appear at the end of a query or subquery"
  | consecutiveConnectors => "Connectors must be between terms or groups, not consecutive"
  | noTerm => "Query must contain at least one term enclosed in []"
  | textOutsideBrackets text =>
    "All terms must be enclosed in square brackets: found '" ++ text ++ "'"
  | unknownField code => "Invalid field code: " ++ code

end Violation

abbrev Check := Except Violation Unit

/-- A rule that is kept exactly when a condition holds. -/
def Check.unless (kept : Bool) (v : Violation) : Check := if kept then .ok () else .error v

theorem Check.unless_eq_ok {kept : Bool} {v : Violation} :
    Check.unless kept v = .ok () ↔ kept = true := by
  unfold Check.unless
  split <;> simp_all

theorem Check.unless_eq_error {kept : Bool} {v w : Violation} :
    Check.unless kept v = .error w ↔ kept = false ∧ w = v := by
  cases kept with
  | true => exact iff_of_false nofun nofun
  | false => exact ⟨fun h => ⟨rfl, (Except.error.inj h).symm⟩, fun h => congrArg Except.error h.2.symm⟩

end BooleanSearch
