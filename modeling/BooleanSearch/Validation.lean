import BooleanSearch.Rule.Order
import BooleanSearch.Rule.Text
import BooleanSearch.Token.Scan

/-!
# Validation

A text is a query when it keeps every rule. The rules are asked one after the other and the first one
that is broken gives the complaint.

* `trimmed`: a text without the blanks at its ends, which is what the rules look at.
* `validate`: all rules, in order.
-/

namespace BooleanSearch
set_option autoImplicit false

/-- A text without the blanks at its ends. -/
def trimmed (raw : String) : String := String.ofList (Text.trim raw.toList)

def validateText (text : List Char) : Check := do
  Rule.notEmpty text
  Rule.balancedBrackets text
  Rule.balancedParentheses text
  Rule.noEmptyBrackets text
  Rule.terms text
  Rule.termsSeparated text

def validateTokens (text : List Char) (tokens : List Token) : Check := do
  Rule.operatorSpacing tokens
  Rule.bareWords text tokens
  Rule.notPlacement tokens
  Rule.connectorPlacement tokens
  Rule.connectorRuns tokens
  Rule.hasTerm tokens
  Rule.knownFields tokens

/-- All rules, on a text without the blanks at its ends. -/
def validate (raw : String) : Check := do
  let query := trimmed raw
  validateText query.toList
  validateTokens query.toList (Token.scan query)

end BooleanSearch
