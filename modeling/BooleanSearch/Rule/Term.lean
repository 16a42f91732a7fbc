import BooleanSearch.Rule.Violation
import BooleanSearch.Text.Blank
import BooleanSearch.Wildcard

/-!
# The rule for one search term

A term has something in it and no double quote. It may hold one wildcard, not as its first character
and not beside a blank; an asterisk comes last, behind at least three characters.

* `Rule.term`: the rule.
-/

namespace BooleanSearch.Rule
set_option autoImplicit false

/-- How many characters stand before an asterisk at least. -/
def leastBeforeAsterisk : Nat := 3

/-- The rule for the place of an asterisk: last, and not too early. -/
def asterisk (value : String) : Check :=
  let cs := value.toList
  let before := (cs.takeWhile (· != '*')).length
  if !cs.contains '*' then .ok ()
  else if before + 1 != cs.length then .error (.asteriskNotLast value)
  else if before < leastBeforeAsterisk then .error (.asteriskTooEarly value)
  else .ok ()

/-- The rule for a search term, given without its square brackets. -/
def term (value : String) : Check :=
  let cs := value.toList
  let marks := cs.countP Wildcard.isMark
  if cs.all Text.isBlank then .error .emptyTerm
  else if cs.contains '"' then .error (.quoteInTerm value)
  else if marks == 0 then .ok ()
  else if 1 < marks then .error (.severalWildcards value)
  else if cs.head?.any Wildcard.isMark then .error (.wildcardFirst value)
  else if cs.any Text.isBlank then .error (.wildcardBesideBlank value)
  else asterisk value

end BooleanSearch.Rule
