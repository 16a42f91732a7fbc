import BooleanSearch.Node

/-!
# Writing a tree as text

The canonical text of a tree is a query again. A tree can also be written for another search engine,
with other marks around its terms and without fields.

* `Style`: how terms are written.
* `Node.renderWith`: a tree in a given style.
* `Node.canonical`, `Node.withEnclosures`: the two styles at work.
-/

namespace BooleanSearch
set_option autoImplicit false

/-- How the terms of a tree are written. -/
inductive Style where
  /-- In square brackets, behind the code of the field. -/
  | canonical
  /-- Between two marks and without a field; with `onlyWildcards`, a term without a wildcard stays in
  square brackets. -/
  | enclosed (before after : String) (onlyWildcards : Bool)
  deriving DecidableEq, Repr

namespace Style

/-- The field code that a style writes before a term or a group. -/
def fieldText : Style → Option Field → String
  | canonical, some f => f.code
  | _, _ => ""

def termText : Style → String → String
  | enclosed before after onlyWildcards, value =>
    if !onlyWildcards || value.toList.any Wildcard.isMark then before ++ value ++ after
    else "[" ++ value ++ "]"
  | canonical, value => "[" ++ value ++ "]"

end Style

namespace Node

mutual

/-- The text of a tree in a style: the parts of a row are divided by single spaces. -/
def renderWith (style : Style) : Node → String
  | root cs => " ".intercalate (renderRow style cs)
  | term v f => style.fieldText f ++ style.termText v
  | connector c => c.text
  | group cs f => style.fieldText f ++ "(" ++ " ".intercalate (renderRow style cs) ++ ")"

def renderRow (style : Style) : List Node → List String
  | [] => []
  | n :: ns => renderWith style n :: renderRow style ns

end

def canonical (n : Node) : String := n.renderWith .canonical

def withEnclosures (n : Node) (before after : String) (onlyWildcards : Bool) : String :=
  n.renderWith (.enclosed before after onlyWildcards)

end Node
end BooleanSearch
