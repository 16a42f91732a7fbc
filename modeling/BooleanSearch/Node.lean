import BooleanSearch.Connector
import BooleanSearch.Field
import BooleanSearch.Wildcard

/-!
# The tree of a query

A query is a row of operands and connectors. An operand is a term or a group, which holds a row again,
and either may be bound to a field.

* `Node`: the tree.
* `Node.children`, `Node.field?`, `Node.wildcard?`: what a node holds itself.
* `Node.terms`, `Node.fields`, `Node.hasWildcard`: what stands in the tree below a node.
-/

namespace BooleanSearch
set_option autoImplicit false

/-- A part of a query. -/
inductive Node where
  | root (children : List Node)
  /-- A search term and the field it is searched in. -/
  | term (value : String) (field : Option Field)
  | connector (word : Connector)
  /-- A row in parentheses and the field its terms are searched in. -/
  | group (children : List Node) (field : Option Field)
  deriving Repr

namespace Node

instance : Inhabited Node := ⟨.root []⟩

/-! ## Equality -/

mutual

def decEq : (a b : Node) → Decidable (a = b)
  | .root as, .root bs =>
    match decEqList as bs with
    | .isTrue h => .isTrue (congrArg root h)
    | .isFalse h => .isFalse fun e => h (Node.root.inj e)
  | .term v f, .term w g =>
    if h : v = w ∧ f = g then .isTrue (by rw [h.1, h.2])
    else .isFalse fun e => h (Node.term.inj e)
  | .connector c, .connector d =>
    if h : c = d then .isTrue (congrArg connector h)
    else .isFalse fun e => h (Node.connector.inj e)
  | .group as f, .group bs g =>
    match decEqList as bs with
    | .isTrue h =>
      if hf : f = g then .isTrue (by rw [h, hf])
      else .isFalse fun e => hf (Node.group.inj e).2
    | .isFalse h => .isFalse fun e => h (Node.group.inj e).1
  | .root _, .term _ _ => .isFalse nofun
  | .root _, .connector _ => .isFalse nofun
  | .root _, .group _ _ => .isFalse nofun
  | .term _ _, .root _ => .isFalse nofun
  | .term _ _, .connector _ => .isFalse nofun
  | .term _ _, .group _ _ => .isFalse nofun
  | .connector _, .root _ => .isFalse nofun
  | .connector _, .term _ _ => .isFalse nofun
  | .connector _, .group _ _ => .isFalse nofun
  | .group _ _, .root _ => .isFalse nofun
  | .group _ _, .term _ _ => .isFalse nofun
  | .group _ _, .connector _ => .isFalse nofun

def decEqList : (as bs : List Node) → Decidable (as = bs)
  | [], [] => .isTrue rfl
  | [], _ :: _ => .isFalse nofun
  | _ :: _, [] => .isFalse nofun
  | a :: as, b :: bs =>
    match decEq a b with
    | .isTrue h =>
      match decEqList as bs with
      | .isTrue t => .isTrue (by rw [h, t])
      | .isFalse t => .isFalse fun e => t (List.cons.inj e).2
    | .isFalse h => .isFalse fun e => h (List.cons.inj e).1

end

instance : DecidableEq Node := decEq

/-! ## One node -/

def children : Node → List Node
  | root cs | group cs _ => cs
  | term _ _ | connector _ => []

def field? : Node → Option Field
  | term _ f | group _ f => f
  | root _ | connector _ => none

def wildcard? : Node → Option Wildcard
  | term v _ => Wildcard.first? v.toList
  | _ => none

/-! ## The tree below a node -/

mutual

/-- The term nodes of a tree, from left to right, each with its own field. -/
def termNodes : Node → List (String × Option Field)
  | root cs => termNodesOfRow cs
  | term v f => [(v, f)]
  | connector _ => []
  | group cs _ => termNodesOfRow cs

def termNodesOfRow : List Node → List (String × Option Field)
  | [] => []
  | n :: ns => n.termNodes ++ termNodesOfRow ns

end

/-- The terms of a tree that are not empty, from left to right. -/
def terms (n : Node) : List String := (n.termNodes.map (·.1)).filter (· != "")

/-- The fields that terms of a tree are bound to, each once, in order. -/
def fields (n : Node) : List Field := Field.listed (n.termNodes.filterMap (·.2))

def hasWildcard (n : Node) : Bool := n.termNodes.any (·.1.toList.any Wildcard.isMark)

end Node
end BooleanSearch
