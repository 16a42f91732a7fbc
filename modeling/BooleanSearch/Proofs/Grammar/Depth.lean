import BooleanSearch.Proofs.Grammar

/-!
# How deep groups are nested

* `openAfter`, `mostOpen`: how many groups are open behind some tokens, and the most that are open at
  once.
* `Node.depth`: how many groups there are around the innermost part of a tree.
* `Row.mostOpen_eq`: the tokens of a row open as many groups at once as the row is deep.
-/

namespace BooleanSearch
set_option autoImplicit false

/-! ## Open groups -/

/-- How many groups are open behind a token, when `here` are open before it. -/
def Kind.openAfter (here : Nat) : Kind → Nat
  | .opening => here + 1
  | .closing => here - 1
  | _ => here

def openAfter (here : Nat) (ks : List Kind) : Nat := ks.foldl Kind.openAfter here

/-- The most groups that are open at once before, between and behind some tokens. -/
def mostOpen (here : Nat) : List Kind → Nat
  | [] => here
  | k :: ks => max here (mostOpen (k.openAfter here) ks)

theorem le_mostOpen (here : Nat) (ks : List Kind) : here ≤ mostOpen here ks := by
  cases ks with
  | nil => exact Nat.le_refl here
  | cons k ks => exact Nat.le_max_left _ _

theorem mostOpen_cons_of_same (here : Nat) (k : Kind) (ks : List Kind) (h : k.openAfter here = here) :
    mostOpen here (k :: ks) = mostOpen here ks := by
  rw [mostOpen, h]
  exact Nat.max_eq_right (le_mostOpen here ks)

theorem mostOpen_keywords (here : Nat) (ws : List Keyword) (ks : List Kind) :
    mostOpen here (ws.map .keyword ++ ks) = mostOpen here ks := by
  induction ws with
  | nil => rfl
  | cons w ws ih =>
    rw [List.map_cons, List.cons_append, mostOpen_cons_of_same here _ _ rfl, ih]

theorem Binding.mostOpen_append {field : Option Field} {before : List Kind} (h : Binding field before)
    (here : Nat) (ks : List Kind) : mostOpen here (before ++ ks) = mostOpen here ks := by
  cases h with
  | free => rfl
  | code code f hf => exact mostOpen_cons_of_same here _ ks rfl

/-! ## The depth of a tree -/

namespace Node

mutual

/-- The number of groups around the innermost part of a tree. -/
def depth : Node → Nat
  | root cs => depthOfRow cs
  | term _ _ | connector _ => 0
  | group cs _ => depthOfRow cs + 1

def depthOfRow : List Node → Nat
  | [] => 0
  | n :: ns => max n.depth (depthOfRow ns)

end

end Node

theorem Row.mostOpen_append {ns : List Node} {ks : List Kind} (h : Row ns ks) (here : Nat)
    (rest : List Kind) :
    mostOpen here (ks ++ rest) = max (here + Node.depthOfRow ns) (mostOpen here rest) := by
  induction h generalizing here rest with
  | nil =>
    have hrest := le_mostOpen here rest
    rw [List.nil_append, Node.depthOfRow, Nat.add_zero, Nat.max_eq_right hrest]
  | term value binding more ih =>
    rw [List.append_assoc, binding.mostOpen_append, List.cons_append,
      mostOpen_cons_of_same here _ _ rfl, ih, Node.depthOfRow, Node.depth]
    omega
  | group binding body chain more ihb ihr =>
    rw [List.append_assoc, binding.mostOpen_append, List.cons_append, mostOpen, List.append_assoc,
      Kind.openAfter, ihb, List.cons_append, mostOpen, Kind.openAfter, Nat.add_sub_cancel, ihr,
      Node.depthOfRow, Node.depth]
    omega
  | connector c more ih =>
    rw [List.append_assoc, mostOpen_keywords, ih, Node.depthOfRow, Node.depth]
    omega

theorem Row.mostOpen_eq {ns : List Node} {ks : List Kind} (h : Row ns ks) :
    mostOpen 0 ks = Node.depthOfRow ns := by
  have hrow := h.mostOpen_append 0 []
  rw [List.append_nil, mostOpen] at hrow
  omega

end BooleanSearch
