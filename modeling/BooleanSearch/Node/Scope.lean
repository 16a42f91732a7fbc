import BooleanSearch.Node

/-!
# The scope of a field

A field written before a group holds for all terms of the group, unless something inside is bound to a
field of its own.

* `Node.bindTerms`: the tree in which every term carries the field that holds for it and no group
  carries one.
-/

namespace BooleanSearch.Node
set_option autoImplicit false

mutual

/-- The tree with every term bound to the field that holds for it, when `outer` holds around the tree.
Groups keep no field. -/
def bindTerms (outer : Option Field) : Node → Node
  | root cs => root (bindRow outer cs)
  | term v own => term v (own.or outer)
  | connector c => connector c
  | group cs own => group (bindRow (own.or outer) cs) none

def bindRow (outer : Option Field) : List Node → List Node
  | [] => []
  | n :: ns => bindTerms outer n :: bindRow outer ns

end

theorem bindRow_eq_map (outer : Option Field) (ns : List Node) :
    bindRow outer ns = ns.map (bindTerms outer) := by
  induction ns with
  | nil => rfl
  | cons n ns ih => rw [bindRow, ih, List.map_cons]

end BooleanSearch.Node
