import BooleanSearch.Record

/-!
# A stored tree means the tree

* `Record.toNode_ofNode`: the record of a tree means that tree, whatever the tree holds.
-/

namespace BooleanSearch
set_option autoImplicit false

theorem Connector.ofText?_text (c : Connector) : Connector.ofText? c.text = some c := by
  cases c <;> decide +kernel

namespace Record

theorem readField_code (field : Option Field) : readField (field.map (·.code)) = .ok field := by
  cases field with
  | none => rfl
  | some f =>
    change readField (some f.code) = _
    unfold readField
    dsimp only
    rw [Field.ofCode?_code]

theorem readConnector_text (c : Connector) : readConnector (some c.text) = .ok c := by
  unfold readConnector
  dsimp only
  rw [Connector.ofText?_text]

/-- A term without text is stored without a value, and read as the empty text again. -/
theorem getD_value (v : String) : (if v == "" then none else some v).getD "" = v := by
  by_cases hv : v = ""
  · subst hv
    rfl
  · have hne : (v == "") = false := beq_eq_false_iff_ne.mpr hv
    rw [hne]
    rfl

mutual

theorem toNode_ofNode : ∀ n : Node, toNode (ofNode n) = .ok n
  | .root cs => by
    have hrow := toNodes_ofNodes cs
    rw [ofNode, toNode, NodeKind.ofName?_name]
    dsimp only
    rw [hrow]
    rfl
  | .term v f => by
    rw [ofNode, toNode, NodeKind.ofName?_name]
    dsimp only
    rw [readField_code, getD_value]
    rfl
  | .connector c => by
    rw [ofNode, toNode, NodeKind.ofName?_name]
    dsimp only
    rw [readConnector_text]
    rfl
  | .group cs f => by
    have hrow := toNodes_ofNodes cs
    rw [ofNode, toNode, NodeKind.ofName?_name]
    dsimp only
    rw [hrow, readField_code]
    rfl

theorem toNodes_ofNodes : ∀ ns : List Node, toNodes (ofNodes ns) = .ok ns
  | [] => rfl
  | n :: ns => by
    rw [ofNodes, toNodes, toNode_ofNode n, toNodes_ofNodes ns]
    rfl

end

end Record
end BooleanSearch
