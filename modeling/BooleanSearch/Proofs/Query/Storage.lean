import BooleanSearch.Proofs.Node.Levels
import BooleanSearch.Proofs.Query.Canonical
import BooleanSearch.Proofs.Record
import BooleanSearch.Proofs.Record.Stored

/-!
# Stored queries

The reader of JSON allows for 127 arrays and objects that are open at once. A level of the tree takes
two of them, so it can be too deep for the reader although the compiler allows for its groups.

* `Query.openAtOnce_toDocument`: what is open at once in the stored form of a query.
* `Query.ofDocument_restores`: a query is found again in its stored form.
* `Query.ofJson_toJson`: a query is read from its own JSON, or the JSON is refused as malformed.
* `Query.restored_iff`: the texts whose queries can be stored and restored.
* `Query.always_restored_iff`: the limits on groups that make sure of it. The default is not one.
-/

namespace BooleanSearch
set_option autoImplicit false
open Json

/-! ## What is open at once -/

namespace Record

theorem openInMembers_childrenMember (ns : List Node)
    (h : ns ≠ [] → openInItems (toDataOfRow (ofNodes ns)) + 1 = 2 * Node.levels ns) :
    openInMembers (childrenMember (ofNodes ns)) = 2 * Node.levels ns := by
  cases ns with
  | nil => rfl
  | cons n ns =>
    have hopen := h (List.cons_ne_nil _ _)
    rw [ofNodes, childrenMember, openInMembers, openInMembers, Data.openAtOnce, Nat.max_zero]
    exact hopen

mutual

theorem openAtOnce_ofNode : ∀ n : Node, (ofNode n).toData.openAtOnce = 2 * n.height + 1
  | .root cs => by
    rw [ofNode, openAtOnce_toData, openInMembers_childrenMember cs (openInItems_ofNodes cs),
      Node.height]
  | .term _ _ => by
    rw [ofNode, openAtOnce_toData]
    rfl
  | .connector _ => by
    rw [ofNode, openAtOnce_toData]
    rfl
  | .group cs _ => by
    rw [ofNode, openAtOnce_toData, openInMembers_childrenMember cs (openInItems_ofNodes cs),
      Node.height]

theorem openInItems_ofNodes : ∀ ns : List Node, ns ≠ [] →
    openInItems (toDataOfRow (ofNodes ns)) + 1 = 2 * Node.levels ns
  | [], h => absurd rfl h
  | n :: ns, _ => by
    have hn := openAtOnce_ofNode n
    have hns := openInItems_ofNodes ns
    rw [ofNodes, toDataOfRow, openInItems, hn, Node.levels]
    cases ns with
    | nil =>
      rw [ofNodes, toDataOfRow, openInItems, Node.levels]
      omega
    | cons m ns =>
      have hopen := hns (List.cons_ne_nil _ _)
      omega

end

end Record

namespace Query

theorem openAtOnce_toDocument (q : Query) :
    q.toDocument.toData.openAtOnce = 2 * q.root.height + 2 := by
  rw [Document.openAtOnce_toData]
  exact congrArg (· + 1) (Record.openAtOnce_ofNode q.root)

theorem ofDocument_toDocument (q : Query) : ofDocument q.toDocument = .ok q := by
  unfold ofDocument toDocument
  dsimp only
  rw [Record.toNode_ofNode]
  rfl

/-- Every tree is what its record means, so a query is found again in its stored form, with the same text
and the same tree, and is stored in the same form again. What a query stores is always a root: its parts
are those of the tree that was read from a text and bound, or of the tree of a stored form. -/
theorem ofDocument_restores :
    (∀ n : Node, (Record.ofNode n).toNode = .ok n) ∧
    (∀ q : Query, ∃ r, ofDocument q.toDocument = .ok r ∧ r.text = q.text ∧ r.root = q.root ∧
      r.toDocument = q.toDocument) ∧
    (∀ settings raw q, compile settings raw = .ok q →
      ∃ tree, parse settings.maxNestingDepth.toNat (trimmed raw) = .ok tree ∧
        tree.bindTerms none = .root q.parts) ∧
    ∀ d q, ofDocument d = .ok q → d.text = q.text ∧ d.tree.toNode = .ok (.root q.parts) := by
  refine ⟨Record.toNode_ofNode, fun q => ⟨q, q.ofDocument_toDocument, rfl, rfl, rfl⟩,
    fun settings raw q h => exists_tree_of_compile h, fun d q h => ?_⟩
  unfold ofDocument at h
  cases htree : d.tree.toNode with
  | error m =>
    rw [htree] at h
    cases h
  | ok n =>
    rw [htree] at h
    cases n with
    | root parts =>
      obtain rfl := Except.ok.inj h
      exact ⟨rfl, rfl⟩
    | _ => cases h

theorem ofDocument_restores_title :
    ∃ q r tree, compile Settings.default "TI([a] OR)" = .ok q ∧
      parse 64 (trimmed "TI([a] OR)") = .ok tree ∧ tree.bindTerms none = .root q.parts ∧
      ofDocument q.toDocument = .ok r ∧
      r.root = .root [.group [.term "a" (some .title)] none] := by
  have hread : compile Settings.default "TI([a] OR)" =
      .ok ⟨"TI([a] OR)", [.group [.term "a" (some .title)] none]⟩ := by
    decide +kernel
  obtain ⟨-, hstored, hcompiled, -⟩ := ofDocument_restores
  obtain ⟨tree, hparse, hbound⟩ := hcompiled _ _ _ hread
  obtain ⟨r, hr, -, hroot, -⟩ := hstored ⟨"TI([a] OR)", [.group [.term "a" (some .title)] none]⟩
  exact ⟨_, r, tree, hread, hparse, hbound, hr, hroot⟩

/-- A query is read from its own JSON as long as its tree has no more than 62 levels below the root.
Otherwise the reader refuses the JSON and gives no query at all. -/
theorem ofJson_toJson (q : Query) :
    ofJson q.toJson =
      if q.root.height ≤ 62 then .ok q else .error (.json (.stop .malformed)) := by
  have hopen := q.openAtOnce_toDocument
  unfold ofJson toJson
  rw [Document.read_write, hopen]
  by_cases hlevels : q.root.height ≤ 62
  · have hroom : 2 * q.root.height + 2 ≤ nestingLimit := by
      unfold nestingLimit
      omega
    rw [if_pos hlevels, if_pos hroom]
    change (ofDocument q.toDocument).mapError _ = _
    rw [ofDocument_toDocument]
    rfl
  · have hroom : ¬ 2 * q.root.height + 2 ≤ nestingLimit := by
      unfold nestingLimit
      omega
    rw [if_neg hlevels, if_neg hroom]
    rfl

theorem height_of_compile {settings : Settings} {raw : String} {q : Query}
    (h : compile settings raw = .ok q) :
    q.root.height = levelsAt 0 ((Token.scan (trimmed raw)).map (·.kind)) := by
  obtain ⟨-, ns, row, -, -, rfl⟩ := (compile_eq_ok_iff settings q).mp h
  exact (row.levelsAt_eq none).symm

/-- What a text is compiled to can be stored and restored exactly when no term and no group has more
than 61 groups around it. Beyond that the JSON is refused as malformed. -/
theorem restored_iff (settings : Settings) (raw : String) (q : Query)
    (h : compile settings raw = .ok q) :
    ((∃ r, ofJson q.toJson = .ok r ∧ r.text = q.text ∧ r.root = q.root) ↔
      levelsAt 0 ((Token.scan (trimmed raw)).map (·.kind)) ≤ 62) ∧
    (62 < levelsAt 0 ((Token.scan (trimmed raw)).map (·.kind)) →
      ofJson q.toJson = .error (.json (.stop .malformed))) := by
  rw [← height_of_compile h]
  have hstored := q.ofJson_toJson
  refine ⟨⟨?_, fun hlevels => ?_⟩, fun hlevels => ?_⟩
  · rintro ⟨r, hr, -, -⟩
    by_contra hlevels
    rw [hstored, if_neg hlevels] at hr
    cases hr
  · rw [if_pos hlevels] at hstored
    exact ⟨q, hstored, rfl, rfl⟩
  · rw [hstored, if_neg (Nat.not_le.mpr hlevels)]

theorem restored_iff_title :
    ∃ q r, compile Settings.default "ti([a])" = .ok q ∧ ofJson q.toJson = .ok r ∧
      r.root = .root [.group [.term "a" (some .title)] none] := by
  have hread : compile Settings.default "ti([a])" =
      .ok ⟨"ti([a])", [.group [.term "a" (some .title)] none]⟩ := by
    decide +kernel
  have hlevels : levelsAt 0 ((Token.scan (trimmed "ti([a])")).map (·.kind)) ≤ 62 := by
    decide +kernel
  obtain ⟨r, hr, -, hroot⟩ := (restored_iff Settings.default _ _ hread).1.mpr hlevels
  exact ⟨_, r, hread, hr, hroot⟩

end Query

/-! ## The limit on groups that keeps every query restorable -/

namespace Node

/-- A term in so many groups. -/
def nested : Nat → Node
  | 0 => term "a" none
  | n + 1 => group [nested n] none

theorem isOperand_nested (n : Nat) : (nested n).isOperand = true := by
  cases n <;> rfl

theorem levels_nested (n : Nat) : levels [nested n] = n + 1 := by
  induction n with
  | zero => rfl
  | succ n ih => rw [nested, levels, height, ih, levels, Nat.max_zero]

theorem depthOfRow_nested (n : Nat) : depthOfRow [nested n] = n := by
  induction n with
  | zero => rfl
  | succ n ih => rw [nested, depthOfRow, depth, ih, depthOfRow, Nat.max_zero]

theorem termNodesOfRow_nested (n : Nat) : termNodesOfRow [nested n] = [("a", none)] := by
  induction n with
  | zero => rfl
  | succ n ih => rw [nested, termNodesOfRow, termNodes, ih, termNodesOfRow, List.append_nil]

theorem bindRow_settleRow_nested (n : Nat) :
    bindRow none (settleRow [nested n]) = [nested n] := by
  induction n with
  | zero => rfl
  | succ n ih =>
    rw [settleRow_operand _ _ (isOperand_nested _), settleRow, bindRow, bindRow, nested, settle,
      bindTerms, Option.or_none, ih]

theorem exists_row_nested (n : Nat) : ∃ ks, Row [nested n] ks := by
  induction n with
  | zero => exact ⟨_, Row.term "a" Binding.free Row.nil⟩
  | succ n ih =>
    obtain ⟨ls, body⟩ := ih
    exact ⟨_, Row.group Binding.free body (List.isChain_singleton _) Row.nil⟩

end Node

namespace Query

theorem compile_nested (settings : Settings) (n : Nat) (h : n ≤ settings.maxNestingDepth.toNat) :
    compile settings (Node.root [Node.nested n]).canonical =
      .ok ⟨(Node.root [Node.nested n]).canonical, [Node.nested n]⟩ := by
  have hquery : IsQuery (Token.scan (trimmed "[a]")) := by
    rw [← validate_iff_trimmed]
    decide +kernel
  have hterms : termsOf ((Token.scan (trimmed "[a]")).map (·.kind)) = ["a"] := by decide +kernel
  obtain ⟨ns, row, -⟩ := hquery.derived
  obtain ⟨ks, row'⟩ := Node.exists_row_nested n
  have alt := Alternating.single _ (Node.isOperand_nested n)
  have hvalues : (Node.termNodesOfRow [Node.nested n]).map (·.1) =
      (Node.termNodesOfRow ns).map (·.1) := by
    rw [← row.termsOf_eq, hterms, Node.termNodesOfRow_nested]
    rfl
  have hclosed : ∀ v ∈ (Node.termNodesOfRow [Node.nested n]).map (·.1), ']' ∉ v.toList := by
    intro v hv
    rw [Node.termNodesOfRow_nested] at hv
    obtain rfl : v = "a" := List.mem_singleton.mp hv
    decide
  have hdepth : Node.depthOfRow [Node.nested n] ≤ settings.maxNestingDepth.toNat := by
    rw [Node.depthOfRow_nested]
    exact h
  exact compile_root_canonical settings row' alt hclosed
    (isQuery_canonical hquery row row' alt hvalues hclosed) hdepth (Node.bindRow_settleRow_nested n)

/-- The settings make sure that every query can be restored exactly when they allow for no more than 61
groups that are open at once. -/
theorem always_restored_iff (settings : Settings) :
    (∀ raw q, compile settings raw = .ok q →
      ∃ r, ofJson q.toJson = .ok r ∧ r.text = q.text ∧ r.root = q.root) ↔
      settings.maxNestingDepth.toNat ≤ 61 := by
  constructor
  · intro hall
    by_contra hlimit
    have hread := compile_nested settings 62 (Nat.not_le.mp hlimit)
    obtain ⟨r, hr, -, -⟩ := hall _ _ hread
    have hheight : ¬ (Node.root [Node.nested 62]).height ≤ 62 := by
      rw [Node.height, Node.levels_nested]
      decide
    rw [ofJson_toJson, Query.root, if_neg hheight] at hr
    cases hr
  · intro hlimit raw q hq
    obtain ⟨-, ns, row, -, hdeep, -⟩ := (compile_eq_ok_iff settings q).mp hq
    have hlevels := levelsAt_le_mostOpen 0 ((Token.scan (trimmed raw)).map (·.kind))
    rw [← height_of_compile hq, row.mostOpen_eq] at hlevels
    refine ⟨q, ?_, rfl, rfl⟩
    rw [ofJson_toJson, if_pos (by omega)]

theorem not_always_restored : ¬ ∀ raw q, compile Settings.default raw = .ok q →
    ∃ r, ofJson q.toJson = .ok r ∧ r.text = q.text ∧ r.root = q.root := by
  rw [always_restored_iff]
  decide

end Query
end BooleanSearch
