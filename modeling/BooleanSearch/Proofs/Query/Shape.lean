import BooleanSearch.Proofs.Node.Below
import BooleanSearch.Proofs.Query.Compile

/-!
# The shape of the tree of a query

* `Query.compile_shape`: the parts of a query take turns, and the rows in its groups are joined.

Outside groups the rules see to it that operands and connectors take turns. In groups they leave more
open: there may be no operand at all, a connector may come first, and operands may stand side by side
as long as two bare terms do not.
-/

namespace BooleanSearch.Query
set_option autoImplicit false

/-- The tree that is read from a text and bound is a root, with no root below it. Operands and
connectors take turns in it, from an operand to an operand. In every group, at any depth, an operand is
directly behind every connector, and a term directly behind another one has a field. -/
theorem compile_shape (settings : Settings) (raw : String) (q : Query)
    (h : compile settings raw = .ok q) :
    (∃ tree, parse settings.maxNestingDepth.toNat (trimmed raw) = .ok tree ∧
      tree.bindTerms none = .root q.parts) ∧
    (∀ cs, Node.root cs ∉ q.root.nodesBelow) ∧
    Alternating q.parts ∧
    ∀ cs f, Node.group cs f ∈ q.root.nodesBelow → Node.Joined cs := by
  have htree := exists_tree_of_compile h
  obtain ⟨-, ns, row, alt, -, rfl⟩ := (compile_eq_ok_iff settings q).mp h
  have hseated := row.seated none
  refine ⟨htree, fun cs hroot => ?_, alt.settle.bind none, fun cs f hgroup => ?_⟩
  · exact hseated _ hroot
  · exact (hseated _ hgroup).2

theorem compile_shape_apart :
    ∃ q, compile Settings.default "(OR [a] ti[b] and (()) or) AND NOT [c]" = .ok q ∧
      Alternating q.parts ∧
      Node.Joined [.connector .or, .term "a" none, .term "b" (some .title), .connector .and,
        .group [.group [] none] none] := by
  have hread : compile Settings.default "(OR [a] ti[b] and (()) or) AND NOT [c]" =
      .ok ⟨"(OR [a] ti[b] and (()) or) AND NOT [c]",
        [.group [.connector .or, .term "a" none, .term "b" (some .title), .connector .and,
            .group [.group [] none] none] none,
          .connector .andNot, .term "c" none]⟩ := by
    decide +kernel
  obtain ⟨-, -, halternating, hjoined⟩ := compile_shape Settings.default _ _ hread
  exact ⟨_, hread, halternating, hjoined _ none List.mem_cons_self⟩

end BooleanSearch.Query
