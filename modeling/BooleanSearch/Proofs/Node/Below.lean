import BooleanSearch.Proofs.Grammar.Recognition
import BooleanSearch.Proofs.Node.Settled

/-!
# What stands below a node

The nodes of a tree in a row, and what they are when the tree is made of a row of tokens.

* `Node.nodesBelow`, `Node.nodesOfRow`: the nodes below a node, and those of a row.
* `Node.termNodesOfRow_eq`: the terms of a row are its nodes that are terms.
* `Node.Joined`: a row in which every connector leads to an operand and bare terms are apart.
* `Node.Seated`: what a node below a root may be. There is no other root, and a group has no field and
  holds a row that is joined.
* `Row.seated`: the nodes of a row that is settled and bound are seated.
-/

namespace BooleanSearch
set_option autoImplicit false

namespace Node

/-! ## The nodes of a tree -/

mutual

/-- The nodes below a node, each before the nodes below it. -/
def nodesBelow : Node → List Node
  | root cs | group cs _ => nodesOfRow cs
  | term _ _ | connector _ => []

/-- The parts of a row, each before the nodes below it. -/
def nodesOfRow : List Node → List Node
  | [] => []
  | n :: ns => n :: (n.nodesBelow ++ nodesOfRow ns)

end

theorem forall_mem_nodesOfRow_cons (p : Node → Prop) (n : Node) (ns : List Node) :
    (∀ m ∈ nodesOfRow (n :: ns), p m) ↔
      p n ∧ (∀ m ∈ n.nodesBelow, p m) ∧ ∀ m ∈ nodesOfRow ns, p m := by
  rw [nodesOfRow, List.forall_mem_cons, List.forall_mem_append]

/-- The text and the field of a node that is a term. -/
def asTerm? : Node → Option (String × Option Field)
  | term v f => some (v, f)
  | _ => none

mutual

theorem termNodes_eq : ∀ n : Node, n.termNodes = (n :: n.nodesBelow).filterMap asTerm?
  | root cs => termNodesOfRow_eq cs
  | term _ _ => rfl
  | connector _ => rfl
  | group cs _ => termNodesOfRow_eq cs

theorem termNodesOfRow_eq : ∀ ns : List Node, termNodesOfRow ns = (nodesOfRow ns).filterMap asTerm?
  | [] => rfl
  | n :: ns => by
    rw [termNodesOfRow, nodesOfRow, ← List.cons_append, List.filterMap_append, termNodes_eq n,
      termNodesOfRow_eq ns]

end

/-! ## Rows in groups -/

/-- Every connector of a row has an operand directly behind it, and a term directly behind another one
has a field. -/
structure Joined (row : List Node) : Prop where
  leads : ∀ before c behind, row = before ++ connector c :: behind →
    ∃ n ∈ behind.head?, n.isOperand = true
  apart : ∀ before v f w g behind, row = before ++ term v f :: term w g :: behind → g ≠ none

theorem Joined.of_isChain {row : List Node} (chain : row.IsChain MayPrecede)
    (hroot : ∀ cs, root cs ∉ row) (hlast : ∀ c, row.getLast? ≠ some (connector c)) :
    Joined row := by
  constructor
  · rintro before c behind rfl
    have hrest := (List.isChain_append.mp chain).2.1
    cases behind with
    | nil => exact absurd List.getLast?_concat (hlast c)
    | cons n behind =>
      refine ⟨n, rfl, ?_⟩
      have hn := (List.isChain_cons_cons.mp hrest).1
      cases n with
      | root cs => exact absurd (by simp) (hroot cs)
      | connector d => exact absurd hn id
      | term | group => rfl
  · rintro before v f w g behind rfl hg
    have hrest := (List.isChain_append.mp chain).2.1
    subst hg
    exact (List.isChain_cons_cons.mp hrest).1

/-- A row that is settled does not end with a connector. -/
theorem getLast?_settleRow (ns : List Node) (c : Connector) :
    (settleRow ns).getLast? ≠ some (connector c) := by
  induction ns with
  | nil => exact nofun
  | cons n ns ih =>
    rcases settleRow_cons_cases n ns with hrow | ⟨-, -, hrow⟩
    · rw [hrow]
      cases hns : settleRow ns with
      | cons m ms =>
        rw [List.getLast?_cons_cons, ← hns]
        exact ih
      | nil =>
        -- a connector before nothing would have been left out
        intro hlast
        have hn : n.settle = connector c := by simpa using hlast
        cases n with
        | connector d => rw [settleRow_open d ns hns] at hrow; cases hrow
        | _ => cases hn
    · rw [hrow]
      exact nofun

theorem getLast?_bindRow (outer : Option Field) (ns : List Node)
    (h : ∀ c, ns.getLast? ≠ some (connector c)) (c : Connector) :
    (bindRow outer ns).getLast? ≠ some (connector c) := by
  rw [bindRow_eq_map, List.getLast?_map]
  intro hlast
  obtain ⟨n, hn, hbound⟩ := Option.map_eq_some_iff.mp hlast
  cases n with
  | connector d => exact h d hn
  | _ => cases hbound

/-! ## Nodes below a root -/

/-- What a node below a root may be: a term, a connector, or a group without a field whose row is
joined. -/
def Seated : Node → Prop
  | root _ => False
  | term _ _ | connector _ => True
  | group cs f => f = none ∧ Joined cs

end Node

theorem Row.joined {ns : List Node} {ks : List Kind} (row : Row ns ks)
    (chain : ns.IsChain Node.MayPrecede) (outer : Option Field) :
    Node.Joined (Node.bindRow outer (Node.settleRow ns)) := by
  obtain ⟨_, settled⟩ := row.exists_settle
  obtain ⟨_, bound⟩ := settled.exists_bind outer
  exact Node.Joined.of_isChain (Node.isChain_bindRow outer (Node.isChain_settleRow chain))
    bound.no_root (Node.getLast?_bindRow outer _ (Node.getLast?_settleRow ns))

/-- The nodes of a row that is settled and bound are seated, whatever holds around it. The induction is
on the derivation, which keeps the order inside every group. -/
theorem Row.seated {ns : List Node} {ks : List Kind} (row : Row ns ks) (outer : Option Field) :
    ∀ n ∈ Node.nodesOfRow (Node.bindRow outer (Node.settleRow ns)), n.Seated := by
  induction row generalizing outer with
  | nil => exact nofun
  | term value binding more ih =>
    rw [Node.settleRow_operand _ _ rfl, Node.bindRow, Node.forall_mem_nodesOfRow_cons]
    exact ⟨trivial, nofun, ih outer⟩
  | @group field before inside ns ls ks binding body chain more ihb ihr =>
    rw [Node.settleRow_operand _ _ rfl, Node.bindRow, Node.forall_mem_nodesOfRow_cons]
    exact ⟨⟨rfl, body.joined chain _⟩, ihb _, ihr outer⟩
  | @connector ns ks c more ih =>
    by_cases hns : Node.settleRow ns = []
    · rw [Node.settleRow_open c ns hns]
      exact nofun
    · rw [Node.settleRow_connector c ns hns, Node.bindRow, Node.forall_mem_nodesOfRow_cons]
      exact ⟨trivial, nofun, ih outer⟩

end BooleanSearch
