import BooleanSearch.Proofs.Node.Settled

/-!
# The levels of a tree

How far the parts of a tree are from its root, and how that is seen on the tokens.

* `Node.height`, `Node.levels`: the longest way down from a node, and the levels that a row makes.
* `levelsAt`: one more than the most groups that are open before a term or a group.
* `Row.levelsAt_eq`: the levels of the tree that is made of a row.
-/

namespace BooleanSearch
set_option autoImplicit false

namespace Node

mutual

/-- The longest way down from a node. -/
def height : Node → Nat
  | root cs | group cs _ => levels cs
  | term _ _ | connector _ => 0

def levels : List Node → Nat
  | [] => 0
  | n :: ns => max (height n + 1) (levels ns)

end

theorem levels_pos (ns : List Node) (h : ns ≠ []) : 0 < levels ns := by
  cases ns with
  | nil => exact absurd rfl h
  | cons n ns =>
    rw [levels]
    omega

mutual

theorem height_bindTerms (outer : Option Field) : ∀ n : Node, (n.bindTerms outer).height = n.height
  | root cs => levels_bindRow outer cs
  | term _ _ => rfl
  | connector _ => rfl
  | group cs own => levels_bindRow (own.or outer) cs

theorem levels_bindRow (outer : Option Field) :
    ∀ ns : List Node, levels (bindRow outer ns) = levels ns
  | [] => rfl
  | n :: ns => by
    rw [bindRow, levels, levels, height_bindTerms outer n, levels_bindRow outer ns]

end

end Node

/-! ## Levels of tokens -/

/-- The level of a token, when `here` groups are open before it. Only terms and groups have one. -/
def Kind.levelAt (here : Nat) : Kind → Nat
  | .term _ | .opening => here + 1
  | _ => 0

/-- The greatest level of a token, when `here` groups are open before all of them. -/
def levelsAt (here : Nat) : List Kind → Nat
  | [] => 0
  | k :: ks => max (k.levelAt here) (levelsAt (k.openAfter here) ks)

/-- The level that so many levels reach when they begin inside `here` groups. -/
def raised (here count : Nat) : Nat := if count = 0 then 0 else here + count

theorem raised_max (here a b : Nat) :
    raised here (max (a + 1) b) = max (here + (a + 1)) (raised here b) := by
  have hne : max (a + 1) b ≠ 0 := by omega
  unfold raised
  rw [if_neg hne]
  by_cases hb : b = 0
  · rw [if_pos hb]
    omega
  · rw [if_neg hb]
    omega

theorem levelsAt_skip (here : Nat) (k : Kind) (ks : List Kind) (h0 : k.levelAt here = 0)
    (hsame : k.openAfter here = here) : levelsAt here (k :: ks) = levelsAt here ks := by
  rw [levelsAt, h0, hsame, Nat.zero_max]

theorem levelsAt_keywords (here : Nat) (ws : List Keyword) (ks : List Kind) :
    levelsAt here (ws.map .keyword ++ ks) = levelsAt here ks := by
  induction ws with
  | nil => rfl
  | cons w ws ih => rw [List.map_cons, List.cons_append, levelsAt_skip here _ _ rfl rfl, ih]

theorem Binding.levelsAt_append {field : Option Field} {before : List Kind}
    (h : Binding field before) (here : Nat) (ks : List Kind) :
    levelsAt here (before ++ ks) = levelsAt here ks := by
  cases h with
  | free => rfl
  | code code f hf => exact levelsAt_skip here _ ks rfl rfl

theorem Row.levelsAt_append {ns : List Node} {ks : List Kind} (row : Row ns ks) (here : Nat)
    (rest : List Kind) : levelsAt here (ks ++ rest) =
      max (raised here (Node.levels (Node.settleRow ns))) (levelsAt here rest) := by
  induction row generalizing here rest with
  | nil => exact (Nat.zero_max _).symm
  | term value binding more ih =>
    have hterm : ∀ ks, levelsAt here (.term value :: ks) = max (here + 1) (levelsAt here ks) :=
      fun ks => rfl
    rw [List.append_assoc, binding.levelsAt_append, List.cons_append, hterm, ih,
      Node.settleRow_operand _ _ rfl, Node.levels, raised_max, Node.settle, Node.height]
    omega
  | @group field before inside ns ls ks binding body chain more ihb ihr =>
    have hinside : ∀ count, max (here + 1) (raised (here + 1) count) = here + (count + 1) := by
      intro count
      unfold raised
      by_cases hc : count = 0
      · rw [if_pos hc]
        omega
      · rw [if_neg hc]
        omega
    have hlevels := hinside (Node.levels (Node.settleRow inside))
    rw [List.append_assoc, binding.levelsAt_append, List.cons_append, levelsAt, Kind.openAfter,
      List.append_assoc, ihb, List.cons_append, levelsAt, Kind.openAfter, Nat.add_sub_cancel, ihr,
      Node.settleRow_operand _ _ rfl, Node.levels, raised_max, Node.settle, Node.height]
    simp only [Kind.levelAt]
    omega
  | @connector ns ks c more ih =>
    rw [List.append_assoc, levelsAt_keywords, ih]
    by_cases hns : Node.settleRow ns = []
    · rw [Node.settleRow_open c ns hns, hns]
    · have hpos := Node.levels_pos _ hns
      have hlevels : Node.levels (.connector c :: Node.settleRow ns) =
          Node.levels (Node.settleRow ns) := by
        rw [Node.levels, Node.height]
        omega
      rw [Node.settleRow_connector c ns hns, hlevels]

theorem Row.levelsAt_eq {ns : List Node} {ks : List Kind} (row : Row ns ks) (outer : Option Field) :
    levelsAt 0 ks = (Node.root (Node.bindRow outer (Node.settleRow ns))).height := by
  have hrow := row.levelsAt_append 0 []
  rw [List.append_nil, levelsAt, Nat.max_zero] at hrow
  rw [hrow, Node.height, Node.levels_bindRow]
  unfold raised
  by_cases hzero : Node.levels (Node.settleRow ns) = 0
  · rw [if_pos hzero, hzero]
  · rw [if_neg hzero, Nat.zero_add]

theorem levelsAt_le_mostOpen (here : Nat) (ks : List Kind) :
    levelsAt here ks ≤ mostOpen here ks + 1 := by
  induction ks generalizing here with
  | nil => exact Nat.zero_le _
  | cons k ks ih =>
    have hks := ih (k.openAfter here)
    have hk : k.levelAt here ≤ here + 1 := by
      cases k with
      | term _ | opening => exact Nat.le_refl _
      | _ => exact Nat.zero_le _
    rw [levelsAt, mostOpen]
    omega

end BooleanSearch
