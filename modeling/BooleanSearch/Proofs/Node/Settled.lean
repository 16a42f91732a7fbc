import BooleanSearch.Node.Scope
import BooleanSearch.Proofs.Grammar.Depth

/-!
# Settled trees

A connector at the end of a row has nothing to connect, and the tree of a query leaves it out. Then
every term is bound to the field that holds for it.

* `Node.settle`, `Node.settleRow`: a tree and a row without connectors at the end of a row.
* `Node.bindRow_settleRow_again`: a row that is settled and bound stays as it is when that is done again.
* `Node.depthOfRow_settleRow`, `Node.termNodesOfRow_settleRow` and their neighbours: neither the depth
  of a tree nor its terms are touched.
* `Row.exists_settle`, `Row.exists_bind`, `Alternating.settle`, `Alternating.bind`: such rows are
  derived again.
-/

namespace BooleanSearch
set_option autoImplicit false

namespace Node

mutual

/-- A tree in which no row ends with a connector. -/
def settle : Node → Node
  | root cs => root (settleRow cs)
  | term v f => term v f
  | connector c => connector c
  | group cs f => group (settleRow cs) f

/-- A row without the connectors at its end, and its parts likewise. -/
def settleRow : List Node → List Node
  | [] => []
  | connector c :: ns => if (settleRow ns).isEmpty then [] else connector c :: settleRow ns
  | n :: ns => settle n :: settleRow ns

end

/-! ## One row -/

theorem settleRow_cons (n : Node) (ns : List Node) (h : ∀ c, n ≠ connector c) :
    settleRow (n :: ns) = n.settle :: settleRow ns := by
  rw [settleRow]
  exact h

theorem settleRow_operand (n : Node) (ns : List Node) (h : n.isOperand = true) :
    settleRow (n :: ns) = n.settle :: settleRow ns := by
  apply settleRow_cons
  rintro c rfl
  exact Bool.false_ne_true h

theorem settleRow_connector (c : Connector) (ns : List Node) (h : settleRow ns ≠ []) :
    settleRow (connector c :: ns) = connector c :: settleRow ns := by
  have hempty : (settleRow ns).isEmpty = false := by simpa using h
  rw [settleRow, hempty, if_neg Bool.false_ne_true]

theorem settleRow_open (c : Connector) (ns : List Node) (h : settleRow ns = []) :
    settleRow (connector c :: ns) = [] := by
  rw [settleRow, h]
  rfl

/-- What settling makes of a row that begins with `n`: the connectors at the end are left out, and the
rest begins with what `n` becomes. -/
theorem settleRow_cons_cases (n : Node) (ns : List Node) :
    (settleRow (n :: ns) = n.settle :: settleRow ns) ∨
      (∃ c, n = connector c) ∧ settleRow ns = [] ∧ settleRow (n :: ns) = [] := by
  by_cases hn : ∃ c, n = connector c
  · obtain ⟨c, rfl⟩ := hn
    by_cases hns : settleRow ns = []
    · exact Or.inr ⟨⟨c, rfl⟩, hns, settleRow_open c ns hns⟩
    · exact Or.inl (settleRow_connector c ns hns)
  · exact Or.inl (settleRow_cons n ns fun c hc => hn ⟨c, hc⟩)

/-! ## Doing it again -/

mutual

theorem settle_settle : ∀ n : Node, n.settle.settle = n.settle
  | root cs => congrArg root (settleRow_settleRow cs)
  | term _ _ => rfl
  | connector _ => rfl
  | group cs f => congrArg (group · f) (settleRow_settleRow cs)

theorem settleRow_settleRow : ∀ ns : List Node, settleRow (settleRow ns) = settleRow ns
  | [] => rfl
  | n :: ns => by
    have ihn := settle_settle n
    have ihns := settleRow_settleRow ns
    by_cases hn : ∃ c, n = connector c
    · obtain ⟨c, rfl⟩ := hn
      by_cases hns : settleRow ns = []
      · rw [settleRow_open c ns hns]
        rfl
      · have hagain : settleRow (settleRow ns) ≠ [] := by
          rw [ihns]
          exact hns
        rw [settleRow_connector c ns hns, settleRow_connector c _ hagain, ihns]
    · have hnot : ∀ c, n ≠ connector c := fun c hc => hn ⟨c, hc⟩
      have hsettled : ∀ c, n.settle ≠ connector c := by
        intro c
        cases n with
        | connector d => exact absurd rfl (hnot d)
        | _ => exact Node.noConfusion
      rw [settleRow_cons n ns hnot, settleRow_cons n.settle _ hsettled, ihn, ihns]

end

mutual

theorem settle_bindTerms (outer : Option Field) :
    ∀ n : Node, (n.bindTerms outer).settle = n.settle.bindTerms outer
  | root cs => congrArg root (settleRow_bindRow outer cs)
  | term _ _ => rfl
  | connector _ => rfl
  | group cs own => congrArg (group · none) (settleRow_bindRow (own.or outer) cs)

theorem settleRow_bindRow (outer : Option Field) :
    ∀ ns : List Node, settleRow (bindRow outer ns) = bindRow outer (settleRow ns)
  | [] => rfl
  | n :: ns => by
    have ihn := settle_bindTerms outer n
    have ihns := settleRow_bindRow outer ns
    by_cases hn : ∃ c, n = connector c
    · obtain ⟨c, rfl⟩ := hn
      change settleRow (connector c :: bindRow outer ns) = _
      by_cases hns : settleRow ns = []
      · rw [hns] at ihns
        rw [settleRow_open c ns hns, settleRow_open c _ ihns]
        rfl
      · have hbound : settleRow (bindRow outer ns) ≠ [] := by
          rw [ihns, bindRow_eq_map]
          exact fun e => hns (List.map_eq_nil_iff.mp e)
        rw [settleRow_connector c ns hns, settleRow_connector c _ hbound, ihns]
        rfl
    · have hnot : ∀ c, n ≠ connector c := fun c hc => hn ⟨c, hc⟩
      have hbound : ∀ c, n.bindTerms outer ≠ connector c := by
        intro c
        cases n with
        | connector d => exact absurd rfl (hnot d)
        | _ => exact Node.noConfusion
      rw [settleRow_cons n ns hnot, bindRow, settleRow_cons _ _ hbound, ihn, ihns]
      rfl

end

mutual

theorem bindTerms_bindTerms (outer : Option Field) :
    ∀ n : Node, (n.bindTerms outer).bindTerms none = n.bindTerms outer
  | root cs => congrArg root (bindRow_bindRow outer cs)
  | term v _ => congrArg (term v) Option.or_none
  | connector _ => rfl
  | group cs own => congrArg (group · none) (bindRow_bindRow (own.or outer) cs)

theorem bindRow_bindRow (outer : Option Field) :
    ∀ ns : List Node, bindRow none (bindRow outer ns) = bindRow outer ns
  | [] => rfl
  | n :: ns => by rw [bindRow, bindRow, bindTerms_bindTerms outer n, bindRow_bindRow outer ns]

end

theorem bindRow_settleRow_again (outer : Option Field) (ns : List Node) :
    bindRow none (settleRow (bindRow outer (settleRow ns))) = bindRow outer (settleRow ns) := by
  rw [settleRow_bindRow, settleRow_settleRow, bindRow_bindRow]

/-! ## Depth and terms -/

mutual

theorem depth_settle : ∀ n : Node, n.settle.depth = n.depth
  | root cs => depthOfRow_settleRow cs
  | term _ _ => rfl
  | connector _ => rfl
  | group cs _ => congrArg (· + 1) (depthOfRow_settleRow cs)

theorem depthOfRow_settleRow : ∀ ns : List Node, depthOfRow (settleRow ns) = depthOfRow ns
  | [] => rfl
  | n :: ns => by
    have ihn := depth_settle n
    have ihns := depthOfRow_settleRow ns
    rcases settleRow_cons_cases n ns with hrow | ⟨⟨c, rfl⟩, hempty, hrow⟩
    · rw [hrow, depthOfRow, depthOfRow, ihn, ihns]
    · rw [hempty] at ihns
      rw [hrow, ihns, depthOfRow, depth, Nat.zero_max]

end

mutual

theorem depth_bindTerms (outer : Option Field) : ∀ n : Node, (n.bindTerms outer).depth = n.depth
  | root cs => depthOfRow_bindRow outer cs
  | term _ _ => rfl
  | connector _ => rfl
  | group cs own => congrArg (· + 1) (depthOfRow_bindRow (own.or outer) cs)

theorem depthOfRow_bindRow (outer : Option Field) :
    ∀ ns : List Node, depthOfRow (bindRow outer ns) = depthOfRow ns
  | [] => rfl
  | n :: ns => by
    rw [bindRow, depthOfRow, depthOfRow, depth_bindTerms outer n, depthOfRow_bindRow outer ns]

end

mutual

theorem termNodes_settle : ∀ n : Node, n.settle.termNodes = n.termNodes
  | root cs => termNodesOfRow_settleRow cs
  | term _ _ => rfl
  | connector _ => rfl
  | group cs _ => termNodesOfRow_settleRow cs

theorem termNodesOfRow_settleRow :
    ∀ ns : List Node, termNodesOfRow (settleRow ns) = termNodesOfRow ns
  | [] => rfl
  | n :: ns => by
    have ihn := termNodes_settle n
    have ihns := termNodesOfRow_settleRow ns
    rcases settleRow_cons_cases n ns with hrow | ⟨⟨c, rfl⟩, hempty, hrow⟩
    · rw [hrow, termNodesOfRow, termNodesOfRow, ihn, ihns]
    · rw [hempty] at ihns
      rw [hrow, ihns]
      rfl

end

mutual

theorem values_bindTerms (outer : Option Field) :
    ∀ n : Node, (n.bindTerms outer).termNodes.map (·.1) = n.termNodes.map (·.1)
  | root cs => values_bindRow outer cs
  | term _ _ => rfl
  | connector _ => rfl
  | group cs own => values_bindRow (own.or outer) cs

theorem values_bindRow (outer : Option Field) : ∀ ns : List Node,
    (termNodesOfRow (bindRow outer ns)).map (·.1) = (termNodesOfRow ns).map (·.1)
  | [] => rfl
  | n :: ns => by
    rw [bindRow, termNodesOfRow, termNodesOfRow, List.map_append, List.map_append,
      values_bindTerms outer n, values_bindRow outer ns]

end

/-! ## Neighbours -/

theorem MayPrecede.settle {n m : Node} (h : n.MayPrecede m) : n.settle.MayPrecede m.settle := by
  cases n <;> cases m <;> exact h

theorem MayPrecede.bindTerms {n m : Node} (outer : Option Field) (h : n.MayPrecede m) :
    (n.bindTerms outer).MayPrecede (m.bindTerms outer) := by
  cases n with
  | term v own =>
    cases m with
    | term w own' =>
      cases own' with
      | none => exact absurd h id
      | some f => trivial
    | _ => trivial
  | _ => cases m <;> exact h

theorem head_settleRow (ns : List Node) :
    ∀ m ∈ (settleRow ns).head?, ∃ n ∈ ns.head?, m = n.settle := by
  intro m hm
  cases ns with
  | nil => exact absurd hm (by simp [settleRow])
  | cons n ns =>
    rcases settleRow_cons_cases n ns with hrow | ⟨-, -, hrow⟩
    · rw [hrow] at hm
      exact ⟨n, rfl, (Option.some.inj hm).symm⟩
    · rw [hrow] at hm
      exact absurd hm (by simp)

theorem isChain_settleRow {ns : List Node} (h : ns.IsChain MayPrecede) :
    (settleRow ns).IsChain MayPrecede := by
  induction ns with
  | nil => exact List.IsChain.nil
  | cons n ns ih =>
    obtain ⟨hhead, htail⟩ := List.isChain_cons.mp h
    rcases settleRow_cons_cases n ns with hrow | ⟨-, -, hrow⟩
    · rw [hrow]
      refine List.isChain_cons.mpr ⟨fun m hm => ?_, ih htail⟩
      obtain ⟨m', hm', rfl⟩ := head_settleRow ns m hm
      exact (hhead m' hm').settle
    · rw [hrow]
      exact List.IsChain.nil

theorem isChain_bindRow {ns : List Node} (outer : Option Field) (h : ns.IsChain MayPrecede) :
    (bindRow outer ns).IsChain MayPrecede := by
  rw [bindRow_eq_map, List.isChain_map]
  exact h.imp fun _ _ hnm => hnm.bindTerms outer

theorem isOperand_settle (n : Node) : n.settle.isOperand = n.isOperand := by
  cases n <;> rfl

theorem isOperand_bindTerms (outer : Option Field) (n : Node) :
    (n.bindTerms outer).isOperand = n.isOperand := by
  cases n <;> rfl

end Node

/-! ## Derived again -/

theorem Binding.exists_of_field (field : Option Field) : ∃ before, Binding field before := by
  cases field with
  | none => exact ⟨[], Binding.free⟩
  | some f => exact ⟨_, Binding.code f.code f (Field.ofCode?_code f)⟩

theorem Row.exists_settle {ns : List Node} {ks : List Kind} (row : Row ns ks) :
    ∃ ls, Row (Node.settleRow ns) ls := by
  induction row with
  | nil => exact ⟨[], Row.nil⟩
  | term value binding more ih =>
    obtain ⟨ls, hmore⟩ := ih
    rw [Node.settleRow_operand _ _ rfl]
    exact ⟨_, Row.term value binding hmore⟩
  | group binding body chain more ihb ihr =>
    obtain ⟨_, hbody⟩ := ihb
    obtain ⟨_, hmore⟩ := ihr
    rw [Node.settleRow_operand _ _ rfl]
    exact ⟨_, Row.group binding hbody (Node.isChain_settleRow chain) hmore⟩
  | @connector ns ks c more ih =>
    obtain ⟨ls, hmore⟩ := ih
    by_cases hns : Node.settleRow ns = []
    · rw [Node.settleRow_open c ns hns]
      exact ⟨[], Row.nil⟩
    · rw [Node.settleRow_connector c ns hns]
      exact ⟨_, Row.connector c hmore⟩

theorem Row.exists_bind {ns : List Node} {ks : List Kind} (row : Row ns ks)
    (outer : Option Field) : ∃ ls, Row (Node.bindRow outer ns) ls := by
  induction row generalizing outer with
  | nil => exact ⟨[], Row.nil⟩
  | @term own before ns ks value binding more ih =>
    obtain ⟨_, hmore⟩ := ih outer
    obtain ⟨_, hbinding⟩ := Binding.exists_of_field (own.or outer)
    exact ⟨_, Row.term value hbinding hmore⟩
  | @group own before inside ns ls ks binding body chain more ihb ihr =>
    obtain ⟨_, hbody⟩ := ihb (own.or outer)
    obtain ⟨_, hmore⟩ := ihr outer
    exact ⟨_, Row.group Binding.free hbody (Node.isChain_bindRow _ chain) hmore⟩
  | connector c more ih =>
    obtain ⟨_, hmore⟩ := ih outer
    exact ⟨_, Row.connector c hmore⟩

theorem Alternating.settle {ns : List Node} (h : Alternating ns) :
    Alternating (Node.settleRow ns) := by
  induction h with
  | single n hn =>
    rw [Node.settleRow_operand n [] hn]
    exact Alternating.single _ (n.isOperand_settle.trans hn)
  | more n c hn rest ih =>
    rw [Node.settleRow_operand n _ hn, Node.settleRow_connector c _ ih.ne_nil]
    exact Alternating.more _ c (n.isOperand_settle.trans hn) ih

theorem Alternating.bind {ns : List Node} (h : Alternating ns) (outer : Option Field) :
    Alternating (Node.bindRow outer ns) := by
  induction h with
  | single n hn => exact Alternating.single _ ((n.isOperand_bindTerms outer).trans hn)
  | more n c hn rest ih =>
    exact Alternating.more _ c ((n.isOperand_bindTerms outer).trans hn) ih

end BooleanSearch
