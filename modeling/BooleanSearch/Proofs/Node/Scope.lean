import Mathlib.Data.List.Infix
import BooleanSearch.Proofs.Node.Below
import BooleanSearch.Proofs.Node.Settled

/-!
# The field that holds at a place of a tree

Binding hands the fields of the groups down to the terms. Seen from a term, the field that holds for it
is found by going up, from one group to the group around it.

* `Node.at?`: the node at a place of a tree. A place is the way to it from the top.
* `Node.around`, `Node.fieldAround`: the nodes around a place, and the field of the nearest group among
  them that has one.
* `Node.BoundAs`, `Node.IsBound`: what binding makes of one node, and of the nodes at all places.
* `Node.isBound_iff`: binding makes that of a tree, and nothing else is that.
* `Node.bindTerms_isBound`: binding, whatever the tree is.
-/

namespace BooleanSearch.Node
set_option autoImplicit false

/-! ## Places -/

/-- The node at a place. The way to it tells, level by level, which of the children to take. -/
def at? : Node → (way : List Nat) → Option Node
  | n, [] => some n
  | n, i :: way => (n.children[i]?).bind fun c => c.at? way

/-- The nodes around a place, the nearest first: they stand where the way to the place begins. -/
def around (tree : Node) (way : List Nat) : List Node :=
  way.inits.dropLast.reverse.filterMap tree.at?

def groupField? : Node → Option Field
  | group _ f => f
  | _ => none

/-- The field of the nearest group around a place that has a field. -/
def fieldAround (tree : Node) (way : List Nat) : Option Field :=
  (tree.around way).findSome? groupField?

theorem at?_cons_eq_some_iff (n m : Node) (i : Nat) (way : List Nat) :
    n.at? (i :: way) = some m ↔ ∃ c, n.children[i]? = some c ∧ c.at? way = some m :=
  Option.bind_eq_some_iff

theorem around_cons {n c : Node} {i : Nat} (h : n.children[i]? = some c) (way : List Nat) :
    n.around (i :: way) = c.around way ++ [n] := by
  have hinside : n.at? ∘ List.cons i = c.at? := by
    funext way
    change (n.children[i]?).bind _ = _
    rw [h]
    rfl
  have hne : way.inits.map (List.cons i) ≠ [] :=
    List.ne_nil_of_mem (List.mem_map_of_mem ((List.mem_inits [] way).mpr List.nil_prefix))
  rw [around, List.inits_cons, List.dropLast_cons_of_ne_nil hne, List.reverse_cons,
    List.filterMap_append, ← List.map_dropLast, ← List.map_reverse, List.filterMap_map, hinside]
  rfl

/-- What holds around a place below a child holds there already, or comes from the node itself. -/
theorem fieldAround_cons {n c : Node} {i : Nat} (h : n.children[i]? = some c) (way : List Nat) :
    n.fieldAround (i :: way) = (c.fieldAround way).or n.groupField? := by
  rw [fieldAround, around_cons h, List.findSome?_append, List.findSome?_singleton]
  rfl

/-! ## Bound trees -/

/-- What binding makes of one node when a field holds around it. The children are only counted. -/
inductive BoundAs (held : Option Field) : Node → Node → Prop
  | root {cs ds : List Node} (h : ds.length = cs.length) : BoundAs held (root cs) (root ds)
  | term (v : String) (own : Option Field) : BoundAs held (term v own) (term v (own.or held))
  | connector (c : Connector) : BoundAs held (connector c) (connector c)
  | group {cs ds : List Node} (own : Option Field) (h : ds.length = cs.length) :
      BoundAs held (group cs own) (group ds none)

/-- At every place of a tree there is a node of the bound tree, and the field that holds around the place
is that of the nearest group with a field, or else `outer`. -/
def IsBound (outer : Option Field) (tree bound : Node) : Prop :=
  ∀ way n, tree.at? way = some n →
    ∃ m, bound.at? way = some m ∧ BoundAs ((tree.fieldAround way).or outer) n m

theorem BoundAs.length_eq {held : Option Field} {n m : Node} (h : BoundAs held n m) :
    m.children.length = n.children.length := by
  cases h with
  | root h => exact h
  | group own h => exact h
  | _ => rfl

/-- A tree is bound when its top is and every child is, with the field of the top around it. -/
theorem isBound_iff_children (outer : Option Field) (n m : Node) : IsBound outer n m ↔
    BoundAs outer n m ∧ List.Forall₂ (IsBound (n.groupField?.or outer)) n.children m.children := by
  constructor
  · intro h
    obtain ⟨m', hm, htop⟩ := h [] n rfl
    obtain rfl : m = m' := Option.some.inj hm
    refine ⟨htop, List.forall₂_iff_get.mpr ⟨htop.length_eq.symm, fun i hi hi' way k hk => ?_⟩⟩
    have hc : n.children[i]? = some n.children[i] := List.getElem?_eq_getElem hi
    have hd : m.children[i]? = some m.children[i] := List.getElem?_eq_getElem hi'
    obtain ⟨l, hl, hbound⟩ := h (i :: way) k ((at?_cons_eq_some_iff n k i way).mpr ⟨_, hc, hk⟩)
    obtain ⟨d, hd', hway⟩ := (at?_cons_eq_some_iff m l i way).mp hl
    obtain rfl : m.children[i] = d := Option.some.inj (hd.symm.trans hd')
    rw [fieldAround_cons hc, Option.or_assoc] at hbound
    exact ⟨l, hway, hbound⟩
  · rintro ⟨htop, hchildren⟩ way k hk
    cases way with
    | nil =>
      obtain rfl : n = k := Option.some.inj hk
      exact ⟨m, rfl, htop⟩
    | cons i way =>
      obtain ⟨c, hc, hway⟩ := (at?_cons_eq_some_iff n k i way).mp hk
      obtain ⟨hi, rfl⟩ := List.getElem?_eq_some_iff.mp hc
      obtain ⟨hlength, hbelow⟩ := List.forall₂_iff_get.mp hchildren
      obtain ⟨l, hl, hbound⟩ := hbelow i hi (hlength ▸ hi) way k hway
      refine ⟨l, (at?_cons_eq_some_iff m l i way).mpr ⟨_, List.getElem?_eq_getElem _, hl⟩, ?_⟩
      rw [fieldAround_cons hc, Option.or_assoc]
      exact hbound

theorem length_bindRow (outer : Option Field) (ns : List Node) :
    (bindRow outer ns).length = ns.length := by
  rw [bindRow_eq_map, List.length_map]

mutual

theorem isBound_iff : ∀ (n : Node) (outer : Option Field) (m : Node),
    IsBound outer n m ↔ m = n.bindTerms outer
  | root cs, outer, m => by
    have hrow := isBoundRow_iff cs outer
    rw [isBound_iff_children]
    constructor
    · rintro ⟨htop, hchildren⟩
      cases htop
      exact congrArg root ((hrow _).mp hchildren)
    · rintro rfl
      exact ⟨.root (length_bindRow outer cs), (hrow _).mpr rfl⟩
  | term v own, outer, m => by
    rw [isBound_iff_children]
    constructor
    · rintro ⟨⟨⟩, -⟩
      rfl
    · rintro rfl
      exact ⟨.term v own, .nil⟩
  | connector c, outer, m => by
    rw [isBound_iff_children]
    constructor
    · rintro ⟨⟨⟩, -⟩
      rfl
    · rintro rfl
      exact ⟨.connector c, .nil⟩
  | group cs own, outer, m => by
    have hrow := isBoundRow_iff cs (own.or outer)
    rw [isBound_iff_children]
    constructor
    · rintro ⟨htop, hchildren⟩
      cases htop
      exact congrArg (group · none) ((hrow _).mp hchildren)
    · rintro rfl
      exact ⟨.group own (length_bindRow _ cs), (hrow _).mpr rfl⟩

theorem isBoundRow_iff : ∀ (ns : List Node) (outer : Option Field) (ms : List Node),
    List.Forall₂ (IsBound outer) ns ms ↔ ms = bindRow outer ns
  | [], outer, ms => List.forall₂_nil_left_iff
  | n :: ns, outer, ms => by
    rw [List.forall₂_cons_left_iff, bindRow]
    constructor
    · rintro ⟨m, rest, hm, hrest, rfl⟩
      rw [(isBound_iff n outer m).mp hm, (isBoundRow_iff ns outer rest).mp hrest]
    · rintro rfl
      exact ⟨_, _, (isBound_iff n outer _).mpr rfl, (isBoundRow_iff ns outer _).mpr rfl, rfl⟩

end

/-! ## Trees that stay as they are -/

mutual

/-- No group of a bound tree has a field. -/
theorem groupField?_bindTerms (outer : Option Field) : ∀ n : Node,
    ∀ m ∈ n.bindTerms outer :: (n.bindTerms outer).nodesBelow, m.groupField? = none
  | root cs => List.forall_mem_cons.mpr ⟨rfl, groupField?_bindRow outer cs⟩
  | term _ _ => List.forall_mem_singleton.mpr rfl
  | connector _ => List.forall_mem_singleton.mpr rfl
  | group cs own => List.forall_mem_cons.mpr ⟨rfl, groupField?_bindRow (own.or outer) cs⟩

theorem groupField?_bindRow (outer : Option Field) : ∀ ns : List Node,
    ∀ m ∈ nodesOfRow (bindRow outer ns), m.groupField? = none
  | [] => nofun
  | n :: ns => by
    obtain ⟨htop, hbelow⟩ := List.forall_mem_cons.mp (groupField?_bindTerms outer n)
    exact (forall_mem_nodesOfRow_cons _ _ _).mpr ⟨htop, hbelow, groupField?_bindRow outer ns⟩

end

mutual

theorem bindTerms_eq_self : ∀ n : Node,
    (∀ m ∈ n :: n.nodesBelow, m.groupField? = none) → n.bindTerms none = n
  | root cs, h => congrArg root (bindRow_eq_self cs (List.forall_mem_cons.mp h).2)
  | term v _, _ => congrArg (term v) Option.or_none
  | connector _, _ => rfl
  | group cs own, h => by
    obtain ⟨hown, hbelow⟩ := List.forall_mem_cons.mp h
    obtain rfl : own = none := hown
    exact congrArg (group · none) (bindRow_eq_self cs hbelow)

theorem bindRow_eq_self : ∀ ns : List Node,
    (∀ m ∈ nodesOfRow ns, m.groupField? = none) → bindRow none ns = ns
  | [], _ => rfl
  | n :: ns, h => by
    obtain ⟨htop, hbelow, hrest⟩ := (forall_mem_nodesOfRow_cons _ _ _).mp h
    have hn := bindTerms_eq_self n (List.forall_mem_cons.mpr ⟨htop, hbelow⟩)
    rw [bindRow, hn, bindRow_eq_self ns hrest]

end

/-- Binding a tree keeps its nodes where they are, with their texts. It takes the field of every group
away, and gives a term without a field the one of the nearest group that has one; no other tree is that.
It leaves a tree as it is exactly when no group has a field, and so it does when it is done again. -/
theorem bindTerms_isBound (tree : Node) :
    (∀ bound, IsBound none tree bound ↔ bound = tree.bindTerms none) ∧
    (tree.bindTerms none = tree ↔ ∀ cs f, group cs f ∈ tree :: tree.nodesBelow → f = none) ∧
    (tree.bindTerms none).bindTerms none = tree.bindTerms none := by
  have hfields : (∀ cs f, group cs f ∈ tree :: tree.nodesBelow → f = none) ↔
      ∀ m ∈ tree :: tree.nodesBelow, m.groupField? = none := by
    constructor
    · intro h m hm
      cases m with
      | group cs f => exact h cs f hm
      | _ => rfl
    · intro h cs f hgroup
      exact h (group cs f) hgroup
  refine ⟨isBound_iff tree none, ?_, bindTerms_bindTerms none tree⟩
  rw [hfields]
  constructor
  · intro h
    rw [← h]
    exact groupField?_bindTerms none tree
  · exact bindTerms_eq_self tree

end BooleanSearch.Node
