import Mathlib.Data.List.Chain
import BooleanSearch.Node
import BooleanSearch.Proofs.Rule.Characters
import BooleanSearch.Rule.Order

/-!
# The grammar of queries

A query is `operand (connector operand)*`. An operand is a term or a group in parentheses, either with
the code of a known field before it. The inside of a group is any row of operands and connectors in
which no two connectors and no two bare terms come together.

* `Node.MayPrecede`, `Binding`, `Row parts kinds`: the tokens `kinds` are derived as the row `parts`.
  The parts keep the whole derivation: what every group holds and which field stands before it.
* `Alternating`: the rows that make a query.
* `Row.groupsBalance_append` and its neighbours: what each rule on the order of tokens says about a
  row that is derived, whatever follows it.
-/

namespace BooleanSearch
set_option autoImplicit false

/-! ## Rows -/

def Node.isOperand : Node → Bool
  | .term _ _ | .group _ _ => true
  | .root _ | .connector _ => false

/-- Inside a group one part may come directly before another, unless both are connectors or both are
terms and the second has no field of its own. -/
def Node.MayPrecede : Node → Node → Prop
  | .connector _, .connector _ => False
  | .term _ _, .term _ none => False
  | _, _ => True

/-- The tokens that bind an operand to a field, or leave it without one. -/
inductive Binding : Option Field → List Kind → Prop
  | free : Binding none []
  | code (code : String) (f : Field) (h : Field.ofCode? code = some f) :
      Binding (some f) [.fieldPrefix code]

/-- The tokens of a row of operands and connectors. -/
inductive Row : List Node → List Kind → Prop
  | nil : Row [] []
  | term {field : Option Field} {before : List Kind} {ns : List Node} {ks : List Kind}
      (value : String) (binding : Binding field before) (rest : Row ns ks) :
      Row (.term value field :: ns) (before ++ .term value :: ks)
  | group {field : Option Field} {before : List Kind} {inside ns : List Node} {ls ks : List Kind}
      (binding : Binding field before) (body : Row inside ls)
      (chain : inside.IsChain Node.MayPrecede) (rest : Row ns ks) :
      Row (.group inside field :: ns) (before ++ .opening :: (ls ++ .closing :: ks))
  | connector {ns : List Node} {ks : List Kind} (c : Connector) (rest : Row ns ks) :
      Row (.connector c :: ns) (c.keywords.map .keyword ++ ks)

/-- The rows that are queries: an operand, and then a connector and an operand any number of times. -/
inductive Alternating : List Node → Prop
  | single (n : Node) (h : n.isOperand = true) : Alternating [n]
  | more {ns : List Node} (n : Node) (c : Connector) (h : n.isOperand = true)
      (rest : Alternating ns) : Alternating (n :: .connector c :: ns)

theorem Alternating.ne_nil {ns : List Node} (h : Alternating ns) : ns ≠ [] := by
  cases h <;> simp

theorem Alternating.head_isOperand {ns : List Node} (h : Alternating ns) :
    ∀ n ∈ ns.head?, n.isOperand = true := by
  intro n hn
  cases h with
  | single m hm => obtain rfl := Option.some.inj hn; exact hm
  | more m c hm rest => obtain rfl := Option.some.inj hn; exact hm

theorem Alternating.isChain {ns : List Node} (h : Alternating ns) :
    ns.IsChain Node.MayPrecede := by
  induction h with
  | single n hn => exact List.IsChain.singleton n
  | more n c hn rest ih =>
    rw [List.isChain_cons, List.isChain_cons]
    refine ⟨fun m hm => ?_, fun m hm => ?_, ih⟩
    · obtain rfl := Option.some.inj hm
      cases n <;> trivial
    · have hop := rest.head_isOperand m hm
      cases m with
      | term | group => trivial
      | root | connector => exact absurd hop Bool.false_ne_true

/-! ## The tokens of a row -/

theorem Binding.mem_eq {field : Option Field} {before : List Kind} (h : Binding field before)
    {k : Kind} (hk : k ∈ before) :
    ∃ code, k = .fieldPrefix code ∧ (Field.ofCode? code).isSome = true := by
  cases h with
  | free => simp at hk
  | code code f h => exact ⟨code, by simpa using hk, by rw [h]; rfl⟩

/-- What may be a token of a row: no loose text, and no field that is not known. -/
def Kind.IsUsable : Kind → Prop
  | .word _ | .illegal => False
  | .fieldPrefix code => (Field.ofCode? code).isSome = true
  | _ => True

theorem Row.isUsable {ns : List Node} {ks : List Kind} (h : Row ns ks) : ∀ k ∈ ks, k.IsUsable := by
  have hbefore : ∀ {field : Option Field} {before : List Kind}, Binding field before →
      ∀ k ∈ before, k.IsUsable := by
    intro field before hb k hk
    obtain ⟨code, rfl, hcode⟩ := hb.mem_eq hk
    exact hcode
  induction h with
  | nil => simp
  | term value binding rest ih =>
    intro k hk
    rcases List.mem_append.mp hk with hk | hk
    · exact hbefore binding k hk
    · rcases List.mem_cons.mp hk with rfl | hk
      · trivial
      · exact ih k hk
  | group binding body chain rest ihb ihr =>
    intro k hk
    rcases List.mem_append.mp hk with hk | hk
    · exact hbefore binding k hk
    · rcases List.mem_cons.mp hk with rfl | hk
      · trivial
      · rcases List.mem_append.mp hk with hk | hk
        · exact ihb k hk
        · rcases List.mem_cons.mp hk with rfl | hk
          · trivial
          · exact ihr k hk
  | connector c rest ih =>
    intro k hk
    rcases List.mem_append.mp hk with hk | hk
    · obtain ⟨w, -, rfl⟩ := List.mem_map.mp hk
      trivial
    · exact ih k hk

theorem Row.head_ne_not {ns : List Node} {ks : List Kind} (h : Row ns ks) :
    ks.head? ≠ some (.keyword .not) := by
  cases h with
  | nil => simp
  | term value binding rest => cases binding <;> simp
  | group binding body chain rest => cases binding <;> simp
  | connector c rest => cases c <;> simp [Connector.keywords]

theorem Row.head_append_ne_not {ns : List Node} {ks : List Kind} (h : Row ns ks) (rest : List Kind)
    (hr : rest.head? ≠ some (.keyword .not)) : (ks ++ rest).head? ≠ some (.keyword .not) := by
  cases ks with
  | nil => exact hr
  | cons k ks => exact h.head_ne_not

theorem Row.head_term {ns : List Node} {ks : List Kind} (h : Row ns ks)
    (ht : ks.head?.any Kind.isTerm = true) : ∃ value, ns.head? = some (.term value none) := by
  cases h with
  | nil => simp at ht
  | term value binding rest =>
    cases binding with
    | free => exact ⟨value, rfl⟩
    | code => simp [Kind.isTerm] at ht
  | group binding body chain rest => cases binding <;> simp [Kind.isTerm] at ht
  | connector c rest => cases c <;> simp [Connector.keywords, Kind.isTerm] at ht

theorem Row.term_head {ns : List Node} {ks : List Kind} (h : Row ns ks) {value : String}
    (ht : ns.head? = some (.term value none)) : ks.head? = some (.term value) := by
  cases h with
  | nil => simp at ht
  | term value binding rest =>
    cases binding with
    | free => simpa using ht
    | code => simp at ht
  | group binding body chain rest => simp at ht
  | connector c rest => simp at ht

/-! ## Balance -/

theorem Binding.groupsBalance_append {field : Option Field} {before : List Kind}
    (h : Binding field before) (depth : Nat) (ks : List Kind) :
    groupsBalance depth (before ++ ks) = groupsBalance depth ks := by
  cases h with
  | free => rfl
  | code => cases depth <;> rfl

theorem groupsBalance_keywords (ws : List Keyword) (depth : Nat) (ks : List Kind) :
    groupsBalance depth (ws.map .keyword ++ ks) = groupsBalance depth ks := by
  induction ws with
  | nil => rfl
  | cons w ws ih => cases depth <;> exact ih

theorem Row.groupsBalance_append {ns : List Node} {ks : List Kind} (h : Row ns ks) (depth : Nat)
    (rest : List Kind) : groupsBalance depth (ks ++ rest) = groupsBalance depth rest := by
  induction h generalizing depth rest with
  | nil => rfl
  | term value binding more ih =>
    rw [List.append_assoc, binding.groupsBalance_append]
    cases depth <;> exact ih _ _
  | group binding body chain more ihb ihr =>
    rw [List.append_assoc, binding.groupsBalance_append, List.cons_append, groupsBalance,
      List.append_assoc, ihb, List.cons_append, groupsBalance, ihr]
  | connector c more ih => rw [List.append_assoc, groupsBalance_keywords, ih]

/-! ## The order of connectors -/

theorem notsFollowAnd_of_ne (after : Bool) (ks : List Kind)
    (h : ks.head? ≠ some (.keyword .not)) :
    Rule.notsFollowAnd after ks = Rule.notsFollowAnd false ks := by
  cases ks with
  | nil => rfl
  | cons k ks =>
    cases k with
    | keyword w =>
      cases w with
      | not => exact absurd rfl h
      | _ => rfl
    | _ => rfl

theorem notsFollowAnd_keywords (c : Connector) (ks : List Kind)
    (h : ks.head? ≠ some (.keyword .not)) :
    Rule.notsFollowAnd false (c.keywords.map .keyword ++ ks) = Rule.notsFollowAnd false ks := by
  cases c with
  | and => exact notsFollowAnd_of_ne true ks h
  | or => rfl
  | andNot => rfl

theorem connectorsApart_keywords (c : Connector) (after : Bool) (ks : List Kind)
    (h : ks.head? ≠ some (.keyword .not)) :
    Rule.connectorsApart after (c.keywords.map .keyword ++ ks) =
      (!after && Rule.connectorsApart true ks) := by
  cases c with
  | or => rfl
  | andNot => rfl
  | and =>
    cases ks with
    | nil => rfl
    | cons k ks =>
      cases k with
      | keyword w =>
        cases w with
        | not => exact absurd rfl h
        | _ => rfl
      | _ => rfl

theorem Row.notsFollowAnd_append {ns : List Node} {ks : List Kind} (h : Row ns ks)
    (rest : List Kind) (hr : rest.head? ≠ some (.keyword .not)) :
    Rule.notsFollowAnd false (ks ++ rest) = Rule.notsFollowAnd false rest := by
  induction h generalizing rest with
  | nil => rfl
  | term value binding more ih =>
    rw [List.append_assoc]
    cases binding <;> exact ih rest hr
  | @group field before inside ns ls ks binding body chain more ihb ihr =>
    have hclose : (Kind.closing :: (ks ++ rest)).head? ≠ some (.keyword .not) := by simp
    rw [List.append_assoc, List.cons_append, List.append_assoc, List.cons_append]
    have hbody := (ihb _ hclose).trans (ihr rest hr)
    cases binding <;> exact hbody
  | connector c more ih =>
    rw [List.append_assoc, notsFollowAnd_keywords c _ (more.head_append_ne_not rest hr), ih rest hr]

theorem connectorsApart_of_binding {field : Option Field} {before : List Kind}
    (h : Binding field before) (after : Bool) (k : Kind) (ks : List Kind)
    (hk : k.isKeyword = false) :
    Rule.connectorsApart after (before ++ k :: ks) = Rule.connectorsApart false ks := by
  cases h <;> cases k <;> first | rfl | exact absurd hk (by simp [Kind.isKeyword])

theorem Row.connectorsApart_append {ns : List Node} {ks : List Kind} (h : Row ns ks)
    (chain : ns.IsChain Node.MayPrecede) (after : Bool) (rest : List Kind)
    (ha : after = true → ∀ c, ns.head? ≠ some (.connector c))
    (hn : rest.head? ≠ some (.keyword .not))
    (hr : ∀ after, Rule.connectorsApart after rest = true) :
    Rule.connectorsApart after (ks ++ rest) = true := by
  induction h generalizing after rest with
  | nil => exact hr after
  | term value binding more ih =>
    rw [List.append_assoc, List.cons_append, connectorsApart_of_binding binding _ _ _ rfl]
    exact ih (List.isChain_cons.mp chain).2 false rest (by simp) hn hr
  | @group field before inside ns ls ks binding body inner more ihb ihr =>
    rw [List.append_assoc, List.cons_append, connectorsApart_of_binding binding _ _ _ rfl,
      List.append_assoc, List.cons_append]
    have hmore := ihr (List.isChain_cons.mp chain).2 false rest (by simp) hn hr
    exact ihb inner false _ (by simp) (by simp) fun _ => hmore
  | connector c more ih =>
    have hafter : after = false := by
      cases after with
      | false => rfl
      | true => exact absurd rfl (ha rfl c)
    rw [List.append_assoc, connectorsApart_keywords c _ _ (more.head_append_ne_not rest hn), hafter]
    refine ih (List.isChain_cons.mp chain).2 true rest (fun _ d hd => ?_) hn hr
    exact (List.isChain_cons.mp chain).1 _ hd

/-! ## Terms beside each other -/

theorem Binding.termsAdjoin_append {field : Option Field} {before : List Kind}
    (h : Binding field before) (ks : List Kind) :
    termsAdjoin (before ++ ks) = termsAdjoin ks := by
  cases h <;> rfl

theorem termsAdjoin_keywords (ws : List Keyword) (ks : List Kind) :
    termsAdjoin (ws.map .keyword ++ ks) = termsAdjoin ks := by
  induction ws with
  | nil => rfl
  | cons w ws ih => exact ih

theorem Row.termsAdjoin_append {ns : List Node} {ks : List Kind} (h : Row ns ks)
    (chain : ns.IsChain Node.MayPrecede) (rest : List Kind)
    (hn : rest.head?.any Kind.isTerm = false) (hr : termsAdjoin rest = false) :
    termsAdjoin (ks ++ rest) = false := by
  induction h generalizing rest with
  | nil => exact hr
  | @term field before ns ks value binding more ih =>
    have hhead : (ks ++ rest).head?.any Kind.isTerm = false := by
      cases hks : ks with
      | nil => exact hn
      | cons k ls =>
        rw [Bool.eq_false_iff]
        intro ht
        obtain ⟨w, hw⟩ := more.head_term (by rw [hks]; exact ht)
        exact (List.isChain_cons.mp chain).1 _ hw
    rw [List.append_assoc, List.cons_append, binding.termsAdjoin_append, termsAdjoin_cons, hhead,
      ih (List.isChain_cons.mp chain).2 rest hn hr]
    rfl
  | group binding body inner more ihb ihr =>
    rw [List.append_assoc, List.cons_append, binding.termsAdjoin_append, List.append_assoc,
      List.cons_append]
    exact ihb inner _ rfl (ihr (List.isChain_cons.mp chain).2 rest hn hr)
  | connector c more ih =>
    rw [List.append_assoc, termsAdjoin_keywords]
    exact ih (List.isChain_cons.mp chain).2 rest hn hr

/-! ## Operands and connectors outside groups -/

def Node.role : Node → Rule.Role
  | .connector _ => .connector
  | _ => .operand

theorem Binding.roles_append {field : Option Field} {before : List Kind} (h : Binding field before)
    (depth : Nat) (ks : List Kind) : Rule.roles depth (before ++ ks) = Rule.roles depth ks := by
  cases h with
  | free => rfl
  | code => cases depth <;> rfl

theorem roles_keywords_inside (ws : List Keyword) (depth : Nat) (ks : List Kind) :
    Rule.roles (depth + 1) (ws.map .keyword ++ ks) = Rule.roles (depth + 1) ks := by
  induction ws with
  | nil => rfl
  | cons w ws ih => exact ih

theorem roles_keywords (c : Connector) (ks : List Kind) (h : ks.head? ≠ some (.keyword .not)) :
    Rule.roles 0 (c.keywords.map .keyword ++ ks) = .connector :: Rule.roles 0 ks := by
  cases c with
  | or => rfl
  | andNot => rfl
  | and =>
    cases ks with
    | nil => rfl
    | cons k ks =>
      cases k with
      | keyword w =>
        cases w with
        | not => exact absurd rfl h
        | _ => rfl
      | _ => rfl

theorem Row.roles_inside {ns : List Node} {ks : List Kind} (h : Row ns ks) (depth : Nat)
    (rest : List Kind) : Rule.roles (depth + 1) (ks ++ rest) = Rule.roles (depth + 1) rest := by
  induction h generalizing depth rest with
  | nil => rfl
  | term value binding more ih =>
    rw [List.append_assoc, binding.roles_append]
    exact ih depth rest
  | group binding body chain more ihb ihr =>
    rw [List.append_assoc, binding.roles_append, List.cons_append, List.append_assoc]
    exact (ihb (depth + 1) _).trans (ihr depth rest)
  | connector c more ih => rw [List.append_assoc, roles_keywords_inside, ih]

theorem Row.roles_outside {ns : List Node} {ks : List Kind} (h : Row ns ks) :
    Rule.roles 0 ks = ns.map Node.role := by
  induction h with
  | nil => rfl
  | term value binding more ih =>
    rw [binding.roles_append, List.map_cons, ← ih]
    rfl
  | @group field before inside ns ls ks binding body chain more ihb ihr =>
    rw [binding.roles_append, List.map_cons, ← ihr]
    exact congrArg (Rule.Role.operand :: ·) (body.roles_inside 0 (.closing :: ks))
  | connector c more ih =>
    rw [roles_keywords c _ more.head_ne_not, ih]
    rfl

end BooleanSearch
