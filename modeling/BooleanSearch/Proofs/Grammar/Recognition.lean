import BooleanSearch.Proofs.Grammar.Order
import BooleanSearch.Proofs.Token.Blanks
import BooleanSearch.Validation

/-!
# The rules recognize the grammar

A text keeps every rule exactly when its tokens are those of a query.

* `IsQuery tokens`: the tokens are derived by the grammar, with a term among them, no keyword touching
  a term, and a term rule that is kept.
* `alternating_iff`: the rule on the places of connectors.
* `isQuery_of_rules`, `rules_of_isQuery`: the rules on a text and its tokens.
* `IsQuery.of_terms`, `isQuery_scan_trimmed`: what decides besides the derivation, and that the blanks
  around a text do not.
* `validate_iff_isQuery`: the language of validation.
-/

namespace BooleanSearch
set_option autoImplicit false

/-! ## The tokens of a query -/

/-- A keyword and a term, in either order, with nothing between them. -/
def Token.Clash (a b : Token) : Prop :=
  ((a.kind.isKeyword = true ∧ b.kind.isTerm = true) ∨
    (a.kind.isTerm = true ∧ b.kind.isKeyword = true)) ∧ a.span.stop = b.span.start

/-- The tokens of a query: derived by the grammar, and what the grammar does not say. -/
structure IsQuery (tokens : List Token) : Prop where
  derived : ∃ parts, Row parts (tokens.map (·.kind)) ∧ Alternating parts
  hasTerm : ∃ t ∈ tokens, t.kind.isTerm = true
  apart : tokens.IsChain fun a b => ¬ a.Clash b
  terms : ∀ t ∈ tokens, ∀ value, t.kind = .term value →
    '[' ∉ value.toList ∧ Rule.term value = .ok ()

theorem glued_iff (a b : Token) : Rule.glued a b = true ↔ a.Clash b := by
  simp [Rule.glued, Token.Clash, Span.touches]

theorem hasGlued_eq_false_iff (tokens : List Token) :
    Rule.hasGlued tokens = false ↔ tokens.IsChain fun a b => ¬ a.Clash b := by
  induction tokens with
  | nil => simp [Rule.hasGlued]
  | cons a tokens ih =>
    cases tokens with
    | nil => simp [Rule.hasGlued]
    | cons b tokens =>
      rw [Rule.hasGlued, Bool.or_eq_false_iff, ih, List.isChain_cons_cons, ← glued_iff,
        Bool.not_eq_true]

/-! ## Operands and connectors take turns -/

theorem Row.no_root {ns : List Node} {ks : List Kind} (h : Row ns ks) (children : List Node) :
    Node.root children ∉ ns := by
  induction h with
  | nil => simp
  | _ => simp_all

theorem Node.isOperand_of_role {n : Node} (hroot : ∀ children, n ≠ .root children)
    (h : n.role ≠ .connector) : n.isOperand = true := by
  cases n with
  | root children => exact absurd rfl (hroot children)
  | connector c => exact absurd rfl h
  | _ => rfl

theorem Node.eq_connector_of_role {n : Node} (h : n.role ≠ .operand) : ∃ c, n = .connector c := by
  cases n with
  | connector c => exact ⟨c, rfl⟩
  | _ => exact absurd rfl h

theorem Node.role_of_isOperand {n : Node} (h : n.isOperand = true) : n.role = .operand := by
  cases n with
  | root | connector => exact absurd h Bool.false_ne_true
  | _ => rfl

def TakesTurns (rs : List Rule.Role) : Prop :=
  rs.head? ≠ some .connector ∧ rs.getLast? ≠ some .connector ∧ Rule.sameNeighbours? rs = none

theorem connectorPlacement_iff (tokens : List Token) :
    Rule.connectorPlacement tokens = .ok () ↔
      TakesTurns (Rule.roles 0 (tokens.map (·.kind))) := by
  unfold Rule.connectorPlacement TakesTurns
  dsimp only
  split
  · next h => simp [beq_iff_eq.mp h]
  · next h =>
    split
    · next h' => simp [beq_iff_eq.mp h']
    · next h' =>
      rw [beq_iff_eq] at h h'
      split
      · next v hv => simp [hv]
      · next hv => simp [h, h', hv]

theorem Alternating.takesTurns {ns : List Node} (h : Alternating ns) :
    TakesTurns (ns.map Node.role) := by
  induction h with
  | single n hn =>
    rw [List.map_singleton, Node.role_of_isOperand hn]
    exact ⟨by simp, by simp, rfl⟩
  | @more ns n c hn rest ih =>
    obtain ⟨h1, h2, h3⟩ := ih
    rw [List.map_cons, List.map_cons, Node.role_of_isOperand hn]
    cases hms : ns.map Node.role with
    | nil => exact absurd (List.map_eq_nil_iff.mp hms) rest.ne_nil
    | cons r rs =>
      rw [hms] at h1 h2 h3
      cases r with
      | connector => exact absurd rfl h1
      | operand => exact ⟨by simp, by simpa using h2, h3⟩

theorem alternating_of_takesTurns : ∀ (ns : List Node), (∀ children, Node.root children ∉ ns) →
    ns ≠ [] → TakesTurns (ns.map Node.role) → Alternating ns
  | [], _, hne, _ => absurd rfl hne
  | [n], hroot, _, h => by
    refine Alternating.single n (Node.isOperand_of_role (fun children e => ?_) fun e => ?_)
    · exact hroot children (e ▸ List.mem_cons_self)
    · exact h.1 (by rw [List.map_singleton, e]; rfl)
  | n :: m :: ns, hroot, _, h => by
    obtain ⟨h1, h2, h3⟩ := h
    have hn : n.isOperand = true := by
      refine Node.isOperand_of_role (fun children e => ?_) fun e => ?_
      · exact hroot children (e ▸ List.mem_cons_self)
      · exact h1 (by rw [List.map_cons, e]; rfl)
    rw [List.map_cons, List.map_cons, Node.role_of_isOperand hn] at h2 h3
    obtain ⟨c, rfl⟩ : ∃ c, m = .connector c := by
      refine Node.eq_connector_of_role fun e => ?_
      rw [e] at h3
      exact absurd h3 (by simp [Rule.sameNeighbours?])
    cases ns with
    | nil => exact absurd rfl h2
    | cons k ns =>
      refine Alternating.more n c hn (alternating_of_takesTurns (k :: ns) ?_ (by simp) ?_)
      · intro children hm
        exact hroot children (List.mem_cons_of_mem _ (List.mem_cons_of_mem _ hm))
      · refine ⟨fun e => ?_, by simpa using h2, ?_⟩
        · rw [List.map_cons] at e h3
          have hk : k.role = .connector := Option.some.inj e
          rw [hk] at h3
          exact absurd h3 (by simp [Node.role, Rule.sameNeighbours?])
        · cases hk : k.role with
          | connector =>
            rw [List.map_cons, hk] at h3
            exact absurd h3 (by simp [Node.role, Rule.sameNeighbours?])
          | operand =>
            rw [List.map_cons, hk] at h3 ⊢
            exact h3

theorem alternating_iff {ns : List Node} {ks : List Kind} (h : Row ns ks) (hne : ns ≠ []) :
    Alternating ns ↔ TakesTurns (Rule.roles 0 ks) := by
  rw [h.roles_outside]
  exact ⟨Alternating.takesTurns, alternating_of_takesTurns ns h.no_root hne⟩

/-! ## The rules, one by one -/

theorem check_bind_ok (a b : Check) : (a >>= fun _ => b) = .ok () ↔ a = .ok () ∧ b = .ok () := by
  cases a with
  | error v => simp [bind, Except.bind]
  | ok u => simp [bind, Except.bind]

theorem validateText_iff (text : List Char) : validateText text = .ok () ↔
    text.all Text.isBlank = false ∧ Rule.bracketsBalance 0 text = true ∧
      Rule.parenthesesBalance false 0 text = true ∧ Rule.hasEmptyBrackets text = false ∧
      Rule.terms text = .ok () ∧ Rule.hasAdjoiningBrackets text = false := by
  simp only [validateText, check_bind_ok, Rule.notEmpty, Rule.balancedBrackets,
    Rule.balancedParentheses, Rule.noEmptyBrackets, Rule.termsSeparated, Check.unless_eq_ok,
    Bool.not_eq_true']

theorem validateTokens_iff (text : List Char) (tokens : List Token) :
    validateTokens text tokens = .ok () ↔
      Rule.hasGlued tokens = false ∧ Rule.bareWords text tokens = .ok () ∧
        Rule.notsFollowAnd false (tokens.map (·.kind)) = true ∧
        Rule.connectorPlacement tokens = .ok () ∧
        Rule.connectorsApart false (tokens.map (·.kind)) = true ∧
        tokens.any (·.kind.isTerm) = true ∧ Rule.knownFields tokens = .ok () := by
  simp only [validateTokens, check_bind_ok, Rule.operatorSpacing, Rule.notPlacement,
    Rule.connectorRuns, Rule.hasTerm, Check.unless_eq_ok, Bool.not_eq_true']

theorem terms_iff (text : List Char) :
    Rule.terms text = .ok () ↔ ∀ value ∈ Rule.bracketed text, Rule.term value = .ok () := by
  unfold Rule.terms
  induction Rule.bracketed text with
  | nil => simp [pure, Except.pure]
  | cons v vs ih =>
    rw [List.forall_mem_cons, ← ih]
    exact check_bind_ok (Rule.term v) _

theorem isUsable_iff (text : List Char) (tokens : List Token) :
    (Rule.bareWords text tokens = .ok () ∧ Rule.knownFields tokens = .ok ()) ↔
      ∀ k ∈ tokens.map (·.kind), k.IsUsable := by
  induction tokens with
  | nil => simp [Rule.bareWords, Rule.knownFields]
  | cons t tokens ih =>
    obtain ⟨kind, span⟩ := t
    rw [List.map_cons, List.forall_mem_cons, ← ih]
    cases kind with
    | word w => simp [Rule.bareWords, Kind.IsUsable]
    | illegal => simp [Rule.bareWords, Kind.IsUsable]
    | fieldPrefix code =>
      have hbare : Rule.bareWords text (⟨.fieldPrefix code, span⟩ :: tokens) =
          Rule.bareWords text tokens := rfl
      rw [hbare, Rule.knownFields]
      by_cases hc : (Field.ofCode? code).isSome = true
      · simp [hc, Kind.IsUsable]
      · simp [hc, Kind.IsUsable]
    | _ => simp [Rule.bareWords, Rule.knownFields, Kind.IsUsable]

/-! ## All rules -/

theorem mem_kinds_term (tokens : List Token) (value : String) :
    value ∈ termsOf (tokens.map (·.kind)) ↔ ∃ t ∈ tokens, t.kind = .term value := by
  rw [mem_termsOf, List.mem_map]

theorem term_ne_empty {value : String} (h : Rule.term value = .ok ()) : value ≠ "" := by
  rintro rfl
  exact absurd h (by simp [Rule.term])

/-- The tokens of a text that keeps the rules are those of a query. Brackets that stand alone are loose
text, so the bracket count says that no term holds a second opening bracket. -/
theorem isQuery_of_rules (text : String) (hchars : validateText text.toList = .ok ())
    (htokens : validateTokens text.toList (Token.scan text) = .ok ()) :
    IsQuery (Token.scan text) := by
  have tiles := tiles_pieces text.toList
  have hkinds : kindsOf (pieces text.toList) = (Token.scan text).map (·.kind) :=
    (kindsIn_eq text).symm
  obtain ⟨-, hbrackets, hgroups, -, hrule, hadjoin⟩ := (validateText_iff _).mp hchars
  obtain ⟨hglued, hbare, hnots, hplaces, hapart, hany, hknown⟩ := (validateTokens_iff _ _).mp htokens
  have husable := (isUsable_iff text.toList (Token.scan text)).mp ⟨hbare, hknown⟩
  have hill : .illegal ∉ kindsOf (pieces text.toList) := by
    rw [hkinds]
    exact fun hm => husable _ hm
  have hlead := tiles.prefixesLead hill
  -- what the rules on characters say about the kinds of the tokens
  rw [bracketsBalance_eq tiles hill, hkinds] at hbrackets
  rw [hasAdjoiningBrackets_eq tiles hill, hkinds] at hadjoin
  rw [parenthesesBalance_eq tiles, hkinds] at hgroups
  rw [terms_iff, bracketed_eq tiles, hkinds] at hrule
  rw [hkinds] at hlead
  obtain ⟨ns, row, chain⟩ :=
    InOrder.exists_row ⟨husable, hlead, hgroups, hnots, hapart, hadjoin⟩
  obtain ⟨t, ht, hterm⟩ := List.any_eq_true.mp hany
  have hne : ns ≠ [] := by
    rintro rfl
    have hk := List.mem_map_of_mem (f := (·.kind)) ht
    cases hks : (Token.scan text).map (·.kind) with
    | nil => rw [hks] at hk; exact absurd hk (by simp)
    | cons k ks => rw [hks] at row; cases row
  refine ⟨⟨ns, row, (alternating_iff row hne).mpr ((connectorPlacement_iff _).mp hplaces)⟩,
    ⟨t, ht, hterm⟩, (hasGlued_eq_false_iff _).mp hglued, fun t ht value hv => ?_⟩
  have hmem := (mem_kinds_term (Token.scan text) value).mpr ⟨t, ht, hv⟩
  rw [Bool.and_eq_true] at hbrackets
  exact ⟨(isPlainTerm_iff value).mp (List.all_eq_true.mp hbrackets.2 value hmem), hrule value hmem⟩

theorem rules_of_isQuery (text : String) (h : IsQuery (Token.scan text)) :
    validateText text.toList = .ok () ∧
      validateTokens text.toList (Token.scan text) = .ok () := by
  have tiles := tiles_pieces text.toList
  have hkinds : kindsOf (pieces text.toList) = (Token.scan text).map (·.kind) :=
    (kindsIn_eq text).symm
  obtain ⟨⟨ns, row, alt⟩, ⟨t, ht, hterm⟩, hapart, hterms⟩ := h
  have hvalue : ∀ value ∈ termsOf (kindsOf (pieces text.toList)),
      '[' ∉ value.toList ∧ Rule.term value = .ok () := by
    intro value hm
    rw [hkinds] at hm
    obtain ⟨t, ht, hv⟩ := (mem_kinds_term _ value).mp hm
    exact hterms t ht value hv
  obtain ⟨hgroups, hnots, hconn, hadjoin⟩ := row.inOrder alt.isChain
  have hill : .illegal ∉ kindsOf (pieces text.toList) := by
    rw [hkinds]
    exact fun hm => row.isUsable _ hm
  have hplaces := (alternating_iff row alt.ne_nil).mp alt
  obtain ⟨hbare, hknown⟩ := (isUsable_iff text.toList (Token.scan text)).mpr row.isUsable
  constructor
  · rw [validateText_iff, parenthesesBalance_eq tiles, bracketsBalance_eq tiles hill,
      hasAdjoiningBrackets_eq tiles hill, terms_iff, bracketed_eq tiles]
    refine ⟨all_isBlank_false tiles ?_, ?_, ?_, ?_, fun v hv => (hvalue v hv).2, ?_⟩
    · rw [hkinds]
      exact List.ne_nil_of_mem (List.mem_map_of_mem ht)
    · rw [Bool.and_eq_true]
      exact ⟨rfl, List.all_eq_true.mpr fun v hv => (isPlainTerm_iff v).mpr (hvalue v hv).1⟩
    · rw [hkinds]
      exact hgroups
    · exact not_hasEmptyBrackets tiles hill fun v hv =>
        ⟨term_ne_empty (hvalue v hv).2, (hvalue v hv).1⟩
    · rw [hkinds]
      exact hadjoin
  · rw [validateTokens_iff]
    exact ⟨(hasGlued_eq_false_iff _).mpr hapart, hbare, hnots,
      (connectorPlacement_iff _).mpr hplaces, hconn, List.any_eq_true.mpr ⟨t, ht, hterm⟩, hknown⟩

/-- Besides the derivation only the terms matter, and that no keyword touches one. -/
theorem IsQuery.of_terms {tokens tokens' : List Token} (h : IsQuery tokens) (parts : List Node)
    (row : Row parts (tokens'.map (·.kind))) (alt : Alternating parts)
    (hterms : termsOf (tokens'.map (·.kind)) = termsOf (tokens.map (·.kind)))
    (hglued : Rule.hasGlued tokens' = false) : IsQuery tokens' := by
  refine ⟨⟨parts, row, alt⟩, ?_, (hasGlued_eq_false_iff _).mp hglued, ?_⟩
  · obtain ⟨⟨kind, span⟩, ht, hterm⟩ := h.hasTerm
    cases kind with
    | term value =>
      have hmem := (mem_kinds_term tokens value).mpr ⟨_, ht, rfl⟩
      rw [← hterms] at hmem
      obtain ⟨t, ht', hv⟩ := (mem_kinds_term tokens' value).mp hmem
      exact ⟨t, ht', by rw [hv]; rfl⟩
    | _ => exact absurd hterm Bool.false_ne_true
  · intro t ht value hv
    have hmem := (mem_kinds_term tokens' value).mpr ⟨t, ht, hv⟩
    rw [hterms] at hmem
    obtain ⟨t', ht', hv'⟩ := (mem_kinds_term tokens value).mp hmem
    exact h.terms t' ht' value hv'

/-! ## The language of validation -/

theorem validate_eq_ok (raw : String) : validate raw = .ok () ↔
    validateText (trimmed raw).toList = .ok () ∧
      validateTokens (trimmed raw).toList (Token.scan (trimmed raw)) = .ok () := by
  unfold validate
  exact check_bind_ok _ _

theorem validate_iff_trimmed (raw : String) :
    validate raw = .ok () ↔ IsQuery (Token.scan (trimmed raw)) := by
  rw [validate_eq_ok]
  exact ⟨fun h => isQuery_of_rules _ h.1 h.2, rules_of_isQuery _⟩

theorem isQuery_scan_trimmed (raw : String) :
    IsQuery (Token.scan (trimmed raw)) ↔ IsQuery (Token.scan raw) := by
  have hkinds : (Token.scan (trimmed raw)).map (·.kind) = (Token.scan raw).map (·.kind) :=
    kindsIn_trimmed raw
  have hglue : .illegal ∉ kindsIn raw →
      Rule.hasGlued (Token.scan (trimmed raw)) = Rule.hasGlued (Token.scan raw) :=
    hasGlued_scan_trimmed raw
  constructor
  · intro h
    obtain ⟨ns, row, alt⟩ := h.derived
    rw [hkinds] at row
    have hsame := hglue fun hm => row.isUsable _ hm
    refine h.of_terms ns row alt (congrArg termsOf hkinds.symm) ?_
    rw [← hsame]
    exact (hasGlued_eq_false_iff _).mpr h.apart
  · intro h
    obtain ⟨ns, row, alt⟩ := h.derived
    have hsame := hglue fun hm => row.isUsable _ hm
    rw [← hkinds] at row
    refine h.of_terms ns row alt (congrArg termsOf hkinds) ?_
    rw [hsame]
    exact (hasGlued_eq_false_iff _).mpr h.apart

/-- Validation accepts one language: the texts whose tokens, with the blanks around them or without,
are derived as a query. -/
theorem validate_iff_isQuery (raw : String) :
    validate raw = .ok () ↔ IsQuery (Token.scan raw) := by
  rw [validate_iff_trimmed, isQuery_scan_trimmed]

end BooleanSearch
