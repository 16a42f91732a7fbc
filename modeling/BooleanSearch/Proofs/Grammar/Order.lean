import BooleanSearch.Proofs.Grammar

/-!
# Tokens in order are a row

The rules look at the tokens in one line and know how many groups are open. The grammar puts each group
into its place.

* `prefixesLead`: every field code is directly before a term or a group. The scanner sees to that.
* `InOrder`: what the rules say about the tokens that follow, when some groups are open.
* `Closes`, `Resolves`: the tokens finish the row that is open and the rows around it.
* `InOrder.exists_row`, `Row.inOrder`: tokens in order are derived as a row, and a row is in order.
-/

namespace BooleanSearch
set_option autoImplicit false

/-! ## Field codes lead to operands -/

/-- Every field code is directly before a term or a group. -/
def prefixesLead : List Kind → Bool
  | .fieldPrefix _ :: k :: ks => (k.isTerm || k == .opening) && prefixesLead (k :: ks)
  | [.fieldPrefix _] => false
  | _ :: ks => prefixesLead ks
  | [] => true

theorem wordKind_eq_fieldPrefix (run behind : List Char) (code : String)
    (h : wordKind run behind = .fieldPrefix code) :
    behind.head? = some '[' ∨ behind.head? = some '(' := by
  unfold wordKind at h
  split at h
  · cases h
  · dsimp only at h
    split at h
    · next hg =>
      rw [Bool.and_eq_true, Bool.or_eq_true, beq_iff_eq, beq_iff_eq] at hg
      exact hg.1
    · cases h

theorem Tiles.kind_of_head {ps : List Piece} {text : List Char} (h : Tiles ps text)
    (hill : .illegal ∉ kindsOf ps) (hd : text.head? = some '[' ∨ text.head? = some '(') :
    ∃ k ks, kindsOf ps = k :: ks ∧ (k.isTerm || k == .opening) = true := by
  cases h with
  | nil => simp at hd
  | blank c hc rest =>
    rcases hd with hd | hd <;> obtain rfl := Option.some.inj hd <;> exact absurd hc (by decide)
  | @lexeme ps text kind written spelled rest =>
    rw [kindsOf_lexeme] at hill
    refine ⟨kind, kindsOf ps, kindsOf_lexeme _ _ _, ?_⟩
    cases spelled with
    | opening => rfl
    | closing => simp at hd
    | stray => exact absurd List.mem_cons_self hill
    | unclosed => exact absurd List.mem_cons_self hill
    | term => rfl
    | word _ _ hne hw hb =>
      cases written with
      | nil => exact absurd rfl hne
      | cons c run =>
        obtain ⟨-, h1, -, h2, -⟩ := (isWordChar_iff c).mp (hw c List.mem_cons_self)
        rcases hd with hd | hd
        · exact absurd (Option.some.inj hd) h1
        · exact absurd (Option.some.inj hd) h2

theorem Tiles.prefixesLead {ps : List Piece} {text : List Char} (h : Tiles ps text)
    (hill : .illegal ∉ kindsOf ps) : prefixesLead (kindsOf ps) = true := by
  induction h with
  | nil => rfl
  | blank c hc rest ih => exact ih hill
  | @lexeme ps text kind written spelled rest ih =>
    rw [kindsOf_lexeme] at hill ⊢
    have hill' : .illegal ∉ kindsOf ps := fun hm => hill (List.mem_cons_of_mem _ hm)
    cases spelled with
    | opening => exact ih hill'
    | closing => exact ih hill'
    | stray => exact absurd List.mem_cons_self hill
    | unclosed => exact absurd List.mem_cons_self hill
    | term => exact ih hill'
    | word _ _ hne hw hb =>
      rcases wordKind_cases written text with ⟨_, e⟩ | ⟨code, e⟩ | ⟨_, e⟩
      · rw [e]
        exact ih hill'
      · obtain ⟨k, ks, hks, hk⟩ := rest.kind_of_head hill' (wordKind_eq_fieldPrefix _ _ code e)
        have hrest := ih hill'
        rw [hks] at hrest
        rw [e, hks, BooleanSearch.prefixesLead, hk, hrest]
        rfl
      · rw [e]
        exact ih hill'

/-! ## From the rules on order to a row -/

/-- What the rules say about tokens that follow, when `depth` groups are open and the tokens may come
directly after a connector. -/
structure InOrder (depth : Nat) (afterConnector : Bool) (ks : List Kind) : Prop where
  usable : ∀ k ∈ ks, k.IsUsable
  lead : prefixesLead ks = true
  balance : groupsBalance depth ks = true
  nots : Rule.notsFollowAnd false ks = true
  apart : Rule.connectorsApart afterConnector ks = true
  terms : termsAdjoin ks = false

/-- The tokens that close so many groups, each followed by the rest of the row around it. -/
inductive Closes : Nat → List Kind → Prop
  | done : Closes 0 []
  | close {depth : Nat} {ns : List Node} {ls rest : List Kind} (row : Row ns ls)
      (chain : ns.IsChain Node.MayPrecede) (more : Closes depth rest) :
      Closes (depth + 1) (.closing :: (ls ++ rest))

def Resolves (depth : Nat) (ks : List Kind) : Prop :=
  ∃ ns ls rest, ks = ls ++ rest ∧ Row ns ls ∧ ns.IsChain Node.MayPrecede ∧ Closes depth rest

theorem prefixesLead_tail (k : Kind) (ks : List Kind) (h : prefixesLead (k :: ks) = true) :
    prefixesLead ks = true := by
  cases k with
  | fieldPrefix code =>
    cases ks with
    | nil => rfl
    | cons l ls =>
      rw [prefixesLead, Bool.and_eq_true] at h
      exact h.2
  | _ => exact h

theorem termsAdjoin_tail (k : Kind) (ks : List Kind) (h : termsAdjoin (k :: ks) = false) :
    termsAdjoin ks = false := by
  rw [termsAdjoin_cons, Bool.or_eq_false_iff] at h
  exact h.2

theorem Row.mayPrecede_of_term {ns : List Node} {ls : List Kind} (row : Row ns ls)
    (rest : List Kind) (value : String) (field : Option Field)
    (h : termsAdjoin (.term value :: (ls ++ rest)) = false) :
    ∀ m ∈ ns.head?, (Node.term value field).MayPrecede m := by
  intro m hm
  cases m with
  | term w f =>
    cases f with
    | some f => trivial
    | none =>
      have hhead := row.term_head hm
      rw [termsAdjoin_cons, Bool.or_eq_false_iff, List.head?_append, hhead] at h
      exact absurd h.1 (by simp [Kind.isTerm])
  | _ => trivial

theorem Row.mayPrecede_of_connector {ns : List Node} {ls : List Kind} (row : Row ns ls)
    (rest : List Kind) (c : Connector) (h : Rule.connectorsApart true (ls ++ rest) = true) :
    ∀ m ∈ ns.head?, (Node.connector c).MayPrecede m := by
  intro m hm
  cases m with
  | connector d =>
    cases row with
    | nil => simp at hm
    | term => simp at hm
    | group => simp at hm
    | @connector ns ks d' rest' =>
      rw [List.append_assoc] at h
      cases d' with
      | and =>
        cases hks : ks ++ rest with
        | nil => rw [hks] at h; exact absurd h Bool.false_ne_true
        | cons k ls =>
          rw [hks] at h
          cases k with
          | keyword w => cases w <;> exact absurd h Bool.false_ne_true
          | _ => exact absurd h Bool.false_ne_true
      | or => exact absurd h Bool.false_ne_true
      | andNot => exact absurd h Bool.false_ne_true
  | _ => trivial

theorem Resolves.term {depth : Nat} {ks before : List Kind} {field : Option Field}
    (h : Resolves depth ks) (value : String) (binding : Binding field before)
    (hterms : termsAdjoin (.term value :: ks) = false) :
    Resolves depth (before ++ .term value :: ks) := by
  obtain ⟨ns, ls, rest, rfl, row, chain, closes⟩ := h
  refine ⟨_, _, rest, ?_, Row.term value binding row, ?_, closes⟩
  · rw [List.append_assoc, List.cons_append]
  · exact List.isChain_cons.mpr ⟨row.mayPrecede_of_term rest value field hterms, chain⟩

theorem Resolves.group {depth : Nat} {ks before : List Kind} {field : Option Field}
    (h : Resolves (depth + 1) ks) (binding : Binding field before) :
    Resolves depth (before ++ .opening :: ks) := by
  obtain ⟨inside, ls, rest, rfl, body, inner, closes⟩ := h
  cases closes with
  | @close depth ns ms rest row chain more =>
    refine ⟨_, _, rest, ?_, Row.group binding body inner row, ?_, more⟩
    · rw [List.append_assoc, List.cons_append, List.append_assoc, List.cons_append]
    · refine List.isChain_cons.mpr ⟨fun m _ => ?_, chain⟩
      cases m <;> trivial

theorem Resolves.connector {depth : Nat} {ks : List Kind} (h : Resolves depth ks) (c : Connector)
    (hapart : Rule.connectorsApart true ks = true) :
    Resolves depth (c.keywords.map .keyword ++ ks) := by
  obtain ⟨ns, ls, rest, rfl, row, chain, closes⟩ := h
  refine ⟨_, _, rest, ?_, Row.connector c row, ?_, closes⟩
  · rw [List.append_assoc]
  · exact List.isChain_cons.mpr ⟨row.mayPrecede_of_connector rest c hapart, chain⟩

theorem Resolves.close {depth : Nat} {ks : List Kind} (h : Resolves depth ks) :
    Resolves (depth + 1) (.closing :: ks) := by
  obtain ⟨ns, ls, rest, rfl, row, chain, closes⟩ := h
  exact ⟨[], [], _, rfl, Row.nil, List.IsChain.nil, Closes.close row chain closes⟩

theorem InOrder.operand {depth : Nat} {before ls : List Kind} {field : Option Field} {k : Kind}
    (h : InOrder depth false (k :: ls)) (binding : Binding field before)
    (hk : (k.isTerm || k == .opening) = true)
    (ih : ∀ depth after, InOrder depth after ls → Resolves depth ls) :
    Resolves depth (before ++ k :: ls) := by
  have husable : ∀ l ∈ ls, l.IsUsable := fun l hl => h.usable l (List.mem_cons_of_mem _ hl)
  have hlead := prefixesLead_tail k ls h.lead
  have hterms := termsAdjoin_tail k ls h.terms
  cases k with
  | term value =>
    have hrest := ih depth false
      ⟨husable, hlead, by cases depth <;> exact h.balance, h.nots, h.apart, hterms⟩
    exact hrest.term value binding h.terms
  | opening =>
    have hrest := ih (depth + 1) false
      ⟨husable, hlead, by cases depth <;> exact h.balance, h.nots, h.apart, hterms⟩
    exact hrest.group binding
  | _ => exact absurd hk Bool.false_ne_true

theorem head_ne_not_of_nots {ks : List Kind} (h : Rule.notsFollowAnd false ks = true) :
    ks.head? ≠ some (.keyword .not) := by
  intro e
  cases ks with
  | nil => simp at e
  | cons k ks =>
    obtain rfl := Option.some.inj e
    exact absurd h Bool.false_ne_true

theorem InOrder.behind_connector {depth : Nat} {after : Bool} {ks : List Kind} (c : Connector)
    (h : InOrder depth after (c.keywords.map .keyword ++ ks))
    (hhead : ks.head? ≠ some (.keyword .not)) : InOrder depth true ks := by
  have hb := h.balance
  have hn := h.nots
  have ha := h.apart
  have ht := h.terms
  rw [groupsBalance_keywords] at hb
  rw [notsFollowAnd_keywords c ks hhead] at hn
  rw [connectorsApart_keywords c after ks hhead, Bool.and_eq_true] at ha
  rw [termsAdjoin_keywords] at ht
  have hl : prefixesLead ks = true := by
    have hl := h.lead
    cases c <;> exact hl
  exact ⟨fun k hk => h.usable k (List.mem_append_right _ hk), hl, hb, hn, ha.2, ht⟩

/-- A keyword in order begins a connector: a `NOT` only stands behind an `AND`. -/
theorem InOrder.keyword {depth : Nat} {after : Bool} {w : Keyword} {ls : List Kind}
    (h : InOrder depth after (.keyword w :: ls)) :
    ∃ c ks, Kind.keyword w :: ls = (Connector.keywords c).map .keyword ++ ks ∧
      ks.length ≤ ls.length ∧ InOrder depth true ks := by
  cases w with
  | not => exact absurd h.nots Bool.false_ne_true
  | or => exact ⟨.or, ls, rfl, Nat.le_refl _, h.behind_connector .or (head_ne_not_of_nots h.nots)⟩
  | and =>
    by_cases hhead : ls.head? = some (.keyword .not)
    · obtain ⟨ks, rfl⟩ : ∃ ks, ls = .keyword .not :: ks := by
        cases ls with
        | nil => simp at hhead
        | cons k ks => exact ⟨ks, by rw [Option.some.inj hhead]⟩
      exact ⟨.andNot, ks, rfl, Nat.le_succ _,
        h.behind_connector .andNot (head_ne_not_of_nots h.nots)⟩
    · exact ⟨.and, ls, rfl, Nat.le_refl _, h.behind_connector .and hhead⟩

/-- Tokens in order finish the row that is open and the rows around it: an induction over the tokens,
with a step for each kind that a row begins with. -/
theorem InOrder.resolves (ks : List Kind) : ∀ (depth : Nat) (after : Bool),
    InOrder depth after ks → Resolves depth ks := by
  induction hn : ks.length using Nat.strong_induction_on generalizing ks with
  | _ n ih =>
    subst hn
    intro depth after h
    cases ks with
    | nil =>
      have hdepth : depth = 0 := by simpa [groupsBalance] using h.balance
      subst hdepth
      exact ⟨[], [], [], rfl, Row.nil, List.IsChain.nil, Closes.done⟩
    | cons k ls =>
      have hless : ls.length < (k :: ls).length := Nat.lt_succ_self _
      have hls := ih ls.length hless ls rfl
      cases k with
      | term value =>
        have hin : InOrder depth false (.term value :: ls) :=
          ⟨h.usable, h.lead, h.balance, h.nots, h.apart, h.terms⟩
        exact hin.operand Binding.free rfl hls
      | opening =>
        have hin : InOrder depth false (.opening :: ls) :=
          ⟨h.usable, h.lead, h.balance, h.nots, h.apart, h.terms⟩
        exact hin.operand Binding.free rfl hls
      | closing =>
        cases depth with
        | zero => exact absurd h.balance Bool.false_ne_true
        | succ depth =>
          have husable : ∀ l ∈ ls, l.IsUsable := fun l hl => h.usable l (List.mem_cons_of_mem _ hl)
          exact (hls depth false ⟨husable, prefixesLead_tail _ ls h.lead, h.balance, h.nots, h.apart,
            termsAdjoin_tail _ ls h.terms⟩).close
      | word text => exact absurd (h.usable _ List.mem_cons_self) id
      | illegal => exact absurd (h.usable _ List.mem_cons_self) id
      | keyword w =>
        -- `AND NOT` takes two tokens, so the induction is on the length and not on the list
        obtain ⟨c, ks, hks, hlen, hin⟩ := h.keyword
        have hrest := ih ks.length (Nat.lt_of_le_of_lt hlen hless) ks rfl depth true hin
        rw [hks]
        exact hrest.connector c hin.apart
      | fieldPrefix code =>
        obtain ⟨f, hf⟩ := Option.isSome_iff_exists.mp (h.usable _ List.mem_cons_self)
        cases ls with
        | nil => exact absurd h.lead Bool.false_ne_true
        | cons k ls =>
          have hlead := h.lead
          rw [prefixesLead, Bool.and_eq_true] at hlead
          have hin : InOrder depth false (k :: ls) :=
            ⟨fun l hl => h.usable l (List.mem_cons_of_mem _ hl), hlead.2,
              by have hb := h.balance; cases depth <;> exact hb, h.nots, h.apart,
              termsAdjoin_tail _ _ h.terms⟩
          have hbehind := ih ls.length (Nat.lt_of_succ_lt hless) ls rfl
          exact hin.operand (Binding.code code f hf) hlead.1 hbehind

theorem InOrder.exists_row {ks : List Kind} (h : InOrder 0 false ks) :
    ∃ ns, Row ns ks ∧ ns.IsChain Node.MayPrecede := by
  obtain ⟨ns, ls, rest, hsplit, row, chain, closes⟩ := InOrder.resolves ks 0 false h
  cases closes
  rw [List.append_nil] at hsplit
  exact ⟨ns, hsplit ▸ row, chain⟩

theorem Row.inOrder {ns : List Node} {ks : List Kind} (row : Row ns ks)
    (chain : ns.IsChain Node.MayPrecede) :
    groupsBalance 0 ks = true ∧ Rule.notsFollowAnd false ks = true ∧
      Rule.connectorsApart false ks = true ∧ termsAdjoin ks = false := by
  have h1 := row.groupsBalance_append 0 []
  have h2 := row.notsFollowAnd_append [] (by simp)
  have h3 := row.connectorsApart_append chain false [] (by simp) (by simp) fun _ => rfl
  have h4 := row.termsAdjoin_append chain [] rfl rfl
  rw [List.append_nil] at h1 h2 h3 h4
  exact ⟨h1, h2, h3, h4⟩

end BooleanSearch
