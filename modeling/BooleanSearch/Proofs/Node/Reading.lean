import BooleanSearch.Node.Builder
import BooleanSearch.Proofs.Node.Settled

/-!
# Reading a row

What the machine that builds trees does with the tokens of a row, and what the limit on nested groups
changes.

* `Builder.Holds b held`: the keywords that wait are those of the connector `held`, if there is one.
* `Builder.Moves`: all that one token can do.
* `LooseRow`: rows that are read although they may break the rules of a query.
* `Builder.run_group`: a group is read when its inside is.
* `LooseRow.run_eq`: a row is read to its end, and every group in it is closed again.
* `LooseRow.readTokens_eq`, `Row.readTokens_eq`: the tree of a row.
* `Builder.run_tooDeep`: a smaller limit refuses the first group beyond it and nothing before.
-/

namespace BooleanSearch
set_option autoImplicit false

/-! ## Keywords that wait -/

def Connector.part (held : Option Connector) : List Node := (held.map Node.connector).toList

/-- The keywords that wait are those of one connector, or there are none. -/
def Builder.Holds (b : Builder) (held : Option Connector) : Prop :=
  b.waiting.map (·.1) = (held.map Connector.keywords).getD []

theorem Builder.join_eq (b : Builder) (held : Option Connector) (h : b.Holds held) :
    b.join = .ok ⟨b.outer, Connector.part held ++ b.row, [], b.field⟩ := by
  obtain ⟨outer, row, waiting, field⟩ := b
  unfold Builder.Holds at h
  cases held with
  | none =>
    have hw : waiting = [] := by simpa using h
    subst hw
    rfl
  | some c =>
    have hw : waiting.map (·.1) = c.keywords := h
    have hne : waiting ≠ [] := by
      rintro rfl
      cases c <;> exact absurd hw (by decide)
    have hempty : waiting.isEmpty = false := by simpa using hne
    rw [Builder.join, hempty, if_neg Bool.false_ne_true]
    dsimp only
    rw [hw, Connector.ofKeywords?_keywords]
    rfl

/-- Before an operand either no keywords wait or those of a connector. -/
theorem Builder.exists_holds_of_join {b b' : Builder} (h : b.join = .ok b') :
    ∃ held, b.Holds held := by
  unfold Builder.join at h
  split at h
  · next hempty =>
    refine ⟨none, ?_⟩
    rw [Builder.Holds, List.isEmpty_iff.mp hempty]
    rfl
  · dsimp only at h
    split at h
    · next c hc => exact ⟨some c, Connector.eq_keywords_of_ofKeywords? hc⟩
    · cases h

/-! ## One step -/

variable {limit : Nat}

theorem Builder.step_term (limit : Nat) (b : Builder) (held : Option Connector) (value : String)
    (span : Span) (h : b.Holds held) : b.step limit ⟨.term value, span⟩ =
      .ok ⟨b.outer, .term value b.field :: (Connector.part held ++ b.row), [], none⟩ := by
  change b.putTerm value = _
  unfold Builder.putTerm
  rw [b.join_eq held h]
  rfl

theorem Builder.openGroup_eq (limit : Nat) (b : Builder) (held : Option Connector) (span : Span)
    (h : b.Holds held) : b.openGroup limit span =
      if limit ≤ b.outer.length then .error ⟨.tooDeep limit, some span⟩
      else .ok ⟨⟨Connector.part held ++ b.row, b.field⟩ :: b.outer, [], [], none⟩ := by
  unfold Builder.openGroup
  rw [b.join_eq held h]
  rfl

theorem Builder.step_opening (limit : Nat) (b : Builder) (held : Option Connector) (span : Span)
    (h : b.Holds held) (hroom : b.outer.length < limit) : b.step limit ⟨.opening, span⟩ =
      .ok ⟨⟨Connector.part held ++ b.row, b.field⟩ :: b.outer, [], [], none⟩ :=
  (b.openGroup_eq limit held span h).trans (if_neg (Nat.not_le.mpr hroom))

theorem Builder.step_closing (limit : Nat) (around : OpenRow) (outer : List OpenRow)
    (row : List Node) (waiting : List (Keyword × Span)) (span : Span) :
    Builder.step limit ⟨around :: outer, row, waiting, none⟩ ⟨.closing, span⟩ =
      .ok ⟨outer, .group row.reverse around.field :: around.before, [], none⟩ := rfl

theorem Builder.step_code (limit : Nat) (outer : List OpenRow) (row : List Node)
    (waiting : List (Keyword × Span)) (code : String) (f : Field) (span : Span)
    (h : Field.ofCode? code = some f) :
    Builder.step limit ⟨outer, row, waiting, none⟩ ⟨.fieldPrefix code, span⟩ =
      .ok ⟨outer, row, waiting, some f⟩ := by
  unfold Builder.step
  dsimp only
  rw [h]

/-- What a token does to a machine that takes it. -/
inductive Builder.Moves (limit : Nat) : Builder → Token → Builder → Prop
  | term (b : Builder) (held : Option Connector) (value : String) (span : Span) (h : b.Holds held) :
      Moves limit b ⟨.term value, span⟩
        ⟨b.outer, .term value b.field :: (Connector.part held ++ b.row), [], none⟩
  | opening (b : Builder) (held : Option Connector) (span : Span) (h : b.Holds held)
      (hroom : b.outer.length < limit) :
      Moves limit b ⟨.opening, span⟩
        ⟨⟨Connector.part held ++ b.row, b.field⟩ :: b.outer, [], [], none⟩
  | closing (around : OpenRow) (outer : List OpenRow) (row : List Node)
      (waiting : List (Keyword × Span)) (span : Span) :
      Moves limit ⟨around :: outer, row, waiting, none⟩ ⟨.closing, span⟩
        ⟨outer, .group row.reverse around.field :: around.before, [], none⟩
  | keyword (outer : List OpenRow) (row : List Node) (waiting : List (Keyword × Span)) (w : Keyword)
      (span : Span) :
      Moves limit ⟨outer, row, waiting, none⟩ ⟨.keyword w, span⟩
        ⟨outer, row, waiting ++ [(w, span)], none⟩
  | code (outer : List OpenRow) (row : List Node) (waiting : List (Keyword × Span)) (code : String)
      (f : Field) (span : Span) (h : Field.ofCode? code = some f) :
      Moves limit ⟨outer, row, waiting, none⟩ ⟨.fieldPrefix code, span⟩ ⟨outer, row, waiting, some f⟩

theorem Builder.moves_of_putTerm {b b' : Builder} {value : String} (span : Span)
    (h : b.putTerm value = .ok b') : b.Moves limit ⟨.term value, span⟩ b' := by
  unfold Builder.putTerm at h
  cases hj : b.join with
  | error fault =>
    rw [hj] at h
    cases h
  | ok joined =>
    obtain ⟨held, hheld⟩ := Builder.exists_holds_of_join hj
    rw [b.join_eq held hheld] at h
    obtain rfl := Except.ok.inj h
    exact Moves.term b held value span hheld

theorem Builder.moves_of_openGroup {b b' : Builder} {span : Span}
    (h : b.openGroup limit span = .ok b') : b.Moves limit ⟨.opening, span⟩ b' := by
  cases hj : b.join with
  | error fault =>
    unfold Builder.openGroup at h
    rw [hj] at h
    cases h
  | ok joined =>
    obtain ⟨held, hheld⟩ := Builder.exists_holds_of_join hj
    rw [b.openGroup_eq limit held span hheld] at h
    split at h
    · cases h
    · next hroom =>
      obtain rfl := Except.ok.inj h
      exact Moves.opening b held span hheld (Nat.not_le.mp hroom)

theorem Builder.moves_of_step {t : Token} {b b' : Builder} (h : b.step limit t = .ok b') :
    b.Moves limit t b' := by
  obtain ⟨kind, span⟩ := t
  obtain ⟨outer, row, waiting, field⟩ := b
  cases kind with
  | term value => exact Builder.moves_of_putTerm span h
  | opening => exact Builder.moves_of_openGroup h
  | closing =>
    cases field with
    | some f => cases h
    | none =>
      cases outer with
      | nil => cases h
      | cons around outer =>
        obtain rfl := Except.ok.inj h
        exact Moves.closing around outer row waiting span
  | keyword w =>
    cases field with
    | some f => cases h
    | none =>
      obtain rfl := Except.ok.inj h
      exact Moves.keyword outer row waiting w span
  | fieldPrefix code =>
    cases field with
    | some f => cases h
    | none =>
      unfold Builder.step at h
      dsimp only at h
      split at h
      · next f hf =>
        obtain rfl := Except.ok.inj h
        exact Moves.code outer row waiting code f span hf
      · cases h
  | word text => cases field <;> cases h
  | illegal => cases field <;> cases h

theorem Builder.run_of_step {t : Token} {b b' : Builder} (ts : List Token)
    (h : b.step limit t = .ok b') : b.run limit (t :: ts) = b'.run limit ts := by
  rw [Builder.run, h]

theorem Binding.run_eq {field : Option Field} {before : List Kind} (binding : Binding field before)
    (ts rest : List Token) (hts : ts.map (·.kind) = before) (outer : List OpenRow) (row : List Node)
    (waiting : List (Keyword × Span)) :
    Builder.run limit ⟨outer, row, waiting, none⟩ (ts ++ rest) =
      Builder.run limit ⟨outer, row, waiting, field⟩ rest := by
  cases binding with
  | free =>
    rw [List.map_eq_nil_iff.mp hts]
    rfl
  | code code f hcode =>
    obtain ⟨⟨kind, span⟩, rfl, hkind⟩ := List.map_eq_singleton_iff.mp hts
    obtain rfl : kind = .fieldPrefix code := hkind
    exact Builder.run_of_step rest (Builder.step_code _ outer row waiting code f span hcode)

theorem Builder.run_keywords (limit : Nat) (ws : List Keyword) (ts rest : List Token)
    (hts : ts.map (·.kind) = ws.map .keyword) (outer : List OpenRow) (row : List Node)
    (waiting : List (Keyword × Span)) :
    ∃ more, more.map (·.1) = ws ∧ Builder.run limit ⟨outer, row, waiting, none⟩ (ts ++ rest) =
      Builder.run limit ⟨outer, row, waiting ++ more, none⟩ rest := by
  induction ws generalizing ts waiting with
  | nil =>
    obtain rfl : ts = [] := List.map_eq_nil_iff.mp hts
    exact ⟨[], rfl, by rw [List.append_nil]; rfl⟩
  | cons w ws ih =>
    obtain ⟨⟨kind, span⟩, ts, rfl, hkind, hws⟩ := List.map_eq_cons_iff.mp hts
    obtain rfl : kind = .keyword w := hkind
    obtain ⟨more, hmore, hrun⟩ := ih ts hws (waiting ++ [(w, span)])
    refine ⟨(w, span) :: more, by rw [List.map_cons, hmore], ?_⟩
    rw [List.append_assoc, List.singleton_append] at hrun
    rw [← hrun]
    rfl

/-! ## A whole row -/

/-- Two parts that do not leave a connector without an operand between them. -/
def Node.ConnectorsApart : Node → Node → Prop
  | .connector _, .connector _ => False
  | _, _ => True

theorem Node.MayPrecede.connectorsApart {n m : Node} (h : n.MayPrecede m) : n.ConnectorsApart m := by
  cases n <;> cases m <;> trivial

/-- The tokens of a row as they are read: only connectors must be apart inside a group, and terms need
not be. -/
inductive LooseRow : List Node → List Kind → Prop
  | nil : LooseRow [] []
  | term {field : Option Field} {before : List Kind} {ns : List Node} {ks : List Kind}
      (value : String) (binding : Binding field before) (rest : LooseRow ns ks) :
      LooseRow (.term value field :: ns) (before ++ .term value :: ks)
  | group {field : Option Field} {before : List Kind} {inside ns : List Node} {ls ks : List Kind}
      (binding : Binding field before) (body : LooseRow inside ls)
      (chain : inside.IsChain Node.ConnectorsApart) (rest : LooseRow ns ks) :
      LooseRow (.group inside field :: ns) (before ++ .opening :: (ls ++ .closing :: ks))
  | connector {ns : List Node} {ks : List Kind} (c : Connector) (rest : LooseRow ns ks) :
      LooseRow (.connector c :: ns) (c.keywords.map .keyword ++ ks)

theorem Row.loose {ns : List Node} {ks : List Kind} (row : Row ns ks) : LooseRow ns ks := by
  induction row with
  | nil => exact LooseRow.nil
  | term value binding more ih => exact LooseRow.term value binding ih
  | group binding body chain more ihb ihr =>
    exact LooseRow.group binding ihb (chain.imp fun _ _ h => h.connectorsApart) ihr
  | connector c more ih => exact LooseRow.connector c ih

theorem settleRow_part (held : Option Connector) (n : Node) (ns : List Node)
    (hn : n.isOperand = true) :
    Node.settleRow (Connector.part held ++ n :: ns) =
      Connector.part held ++ n.settle :: Node.settleRow ns := by
  cases held with
  | none => exact Node.settleRow_operand n ns hn
  | some c =>
    have hrow := Node.settleRow_operand n ns hn
    have hne : Node.settleRow (n :: ns) ≠ [] := by
      rw [hrow]
      exact List.cons_ne_nil _ _
    change Node.settleRow (.connector c :: n :: ns) = .connector c :: n.settle :: Node.settleRow ns
    rw [Node.settleRow_connector c _ hne, hrow]

theorem settleRow_part_nil (held : Option Connector) :
    Node.settleRow (Connector.part held) = [] := by
  cases held <;> rfl

theorem part_reverse (held : Option Connector) :
    (Connector.part held).reverse = Connector.part held := by
  cases held <;> rfl

theorem chain_behind {held : Option Connector} {n : Node} {ns : List Node}
    (h : (Connector.part held ++ n :: ns).IsChain Node.ConnectorsApart) :
    ns.IsChain Node.ConnectorsApart := by
  cases held with
  | none => exact (List.isChain_cons.mp h).2
  | some c => exact (List.isChain_cons.mp (List.isChain_cons.mp h).2).2

/-- Where an operand and what is behind it stand in a row that is kept last first. -/
theorem settleRow_part_reverse (held : Option Connector) (n : Node) (ns before : List Node)
    (hn : n.isOperand = true) :
    (Node.settleRow (Connector.part held ++ n :: ns)).reverse ++ before =
      (Node.settleRow ns).reverse ++ n.settle :: (Connector.part held ++ before) := by
  rw [settleRow_part held n ns hn, List.reverse_append, List.reverse_cons, part_reverse,
    List.append_assoc, List.append_assoc, List.singleton_append]

/-- Some tokens with a token of a known kind among them. -/
theorem exists_tokens_at {ts : List Token} {front behind : List Kind} {kind : Kind}
    (hts : ts.map (·.kind) = front ++ kind :: behind) :
    ∃ before span rest, ts = before ++ ⟨kind, span⟩ :: rest ∧
      before.map (·.kind) = front ∧ rest.map (·.kind) = behind := by
  obtain ⟨before, tail, rfl, hbefore, htail⟩ := List.map_eq_append_iff.mp hts
  obtain ⟨⟨_, span⟩, rest, rfl, rfl, hrest⟩ := List.map_eq_cons_iff.mp htail
  exact ⟨before, span, rest, rfl, hbefore, hrest⟩

/-- A group is read when its inside is read as a row of its own. The keywords left at the end of the
inside are dropped. -/
theorem Builder.run_group {outer : List OpenRow} {before inside : List Node}
    {waiting dropped : List (Keyword × Span)} {field : Option Field} {held : Option Connector}
    (hheld : Builder.Holds ⟨outer, before, waiting, none⟩ held) (hroom : outer.length < limit)
    (span last : Span) (body rest : List Token)
    (hbody : Builder.run limit ⟨⟨Connector.part held ++ before, field⟩ :: outer, [], [], none⟩
        (body ++ ⟨.closing, last⟩ :: rest) =
      Builder.run limit
        ⟨⟨Connector.part held ++ before, field⟩ :: outer, inside.reverse, dropped, none⟩
        (⟨.closing, last⟩ :: rest)) :
    Builder.run limit ⟨outer, before, waiting, field⟩
        (⟨.opening, span⟩ :: (body ++ ⟨.closing, last⟩ :: rest)) =
      Builder.run limit ⟨outer, .group inside field :: (Connector.part held ++ before), [], none⟩
        rest := by
  have hopen := Builder.step_opening limit ⟨outer, before, waiting, field⟩ held span hheld hroom
  have hclose := Builder.step_closing limit ⟨Connector.part held ++ before, field⟩ outer
    inside.reverse dropped last
  rw [List.reverse_reverse] at hclose
  rw [Builder.run_of_step _ hopen, hbody, Builder.run_of_step _ hclose]

/-- The tokens of a row put its parts at the end of the row that is being filled, and leave the rows
around it as they are. The induction is on the derivation; a connector is held until its operand. -/
theorem LooseRow.run_eq {ns : List Node} {ks : List Kind} (row : LooseRow ns ks)
    (held : Option Connector) (chain : (Connector.part held ++ ns).IsChain Node.ConnectorsApart)
    (outer : List OpenRow)
    (before : List Node) (waiting : List (Keyword × Span))
    (hheld : Builder.Holds ⟨outer, before, waiting, none⟩ held)
    (hdeep : outer.length + Node.depthOfRow ns ≤ limit) (ts rest : List Token)
    (hts : ts.map (·.kind) = ks) :
    ∃ left, Builder.run limit ⟨outer, before, waiting, none⟩ (ts ++ rest) =
      Builder.run limit
        ⟨outer, (Node.settleRow (Connector.part held ++ ns)).reverse ++ before, left, none⟩ rest := by
  induction row generalizing held outer before waiting ts rest with
  | nil =>
    obtain rfl : ts = [] := List.map_eq_nil_iff.mp hts
    rw [List.append_nil, settleRow_part_nil]
    exact ⟨waiting, rfl⟩
  | @term field bs ns ks value binding more ih =>
    obtain ⟨codes, span, ts, rfl, hcodes, hks⟩ := exists_tokens_at hts
    have hterm := Builder.step_term limit ⟨outer, before, waiting, field⟩ held value span hheld
    have hdeep' : outer.length + Node.depthOfRow ns ≤ limit := by
      rw [Node.depthOfRow] at hdeep
      omega
    obtain ⟨left, hrun⟩ := ih none (chain_behind chain) outer
      (.term value field :: (Connector.part held ++ before)) [] rfl hdeep' ts rest hks
    refine ⟨left, ?_⟩
    rw [List.append_assoc, binding.run_eq codes _ hcodes, List.cons_append,
      Builder.run_of_step _ hterm, settleRow_part_reverse held _ ns before rfl]
    exact hrun
  | @group field bs inside ns ls ks binding body inner more ihb ihr =>
    obtain ⟨codes, span, tail, rfl, hcodes, htail⟩ := exists_tokens_at hts
    obtain ⟨bodies, last, ts, rfl, hbodies, hks⟩ := exists_tokens_at htail
    rw [Node.depthOfRow, Node.depth] at hdeep
    have hinside : (outer.length + 1) + Node.depthOfRow inside ≤ limit := by omega
    obtain ⟨dropped, hbody⟩ := ihb none inner
      (⟨Connector.part held ++ before, field⟩ :: outer) [] [] rfl hinside bodies
      (⟨.closing, last⟩ :: (ts ++ rest)) hbodies
    rw [List.append_nil] at hbody
    have hroom : outer.length < limit := by omega
    have hgroup := Builder.run_group hheld hroom span last bodies (ts ++ rest) hbody
    have hdeep' : outer.length + Node.depthOfRow ns ≤ limit := by omega
    obtain ⟨left, hrun⟩ := ihr none (chain_behind chain) outer
      (.group (Node.settleRow inside) field :: (Connector.part held ++ before)) [] rfl hdeep' ts rest
      hks
    refine ⟨left, ?_⟩
    rw [List.append_assoc, binding.run_eq codes _ hcodes, List.cons_append, List.append_assoc,
      List.cons_append, settleRow_part_reverse held _ ns before rfl]
    exact hgroup.trans hrun
  | @connector ns ks c more ih =>
    obtain ⟨words, ts, rfl, hwords, hks⟩ := List.map_eq_append_iff.mp hts
    cases held with
    | some d => exact absurd (List.isChain_cons_cons.mp chain).1 id
    | none =>
      have hnone : waiting = [] := List.map_eq_nil_iff.mp hheld
      subst hnone
      obtain ⟨words', hw, hrun⟩ := Builder.run_keywords limit c.keywords words (ts ++ rest) hwords outer
        before []
      rw [Node.depthOfRow] at hdeep
      have hdeep' : outer.length + Node.depthOfRow ns ≤ limit := by omega
      obtain ⟨left, hmore⟩ := ih (some c) chain outer before words' hw hdeep' ts rest hks
      refine ⟨left, ?_⟩
      rw [List.append_assoc, hrun]
      exact hmore

theorem LooseRow.run_start {ns : List Node} {ts : List Token}
    (row : LooseRow ns (ts.map (·.kind))) (chain : ns.IsChain Node.ConnectorsApart)
    (hdeep : Node.depthOfRow ns ≤ limit) :
    Builder.start.run limit ts = (.ok (Node.settleRow ns), []) := by
  have hlimit : ([] : List OpenRow).length + Node.depthOfRow ns ≤ limit := by
    rw [List.length_nil, Nat.zero_add]
    exact hdeep
  obtain ⟨left, hrun⟩ := row.run_eq none chain [] [] [] rfl hlimit ts [] rfl
  rw [List.append_nil, List.append_nil] at hrun
  refine hrun.trans ?_
  change (Except.ok (Node.settleRow ns).reverse.reverse, []) = _
  rw [List.reverse_reverse]

theorem LooseRow.readTokens_eq {ns : List Node} {ts : List Token}
    (row : LooseRow ns (ts.map (·.kind))) (chain : ns.IsChain Node.ConnectorsApart)
    (hdeep : Node.depthOfRow ns ≤ limit) :
    Node.readTokens limit ts = (.ok (.root (Node.settleRow ns)), []) := by
  unfold Node.readTokens
  rw [row.run_start chain hdeep]
  rfl

theorem Row.run_start {ns : List Node} {ts : List Token} (row : Row ns (ts.map (·.kind)))
    (chain : ns.IsChain Node.MayPrecede) (hdeep : Node.depthOfRow ns ≤ limit) :
    Builder.start.run limit ts = (.ok (Node.settleRow ns), []) :=
  row.loose.run_start (chain.imp fun _ _ h => h.connectorsApart) hdeep

theorem Row.readTokens_eq {ns : List Node} {ts : List Token} (row : Row ns (ts.map (·.kind)))
    (chain : ns.IsChain Node.MayPrecede) (hdeep : Node.depthOfRow ns ≤ limit) :
    Node.readTokens limit ts = (.ok (.root (Node.settleRow ns)), []) :=
  row.loose.readTokens_eq (chain.imp fun _ _ h => h.connectorsApart) hdeep

/-- The tree of some tokens is the root of the row that the machine is left with. -/
theorem Node.exists_run_of_ofTokens {tokens : List Token} {tree : Node}
    (h : Node.ofTokens limit tokens = .ok tree) :
    ∃ parts, (Builder.start.run limit tokens).1 = .ok parts ∧ tree = .root parts := by
  unfold Node.ofTokens Node.readTokens at h
  dsimp only at h
  cases hrun : (Builder.start.run limit tokens).1 with
  | error fault =>
    rw [hrun] at h
    cases h
  | ok parts =>
    rw [hrun] at h
    exact ⟨parts, rfl, (Except.ok.inj h).symm⟩

/-! ## The limit -/

/-- A group that one limit lets be opened is opened within another one too, if that has room for it. -/
theorem Builder.openGroup_of_ok {b b' : Builder} {span : Span}
    (h : b.openGroup limit span = .ok b') (smaller : Nat) : b.openGroup smaller span =
      if smaller ≤ b.outer.length then .error ⟨.tooDeep smaller, some span⟩ else .ok b' := by
  cases Builder.moves_of_openGroup h with
  | opening _ held _ hheld _ => exact b.openGroup_eq smaller held span hheld

theorem Builder.step_outer {t : Token} {b b' : Builder} (h : b.step limit t = .ok b') :
    b'.outer.length = t.kind.openAfter b.outer.length := by
  cases Builder.moves_of_step h <;> rfl

theorem Builder.step_of_ne_opening (b : Builder) (t : Token) (smaller : Nat)
    (h : t.kind ≠ .opening) : b.step smaller t = b.step limit t := by
  obtain ⟨kind, span⟩ := t
  obtain ⟨outer, row, waiting, field⟩ := b
  cases kind with
  | opening => exact absurd rfl h
  | _ => cases field <;> rfl

theorem Builder.step_full {b b' : Builder} {t : Token} {smaller : Nat}
    (h : b.step limit t = .ok b') (hkind : t.kind = .opening) (hfull : smaller ≤ b.outer.length) :
    b.step smaller t = .error ⟨.tooDeep smaller, some t.span⟩ := by
  obtain ⟨kind, span⟩ := t
  obtain rfl : kind = .opening := hkind
  have hopen := Builder.openGroup_of_ok h smaller
  rw [if_pos hfull] at hopen
  exact hopen

theorem Builder.step_within {b b' : Builder} {t : Token} {smaller : Nat}
    (h : b.step limit t = .ok b') (hroom : b.outer.length ≤ smaller)
    (hfree : t.kind = .opening → b.outer.length < smaller) :
    b.step smaller t = .ok b' ∧ b'.outer.length ≤ smaller := by
  have houter := Builder.step_outer h
  by_cases hkind : t.kind = .opening
  · have hless := hfree hkind
    obtain ⟨kind, span⟩ := t
    obtain rfl : kind = .opening := hkind
    have hopen := Builder.openGroup_of_ok h smaller
    rw [if_neg (Nat.not_le.mpr hless)] at hopen
    refine ⟨hopen, ?_⟩
    rw [houter]
    exact hless
  · refine ⟨(b.step_of_ne_opening t smaller hkind).trans h, ?_⟩
    have hafter : t.kind.openAfter b.outer.length ≤ b.outer.length := by
      cases hk : t.kind with
      | opening => exact absurd hk hkind
      | closing => exact Nat.sub_le _ _
      | _ => exact Nat.le_refl _
    omega

/-- When some limit lets all tokens be read, a limit that they go beyond refuses the first group that
is one too many. The tokens before it are read as before. -/
theorem Builder.run_tooDeep (smaller : Nat) (ts : List Token) (b : Builder) (parts : List Node)
    (h : (b.run limit ts).1 = .ok parts) (hroom : b.outer.length ≤ smaller)
    (hdeep : smaller < mostOpen b.outer.length (ts.map (·.kind))) :
    ∃ before t after, ts = before ++ t :: after ∧ t.kind = .opening ∧
      openAfter b.outer.length (before.map (·.kind)) = smaller ∧
      mostOpen b.outer.length (before.map (·.kind)) = smaller ∧
      b.run smaller ts = (.error ⟨.tooDeep smaller, some t.span⟩, after) := by
  induction ts generalizing b with
  | nil => exact absurd hdeep (Nat.not_lt.mpr hroom)
  | cons t ts ih =>
    cases hstep : b.step limit t with
    | error fault =>
      rw [Builder.run, hstep] at h
      cases h
    | ok b' =>
      rw [Builder.run_of_step ts hstep] at h
      have houter := Builder.step_outer hstep
      rw [List.map_cons, mostOpen, ← houter] at hdeep
      by_cases hfull : t.kind = .opening ∧ b.outer.length = smaller
      · obtain ⟨hkind, hlength⟩ := hfull
        refine ⟨[], t, ts, rfl, hkind, hlength, hlength, ?_⟩
        rw [Builder.run, Builder.step_full hstep hkind (Nat.le_of_eq hlength.symm)]
      · -- within both limits the token is read alike, and the group that is too many comes later
        have hfree : t.kind = .opening → b.outer.length < smaller :=
          fun hkind => Nat.lt_of_le_of_ne hroom fun e => hfull ⟨hkind, e⟩
        obtain ⟨hread, hroom'⟩ := Builder.step_within hstep hroom hfree
        obtain ⟨before, u, after, rfl, hu, hopen, hmost, hrun⟩ :=
          ih b' h hroom' (by omega)
        rw [houter] at hopen hmost
        refine ⟨t :: before, u, after, rfl, hu, hopen, ?_, ?_⟩
        · rw [List.map_cons, mostOpen, hmost]
          exact Nat.max_eq_right hroom
        · rw [Builder.run_of_step _ hread, hrun]

end BooleanSearch
