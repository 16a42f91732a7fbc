import BooleanSearch.Proofs.Grammar.Depth
import BooleanSearch.Proofs.Grammar.Order

/-!
# Tokens that make a tree

Which tokens make a tree at all, whether they keep the rules of a query or not.

* `Readable`: what is asked of the tokens as a whole.
* `RunsJoin`, `ReadsOn`: the same, asked of the tokens that follow when some groups are open.
* `prefixesLead_iff`, `nested_iff`, `runsJoin_iff`: what is asked along the tokens, and what is asked
  of them as a whole.
* `readable_iff`: tokens are readable when they can be read on from the start.
-/

namespace BooleanSearch
set_option autoImplicit false

/-! ## Readable tokens -/

/-- What an operand begins with. -/
def Kind.beginsOperand : Kind → Bool
  | .term _ | .opening | .fieldPrefix _ => true
  | _ => false

/-- From `here` open groups on, a group is only closed when one is open, no more than `limit` are open
at once, and none is open at the end. -/
structure Nested (limit here : Nat) (ks : List Kind) : Prop where
  along : ∀ front, front <+: ks → front.count .closing ≤ here + front.count .opening ∧
    here + front.count .opening ≤ front.count .closing + limit
  closed : here + ks.count .opening = ks.count .closing

/-- A run of keywords behind these tokens begins there: they do not end with a keyword themselves. -/
def BeginsRun (before : List Kind) : Prop := ∀ w, before.getLast? ≠ some (.keyword w)

/-- Tokens that make a tree when at most `limit` groups may be open at once. -/
structure Readable (limit : Nat) (ks : List Kind) : Prop where
  noLoose : ∀ k ∈ ks, k ≠ .illegal ∧ ∀ text, k ≠ .word text
  codes : ∀ code behind, .fieldPrefix code :: behind <:+ ks →
    (Field.ofCode? code).isSome = true ∧ ∃ k ∈ behind.head?, k.isTerm = true ∨ k = .opening
  groups : Nested limit 0 ks
  /-- The keywords directly before an operand, all of them, make a connector. -/
  runs : ∀ before run k behind, ks = before ++ (run.map .keyword ++ k :: behind) → run ≠ [] →
    BeginsRun before → k.beginsOperand = true → run = [.and] ∨ run = [.or] ∨ run = [.and, .not]

/-- No keywords, or those of a connector. -/
def Joins (run : List Keyword) : Prop :=
  ∃ held : Option Connector, run = (held.map Connector.keywords).getD []

/-- Before each operand that follows stand no keywords or those of a connector, when `waiting` goes
before the first token. -/
def RunsJoin : (waiting : List Keyword) → List Kind → Prop
  | _, [] => True
  | waiting, .keyword w :: ks => RunsJoin (waiting ++ [w]) ks
  | waiting, k :: ks => (k.beginsOperand = true → Joins waiting) ∧ RunsJoin [] ks

/-- The tokens that follow can be read when `here` groups are open and some keywords wait. -/
structure ReadsOn (limit here : Nat) (waiting : List Keyword) (ks : List Kind) : Prop where
  usable : ∀ k ∈ ks, k.IsUsable
  lead : prefixesLead ks = true
  balance : groupsBalance here ks = true
  room : mostOpen here ks ≤ limit
  runs : RunsJoin waiting ks

/-! ## Field codes -/

theorem prefixesLead_cons (k : Kind) (ks : List Kind) : prefixesLead (k :: ks) = true ↔
    (∀ code, k = .fieldPrefix code → ∃ l ∈ ks.head?, l.isTerm = true ∨ l = .opening) ∧
      prefixesLead ks = true := by
  cases k with
  | fieldPrefix code =>
    cases ks with
    | nil =>
      refine ⟨fun h => absurd h Bool.false_ne_true, fun h => ?_⟩
      obtain ⟨l, hl, -⟩ := h.1 code rfl
      exact absurd hl (by simp)
    | cons l ls =>
      rw [prefixesLead, Bool.and_eq_true, Bool.or_eq_true, beq_iff_eq]
      refine and_congr_left fun _ => ⟨fun h _ _ => ⟨l, rfl, h⟩, fun h => ?_⟩
      obtain ⟨m, hm, hleads⟩ := h code rfl
      obtain rfl := Option.some.inj hm
      exact hleads
  | _ => exact ⟨fun h => ⟨fun code hcode => Kind.noConfusion hcode, h⟩, fun h => h.2⟩

theorem prefixesLead_iff (ks : List Kind) : prefixesLead ks = true ↔
    ∀ code behind, .fieldPrefix code :: behind <:+ ks →
      ∃ k ∈ behind.head?, k.isTerm = true ∨ k = .opening := by
  induction ks with
  | nil => exact ⟨fun _ code behind h => absurd (List.suffix_nil.mp h) (List.cons_ne_nil _ _),
      fun _ => rfl⟩
  | cons k ks ih =>
    rw [prefixesLead_cons, ih]
    constructor
    · rintro ⟨hfirst, hrest⟩ code behind hsuffix
      rcases List.suffix_cons_iff.mp hsuffix with heq | hlater
      · obtain ⟨hk, rfl⟩ := List.cons.inj heq
        exact hfirst code hk.symm
      · exact hrest code behind hlater
    · intro h
      refine ⟨fun code hk => h code ks (hk ▸ List.suffix_refl _), fun code behind hsuffix => ?_⟩
      exact h code behind (hsuffix.trans (List.suffix_cons k ks))

/-! ## Groups -/

theorem Nested.le {limit here : Nat} {ks : List Kind} (h : Nested limit here ks) : here ≤ limit := by
  have hstart := (h.along [] List.nil_prefix).2
  simpa using hstart

/-- A token moves the count of the closings and that of the openings, less what is open, alike. -/
theorem count_openAfter (k : Kind) (here : Nat) (hk : k = .closing → 0 < here) (front : List Kind) :
    here + (k :: front).count .opening + front.count .closing =
      k.openAfter here + front.count .opening + (k :: front).count .closing := by
  cases k with
  | opening =>
    rw [List.count_cons_self, List.count_cons_of_ne (by decide), Kind.openAfter]
    omega
  | closing =>
    have hpos := hk rfl
    rw [List.count_cons_self, List.count_cons_of_ne (by decide), Kind.openAfter]
    omega
  | _ => rfl

theorem nested_cons (limit here : Nat) (k : Kind) (ks : List Kind) : Nested limit here (k :: ks) ↔
    here ≤ limit ∧ (k = .closing → 0 < here) ∧ Nested limit (k.openAfter here) ks := by
  constructor
  · intro h
    have hpos : k = .closing → 0 < here := by
      rintro rfl
      have hfirst : 1 ≤ here + 0 := (h.along [.closing] ⟨ks, rfl⟩).1
      exact hfirst
    refine ⟨h.le, hpos, fun front hfront => ?_, ?_⟩
    · have halong := h.along _ ((List.prefix_cons_inj k).mpr hfront)
      have hshift := count_openAfter k here hpos front
      omega
    · have hclosed := h.closed
      have hshift := count_openAfter k here hpos ks
      omega
  · rintro ⟨hle, hpos, h⟩
    refine ⟨fun front hfront => ?_, ?_⟩
    · rcases List.prefix_cons_iff.mp hfront with rfl | ⟨rest, rfl, hrest⟩
      · simpa using hle
      · have halong := h.along rest hrest
        have hshift := count_openAfter k here hpos rest
        omega
    · have hclosed := h.closed
      have hshift := count_openAfter k here hpos ks
      omega

theorem groupsBalance_cons (here : Nat) (k : Kind) (ks : List Kind) :
    groupsBalance here (k :: ks) = true ↔
      (k = .closing → 0 < here) ∧ groupsBalance (k.openAfter here) ks = true := by
  cases k with
  | closing =>
    cases here with
    | zero => exact ⟨nofun, fun h => absurd (h.1 rfl) (Nat.lt_irrefl 0)⟩
    | succ here => exact ⟨fun h => ⟨fun _ => Nat.succ_pos here, h⟩, fun h => h.2⟩
  | _ => cases here <;> exact ⟨fun h => ⟨nofun, h⟩, fun h => h.2⟩

theorem nested_iff (limit here : Nat) (ks : List Kind) :
    Nested limit here ks ↔ groupsBalance here ks = true ∧ mostOpen here ks ≤ limit := by
  induction ks generalizing here with
  | nil =>
    rw [groupsBalance, mostOpen, beq_iff_eq]
    constructor
    · intro h
      exact ⟨h.closed, h.le⟩
    · rintro ⟨rfl, hle⟩
      refine ⟨fun front hfront => ?_, rfl⟩
      obtain rfl := List.prefix_nil.mp hfront
      exact ⟨Nat.le_refl 0, Nat.zero_le _⟩
  | cons k ks ih =>
    rw [nested_cons, ih, groupsBalance_cons, mostOpen, Nat.max_le]
    constructor
    · rintro ⟨hle, hpos, hbalance, hroom⟩
      exact ⟨⟨hpos, hbalance⟩, hle, hroom⟩
    · rintro ⟨⟨hpos, hbalance⟩, hle, hroom⟩
      exact ⟨hle, hpos, hbalance, hroom⟩

/-! ## Runs of keywords -/

theorem joins_iff (run : List Keyword) :
    Joins run ↔ run = [] ∨ run = [.and] ∨ run = [.or] ∨ run = [.and, .not] := by
  constructor
  · rintro ⟨held, rfl⟩
    cases held with
    | none => exact Or.inl rfl
    | some c => cases c <;> decide
  · rintro (rfl | rfl | rfl | rfl)
    · exact ⟨none, rfl⟩
    · exact ⟨some .and, rfl⟩
    · exact ⟨some .or, rfl⟩
    · exact ⟨some .andNot, rfl⟩

theorem runsJoin_cons (waiting : List Keyword) (k : Kind) (ks : List Kind)
    (hk : k.isKeyword = false) :
    RunsJoin waiting (k :: ks) ↔ (k.beginsOperand = true → Joins waiting) ∧ RunsJoin [] ks := by
  cases k with
  | keyword w => exact Bool.noConfusion hk
  | _ => exact Iff.rfl

/-- Keywords before a token that is none are told from what follows them. -/
theorem keywords_inj {ws vs : List Keyword} {k l : Kind} {ks ls : List Kind}
    (hk : k.isKeyword = false) (hl : l.isKeyword = false)
    (h : ws.map Kind.keyword ++ k :: ks = vs.map .keyword ++ l :: ls) : ws = vs ∧ k = l := by
  induction ws generalizing vs with
  | nil =>
    cases vs with
    | nil => exact ⟨rfl, (List.cons.inj h).1⟩
    | cons v vs =>
      rw [(List.cons.inj h).1] at hk
      exact Bool.noConfusion hk
  | cons w ws ih =>
    cases vs with
    | nil =>
      rw [← (List.cons.inj h).1] at hl
      exact Bool.noConfusion hl
    | cons v vs =>
      obtain ⟨hw, hrest⟩ := List.cons.inj h
      obtain ⟨rfl, hsame⟩ := ih hrest
      exact ⟨congrArg (· :: ws) (Kind.keyword.inj hw), hsame⟩

theorem BeginsRun.eq_nil_of_keywords {ws : List Keyword} {before rest : List Kind}
    (h : BeginsRun before) (hws : ws.map Kind.keyword = before ++ rest) : before = [] := by
  by_contra hne
  have hlast := List.getLast?_eq_some_getLast hne
  have hmem : before.getLast hne ∈ ws.map Kind.keyword := by
    rw [hws]
    exact List.mem_append_left _ (List.getLast_mem hne)
  obtain ⟨w, -, hw⟩ := List.mem_map.mp hmem
  exact h w (by rw [hlast, hw])

theorem beginsRun_append_cons (front before : List Kind) (k : Kind) (hk : k.isKeyword = false) :
    BeginsRun (front ++ k :: before) ↔ BeginsRun before := by
  refine forall_congr' fun w => not_congr ?_
  rw [List.getLast?_append, List.getLast?_cons]
  cases before.getLast? with
  | some l => exact Iff.rfl
  | none =>
    refine ⟨fun h => ?_, nofun⟩
    obtain rfl : k = .keyword w := Option.some.inj h
    exact Bool.noConfusion hk

theorem Kind.isKeyword_of_beginsOperand {k : Kind} (h : k.beginsOperand = true) :
    k.isKeyword = false := by
  cases k with
  | keyword w => exact Bool.noConfusion h
  | _ => rfl

/-- Where the run before an operand begins: with the keywords that wait, or behind the next token. -/
theorem run_before_operand {waiting run : List Keyword} {k l : Kind} {ks before behind : List Kind}
    (hk : k.isKeyword = false) (hl : l.isKeyword = false) (hbefore : BeginsRun before)
    (h : waiting.map Kind.keyword ++ k :: ks = before ++ (run.map .keyword ++ l :: behind)) :
    (waiting = run ∧ k = l) ∨ ∃ mid, before = waiting.map .keyword ++ k :: mid ∧
      ks = mid ++ (run.map .keyword ++ l :: behind) := by
  have hfirst : before = [] → waiting = run ∧ k = l := by
    rintro rfl
    exact keywords_inj hk hl h
  rcases List.append_eq_append_iff.mp h with ⟨mid, hmid, hks⟩ | ⟨rest, hrest, -⟩
  · cases mid with
    | nil =>
      have hkeys : waiting.map Kind.keyword = before ++ [] := by
        rw [hmid, List.append_nil, List.append_nil]
      exact Or.inl (hfirst (hbefore.eq_nil_of_keywords hkeys))
    | cons m mid =>
      obtain ⟨rfl, hbehind⟩ := List.cons.inj hks
      exact Or.inr ⟨mid, hmid, hbehind⟩
  · exact Or.inl (hfirst (hbefore.eq_nil_of_keywords hrest))

/-- The induction is on the tokens that follow; a keyword joins those that wait, and any other token
ends the run that it stands behind. -/
theorem runsJoin_iff (waiting : List Keyword) (ks : List Kind) : RunsJoin waiting ks ↔
    ∀ before run k behind,
      waiting.map .keyword ++ ks = before ++ (run.map .keyword ++ k :: behind) →
        BeginsRun before → k.beginsOperand = true → Joins run := by
  induction ks generalizing waiting with
  | nil =>
    refine ⟨fun _ before run k behind h _ hk => ?_, fun _ => trivial⟩
    have hmem : k ∈ waiting.map Kind.keyword := by
      rw [← List.append_nil (waiting.map Kind.keyword), h]
      simp
    obtain ⟨w, -, rfl⟩ := List.mem_map.mp hmem
    exact Bool.noConfusion hk
  | cons k ks ih =>
    by_cases hkey : k.isKeyword = true
    · obtain ⟨w, rfl⟩ : ∃ w, k = .keyword w := by
        cases k with
        | keyword w => exact ⟨w, rfl⟩
        | _ => exact Bool.noConfusion hkey
      rw [RunsJoin, ih (waiting ++ [w]), List.map_append, List.map_singleton, ← List.append_cons]
    · rw [Bool.not_eq_true] at hkey
      rw [runsJoin_cons waiting k ks hkey, ih []]
      constructor
      · rintro ⟨hfirst, hrest⟩ before run l behind h hbefore hl
        rcases run_before_operand hkey (Kind.isKeyword_of_beginsOperand hl) hbefore h with
          ⟨rfl, rfl⟩ | ⟨mid, rfl, hks⟩
        · exact hfirst hl
        · exact hrest mid run l behind hks ((beginsRun_append_cons _ mid k hkey).mp hbefore) hl
      · intro h
        refine ⟨h [] waiting k ks rfl nofun, fun before run l behind hks hbefore hl => ?_⟩
        have hsplit : waiting.map Kind.keyword ++ k :: ks =
            (waiting.map Kind.keyword ++ k :: before) ++ (run.map .keyword ++ l :: behind) := by
          rw [List.append_assoc, List.cons_append, ← hks]
          rfl
        exact h _ run l behind hsplit ((beginsRun_append_cons _ before k hkey).mpr hbefore) hl

/-! ## From the start -/

theorem isUsable_iff_noLoose (k : Kind) : k.IsUsable ↔ (k ≠ .illegal ∧ ∀ text, k ≠ .word text) ∧
    ∀ code, k = .fieldPrefix code → (Field.ofCode? code).isSome = true := by
  cases k with
  | fieldPrefix code =>
    refine ⟨fun h => ⟨⟨nofun, nofun⟩, fun code' hcode => ?_⟩, fun h => h.2 code rfl⟩
    obtain rfl := Kind.fieldPrefix.inj hcode
    exact h
  | word text => exact ⟨False.elim, fun h => h.1.2 text rfl⟩
  | illegal => exact ⟨False.elim, fun h => h.1.1 rfl⟩
  | _ => exact ⟨fun _ => ⟨⟨nofun, nofun⟩, nofun⟩, fun _ => trivial⟩

theorem readable_iff (limit : Nat) (ks : List Kind) :
    Readable limit ks ↔ ReadsOn limit 0 [] ks := by
  constructor
  · intro h
    obtain ⟨hbalance, hroom⟩ := (nested_iff limit 0 ks).mp h.groups
    refine ⟨fun k hk => ?_, ?_, hbalance, hroom, ?_⟩
    · refine (isUsable_iff_noLoose k).mpr ⟨h.noLoose k hk, fun code hcode => ?_⟩
      obtain ⟨before, behind, hsplit⟩ := List.append_of_mem hk
      exact (h.codes code behind ⟨before, by rw [hsplit, hcode]⟩).1
    · exact (prefixesLead_iff ks).mpr fun code behind hsuffix => (h.codes code behind hsuffix).2
    · refine (runsJoin_iff [] ks).mpr fun before run k behind hsplit hbefore hk => ?_
      rw [joins_iff]
      by_cases hrun : run = []
      · exact Or.inl hrun
      · exact Or.inr (h.runs before run k behind hsplit hrun hbefore hk)
  · intro h
    refine ⟨fun k hk => ((isUsable_iff_noLoose k).mp (h.usable k hk)).1, ?_, ?_, ?_⟩
    · intro code behind hsuffix
      have hmem := hsuffix.subset List.mem_cons_self
      exact ⟨h.usable _ hmem, (prefixesLead_iff ks).mp h.lead code behind hsuffix⟩
    · exact (nested_iff limit 0 ks).mpr ⟨h.balance, h.room⟩
    · intro before run k behind hsplit hrun hbefore hk
      have hjoins := (runsJoin_iff [] ks).mp h.runs before run k behind hsplit hbefore hk
      exact ((joins_iff run).mp hjoins).resolve_left hrun

/-! ## One token -/

section OneToken

variable {limit here : Nat} {waiting : List Keyword} {ks : List Kind}

theorem readsOn_nil : ReadsOn limit here waiting [] ↔ here = 0 := by
  constructor
  · intro h
    exact beq_iff_eq.mp h.balance
  · rintro rfl
    exact ⟨nofun, rfl, rfl, Nat.zero_le limit, trivial⟩

theorem readsOn_keyword (w : Keyword) :
    ReadsOn limit here waiting (.keyword w :: ks) ↔ ReadsOn limit here (waiting ++ [w]) ks := by
  have hroom := mostOpen_cons_of_same here (.keyword w) ks rfl
  constructor
  · intro h
    refine ⟨(List.forall_mem_cons.mp h.usable).2, h.lead, ?_, hroom ▸ h.room, h.runs⟩
    exact ((groupsBalance_cons here _ ks).mp h.balance).2
  · intro h
    refine ⟨List.forall_mem_cons.mpr ⟨trivial, h.usable⟩, h.lead, ?_, hroom ▸ h.room, h.runs⟩
    exact (groupsBalance_cons here _ ks).mpr ⟨nofun, h.balance⟩

theorem readsOn_cons {k : Kind} (hk : k.isKeyword = false) :
    ReadsOn limit here waiting (k :: ks) ↔
      (k.IsUsable ∧ (∀ code, k = .fieldPrefix code → ∃ l ∈ ks.head?, l.isTerm = true ∨ l = .opening) ∧
        (k = .closing → 0 < here) ∧ here ≤ limit ∧ (k.beginsOperand = true → Joins waiting)) ∧
      ReadsOn limit (k.openAfter here) [] ks := by
  constructor
  · intro h
    obtain ⟨husable, husables⟩ := List.forall_mem_cons.mp h.usable
    obtain ⟨hlead, hleads⟩ := (prefixesLead_cons k ks).mp h.lead
    obtain ⟨hpos, hbalance⟩ := (groupsBalance_cons here k ks).mp h.balance
    obtain ⟨hle, hroom⟩ := Nat.max_le.mp h.room
    obtain ⟨hjoins, hruns⟩ := (runsJoin_cons waiting k ks hk).mp h.runs
    exact ⟨⟨husable, hlead, hpos, hle, hjoins⟩, husables, hleads, hbalance, hroom, hruns⟩
  · rintro ⟨⟨husable, hlead, hpos, hle, hjoins⟩, h⟩
    exact ⟨List.forall_mem_cons.mpr ⟨husable, h.usable⟩, (prefixesLead_cons k ks).mpr ⟨hlead, h.lead⟩,
      (groupsBalance_cons here k ks).mpr ⟨hpos, h.balance⟩, Nat.max_le.mpr ⟨hle, h.room⟩,
      (runsJoin_cons waiting k ks hk).mpr ⟨hjoins, h.runs⟩⟩

theorem readsOn_closing (hle : here ≤ limit) :
    ReadsOn limit here waiting (.closing :: ks) ↔ 0 < here ∧ ReadsOn limit (here - 1) [] ks := by
  rw [readsOn_cons rfl]
  exact ⟨fun h => ⟨h.1.2.2.1 rfl, h.2⟩,
    fun h => ⟨⟨trivial, nofun, fun _ => h.1, hle, nofun⟩, h.2⟩⟩

theorem Kind.operand_facts (k : Kind) (hk : k.isTerm = true ∨ k = .opening) :
    k.isKeyword = false ∧ k.IsUsable ∧ k.beginsOperand = true ∧ (∀ code, k ≠ .fieldPrefix code) ∧
      k ≠ .closing := by
  cases k with
  | term value => exact ⟨rfl, trivial, rfl, nofun, nofun⟩
  | opening => exact ⟨rfl, trivial, rfl, nofun, nofun⟩
  | _ => rcases hk with hk | hk <;> exact absurd hk nofun

/-- An operand can be read, with the field it is bound to, when the keywords that wait make a
connector. -/
theorem readsOn_operand {field : Option Field} {codes : List Kind} (binding : Binding field codes)
    (k : Kind) (hk : k.isTerm = true ∨ k = .opening) (ks : List Kind) (hle : here ≤ limit) :
    ReadsOn limit here waiting (codes ++ k :: ks) ↔
      Joins waiting ∧ ReadsOn limit (k.openAfter here) [] ks := by
  have hfree : ∀ waiting, ReadsOn limit here waiting (k :: ks) ↔
      Joins waiting ∧ ReadsOn limit (k.openAfter here) [] ks := by
    intro waiting
    obtain ⟨hkey, husable, hfirst, hcode, hclosing⟩ := k.operand_facts hk
    rw [readsOn_cons hkey]
    exact ⟨fun h => ⟨h.1.2.2.2.2 hfirst, h.2⟩, fun h =>
      ⟨⟨husable, fun code h => absurd h (hcode code), fun h => absurd h hclosing, hle, fun _ => h.1⟩,
        h.2⟩⟩
  cases binding with
  | free => exact hfree waiting
  | code code f hf =>
    have husable : (Field.ofCode? code).isSome = true := by
      rw [hf]
      rfl
    have hsame : Kind.openAfter here (.fieldPrefix code) = here := rfl
    rw [List.singleton_append, readsOn_cons rfl, hsame, hfree []]
    exact ⟨fun h => ⟨h.1.2.2.2.2 rfl, h.2.2⟩, fun h =>
      ⟨⟨husable, fun _ _ => ⟨k, rfl, hk⟩, nofun, hle, fun _ => h.1⟩, ⟨none, rfl⟩, h.2⟩⟩

end OneToken

end BooleanSearch
