import BooleanSearch.Proofs.Grammar.Readable

/-!
# Runs of keywords

One rule asks for an `AND` before each `NOT`, another lets no connector follow a connector. Neither bounds
the keywords that stand together; both of them leave only the runs that are connectors.

* `EndsRun`, `KeywordRun`: a run of keywords with no keyword on either side.
* `keywordsKept_run`: what the two rules say of a run, and of the tokens behind it.
* `KeywordRun.first_or_behind`: a run is the first one, or a run of the tokens behind it.
* `Rule.keywords_iff`: both rules are kept when every run is a connector.
-/

namespace BooleanSearch
set_option autoImplicit false

/-- A run of keywords before these tokens ends there: they do not begin with a keyword. -/
def EndsRun (behind : List Kind) : Prop := ∀ w, behind.head? ≠ some (.keyword w)

/-- Keywords among some tokens that stand together, with no keyword before or behind them. -/
structure KeywordRun (ks before : List Kind) (run : List Keyword) (behind : List Kind) : Prop where
  cut : ks = before ++ (run.map .keyword ++ behind)
  ne_nil : run ≠ []
  begins : BeginsRun before
  ends : EndsRun behind

/-! ## What the rules say of a run -/

/-- The two rules on keywords, on tokens that come after no keyword. -/
def KeywordsKept (ks : List Kind) : Prop :=
  Rule.notsFollowAnd false ks = true ∧ Rule.connectorsApart false ks = true

theorem endsRun_cons {k : Kind} (hk : k.isKeyword = false) (ks : List Kind) : EndsRun (k :: ks) := by
  intro w hw
  obtain rfl : k = .keyword w := Option.some.inj hw
  exact Bool.noConfusion hk

theorem keywordsKept_cons {k : Kind} (hk : k.isKeyword = false) (ks : List Kind) :
    KeywordsKept (k :: ks) ↔ KeywordsKept ks := by
  cases k with
  | keyword w => exact Bool.noConfusion hk
  | _ => exact Iff.rfl

theorem connectorsApart_behind_run {behind : List Kind} (h : EndsRun behind) (after : Bool) :
    Rule.connectorsApart after behind = Rule.connectorsApart false behind := by
  cases behind with
  | nil => rfl
  | cons k ks =>
    cases k with
    | keyword w => exact absurd rfl (h w)
    | _ => rfl

/-- Behind a connector stands no keyword, also none that begins `AND NOT`. -/
theorem eq_nil_of_connectorsApart (ws : List Keyword) (behind : List Kind)
    (h : Rule.connectorsApart true (ws.map .keyword ++ behind) = true) : ws = [] := by
  cases ws with
  | nil => rfl
  | cons w ws =>
    have hclash : ∀ ks, Rule.connectorsApart true (.keyword w :: ks) = false := by
      intro ks
      cases w with
      | and =>
        cases ks with
        | nil => rfl
        | cons k ks =>
          cases k with
          | keyword v => cases v <;> rfl
          | _ => rfl
      | or => rfl
      | not => rfl
    rw [List.map_cons, List.cons_append, hclash] at h
    exact Bool.noConfusion h

/-- The cases are those of the rule on connectors: a `NOT` alone, `AND NOT`, and one keyword. -/
theorem KeywordsKept.joins {run : List Keyword} {behind : List Kind}
    (h : KeywordsKept (run.map .keyword ++ behind)) : Joins run := by
  obtain ⟨hnots, hapart⟩ := h
  rw [joins_iff]
  match run with
  | [] => exact .inl rfl
  | .not :: ws => exact Bool.noConfusion hnots
  | .or :: ws =>
    obtain rfl := eq_nil_of_connectorsApart ws behind hapart
    exact .inr (.inr (.inl rfl))
  | [.and] => exact .inr (.inl rfl)
  | .and :: .not :: ws =>
    obtain rfl := eq_nil_of_connectorsApart ws behind hapart
    exact .inr (.inr (.inr rfl))
  | .and :: .and :: ws =>
    exact absurd (eq_nil_of_connectorsApart (.and :: ws) behind hapart) (List.cons_ne_nil _ _)
  | .and :: .or :: ws =>
    exact absurd (eq_nil_of_connectorsApart (.or :: ws) behind hapart) (List.cons_ne_nil _ _)

theorem keywordsKept_run (run : List Keyword) {behind : List Kind} (h : EndsRun behind) :
    KeywordsKept (run.map .keyword ++ behind) ↔ Joins run ∧ KeywordsKept behind := by
  have hkept : Joins run → (KeywordsKept (run.map .keyword ++ behind) ↔ KeywordsKept behind) := by
    rintro ⟨held, rfl⟩
    cases held with
    | none => exact Iff.rfl
    | some c =>
      change KeywordsKept (c.keywords.map .keyword ++ behind) ↔ _
      rw [KeywordsKept, notsFollowAnd_keywords c behind (h .not),
        connectorsApart_keywords c false behind (h .not), connectorsApart_behind_run h true]
      exact Iff.rfl
  exact ⟨fun hrun => ⟨hrun.joins, (hkept hrun.joins).mp hrun⟩, fun ⟨hjoins, hbehind⟩ =>
    (hkept hjoins).mpr hbehind⟩

/-! ## The runs among some tokens -/

theorem KeywordRun.eq_of_keywords {waiting run : List Keyword} {before behind : List Kind}
    (h : KeywordRun (waiting.map .keyword) before run behind) : run = waiting := by
  obtain rfl := h.begins.eq_nil_of_keywords h.cut
  have hbehind : behind = [] := by
    cases behind with
    | nil => rfl
    | cons k ks =>
      have hmem : k ∈ waiting.map Kind.keyword := by
        rw [h.cut]
        simp
      obtain ⟨w, -, rfl⟩ := List.mem_map.mp hmem
      exact absurd rfl (h.ends w)
  have hcut := h.cut
  rw [hbehind, List.nil_append, List.append_nil] at hcut
  exact (List.map_injective_iff.mpr (fun _ _ => Kind.keyword.inj) hcut).symm

/-- A token is put behind all of them, so that a run at the end of the tokens stands before a token
too. -/
theorem KeywordRun.first_or_behind {waiting run : List Keyword} {k : Kind} {ks before behind : List Kind}
    (hk : k.isKeyword = false) (h : KeywordRun (waiting.map .keyword ++ k :: ks) before run behind) :
    run = waiting ∨ ∃ mid, KeywordRun ks mid run behind := by
  obtain ⟨hcut, hne, hbegins, hends⟩ := h
  obtain ⟨l, tail, hl, htail⟩ : ∃ l tail, l.isKeyword = false ∧ behind ++ [.closing] = l :: tail := by
    cases behind with
    | nil => exact ⟨.closing, [], rfl, rfl⟩
    | cons l tail =>
      refine ⟨l, tail ++ [.closing], ?_, rfl⟩
      cases l with
      | keyword w => exact absurd rfl (hends w)
      | _ => rfl
  have hlonger : waiting.map Kind.keyword ++ k :: (ks ++ [.closing]) =
      before ++ (run.map .keyword ++ l :: tail) := by
    have hboth := congrArg (· ++ [Kind.closing]) hcut
    simp only [List.append_assoc, List.cons_append, htail] at hboth
    exact hboth
  rcases run_before_operand hk hl hbegins hlonger with ⟨rfl, -⟩ | ⟨mid, rfl, hmid⟩
  · exact .inl rfl
  · rw [← htail, ← List.append_assoc, ← List.append_assoc] at hmid
    have hks := List.append_cancel_right hmid
    rw [List.append_assoc] at hks
    exact .inr ⟨mid, hks, hne, (beginsRun_append_cons _ mid k hk).mp hbegins, hends⟩

theorem keywordRun_first {waiting : List Keyword} {k : Kind} (hk : k.isKeyword = false)
    (hne : waiting ≠ []) (ks : List Kind) :
    KeywordRun (waiting.map .keyword ++ k :: ks) [] waiting (k :: ks) :=
  ⟨rfl, hne, nofun, endsRun_cons hk ks⟩

theorem KeywordRun.behind {run : List Keyword} {k : Kind} {ks mid behind : List Kind}
    (hk : k.isKeyword = false) (front : List Kind) (h : KeywordRun ks mid run behind) :
    KeywordRun (front ++ k :: ks) (front ++ k :: mid) run behind where
  cut := by rw [h.cut, List.append_assoc, List.cons_append]
  ne_nil := h.ne_nil
  begins := (beginsRun_append_cons front mid k hk).mpr h.begins
  ends := h.ends

/-- The induction is on the tokens that follow; a keyword joins those that wait, and any other token
ends the run that it stands behind. -/
theorem keywordsKept_iff (waiting : List Keyword) (ks : List Kind) :
    KeywordsKept (waiting.map .keyword ++ ks) ↔
      ∀ before run behind, KeywordRun (waiting.map .keyword ++ ks) before run behind → Joins run := by
  induction ks generalizing waiting with
  | nil =>
    have hends : EndsRun [] := nofun
    rw [keywordsKept_run waiting hends, List.append_nil]
    constructor
    · rintro ⟨hjoins, -⟩ before run behind hrun
      rwa [hrun.eq_of_keywords]
    · intro h
      refine ⟨?_, rfl, rfl⟩
      by_cases hne : waiting = []
      · exact ⟨none, hne⟩
      · exact h [] waiting [] ⟨(List.append_nil _).symm, hne, nofun, hends⟩
  | cons k ks ih =>
    by_cases hkey : k.isKeyword = true
    · obtain ⟨w, rfl⟩ : ∃ w, k = .keyword w := by
        cases k with
        | keyword w => exact ⟨w, rfl⟩
        | _ => exact Bool.noConfusion hkey
      have hlonger := ih (waiting ++ [w])
      rwa [List.map_append, List.map_singleton, ← List.append_cons] at hlonger
    · rw [Bool.not_eq_true] at hkey
      rw [keywordsKept_run waiting (endsRun_cons hkey ks), keywordsKept_cons hkey]
      constructor
      · rintro ⟨hjoins, hbehind⟩ before run behind hrun
        rcases hrun.first_or_behind hkey with rfl | ⟨mid, hlater⟩
        · exact hjoins
        · exact (ih []).mp hbehind mid run behind hlater
      · intro h
        refine ⟨?_, (ih []).mpr fun before run behind hrun => h _ run behind (hrun.behind hkey _)⟩
        by_cases hne : waiting = []
        · exact ⟨none, hne⟩
        · exact h [] waiting _ (keywordRun_first hkey hne ks)

/-- A `NOT` that stands alone breaks the first rule only, and `AND OR` the second one only. -/
theorem Rule.keywords_iff (tokens : List Token) :
    (Rule.notPlacement tokens = .ok () ∧ Rule.connectorRuns tokens = .ok ()) ↔
      ∀ before run behind, KeywordRun (tokens.map (·.kind)) before run behind →
        run = [.and] ∨ run = [.or] ∨ run = [.and, .not] := by
  rw [Rule.notPlacement, Rule.connectorRuns, Check.unless_eq_ok, Check.unless_eq_ok]
  refine (keywordsKept_iff [] (tokens.map (·.kind))).trans ?_
  refine forall_congr' fun before => forall_congr' fun run => forall_congr' fun behind => ?_
  refine imp_congr_right fun hrun => ?_
  rw [joins_iff]
  exact or_iff_right hrun.ne_nil

end BooleanSearch
