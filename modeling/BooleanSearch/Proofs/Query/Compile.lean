import BooleanSearch.Proofs.Grammar.Recognition
import BooleanSearch.Proofs.Node.Reading
import BooleanSearch.Query

/-!
# What compiling gives

* `validate_trimmed`: the blanks around a text are no matter for the rules.
* `Query.compile_of_row`, `Query.compile_of_deep`: what a text that keeps the rules is compiled to, as
  long as its groups are within the limit, and beyond it.
* `Query.exists_tree_of_compile`: a query keeps the whole tree that was read.
* `Query.compile_eq_ok_iff`: the queries that come out of compiling.
-/

namespace BooleanSearch
set_option autoImplicit false

theorem validate_trimmed (raw : String) : validate (trimmed raw) = validate raw := by
  unfold validate
  rw [trimmed_trimmed]

theorem exists_row_of_validate {raw : String} (h : validate raw = .ok ()) :
    ∃ ns, Row ns ((Token.scan (trimmed raw)).map (·.kind)) ∧ Alternating ns :=
  ((validate_iff_trimmed raw).mp h).derived

namespace Query

variable (settings : Settings) {raw : String}

theorem compile_of_tree (h : validate raw = .ok ()) (tree : Node)
    (hparse : parse settings.maxNestingDepth.toNat (trimmed raw) = .ok tree) :
    compile settings raw = .ok ⟨trimmed raw, (tree.bindTerms none).children⟩ := by
  unfold compile
  dsimp only
  rw [validate_trimmed, h, hparse]
  rfl

theorem compile_of_fault (h : validate raw = .ok ()) (fault : Fault)
    (hparse : parse settings.maxNestingDepth.toNat (trimmed raw) = .error fault) :
    compile settings raw = .error (.fault fault) := by
  unfold compile
  dsimp only
  rw [validate_trimmed, h, hparse]
  rfl

theorem compile_of_violation {v : Violation} (h : validate raw = .error v) :
    compile settings raw = .error (.violation v) := by
  unfold compile
  dsimp only
  rw [validate_trimmed, h]
  rfl

theorem compile_of_row (h : validate raw = .ok ()) {ns : List Node}
    (row : Row ns ((Token.scan (trimmed raw)).map (·.kind))) (alt : Alternating ns)
    (hdeep : Node.depthOfRow ns ≤ settings.maxNestingDepth.toNat) :
    compile settings raw = .ok ⟨trimmed raw, Node.bindRow none (Node.settleRow ns)⟩ := by
  have hread := row.readTokens_eq alt.isChain hdeep
  exact compile_of_tree settings h (.root (Node.settleRow ns)) (congrArg Prod.fst hread)

theorem exists_compile (h : validate raw = .ok ())
    (hroom : mostOpen 0 ((Token.scan (trimmed raw)).map (·.kind)) ≤ settings.maxNestingDepth.toNat) :
    ∃ q, compile settings raw = .ok q := by
  obtain ⟨ns, row, alt⟩ := exists_row_of_validate h
  rw [row.mostOpen_eq] at hroom
  exact ⟨_, compile_of_row settings h row alt hroom⟩

/-- Beyond the limit the first group that is one too many is refused. The text would be read if the
limit were as great as the depth, so nothing else is found before. -/
theorem compile_of_deep (h : validate raw = .ok ())
    (hdeep : settings.maxNestingDepth.toNat < mostOpen 0 ((Token.scan (trimmed raw)).map (·.kind))) :
    ∃ before t after, Token.scan (trimmed raw) = before ++ t :: after ∧ t.kind = .opening ∧
      openAfter 0 (before.map (·.kind)) = settings.maxNestingDepth.toNat ∧
      mostOpen 0 (before.map (·.kind)) = settings.maxNestingDepth.toNat ∧
      compile settings raw =
        .error (.fault ⟨.tooDeep settings.maxNestingDepth.toNat, some t.span⟩) := by
  obtain ⟨ns, row, alt⟩ := exists_row_of_validate h
  have hrun := congrArg Prod.fst (row.run_start alt.isChain (Nat.le_refl (Node.depthOfRow ns)))
  obtain ⟨before, t, after, hsplit, hkind, hopen, hmost, hstop⟩ :=
    Builder.run_tooDeep settings.maxNestingDepth.toNat _ Builder.start _ hrun (Nat.zero_le _) hdeep
  refine ⟨before, t, after, hsplit, hkind, hopen, hmost, compile_of_fault settings h _ ?_⟩
  unfold parse Node.ofTokens Node.readTokens
  rw [hstop]
  rfl

theorem validate_of_compile {settings : Settings} {q : Query} (h : compile settings raw = .ok q) :
    validate raw = .ok () := by
  unfold compile at h
  dsimp only at h
  rw [validate_trimmed] at h
  cases hv : validate raw with
  | ok u => rfl
  | error v =>
    rw [hv] at h
    cases h

/-- The parts of a query are all that there is: the tree that was read and bound is their root. -/
theorem exists_tree_of_compile {settings : Settings} {q : Query}
    (h : compile settings raw = .ok q) :
    ∃ tree, parse settings.maxNestingDepth.toNat (trimmed raw) = .ok tree ∧
      tree.bindTerms none = .root q.parts := by
  have hvalid := validate_of_compile h
  cases hparse : parse settings.maxNestingDepth.toNat (trimmed raw) with
  | error fault =>
    rw [compile_of_fault settings hvalid fault hparse] at h
    cases h
  | ok tree =>
    rw [compile_of_tree settings hvalid tree hparse] at h
    obtain rfl := Except.ok.inj h
    obtain ⟨parts, -, rfl⟩ := Node.exists_run_of_ofTokens hparse
    exact ⟨_, rfl, rfl⟩

/-- A query is the text without the blanks around it, and the parts that its tokens are derived as,
without open ends and with every term bound. -/
theorem compile_eq_ok_iff (q : Query) : compile settings raw = .ok q ↔
    validate raw = .ok () ∧ ∃ ns, Row ns ((Token.scan (trimmed raw)).map (·.kind)) ∧
      Alternating ns ∧ Node.depthOfRow ns ≤ settings.maxNestingDepth.toNat ∧
      q = ⟨trimmed raw, Node.bindRow none (Node.settleRow ns)⟩ := by
  constructor
  · intro h
    have hvalid := validate_of_compile h
    obtain ⟨ns, row, alt⟩ := exists_row_of_validate hvalid
    refine ⟨hvalid, ns, row, alt, ?_⟩
    by_cases hdeep : Node.depthOfRow ns ≤ settings.maxNestingDepth.toNat
    · refine ⟨hdeep, ?_⟩
      rw [compile_of_row settings hvalid row alt hdeep] at h
      exact (Except.ok.inj h).symm
    · rw [← row.mostOpen_eq] at hdeep
      obtain ⟨_, _, _, _, _, _, _, hstop⟩ :=
        compile_of_deep settings hvalid (Nat.not_le.mp hdeep)
      rw [hstop] at h
      cases h
  · rintro ⟨hvalid, ns, row, alt, hdeep, rfl⟩
    exact compile_of_row settings hvalid row alt hdeep

end Query
end BooleanSearch
