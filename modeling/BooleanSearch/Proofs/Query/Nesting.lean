import BooleanSearch.Proofs.Query.Compile

/-!
# The limit on nested groups

* `Query.compile_nesting`: a text that keeps the rules is refused for the depth of its groups and for
  nothing else.
-/

namespace BooleanSearch.Query
set_option autoImplicit false

/-- A text that keeps the rules is compiled exactly when no more groups are open at once than the
settings allow. Otherwise the complaint is about the first group that is one too many. -/
theorem compile_nesting (settings : Settings) (raw : String) (h : validate raw = .ok ()) :
    ((∃ q, compile settings raw = .ok q) ↔
      mostOpen 0 ((Token.scan (trimmed raw)).map (·.kind)) ≤ settings.maxNestingDepth.toNat) ∧
    (settings.maxNestingDepth.toNat < mostOpen 0 ((Token.scan (trimmed raw)).map (·.kind)) →
      ∃ before t after fault,
        Token.scan (trimmed raw) = before ++ t :: after ∧ t.kind = .opening ∧
        openAfter 0 (before.map (·.kind)) = settings.maxNestingDepth.toNat ∧
        mostOpen 0 (before.map (·.kind)) = settings.maxNestingDepth.toNat ∧
        compile settings raw = .error (.fault fault) ∧ fault.span = some t.span ∧
        fault.complaint.message = "Maximum nesting depth of " ++
          toString settings.maxNestingDepth.toNat ++ " exceeded") := by
  constructor
  · constructor
    · rintro ⟨q, hq⟩
      obtain ⟨-, ns, row, -, hdeep, -⟩ := (compile_eq_ok_iff settings q).mp hq
      rw [row.mostOpen_eq]
      exact hdeep
    · intro hroom
      exact exists_compile settings h hroom
  · intro hdeep
    obtain ⟨before, t, after, hsplit, hkind, hopen, hmost, hstop⟩ := compile_of_deep settings h hdeep
    exact ⟨before, t, after, _, hsplit, hkind, hopen, hmost, hstop, rfl, rfl⟩

theorem compile_nesting_two :
    validate "([a] AND ([b]))" = .ok () ∧ (∃ q, compile ⟨2⟩ "([a] AND ([b]))" = .ok q) ∧
      ¬ ∃ q, compile ⟨1⟩ "([a] AND ([b]))" = .ok q := by
  have hvalid : validate "([a] AND ([b]))" = .ok () := by decide +kernel
  have hroom : mostOpen 0 ((Token.scan (trimmed "([a] AND ([b]))")).map (·.kind)) = 2 := by
    decide +kernel
  refine ⟨hvalid, (compile_nesting ⟨2⟩ _ hvalid).1.mpr ?_, fun hq => ?_⟩
  · rw [hroom]
    decide
  · have hle := (compile_nesting ⟨1⟩ _ hvalid).1.mp hq
    rw [hroom] at hle
    exact absurd hle (by decide)

end BooleanSearch.Query
