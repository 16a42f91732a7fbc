import BooleanSearch.Proofs.Query.Canonical
import BooleanSearch.Proofs.Query.Scope
import BooleanSearch.Proofs.Rule.Term

/-!
# The terms of a query

* `Query.rule_of_compile`: every term of a query is read between two brackets of the text and keeps the
  rule for one term.
* `Query.compile_terms`: what the terms of a query look like, and where their wildcards are.
-/

namespace BooleanSearch
set_option autoImplicit false

/-- A tree has a wildcard exactly when one of its terms has, since an empty term has none. -/
theorem Node.hasWildcard_iff (n : Node) :
    n.hasWildcard = true ↔ ∃ v ∈ n.terms, '?' ∈ v.toList ∨ '*' ∈ v.toList := by
  rw [Node.hasWildcard, List.any_eq_true]
  constructor
  · rintro ⟨⟨v, f⟩, hterm, hany⟩
    have hin := (Wildcard.any_isMark_iff v.toList).mp hany
    have hne : v ≠ "" := by
      rintro rfl
      exact absurd hin (by simp)
    exact ⟨v, List.mem_filter.mpr ⟨List.mem_map_of_mem hterm, bne_iff_ne.mpr hne⟩, hin⟩
  · rintro ⟨v, hv, hin⟩
    obtain ⟨t, hterm, rfl⟩ := List.mem_map.mp (List.mem_filter.mp hv).1
    exact ⟨t, hterm, (Wildcard.any_isMark_iff _).mpr hin⟩

namespace Query

theorem values_of_compile {settings : Settings} {raw : String} {q : Query}
    (h : compile settings raw = .ok q) :
    q.root.termNodes.map (·.1) = termsOf ((Token.scan (trimmed raw)).map (·.kind)) := by
  obtain ⟨-, ns, row, -, -, rfl⟩ := (compile_eq_ok_iff settings q).mp h
  rw [row.termsOf_eq, ← Node.termNodesOfRow_settleRow ns]
  exact Node.values_bindRow none (Node.settleRow ns)

/-- The rules look at what stands between brackets, and the tree holds the terms that were scanned. They
are the same texts, and the count of brackets leaves none with a bracket inside. -/
theorem rule_of_compile {settings : Settings} {raw : String} {q : Query}
    (h : compile settings raw = .ok q) :
    ∀ v ∈ q.root.termNodes.map (·.1), TermText v ∧ '[' ∉ v.toList ∧ ']' ∉ v.toList := by
  have hquery := (validate_iff_trimmed raw).mp (validate_of_compile h)
  intro v hv
  rw [values_of_compile h] at hv
  obtain ⟨t, ht, hkind⟩ := (mem_kinds_term _ v).mp hv
  obtain ⟨hopen, hrule⟩ := hquery.terms t ht v hkind
  exact ⟨(Rule.term_eq_ok_iff v).mp hrule, hopen, scan_closed _ v hv⟩

/-- Every term of a query has something in it and neither brackets nor quotes. It has one wildcard at
most, behind its first character and in a term of one word; an asterisk is its last character, behind
three others. So the wildcard of a term is seen on its last character or by looking for a question
mark, no term is skipped, and the query has wildcards when one of its terms has. -/
theorem compile_terms (settings : Settings) (raw : String) (q : Query)
    (h : compile settings raw = .ok q) :
    (∀ v f, Node.term v f ∈ q.root.nodesBelow →
      (TermText v ∧ '[' ∉ v.toList ∧ ']' ∉ v.toList) ∧
      ((Node.term v f).wildcard? = some .multiple ↔ v.toList.getLast? = some '*') ∧
      ((Node.term v f).wildcard? = some .single ↔ '?' ∈ v.toList) ∧
      ((Node.term v f).wildcard? = none ↔ v.toList.getLast? ≠ some '*' ∧ '?' ∉ v.toList)) ∧
    q.terms = q.root.termNodes.map (·.1) ∧
    q.terms.length = q.root.nodesBelow.countP (·.asTerm?.isSome) ∧
    (q.hasWildcard = true ↔ ∃ v ∈ q.terms, '?' ∈ v.toList ∨ '*' ∈ v.toList) := by
  have hrule := rule_of_compile h
  have hbelow : q.root.termNodes = q.root.nodesBelow.filterMap Node.asTerm? :=
    Node.termNodesOfRow_eq q.parts
  have hterms : q.terms = q.root.termNodes.map (·.1) := by
    refine q.root.terms_eq fun v hv => ?_
    rintro rfl
    obtain ⟨c, hc, -⟩ := (hrule _ hv).1.visible
    exact absurd hc (by simp)
  refine ⟨fun v f hterm => ?_, hterms, ?_, q.root.hasWildcard_iff⟩
  · have hv : v ∈ q.root.termNodes.map (·.1) := by
      rw [hbelow, List.mem_map]
      exact ⟨(v, f), List.mem_filterMap.mpr ⟨_, hterm, rfl⟩, rfl⟩
    have hshape := hrule v hv
    exact ⟨hshape, hshape.1.first?_multiple, hshape.1.first?_single, hshape.1.first?_none⟩
  · rw [hterms, List.length_map, hbelow, List.length_filterMap_eq_countP]

theorem compile_terms_wild :
    ∃ q, compile Settings.default "[été*] AND ti([s?n] OR [two words])" = .ok q ∧
      TermText "été*" ∧ (Node.term "été*" none).wildcard? = some .multiple ∧
      (Node.term "s?n" (some .title)).wildcard? = some .single ∧ q.terms.length = 3 ∧
      q.hasWildcard = true := by
  have hread : compile Settings.default "[été*] AND ti([s?n] OR [two words])" =
      .ok ⟨"[été*] AND ti([s?n] OR [two words])",
        [.term "été*" none, .connector .and,
          .group [.term "s?n" (some .title), .connector .or,
            .term "two words" (some .title)] none]⟩ := by
    decide +kernel
  obtain ⟨hterms, hvalues, hcount, hwild⟩ := compile_terms Settings.default _ _ hread
  obtain ⟨⟨htext, -, -⟩, hmultiple, -⟩ := hterms "été*" none List.mem_cons_self
  obtain ⟨-, -, hsingle, -⟩ := hterms "s?n" (some .title)
    (by simp [Query.root, Node.nodesBelow, Node.nodesOfRow])
  refine ⟨_, hread, htext, hmultiple.mpr ?_, hsingle.mpr ?_, hcount, hwild.mpr ?_⟩
  · decide
  · decide
  · rw [hvalues]
    exact ⟨"été*", List.mem_cons_self, by decide⟩

end Query
end BooleanSearch
