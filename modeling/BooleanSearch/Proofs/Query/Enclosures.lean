import BooleanSearch.Proofs.Query.Terms

/-!
# Other marks around the terms

A query can be written with other marks around its terms, for a search engine that has no fields. The
tree is written anew, but all that this does is to change the canonical text, token by token.

* `Node.withEnclosures_eq`: the text of a row in which no term holds a closing bracket.
* `Query.withEnclosures_eq_replaceAll`: the text of a query.
-/

namespace BooleanSearch
set_option autoImplicit false

/-- Both styles write the same pieces, and these are found again in the canonical text. -/
theorem Node.withEnclosures_eq (ms : List Node)
    (hclosed : ∀ v ∈ (Node.termNodesOfRow ms).map (·.1), ']' ∉ v.toList)
    (before after : String) (onlyWildcards : Bool) :
    (Node.root ms).withEnclosures before after onlyWildcards =
      Token.replaceAll (Style.enclosed before after onlyWildcards).rewrite
        (Node.root ms).canonical := by
  apply String.toList_injective
  rw [Token.toList_replaceAll, pieces_canonical ms hclosed, Node.withEnclosures,
    Node.toList_renderWith, Node.canonicalPieces, Node.rewritten]

namespace Query

/-- With other marks around its terms, a query is its canonical text in which the tokens are replaced:
a field code by nothing, a term by itself between the marks, unless only terms with a wildcard are
asked for and it has none. Every other token is copied, and so is all that stands between tokens. -/
theorem withEnclosures_eq_replaceAll (settings : Settings) (raw : String) (q : Query)
    (h : compile settings raw = .ok q) (before after : String) (onlyWildcards : Bool) :
    q.withEnclosures before after onlyWildcards =
      Token.replaceAll (Style.enclosed before after onlyWildcards).rewrite q.canonical := by
  have hclosed : ∀ v ∈ q.root.termNodes.map (·.1), ']' ∉ v.toList :=
    fun v hv => (rule_of_compile h v hv).2.2
  exact Node.withEnclosures_eq q.parts hclosed before after onlyWildcards

theorem withEnclosures_eq_replaceAll_wild :
    ∃ q, compile Settings.default "TI([a)nd*] or key[b])" = .ok q ∧
      q.canonical = "(ti[a)nd*] OR key[b])" ∧
      Token.replaceAll (Style.enclosed "<[" "" true).rewrite "(ti[a)nd*] OR key[b])" =
        "(<[a)nd* OR [b])" := by
  have hread : compile Settings.default "TI([a)nd*] or key[b])" =
      .ok ⟨"TI([a)nd*] or key[b])",
        [.group [.term "a)nd*" (some .title), .connector .or, .term "b" (some .keyword)] none]⟩ := by
    decide +kernel
  obtain ⟨q, hread, hcanonical, hwritten⟩ :
      ∃ q, compile Settings.default "TI([a)nd*] or key[b])" = .ok q ∧
        q.canonical = "(ti[a)nd*] OR key[b])" ∧
        q.withEnclosures "<[" "" true = "(<[a)nd* OR [b])" :=
    ⟨_, hread, by decide +kernel, by decide +kernel⟩
  have htext := withEnclosures_eq_replaceAll Settings.default _ q hread "<[" "" true
  rw [hcanonical] at htext
  exact ⟨q, hread, hcanonical, htext.symm.trans hwritten⟩

end Query
end BooleanSearch
