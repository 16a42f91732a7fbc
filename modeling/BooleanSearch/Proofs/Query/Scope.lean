import BooleanSearch.Proofs.Node.Below
import BooleanSearch.Proofs.Node.Canonical
import BooleanSearch.Proofs.Query.Compile

/-!
# Which field holds for a term

A field that is written before a group holds for the terms in it that have none of their own. The tree
is told so after it is built; the tokens say it in one pass, with the fields of the open groups on a
stack.

* `scopedTerms`: the terms among some tokens, each with the field that holds for it.
* `Row.scopedTerms_append`: what the pass finds in a row is what the tree of the row holds.
* `Query.compile_scope`: the terms and the fields of a query.
-/

namespace BooleanSearch
set_option autoImplicit false

/-! ## One pass over the tokens -/

/-- The field that holds in the innermost of the open groups, given for each of them. -/
def innermost (around : List (Option Field)) : Option Field := around.head?.join

/-- The terms among some tokens, each with the field that holds for it. The fields that hold in the
groups that are open are given innermost first, and the field whose code stands directly before the
tokens. -/
def scopedTerms : (around : List (Option Field)) → (own : Option Field) → List Kind →
    List (String × Option Field)
  | _, _, [] => []
  | around, own, .term value :: ks =>
    (value, own.or (innermost around)) :: scopedTerms around none ks
  | around, own, .opening :: ks => scopedTerms (own.or (innermost around) :: around) none ks
  | around, _, .closing :: ks => scopedTerms around.tail none ks
  | around, _, .fieldPrefix code :: ks => scopedTerms around (Field.ofCode? code) ks
  | around, _, _ :: ks => scopedTerms around none ks

def scopedTermsIn (text : String) : List (String × Option Field) := scopedTerms [] none (kindsIn text)

/-! ## What it finds in a row -/

theorem Binding.scopedTerms_append {field : Option Field} {before : List Kind}
    (h : Binding field before) (around : List (Option Field)) (ks : List Kind) :
    scopedTerms around none (before ++ ks) = scopedTerms around field ks := by
  cases h with
  | free => rfl
  | code code f hcode =>
    change scopedTerms around (Field.ofCode? code) ks = _
    rw [hcode]

theorem scopedTerms_keywords (ws : List Keyword) (around : List (Option Field)) (ks : List Kind) :
    scopedTerms around none (ws.map .keyword ++ ks) = scopedTerms around none ks := by
  induction ws with
  | nil => rfl
  | cons w ws ih => exact ih

/-- The pass finds the terms of a row, bound to what holds around it, and leaves the open groups as
they are. -/
theorem Row.scopedTerms_append {ns : List Node} {ks : List Kind} (row : Row ns ks)
    (around : List (Option Field)) (rest : List Kind) :
    scopedTerms around none (ks ++ rest) =
      Node.termNodesOfRow (Node.bindRow (innermost around) ns) ++ scopedTerms around none rest := by
  induction row generalizing around rest with
  | nil => rfl
  | @term field before ns ks value binding more ih =>
    rw [List.append_assoc, binding.scopedTerms_append, List.cons_append, scopedTerms, ih]
    rfl
  | @group field before inside ns ls ks binding body chain more ihb ihr =>
    have hgroup := ihb (field.or (innermost around) :: around) (.closing :: (ks ++ rest))
    rw [scopedTerms, List.tail_cons, ihr] at hgroup
    rw [List.append_assoc, binding.scopedTerms_append, List.cons_append, scopedTerms,
      List.append_assoc, List.cons_append, hgroup, ← List.append_assoc]
    rfl
  | connector c more ih =>
    rw [List.append_assoc, scopedTerms_keywords, ih]
    rfl

theorem Row.scopedTerms_eq {ns : List Node} {ks : List Kind} (row : Row ns ks) :
    scopedTerms [] none ks = Node.termNodesOfRow (Node.bindRow none (Node.settleRow ns)) := by
  have hrow := row.scopedTerms_append [] []
  rw [List.append_nil, scopedTerms, List.append_nil] at hrow
  rw [hrow, ← Node.settleRow_bindRow, Node.termNodesOfRow_settleRow]
  rfl

/-! ## Queries -/

theorem Node.mem_fields (n : Node) (f : Field) :
    f ∈ n.fields ↔ some f ∈ n.termNodes.map (·.2) := by
  rw [Node.fields, Field.mem_listed, List.mem_filterMap, List.mem_map]

/-- Where no term is empty, the terms of a tree are all of them. -/
theorem Node.terms_eq (n : Node) (h : ∀ v ∈ n.termNodes.map (·.1), v ≠ "") :
    n.terms = n.termNodes.map (·.1) := by
  rw [Node.terms, List.filter_eq_self]
  intro v hv
  exact bne_iff_ne.mpr (h v hv)

theorem IsQuery.term_ne_empty {tokens : List Token} (h : IsQuery tokens) :
    ∀ v ∈ termsOf (tokens.map (·.kind)), v ≠ "" := by
  intro v hv
  obtain ⟨t, ht, hkind⟩ := (mem_kinds_term tokens v).mp hv
  exact BooleanSearch.term_ne_empty (h.terms t ht v hkind).2

namespace Query

/-- Every term of a query has the field that one pass over the tokens finds for it, in order. The terms
and the fields of the query are those, and no group is left with a field. -/
theorem compile_scope (settings : Settings) (raw : String) (q : Query)
    (h : compile settings raw = .ok q) :
    q.root.termNodes = scopedTermsIn (trimmed raw) ∧
      q.terms = (scopedTermsIn (trimmed raw)).map (·.1) ∧
      (q.fields.Sublist Field.all ∧
        ∀ f, f ∈ q.fields ↔ some f ∈ (scopedTermsIn (trimmed raw)).map (·.2)) ∧
      ∀ cs f, Node.group cs f ∈ q.root.nodesBelow → f = none := by
  obtain ⟨hvalid, ns, row, -, -, rfl⟩ := (compile_eq_ok_iff settings q).mp h
  have hquery := (validate_iff_trimmed raw).mp hvalid
  have hterms : Node.termNodesOfRow (Node.bindRow none (Node.settleRow ns)) =
      scopedTermsIn (trimmed raw) := row.scopedTerms_eq.symm
  have hvalues : (Node.termNodesOfRow (Node.bindRow none (Node.settleRow ns))).map (·.1) =
      termsOf ((Token.scan (trimmed raw)).map (·.kind)) := by
    rw [row.termsOf_eq, Node.values_bindRow, Node.termNodesOfRow_settleRow]
  rw [← hterms]
  refine ⟨rfl, Node.terms_eq _ fun v hv => ?_, ⟨List.filter_sublist, Node.mem_fields _⟩,
    fun cs f hgroup => (row.seated none _ hgroup).1⟩
  exact hquery.term_ne_empty v (hvalues ▸ hv)

theorem compile_scope_nested :
    ∃ q, compile Settings.default "abs(ti[a] OR ([b])) AND key[c] AND [d]" = .ok q ∧
      q.root.termNodes = [("a", some .title), ("b", some .abstract), ("c", some .keyword),
        ("d", none)] ∧ q.terms = ["a", "b", "c", "d"] := by
  have hread : compile Settings.default "abs(ti[a] OR ([b])) AND key[c] AND [d]" =
      .ok ⟨"abs(ti[a] OR ([b])) AND key[c] AND [d]",
        [.group [.term "a" (some .title), .connector .or,
            .group [.term "b" (some .abstract)] none] none,
          .connector .and, .term "c" (some .keyword), .connector .and, .term "d" none]⟩ := by
    decide +kernel
  have hscoped : scopedTermsIn (trimmed "abs(ti[a] OR ([b])) AND key[c] AND [d]") =
      [("a", some .title), ("b", some .abstract), ("c", some .keyword), ("d", none)] := by
    decide +kernel
  obtain ⟨hnodes, hterms, -, -⟩ := compile_scope Settings.default _ _ hread
  rw [hscoped] at hnodes hterms
  exact ⟨_, hread, hnodes, hterms⟩

end Query
end BooleanSearch
