import BooleanSearch.Proofs.Node.Parsable
import BooleanSearch.Proofs.Query.Canonical

/-!
# Reading a text as a tree

Any text may be read as a tree, query or not.

* `Query.parse_canonical`: a tree that can be read is read from its own canonical text.
* `Query.parsable_of_parse`: no other tree is read from any text.
* `Query.parse_inverts_canonical`: both.
-/

namespace BooleanSearch.Query
set_option autoImplicit false

variable {limit : Nat} {tree : Node}

theorem parse_canonical (h : tree.Parsable limit) : parse limit tree.canonical = .ok tree := by
  obtain ⟨row, rfl⟩ := h.isRoot
  have hfits := (Node.parsable_root_iff limit row).mp h
  have hkinds := (scan_canonical row hfits.closed).1
  unfold parse Node.ofTokens
  rw [Node.readTokens_canonical hfits _ hkinds]

theorem parsable_of_parse {text : String} (h : parse limit text = .ok tree) :
    tree.Parsable limit := by
  apply Node.parsable_of_ofTokens h
  intro t ht v hv
  exact scan_closed text v ((mem_kinds_term _ v).mpr ⟨t, ht, hv⟩)

/-- Writing a tree in the usual way and reading the text gives the tree again, for every tree that can
be read at all: a root with no root below it, where no term holds a closing bracket, every connector
has its operand, and the groups are within the limit. Whatever the text, the tree that is read from it
is one of these. -/
theorem parse_inverts_canonical (limit : Nat) (tree : Node) :
    (tree.Parsable limit → parse limit tree.canonical = .ok tree) ∧
      ∀ text, parse limit text = .ok tree → tree.Parsable limit :=
  ⟨parse_canonical, fun _ => parsable_of_parse⟩

/-- The tree is that of a text that keeps few of the rules of a query. -/
theorem parse_inverts_canonical_loose :
    let tree : Node := .root [.connector .or, .group [] (some .title), .term "AND [x" none,
      .term "" (some .keyword), .group [.connector .andNot, .term ")" none] none]
    parse 1 "or ti()[AND [x]KEY[](and not [)] Or)and" = .ok tree ∧ tree.Parsable 1 ∧
      parse 1 "OR ti() [AND [x] key[] (AND NOT [)])" = .ok tree := by
  intro tree
  have hread : parse 1 "or ti()[AND [x]KEY[](and not [)] Or)and" = .ok tree := by decide +kernel
  have hcanonical : tree.canonical = "OR ti() [AND [x] key[] (AND NOT [)])" := by decide +kernel
  obtain ⟨hagain, himage⟩ := parse_inverts_canonical 1 tree
  have hparsable := himage _ hread
  rw [hcanonical] at hagain
  exact ⟨hread, hparsable, hagain hparsable⟩

end BooleanSearch.Query
