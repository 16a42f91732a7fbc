import BooleanSearch.Node.Builder

/-!
# Reading trees with a cursor

The tokens stay where they are and a cursor moves over them. One function reads a row, another the
operand that comes next in it, and a group is a row inside an operand. Where a row meets a term or an
opening bracket the cursor steps back, so that the operand begins with that token.

Both functions stop: an operand takes a token before it reads the row inside a group, and the row goes
on behind the operand. A reading that fails leaves the cursor behind the last token that it took.

* `Cursor`, `Cursor.next`, `Cursor.back`: what moves.
* `Cursor.Forward p q`: the cursor `q` is `p`, or `p` moved towards the end of its tokens.
* `Reading`: what was read, and where the cursor stands behind it.
* `Filling`: a row of which some nodes have been read.
* `Cursor.row`, `Cursor.operand`: the two functions.
* `Cursor.read`, `Cursor.readTimes`: reading a tree, and reading on where that stopped.
-/

namespace BooleanSearch
set_option autoImplicit false

/-! ## Cursors -/

/-- Some tokens, how many of them have been read, and how many groups may be open at once. -/
structure Cursor where
  limit : Nat
  tokens : List Token
  position : Nat
  deriving DecidableEq, Repr

namespace Cursor

/-- A cursor before the first token. -/
def start (limit : Nat) (tokens : List Token) : Cursor := ⟨limit, tokens, 0⟩

def token? (c : Cursor) : Option Token := c.tokens[c.position]?

/-- The token at the position is taken, if there is one. -/
def next (c : Cursor) : Cursor :=
  if c.position < c.tokens.length then { c with position := c.position + 1 } else c

def back (c : Cursor) : Cursor := { c with position := c.position - 1 }

/-- How many tokens are ahead. -/
def left (c : Cursor) : Nat := c.tokens.length - c.position

theorem next_of_some {c : Cursor} {t : Token} (ht : c.token? = some t) :
    c.next = { c with position := c.position + 1 } :=
  if_pos (List.getElem?_eq_some_iff.mp ht).1

theorem next_of_none {c : Cursor} (ht : c.token? = none) : c.next = c :=
  if_neg (Nat.not_lt.mpr (List.getElem?_eq_none_iff.mp ht))

theorem back_next {c : Cursor} {t : Token} (ht : c.token? = some t) : c.next.back = c := by
  rw [next_of_some ht]
  rfl

/-- The same tokens and the same limit, with as many tokens read or more. -/
structure Forward (p q : Cursor) : Prop where
  limit : q.limit = p.limit
  tokens : q.tokens = p.tokens
  position_le : p.position ≤ q.position
  within : p.position ≤ p.tokens.length → q.position ≤ p.tokens.length

theorem Forward.refl (p : Cursor) : Forward p p := ⟨rfl, rfl, Nat.le_refl _, id⟩

theorem Forward.trans {p q s : Cursor} (h : Forward p q) (h' : Forward q s) : Forward p s where
  limit := h'.limit.trans h.limit
  tokens := h'.tokens.trans h.tokens
  position_le := Nat.le_trans h.position_le h'.position_le
  within hle := h.tokens ▸ h'.within (h.tokens.symm ▸ h.within hle)

theorem forward_next (c : Cursor) : Forward c c.next := by
  unfold next
  split
  · next hlt => exact ⟨rfl, rfl, Nat.le_succ _, fun _ => hlt⟩
  · exact Forward.refl c

/-- The same token is taken again behind a step back. -/
theorem forward_again {c : Cursor} {t : Token} (ht : c.token? = some t) :
    Forward c.next c.next.back.next := by
  rw [back_next ht]
  exact Forward.refl _

theorem left_lt {p q : Cursor} {t : Token} (ht : p.token? = some t) (h : Forward p.next q) :
    q.left < p.left := by
  have hlt := (List.getElem?_eq_some_iff.mp ht).1
  have hmoved := h.position_le
  have htokens := h.tokens
  rw [next_of_some ht] at hmoved htokens
  rw [left, left, htokens]
  exact Nat.sub_lt_sub_left hlt hmoved

end Cursor

/-! ## Readings -/

/-- What was read from `c` on, or why reading failed, and the cursor behind it. A reading takes a token,
if there is one. -/
structure Reading (c : Cursor) (α : Type) where
  result : Except Fault α
  behind : Cursor
  forward : c.next.Forward behind

namespace Reading
variable {α β : Type} {c d : Cursor}

/-- Nothing is read but the token. -/
def stop (result : Except Fault α) : Reading c α := ⟨result, c.next, .refl _⟩

def map (f : α → β) (x : Reading c α) : Reading c β := ⟨x.result.map f, x.behind, x.forward⟩

/-- A reading from `d` on is part of one from `c` on. -/
def since (h : c.next.Forward d.next) (x : Reading d α) : Reading c α :=
  ⟨x.result, x.behind, h.trans x.forward⟩

/-- Reading on, unless the first reading failed. -/
def bind (x : Reading c α) (f : α → (q : Cursor) → c.next.Forward q → Reading q β) : Reading c β :=
  match x.result with
  | .error fault => ⟨.error fault, x.behind, x.forward⟩
  | .ok a => (f a x.behind x.forward).since (x.forward.trans (Cursor.forward_next _))

end Reading

/-- The row that is being filled: its nodes, last first, and the keywords read since the last
operand, in order. -/
structure Filling where
  nodes : List Node
  waiting : List (Keyword × Span)
  deriving DecidableEq, Repr

namespace Filling

def empty : Filling := ⟨[], []⟩

def wait (r : Filling) (k : Keyword) (span : Span) : Filling :=
  { r with waiting := r.waiting ++ [(k, span)] }

def put (r : Filling) (n : Node) : Filling := { r with nodes := n :: r.nodes }

/-- The machine that fills this row, with these rows around it. -/
def inside (r : Filling) (outer : List OpenRow) (field : Option Field) : Builder :=
  ⟨outer, r.nodes, r.waiting, field⟩

/-- The keywords that wait become a connector, as they do without any row around. -/
def join (r : Filling) : Except Fault Filling := do
  let b ← (r.inside [] none).join
  return ⟨b.row, b.waiting⟩

end Filling

/-! ## Rows and operands -/

namespace Cursor

mutual

/-- The row is read up to the end of the tokens, or up to the bracket that closes it when it is the row
of a group. Keywords at its end have no operand and are dropped. -/
def row (c : Cursor) (depth : Nat) (r : Filling) : Reading c (List Node) :=
  match ht : c.token? with
  | none => .stop (if 0 < depth then .error ⟨.openGroup, none⟩ else .ok r.nodes.reverse)
  | some t =>
    match t.kind with
    | .keyword k => (c.next.row depth (r.wait k t.span)).since (forward_next _)
    | .fieldPrefix code =>
      match Field.ofCode? code with
      | none => .stop (.error ⟨.unknownField code, some t.span⟩)
      | some f =>
        ((c.next.operand (some f) depth r).bind fun r q _ => q.row depth r).since (forward_next _)
    | .term _ | .opening =>
      ((c.next.back.operand none depth r).bind fun r q _ => q.row depth r).since
        (forward_again ht)
    | .closing =>
      .stop (if depth = 0 then .error ⟨.strayClosing, some t.span⟩ else .ok r.nodes.reverse)
    | .word _ | .illegal => .stop (.error ⟨.noPlace t.kind, some t.span⟩)
termination_by (c.left, 1)
decreasing_by
  · exact .left _ _ (left_lt ht (.refl _))
  · exact .left _ _ (left_lt ht (.refl _))
  · next hq => exact .left _ _ (left_lt ht ((forward_next _).trans hq))
  -- The operand begins where the row is, and reads the row only further on.
  · rw [back_next ht]
    exact .right _ Nat.zero_lt_one
  all_goals next hq => exact .left _ _ (left_lt ht ((forward_again ht).trans hq))

/-- A term or a group is read and put into the row, behind the connector that waits. -/
def operand (c : Cursor) (field : Option Field) (depth : Nat) (r : Filling) : Reading c Filling :=
  match _ : c.token? with
  | none => .stop (.error ⟨.endAfterField, none⟩)
  | some t =>
    match t.kind with
    | .term value => .stop (r.join.map fun r => r.put (.term value field))
    | .opening =>
      match r.join with
      | .error fault => .stop (.error fault)
      | .ok r =>
        if c.limit < depth + 1 then .stop (.error ⟨.tooDeep c.limit, some t.span⟩)
        else ((c.next.row (depth + 1) .empty).map fun children =>
          r.put (.group children field)).since (forward_next _)
    | found => .stop (.error ⟨.noOperand found, some t.span⟩)
termination_by (c.left, 0)
decreasing_by next ht _ => exact .left _ _ (left_lt ht (.refl _))

end

/-- A tree is read, from the token at the position on. -/
def read (c : Cursor) : Except Fault Node × Cursor :=
  let reading := c.row 0 .empty
  (reading.result.map .root, reading.behind)

/-- Trees are read `times` times, each time from where the last reading stopped. -/
def readTimes : (times : Nat) → Cursor → List (Except Fault Node)
  | 0, _ => []
  | times + 1, c =>
    let (result, c) := c.read
    result :: readTimes times c

end Cursor

/-- The results of reading trees from some tokens `times` times, with one cursor. -/
def Node.readRepeatedly (limit times : Nat) (tokens : List Token) : List (Except Fault Node) :=
  (Cursor.start limit tokens).readTimes times

end BooleanSearch
