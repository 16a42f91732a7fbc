import BooleanSearch.Proofs.Json.Value
import BooleanSearch.Record.Stored

/-!
# Stored records are read back

* `Data.openAtOnce`: the most arrays and objects that are open at once while data is written.
* `Record.ofValue_toData`: a record is read from its own JSON as long as there is room for all that is
  open at once.
* `Document.read_write`: the same for the text of a document.
-/

namespace BooleanSearch
set_option autoImplicit false
open Json

/-! ## Arrays and objects that are open -/

mutual

/-- The most arrays and objects that are open at once in some data. -/
def Json.Data.openAtOnce : Data → Nat
  | .text _ | .natural _ => 0
  | .array items => openInItems items + 1
  | .object members => openInMembers members + 1

def Json.openInItems : List Data → Nat
  | [] => 0
  | d :: ds => max d.openAtOnce (openInItems ds)

def Json.openInMembers : List Member → Nat
  | [] => 0
  | .mk _ d :: ms => max d.openAtOnce (openInMembers ms)

end

namespace Record

/-! ## The members of a record -/

def textMember (key : String) (part : Option String) : List Member :=
  part.toList.map fun s => .mk key (.text s)

def childrenMember : List Record → List Member
  | [] => []
  | c :: cs => [.mk "children" (.array (toDataOfRow (c :: cs)))]

theorem toData_eq (kind : String) (value field : Option String) (children : List Record) :
    toData ⟨kind, value, field, children⟩ = .object (.mk "node_type" (.text kind) ::
      (textMember "value" value ++ (textMember "field" field ++ childrenMember children))) := by
  cases children with
  | nil => simp [toData, textMember, childrenMember]
  | cons c cs => simp [toData, toDataOfRow, textMember, childrenMember]

theorem openInMembers_textMember (key : String) (part : Option String) (ms : List Member) :
    openInMembers (textMember key part ++ ms) = openInMembers ms := by
  cases part with
  | none => rfl
  | some s => exact Nat.zero_max _

theorem fitMembers_textMember (key : String) (part : Option String) (ms : List Member)
    (h : FitMembers ms) : FitMembers (textMember key part ++ ms) := by
  cases part with
  | none => exact h
  | some s => exact ⟨trivial, h⟩

theorem openAtOnce_toData (kind : String) (value field : Option String) (children : List Record) :
    (toData ⟨kind, value, field, children⟩).openAtOnce = openInMembers (childrenMember children) + 1 := by
  rw [toData_eq, Data.openAtOnce, openInMembers, Data.openAtOnce, Nat.zero_max,
    openInMembers_textMember, openInMembers_textMember]

mutual

theorem fits_toData : ∀ r : Record, r.toData.Fits
  | ⟨kind, value, field, children⟩ => by
    have hrow := fits_toDataOfRow children
    have hchildren : FitMembers (childrenMember children) := by
      cases children with
      | nil => trivial
      | cons c cs => exact ⟨hrow, trivial⟩
    rw [toData_eq]
    exact ⟨trivial, fitMembers_textMember _ _ _ (fitMembers_textMember _ _ _ hchildren)⟩

theorem fits_toDataOfRow : ∀ rs : List Record, FitItems (toDataOfRow rs)
  | [] => trivial
  | r :: rs => ⟨fits_toData r, fits_toDataOfRow rs⟩

end

/-! ## Reading the members -/

variable (room : Nat)

theorem ofMembers_kind (kind : String) (rest : Members) :
    ofMembers room Parts.none (.member (some "node_type") (.string (some kind)) rest) =
      ofMembers room { Parts.none with kind := some kind } rest := by
  rw [ofMembers, if_pos (beq_self_eq_true _)]
  rfl

theorem ofMembers_value (p : Parts) (value : Option String) (ms : List Member)
    (h : p.value = none) :
    ofMembers room p (valueOfMembers (textMember "value" value ++ ms)) =
      ofMembers room { p with value := value.map some } (valueOfMembers ms) := by
  obtain ⟨kind, found, field, children⟩ := p
  obtain rfl : found = none := h
  cases value with
  | none => rfl
  | some v =>
    have hkey : ¬ ("value" == "node_type") = true := by decide
    change ofMembers room _ (.member (some "value") (.string (some v)) (valueOfMembers ms)) = _
    rw [ofMembers, if_neg hkey, if_pos (beq_self_eq_true _)]
    rfl

theorem ofMembers_field (p : Parts) (field : Option String) (ms : List Member)
    (h : p.field = none) :
    ofMembers room p (valueOfMembers (textMember "field" field ++ ms)) =
      ofMembers room { p with field := field.map some } (valueOfMembers ms) := by
  obtain ⟨kind, value, found, children⟩ := p
  obtain rfl : found = none := h
  cases field with
  | none => rfl
  | some f =>
    have hkey : ¬ ("field" == "node_type") = true := by decide
    have hkey' : ¬ ("field" == "value") = true := by decide
    change ofMembers room _ (.member (some "field") (.string (some f)) (valueOfMembers ms)) = _
    rw [ofMembers, if_neg hkey, if_neg hkey', if_pos (beq_self_eq_true _)]
    rfl

theorem ofMembers_children (p : Parts) (v : Value) (h : p.children = none) :
    ofMembers room p (.member (some "children") v .closed) =
      (rowOfValue room v >>= fun children => Parts.record { p with children := some children }) := by
  obtain ⟨kind, value, field, found⟩ := p
  obtain rfl : found = none := h
  have hkey : ¬ ("children" == "node_type") = true := by decide
  have hkey' : ¬ ("children" == "value") = true := by decide
  have hkey'' : ¬ ("children" == "field") = true := by decide
  rw [ofMembers, if_neg hkey, if_neg hkey', if_neg hkey'', if_pos (beq_self_eq_true _)]
  rfl

theorem record_found (kind : String) (value field : Option String)
    (children : Option (List Record)) :
    Parts.record ⟨some kind, value.map some, field.map some, children⟩ =
      .ok ⟨kind, value, field, children.getD []⟩ := by
  have hjoin : ∀ part : Option String, (part.map some).join = part := by
    intro part
    cases part <;> rfl
  unfold Parts.record
  dsimp only
  rw [hjoin, hjoin]

/-! ## A record is read back -/

mutual

theorem ofValue_toData : ∀ (r : Record) (room : Nat),
    ofValue room r.toData.value = if r.toData.openAtOnce ≤ room then .ok r else malformed
  | ⟨kind, value, field, children⟩, 0 => by
    rw [openAtOnce_toData, if_neg (Nat.not_succ_le_zero _), toData_eq]
    rfl
  | ⟨kind, value, field, children⟩, room + 1 => by
    have hrow := rowOfValue_toDataOfRow children room
    have hmembers : ofValue (room + 1) (toData ⟨kind, value, field, children⟩).value =
        ofMembers room ⟨some kind, value.map some, field.map some, none⟩
          (valueOfMembers (childrenMember children)) := by
      rw [toData_eq]
      change ofMembers room Parts.none (.member (some "node_type") (.string (some kind)) _) = _
      rw [ofMembers_kind, ofMembers_value room _ value _ rfl, ofMembers_field room _ field _ rfl]
      rfl
    rw [hmembers, openAtOnce_toData]
    cases children with
    | nil =>
      rw [childrenMember, openInMembers, if_pos (Nat.succ_le_succ (Nat.zero_le room))]
      exact record_found kind value field none
    | cons c cs =>
      change ofMembers room _ (.member (some "children") _ .closed) = _
      rw [ofMembers_children room _ _ rfl]
      rw [hrow, childrenMember, openInMembers, openInMembers, Data.openAtOnce, Nat.max_zero]
      by_cases hroom : openInItems (toDataOfRow (c :: cs)) + 1 ≤ room
      · rw [if_pos hroom, if_pos (Nat.succ_le_succ hroom)]
        exact record_found kind value field (some (c :: cs))
      · rw [if_neg hroom, if_neg fun h => hroom (Nat.le_of_succ_le_succ h)]
        rfl

theorem rowOfValue_toDataOfRow : ∀ (rs : List Record) (room : Nat),
    rowOfValue room (Data.array (toDataOfRow rs)).value =
      if openInItems (toDataOfRow rs) + 1 ≤ room then .ok rs else malformed
  | rs, 0 => by
    rw [if_neg (Nat.not_succ_le_zero _)]
    rfl
  | rs, room + 1 => by
    have hrow := rowOfItems_toDataOfRow rs room
    change rowOfItems room (valueOfItems (toDataOfRow rs)) = _
    rw [hrow]
    by_cases hroom : openInItems (toDataOfRow rs) ≤ room
    · rw [if_pos hroom, if_pos (Nat.succ_le_succ hroom)]
    · rw [if_neg hroom, if_neg fun h => hroom (Nat.le_of_succ_le_succ h)]

theorem rowOfItems_toDataOfRow : ∀ (rs : List Record) (room : Nat),
    rowOfItems room (valueOfItems (toDataOfRow rs)) =
      if openInItems (toDataOfRow rs) ≤ room then .ok rs else malformed
  | [], room => by
    rw [toDataOfRow, openInItems, if_pos (Nat.zero_le room)]
    rfl
  | r :: rs, room => by
    have hr := ofValue_toData r room
    have hrs := rowOfItems_toDataOfRow rs room
    rw [toDataOfRow, valueOfItems, rowOfItems, hr, hrs, openInItems]
    by_cases hfirst : r.toData.openAtOnce ≤ room
    · rw [if_pos hfirst]
      by_cases hmore : openInItems (toDataOfRow rs) ≤ room
      · rw [if_pos hmore, if_pos (Nat.max_le.mpr ⟨hfirst, hmore⟩)]
        rfl
      · rw [if_neg hmore, if_neg fun h => hmore (Nat.max_le.mp h).2]
        rfl
    · rw [if_neg hfirst, if_neg fun h => hfirst (Nat.max_le.mp h).1]
      rfl

end

end Record

/-! ## Documents -/

namespace Document

theorem openAtOnce_toData (d : Document) :
    d.toData.openAtOnce = d.tree.toData.openAtOnce + 1 := by
  unfold toData
  rw [Data.openAtOnce, openInMembers, openInMembers, openInMembers, Data.openAtOnce, Nat.max_zero,
    Nat.zero_max]

theorem fits_toData (d : Document) : d.toData.Fits :=
  ⟨trivial, d.tree.fits_toData, trivial⟩

theorem ofValue_toData (d : Document) (room : Nat) :
    ofValue room d.toData.value = if d.toData.openAtOnce ≤ room then .ok d else malformed := by
  obtain ⟨text, tree⟩ := d
  rw [openAtOnce_toData]
  cases room with
  | zero =>
    rw [if_neg (Nat.not_succ_le_zero _)]
    rfl
  | succ room =>
    have htree := tree.ofValue_toData room
    have hkey : ¬ ("tree" == "raw_query") = true := by decide
    have hmembers : ofValue (room + 1) (toData ⟨text, tree⟩).value =
        (Record.ofValue room tree.toData.value >>= fun tree => .ok ⟨text, tree⟩) := by
      change ofMembers room none none (.member (some "raw_query") (.string (some text))
        (.member (some "tree") tree.toData.value .closed)) = _
      rw [ofMembers, if_pos (beq_self_eq_true _)]
      change ofMembers room (some text) none (.member (some "tree") tree.toData.value .closed) = _
      rw [ofMembers, if_neg hkey, if_pos (beq_self_eq_true _)]
      rfl
    rw [hmembers, htree]
    dsimp only
    by_cases hroom : tree.toData.openAtOnce ≤ room
    · rw [if_pos hroom, if_pos (Nat.succ_le_succ hroom)]
      rfl
    · rw [if_neg hroom, if_neg fun h => hroom (Nat.le_of_succ_le_succ h)]
      rfl

/-- The text of a document is read as that document, as long as the reader has room for all arrays and
objects that are open at once. -/
theorem read_write (d : Document) :
    read d.write = if d.toData.openAtOnce ≤ nestingLimit then .ok d else malformed := by
  unfold read write
  rw [Json.read_write _ d.fits_toData]
  dsimp only
  rw [ofValue_toData]
  by_cases hroom : d.toData.openAtOnce ≤ nestingLimit
  · rw [if_pos hroom]
    rfl
  · rw [if_neg hroom]
    rfl

end Document
end BooleanSearch
