import BooleanSearch.Proofs.Json.Value
import BooleanSearch.Settings.File

/-!
# The depth that a file gives

A settings file gives the depth as a number literal, and the settings hold that number and no other.

* `Gives text given`: the text is an array with these elements, or an object with these values for the
  depth.
* `Sets given s`: no value sets the depth to 64, and one value sets it to the number that it is read as.
* `read_eq_ok_iff`: settings are read from the texts that give something, and are what it sets.
* `load_depth_as_written`: the settings of a file hold the number that its literal writes, a zero is
  refused, and so is every literal that is no number of 64 bits.
-/

namespace BooleanSearch.Settings
set_option autoImplicit false
open Json

/-! ## What a text gives for the depth -/

/-- The values that stand at the key of the depth. -/
def depthsIn (members : List Pair) : List Source :=
  (members.filter fun m => m.name == some "max_nesting_depth").map Pair.source

/-- What a text gives for the depth: all elements of an array, or the values of one key of an object
whose keys can all be read. -/
inductive Gives (text : String) : List Source → Prop where
  | array (items : List Source) : (Source.array items).IsTextOf text.toList → Gives text items
  | object (members : List Pair) : (Source.object members).IsTextOf text.toList →
      (∀ m ∈ members, m.name ≠ none) → Gives text (depthsIn members)

/-- The file that a path leads to holds a text that gives these values. -/
def Given (here : Folder) (path : String) (given : List Source) : Prop :=
  ∃ bytes text, here.find? path = some (.file bytes) ∧ String.fromUTF8? bytes = some text ∧
    Gives text given

/-- Settings as the given values set them. -/
def Sets (given : List Source) (s : Settings) : Prop :=
  given = [] ∧ s = default ∨ ∃ d, given = [d] ∧ depthOfValue d.value = .ok s.maxNestingDepth

/-- Settings as the given values set them behind a depth, if there is one. No value may follow it. -/
def SetsAfter : Option UInt64 → List Source → Settings → Prop
  | none, given, s => Sets given s
  | some n, given, s => given = [] ∧ s = ⟨n⟩

/-! ## One depth -/

theorem refuse_ne_ok {α : Type} (wanted : String) (v : Value) (a : α) :
    v.refuse wanted ≠ .ok a := by
  intro h
  unfold Value.refuse at h
  split at h <;> cases h

theorem natural_eq_ok_iff (wanted : String) (v : Value) (n : Nat) :
    v.natural wanted = .ok n ↔ v = .number (.natural n) := by
  constructor
  · intro h
    unfold Value.natural at h
    split at h
    · rw [Except.ok.inj h]
    · cases h
    · exact absurd h (refuse_ne_ok wanted _ n)
  · rintro rfl
    rfl

theorem depthOfValue_eq_ok_iff (v : Value) (depth : UInt64) :
    depthOfValue v = .ok depth ↔ ∃ n, v = .number (.natural n) ∧ UInt64.ofNat n = depth := by
  unfold depthOfValue
  rw [map_eq_pure_bind, bind_eq_ok_iff]
  refine exists_congr fun n => and_congr (natural_eq_ok_iff _ v n) ?_
  exact ⟨Except.ok.inj, congrArg _⟩

/-- A value is read as a depth when it is a literal that writes the depth. -/
theorem depthOfValue_source_iff (d : Source) (depth : UInt64) : depthOfValue d.value = .ok depth ↔
    ∃ l : Literal, d = .number l ∧ l.IsNatural ∧ l.whole.value = depth.toNat := by
  rw [depthOfValue_eq_ok_iff]
  constructor
  · rintro ⟨n, hvalue, rfl⟩
    cases d with
    | number l =>
      obtain ⟨hnatural, hn, hle⟩ := (l.number_eq_natural_iff n).mp (Value.number.inj hvalue)
      refine ⟨l, rfl, hnatural, ?_⟩
      have hless : n < Nat.pow 2 64 := Nat.lt_of_le_of_lt hle (by decide)
      rw [hn, UInt64.toNat_ofNat_of_lt' hless]
    | _ => cases hvalue
  · rintro ⟨l, rfl, hnatural, hvalue⟩
    have hle : depth.toNat ≤ largestNatural := Nat.le_sub_one_of_lt depth.toNat_lt
    refine ⟨depth.toNat, ?_, UInt64.ofNat_toNat⟩
    exact congrArg Value.number ((l.number_eq_natural_iff _).mpr ⟨hnatural, hvalue, hle⟩)

/-! ## Arrays -/

theorem ofItems_eq_ok_iff (ds : List Source) (s : Settings) :
    ofItems (itemsOfSources ds) = .ok s ↔ Sets ds s := by
  match ds with
  | [] =>
    refine ⟨fun h => Or.inl ⟨rfl, (Except.ok.inj h).symm⟩, ?_⟩
    rintro (⟨-, rfl⟩ | ⟨d, hd, -⟩)
    · rfl
    · cases hd
  | [d] =>
    change (depthOfValue d.value >>= fun n => .ok ⟨n⟩) = .ok s ↔ _
    rw [bind_eq_ok_iff]
    constructor
    · rintro ⟨n, hn, hs⟩
      obtain rfl := Except.ok.inj hs
      exact Or.inr ⟨d, rfl, hn⟩
    · rintro (⟨hnil, -⟩ | ⟨e, hd, he⟩)
      · cases hnil
      · cases hd
        exact ⟨s.maxNestingDepth, he, rfl⟩
  | d :: e :: ds =>
    change (depthOfValue d.value >>= fun n => malformed) = .ok s ↔ _
    rw [bind_eq_ok_iff]
    constructor
    · rintro ⟨n, -, hs⟩
      cases hs
    · rintro (⟨hnil, -⟩ | ⟨e, hd, -⟩)
      · cases hnil
      · cases hd

/-! ## Objects -/

section Members

variable {m : Pair} {ms : List Pair}

theorem depthsIn_depth (h : m.name = some "max_nesting_depth") :
    depthsIn (m :: ms) = m.source :: depthsIn ms := by
  rw [depthsIn, List.filter_cons_of_pos (by rw [h]; rfl)]
  rfl

theorem depthsIn_other (h : m.name ≠ some "max_nesting_depth") :
    depthsIn (m :: ms) = depthsIn ms := by
  rw [depthsIn, List.filter_cons_of_neg (by simpa using h)]
  rfl

theorem ofMembers_unreadable (depth : Option UInt64) (h : m.name = none) :
    ofMembers depth (membersOfPairs (m :: ms)) = malformed := by
  rw [membersOfPairs_cons, h]
  rfl

theorem ofMembers_other (depth : Option UInt64) {key : String} (h : m.name = some key)
    (hother : key ≠ "max_nesting_depth") :
    ofMembers depth (membersOfPairs (m :: ms)) = ofMembers depth (membersOfPairs ms) := by
  rw [membersOfPairs_cons, h, ofMembers, if_neg (by simpa using hother), passOver_value]
  rfl

theorem ofMembers_depth (h : m.name = some "max_nesting_depth") :
    ofMembers none (membersOfPairs (m :: ms)) =
      depthOfValue m.source.value >>= fun n => ofMembers (some n) (membersOfPairs ms) := by
  rw [membersOfPairs_cons, h, ofMembers, if_pos (beq_self_eq_true _)]
  rfl

theorem ofMembers_repeated (n : UInt64) (h : m.name = some "max_nesting_depth") :
    ofMembers (some n) (membersOfPairs (m :: ms)) =
      .error (.mismatch (.repeatedKey "max_nesting_depth")) := by
  rw [membersOfPairs_cons, h, ofMembers, if_pos (beq_self_eq_true _)]
  rfl

/-- The induction is over the members that follow, whether the depth was found before them or not. -/
theorem ofMembers_eq_ok_iff (depth : Option UInt64) (ms : List Pair) (s : Settings) :
    ofMembers depth (membersOfPairs ms) = .ok s ↔
      (∀ m ∈ ms, m.name ≠ none) ∧ SetsAfter depth (depthsIn ms) s := by
  induction ms generalizing depth with
  | nil =>
    refine ⟨fun h => ⟨List.forall_mem_nil _, ?_⟩, fun h => ?_⟩
    · obtain rfl := Except.ok.inj h
      cases depth with
      | none => exact Or.inl ⟨rfl, rfl⟩
      | some n => exact ⟨rfl, rfl⟩
    · cases depth with
      | none =>
        obtain ⟨-, ⟨-, rfl⟩ | ⟨d, hd, -⟩⟩ := h
        · rfl
        · cases hd
      | some n =>
        obtain ⟨-, -, rfl⟩ := h
        rfl
  | cons m ms ih =>
    rw [List.forall_mem_cons]
    cases hname : m.name with
    | none =>
      rw [ofMembers_unreadable depth hname]
      exact ⟨nofun, fun h => absurd rfl h.1.1⟩
    | some key =>
      by_cases hkey : key = "max_nesting_depth"
      · subst hkey
        rw [depthsIn_depth hname]
        cases depth with
        | none =>
          rw [ofMembers_depth hname, bind_eq_ok_iff]
          constructor
          · rintro ⟨n, hn, hrest⟩
            obtain ⟨hread, hnone, rfl⟩ := (ih (some n)).mp hrest
            exact ⟨⟨nofun, hread⟩, Or.inr ⟨m.source, by rw [hnone], hn⟩⟩
          · rintro ⟨⟨-, hread⟩, ⟨hnil, -⟩ | ⟨d, hd, hn⟩⟩
            · cases hnil
            · obtain ⟨rfl, hnone⟩ := List.cons.inj hd
              exact ⟨s.maxNestingDepth, hn, (ih (some _)).mpr ⟨hread, hnone, rfl⟩⟩
        | some n =>
          rw [ofMembers_repeated n hname]
          exact ⟨nofun, fun h => absurd h.2.1 (List.cons_ne_nil _ _)⟩
      · have hother : m.name ≠ some "max_nesting_depth" := by
          rw [hname]
          exact fun h => hkey (Option.some.inj h)
        rw [ofMembers_other depth hname hkey, ih, depthsIn_other hother]
        exact and_congr_left fun _ => ⟨fun h => ⟨nofun, h⟩, And.right⟩

end Members

/-! ## Texts -/

theorem passOver_of_depthOfValue {v : Value} {depth : UInt64} (h : depthOfValue v = .ok depth) :
    v.passOver = .ok () := by
  obtain ⟨n, rfl, -⟩ := (depthOfValue_eq_ok_iff v depth).mp h
  rfl

theorem passOver_of_finish {items : Items} (h : items.finish = .ok ()) :
    items.passOver = .ok () := by
  cases items with
  | closed => rfl
  | _ => cases h

theorem passOver_of_ofItems {items : Items} {s : Settings} (h : ofItems items = .ok s) :
    items.passOver = .ok () := by
  cases items with
  | closed => rfl
  | item v rest =>
    change (depthOfValue v >>= fun n => rest.finish >>= fun _ => .ok ⟨n⟩) = .ok s at h
    obtain ⟨n, hn, hrest⟩ := bind_eq_ok_iff.mp h
    obtain ⟨⟨⟩, hend, -⟩ := bind_eq_ok_iff.mp hrest
    rw [Items.passOver, passOver_of_depthOfValue hn]
    exact passOver_of_finish hend
  | _ => cases h

theorem passOver_of_ofMembers : ∀ (members : Members) (depth : Option UInt64) (s : Settings),
    ofMembers depth members = .ok s → members.passOver = .ok ()
  | .closed, _, _, _ => rfl
  | .stopped _, _, _, h | .comma _, _, _, h | .brokenKey _ _, _, _, h => nomatch h
  | .member none _ _, _, _, h => nomatch h
  | .member (some key) v rest, depth, s, h => by
    rw [ofMembers] at h
    split at h
    · cases depth with
      | some n => cases h
      | none =>
        obtain ⟨n, hn, hrest⟩ := bind_eq_ok_iff.mp h
        rw [Members.passOver, passOver_of_depthOfValue hn]
        exact passOver_of_ofMembers rest _ s hrest
    · obtain ⟨⟨⟩, hv, hrest⟩ := bind_eq_ok_iff.mp h
      rw [Members.passOver, hv]
      exact passOver_of_ofMembers rest depth s hrest

theorem passOver_of_ofValue {v : Value} {s : Settings} (h : ofValue v = .ok s) :
    v.passOver = .ok () := by
  unfold ofValue at h
  split at h
  · exact passOver_of_ofItems h
  · exact passOver_of_ofMembers _ _ _ h
  · exact absurd h (refuse_ne_ok _ _ s)

theorem read_source {text : String} {d : Source} (h : d.IsTextOf text.toList) :
    read text = ofValue d.value := by
  unfold read
  rw [Json.read_source h]
  exact bind_pure (ofValue d.value)

theorem Gives.read_iff {text : String} {given : List Source} (h : Gives text given) (s : Settings) :
    read text = .ok s ↔ Sets given s := by
  cases h with
  | array _ htext =>
    rw [read_source htext]
    exact ofItems_eq_ok_iff given s
  | object members htext hread =>
    rw [read_source htext]
    exact (ofMembers_eq_ok_iff none members s).trans (and_iff_right hread)

theorem read_eq_ok_iff (text : String) (s : Settings) :
    read text = .ok s ↔ ∃ given, Gives text given ∧ Sets given s := by
  constructor
  · intro h
    unfold read at h
    cases hjson : Json.read text with
    | mk v ends =>
      rw [hjson] at h
      obtain ⟨found, hvalue, hends⟩ := bind_eq_ok_iff.mp h
      cases ends with
      | false => cases hends
      | true =>
        obtain rfl := Except.ok.inj hends
        obtain ⟨d, rfl, htext⟩ := (Json.read_iff text v).mp ⟨hjson, passOver_of_ofValue hvalue⟩
        cases d with
        | array items => exact ⟨items, .array items htext, (ofItems_eq_ok_iff items found).mp hvalue⟩
        | object members =>
          obtain ⟨hread, hsets⟩ := (ofMembers_eq_ok_iff none members found).mp hvalue
          exact ⟨depthsIn members, .object members htext hread, hsets⟩
        | _ =>
          rw [Source.value, ofValue] at hvalue
          · exact absurd hvalue (refuse_ne_ok _ _ found)
          · nofun
          · nofun
  · rintro ⟨given, hgiven, hsets⟩
    exact (hgiven.read_iff s).mpr hsets

theorem read_write (s : Settings) : read s.write = .ok s := by
  have hfits : s.toData.Fits := ⟨Nat.le_sub_one_of_lt s.maxNestingDepth.toNat_lt, trivial⟩
  unfold read write
  rw [Json.read_write s.toData hfits]
  change Except.ok (Settings.mk (UInt64.ofNat s.maxNestingDepth.toNat)) = _
  rw [UInt64.ofNat_toNat]

/-! ## Files -/

theorem sets_literal_iff (l : Literal) (s : Settings) :
    Sets [.number l] s ↔ l.IsNatural ∧ l.whole.value = s.maxNestingDepth.toNat := by
  constructor
  · rintro (⟨hnil, -⟩ | ⟨d, hd, hdepth⟩)
    · cases hnil
    · obtain rfl := (List.cons.inj hd).1
      obtain ⟨_, heq, hl⟩ := (depthOfValue_source_iff _ _).mp hdepth
      obtain rfl := Source.number.inj heq
      exact hl
  · intro hl
    exact Or.inr ⟨_, rfl, (depthOfValue_source_iff _ _).mpr ⟨l, rfl, hl⟩⟩

theorem sets_iff (given : List Source) (s : Settings) : Sets given s ↔
    given = [] ∧ s.maxNestingDepth.toNat = 64 ∨ ∃ l : Literal, given = [.number l] ∧
      l.IsNatural ∧ l.whole.value = s.maxNestingDepth.toNat := by
  constructor
  · rintro (⟨hnil, rfl⟩ | ⟨d, rfl, hdepth⟩)
    · exact Or.inl ⟨hnil, rfl⟩
    · obtain ⟨l, rfl, hl⟩ := (depthOfValue_source_iff d _).mp hdepth
      exact Or.inr ⟨l, rfl, hl⟩
  · rintro (⟨rfl, hdepth⟩ | ⟨l, rfl, hl⟩)
    · have hsame : s.maxNestingDepth = 64 := UInt64.toNat_inj.mp hdepth
      exact Or.inl ⟨rfl, congrArg Settings.mk hsame⟩
    · exact (sets_literal_iff l s).mpr hl

section Load

variable {here : Folder} {path : String} {given : List Source}

section Text

variable {bytes : ByteArray} {text : String} (hfile : here.find? path = some (.file bytes))
  (htext : String.fromUTF8? bytes = some text)

include hfile htext

theorem load_of_fault {fault : Fault} (hread : read text = .error fault) :
    load here path = .error (.notSettings path fault) := by
  unfold load ofBytes
  simp only [hfile, htext, hread]

theorem load_of_read {s : Settings} (hread : read text = .ok s) :
    load here path = if s.maxNestingDepth == 0 then .error .zeroDepth else .ok s := by
  unfold load ofBytes
  simp only [hfile, htext, hread]

end Text

theorem exists_text {s : Settings} (h : load here path = .ok s) : ∃ bytes text,
    here.find? path = some (.file bytes) ∧ String.fromUTF8? bytes = some text := by
  unfold load at h
  split at h
  · cases h
  · next bytes hfile =>
    unfold ofBytes at h
    split at h
    · cases h
    · next text htext => exact ⟨bytes, text, hfile, htext⟩
  · cases h

theorem load_eq_ok_iff (s : Settings) : load here path = .ok s ↔
    ∃ given, Given here path given ∧ Sets given s ∧ s.maxNestingDepth ≠ 0 := by
  constructor
  · intro h
    obtain ⟨bytes, text, hfile, htext⟩ := exists_text h
    cases hread : read text with
    | error fault =>
      rw [load_of_fault hfile htext hread] at h
      cases h
    | ok found =>
      rw [load_of_read hfile htext hread] at h
      split at h
      · cases h
      · next hzero =>
        obtain rfl := Except.ok.inj h
        obtain ⟨given, hgives, hsets⟩ := (read_eq_ok_iff text found).mp hread
        exact ⟨given, ⟨bytes, text, hfile, htext, hgives⟩, hsets, by simpa using hzero⟩
  · rintro ⟨given, ⟨bytes, text, hfile, htext, hgives⟩, hsets, hzero⟩
    rw [load_of_read hfile htext ((hgives.read_iff s).mpr hsets)]
    exact if_neg (by simpa using hzero)

theorem Given.load_zero (h : Given here path given) (hsets : Sets given ⟨0⟩) :
    load here path = .error .zeroDepth := by
  obtain ⟨bytes, text, hfile, htext, hgives⟩ := h
  rw [load_of_read hfile htext ((hgives.read_iff _).mpr hsets)]
  rfl

theorem Given.load_refused (h : Given here path given) (hsets : ∀ s, ¬ Sets given s) :
    ∃ fault, load here path = .error (.notSettings path fault) := by
  obtain ⟨bytes, text, hfile, htext, hgives⟩ := h
  cases hread : read text with
  | error fault => exact ⟨fault, load_of_fault hfile htext hread⟩
  | ok s => exact absurd ((hgives.read_iff s).mp hread) (hsets s)

theorem fromUTF8?_toUTF8 (text : String) : String.fromUTF8? text.toUTF8 = some text := by
  unfold String.fromUTF8?
  rw [String.toUTF8_eq_toByteArray, dif_pos text.isValidUTF8]
  rfl

theorem load_write {s : Settings} (hfile : here.find? path = some (.file s.write.toUTF8))
    (hzero : s.maxNestingDepth ≠ 0) : load here path = .ok s := by
  rw [load_of_read hfile (fromUTF8?_toUTF8 _) (read_write s)]
  exact if_neg (by simpa using hzero)

theorem ne_zero_iff (n : UInt64) : n ≠ 0 ↔ n.toNat ≠ 0 :=
  not_congr ⟨congrArg UInt64.toNat, fun h => UInt64.toNat_inj.mp h⟩

theorem one_le_of_load {s : Settings} (h : load here path = .ok s) : 1 ≤ s.maxNestingDepth.toNat := by
  obtain ⟨-, -, -, hzero⟩ := (load_eq_ok_iff s).mp h
  exact Nat.pos_of_ne_zero ((ne_zero_iff _).mp hzero)

theorem load_eq_ok_iff_literal (s : Settings) : load here path = .ok s ↔
    Given here path [] ∧ s.maxNestingDepth.toNat = 64 ∨
    ∃ l : Literal, Given here path [.number l] ∧ l.IsNatural ∧ l.whole.value ≠ 0 ∧
      l.whole.value = s.maxNestingDepth.toNat := by
  rw [load_eq_ok_iff]
  constructor
  · rintro ⟨given, hgiven, hsets, hzero⟩
    obtain ⟨rfl, hdepth⟩ | ⟨l, rfl, hnatural, hvalue⟩ := (sets_iff given s).mp hsets
    · exact Or.inl ⟨hgiven, hdepth⟩
    · exact Or.inr ⟨l, hgiven, hnatural, hvalue ▸ (ne_zero_iff _).mp hzero, hvalue⟩
  · rintro (⟨hgiven, hdepth⟩ | ⟨l, hgiven, hnatural, hzero, hvalue⟩)
    · have hzero : s.maxNestingDepth ≠ 0 := (ne_zero_iff _).mpr (by rw [hdepth]; decide)
      exact ⟨[], hgiven, (sets_iff _ s).mpr (Or.inl ⟨rfl, hdepth⟩), hzero⟩
    · have hsets := (sets_literal_iff l s).mpr ⟨hnatural, hvalue⟩
      exact ⟨_, hgiven, hsets, (ne_zero_iff _).mpr (hvalue ▸ hzero)⟩

/-- No settings are set by a literal with a sign, a point or a power of ten, nor by one that is too
large. -/
theorem not_sets_unfit {l : Literal}
    (h : l.minus = true ∨ l.fraction ≠ none ∨ l.power ≠ none ∨ Nat.pow 2 64 ≤ l.whole.value)
    (s : Settings) : ¬ Sets [.number l] s := by
  intro hsets
  obtain ⟨⟨hminus, hfraction, hpower⟩, hvalue⟩ := (sets_literal_iff l s).mp hsets
  rcases h with h | h | h | h
  · rw [hminus] at h
    cases h
  · exact h hfraction
  · exact h hpower
  · rw [hvalue] at h
    exact absurd s.maxNestingDepth.toNat_lt (Nat.not_lt_of_le h)

end Load

/-- Settings come of a file when it gives no depth, which then is 64, or when it gives one by a literal
without sign, point and power of ten that writes a number from 1 up to the largest of 64 bits, which then
is the depth. A zero is refused as such and every other literal as no settings, and settings that are
written to a file come of it again. -/
theorem load_depth_as_written (here : Folder) (path : String) :
    (∀ s, load here path = .ok s →
      1 ≤ s.maxNestingDepth.toNat ∧ s.maxNestingDepth.toNat ≤ Nat.pow 2 64 - 1) ∧
    (∀ s, load here path = .ok s ↔
      Given here path [] ∧ s.maxNestingDepth.toNat = 64 ∨
      ∃ l : Literal, Given here path [.number l] ∧ l.IsNatural ∧ l.whole.value ≠ 0 ∧
        l.whole.value = s.maxNestingDepth.toNat) ∧
    (∀ l : Literal, Given here path [.number l] →
      (l.IsNatural → l.whole.value = 0 → load here path = .error .zeroDepth) ∧
      (l.minus = true ∨ l.fraction ≠ none ∨ l.power ≠ none ∨ Nat.pow 2 64 ≤ l.whole.value →
        ∃ fault, load here path = .error (.notSettings path fault))) ∧
    (∀ s : Settings, 1 ≤ s.maxNestingDepth.toNat →
      here.find? path = some (.file s.write.toUTF8) → load here path = .ok s) := by
  refine ⟨fun s h => ?_, load_eq_ok_iff_literal, fun l hgiven => ⟨?_, ?_⟩, fun s hpos hfile => ?_⟩
  · exact ⟨one_le_of_load h, Nat.le_sub_one_of_lt s.maxNestingDepth.toNat_lt⟩
  · intro hnatural hzero
    exact hgiven.load_zero ((sets_literal_iff l ⟨0⟩).mpr ⟨hnatural, hzero⟩)
  · intro hunfit
    exact hgiven.load_refused (not_sets_unfit hunfit)
  · exact load_write hfile ((ne_zero_iff _).mpr (Nat.ne_of_gt hpos))

theorem load_depth_as_written_three :
    let here : Folder := [("zero.json", .file "\x7b\"max_nesting_depth\": 0\x7d".toUTF8),
      ("half.json", .file "[ 0.5]".toUTF8), ("own.json", .file (write ⟨7⟩).toUTF8)]
    (∃ l : Literal, l.chars = "0".toList ∧ Given here "zero.json" [.number l] ∧ l.IsNatural ∧
      l.whole.value = 0 ∧ load here "zero.json" = .error .zeroDepth) ∧
    (∃ l : Literal, l.chars = "0.5".toList ∧ Given here "half.json" [.number l] ∧
      l.fraction ≠ none ∧ ∃ fault, load here "half.json" = .error (.notSettings "half.json" fault)) ∧
    load here "own.json" = .ok ⟨7⟩ := by
  intro here
  have hnone : IsGap [] := List.forall_mem_nil _
  have hspace : IsGap [' '] := List.forall_mem_singleton.mpr rfl
  let nought : Digits := ⟨['0'], nofun, List.forall_mem_singleton.mpr rfl⟩
  refine ⟨?_, ?_, (load_depth_as_written here "own.json").2.2.2 ⟨7⟩ (by decide) rfl⟩
  · let zero : Literal := ⟨false, nought, none, none, fun _ => rfl⟩
    let member : Pair := .mk ("max_nesting_depth".toList.pmap .plain (by simp)) (.number zero)
    have htext : (Source.object [member]).IsTextOf "\x7b\"max_nesting_depth\": 0\x7d".toList :=
      ⟨[], "\"max_nesting_depth\": 0\x7d".toList, hnone, rfl, [], ": 0\x7d".toList, hnone, rfl,
        [], [' ', '0', '\x7d'], hnone, rfl, [' '], ['\x7d'], hspace, rfl, [], [], hnone, rfl, hnone⟩
    have hgiven : Given here "zero.json" [.number zero] :=
      ⟨_, _, rfl, fromUTF8?_toUTF8 _, .object [member] htext (List.forall_mem_singleton.mpr nofun)⟩
    exact ⟨zero, rfl, hgiven, ⟨rfl, rfl, rfl⟩, rfl,
      ((load_depth_as_written here "zero.json").2.2.1 zero hgiven).1 ⟨rfl, rfl, rfl⟩ rfl⟩
  · let half : Literal :=
      ⟨false, nought, some ⟨['5'], nofun, List.forall_mem_singleton.mpr rfl⟩, none, fun _ => rfl⟩
    have hgiven : Given here "half.json" [.number half] :=
      ⟨_, "[ 0.5]", rfl, fromUTF8?_toUTF8 _, .array _
        ⟨[], " 0.5]".toList, hnone, rfl, [' '], [']'], hspace, rfl, [], [], hnone, rfl, hnone⟩⟩
    exact ⟨half, rfl, hgiven, nofun,
      ((load_depth_as_written here "half.json").2.2.1 half hgiven).2 (Or.inr (Or.inl nofun))⟩

end BooleanSearch.Settings
