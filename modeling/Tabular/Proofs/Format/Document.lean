/-
Settings in JSON documents.

* `Settings.Part`, `Settings.part` — what settings have in a slot;
* `Settings.Turns` — what the members of an object make of settings;
* `Settings.ofJson?_object` — which is what is read from it;
* `Settings.ofJson?_array` — an array is read like an object with its items
  under the names of the slots;
* `Settings.document` — the document in which settings are stored;
* `Settings.ofDocument?_document` — from which they are read back.

Design notes: while an object is read the slots that are still free say which
members may come.  So the general statement is about any settings to begin
with, and any free slots.
-/
import Mathlib.Data.List.Basic
import Tabular.Format.Document
import Tabular.Proofs.Format.Settings
import Tabular.Proofs.Json.Value

namespace Tabular.Settings

/-! ### Slots -/

namespace Slot

theorem mem_all (slot : Slot) : slot ∈ all := by
  cases slot with
  | named key => cases key <;> decide
  | properties => decide

theorem name_inj {slot slot' : Slot} (h : slot.name = slot'.name) : slot = slot' := by
  cases slot with
  | named key =>
    cases slot' with
    | named key' => exact congrArg named (SettingKey.name_inj h)
    | properties => cases key <;> exact absurd h (by decide)
  | properties =>
    cases slot' with
    | named key => cases key <;> exact absurd h (by decide)
    | properties => rfl

theorem ofName?_eq_some {name : String} {slot : Slot} :
    ofName? name = some slot ↔ slot.name = name := by
  constructor
  · intro h
    exact beq_iff_eq.mp (List.find?_some h :)
  · rintro rfl
    cases h : ofName? slot.name with
    | none =>
      exact absurd (beq_self_eq_true slot.name) (List.find?_eq_none.mp h slot (mem_all slot))
    | some slot' => rw [name_inj (beq_iff_eq.mp (List.find?_some h :))]

end Slot

/-! ### What settings have in a slot -/

/-- A value that has its place in a slot. -/
inductive Part
  | text (text : Option String)
  | texts (texts : StringMap)

/-- What settings have in a slot. -/
def part (s : Settings) : Slot → Part
  | .named key => .text (s.get? key)
  | .properties => .texts s.properties

/-- What a value stands for in a slot, if it is of the kind that goes there. -/
def Slot.part? (slot : Slot) (json : Json) : Option Part :=
  match slot with
  | named _ => (optionalText? json).map .text
  | properties => (properties? json).map .texts

theorem ext_part {s s' : Settings} (h : ∀ slot, s.part slot = s'.part slot) : s = s' := by
  have hkey (key : SettingKey) : s.get? key = s'.get? key := Part.text.inj (h (.named key))
  have hproperties : s.properties = s'.properties := Part.texts.inj (h .properties)
  obtain ⟨separator, enclosing, lineEnding, encoding, byteOrderMark, properties⟩ := s
  obtain rfl : separator = s'.separator := hkey .separator
  obtain rfl : enclosing = s'.enclosing := hkey .enclosing
  obtain rfl : lineEnding = s'.lineEnding := hkey .lineEnding
  obtain rfl : encoding = s'.encoding := hkey .encoding
  obtain rfl : byteOrderMark = s'.byteOrderMark := hkey .byteOrderMark
  obtain rfl : properties = s'.properties := hproperties
  rfl

theorem get?_set (s : Settings) (key key' : SettingKey) (text : Option String) :
    (s.set key text).get? key' = if key' = key then text else s.get? key' := by
  cases key <;> cases key' <;> rfl

theorem properties_set (s : Settings) (key : SettingKey) (text : Option String) :
    (s.set key text).properties = s.properties := by
  cases key <;> rfl

/-- A value fills its slot, and leaves the others as they are. -/
theorem fill?_eq_some {s s' : Settings} {slot : Slot} {json : Json} :
    s.fill? slot json = some s' ↔
      slot.part? json = some (s'.part slot) ∧ ∀ other ≠ slot, s'.part other = s.part other := by
  cases slot with
  | named key =>
    rw [fill?, Slot.part?, Option.map_eq_some_iff, Option.map_eq_some_iff]
    constructor
    · rintro ⟨text, htext, rfl⟩
      refine ⟨⟨text, htext, ?_⟩, ?_⟩
      · rw [part, get?_set, if_pos rfl]
      · rintro (key' | _) hne
        · rw [part, part, get?_set, if_neg fun heq => hne (congrArg Slot.named heq)]
        · rw [part, part, properties_set]
    · rintro ⟨⟨text, htext, hpart⟩, hothers⟩
      refine ⟨text, htext, ext_part fun other => ?_⟩
      by_cases heq : other = .named key
      · rw [heq, ← hpart, part, get?_set, if_pos rfl]
      · rw [hothers other heq]
        cases other with
        | named key' => rw [part, part, get?_set, if_neg fun h => heq (congrArg Slot.named h)]
        | properties => rw [part, part, properties_set]
  | properties =>
    rw [fill?, Slot.part?, Option.map_eq_some_iff, Option.map_eq_some_iff]
    constructor
    · rintro ⟨texts, htexts, rfl⟩
      refine ⟨⟨texts, htexts, rfl⟩, ?_⟩
      rintro (key | _) hne
      · cases key <;> rfl
      · exact absurd rfl hne
    · rintro ⟨⟨texts, htexts, hpart⟩, hothers⟩
      refine ⟨texts, htexts, ext_part fun other => ?_⟩
      cases other with
      | named key => rw [hothers (.named key) Slot.noConfusion]; cases key <;> rfl
      | properties => exact hpart

theorem exists_fill? {slot : Slot} {json : Json} {p : Part} (h : slot.part? json = some p)
    (s : Settings) : ∃ s', s.fill? slot json = some s' ∧ s'.part slot = p := by
  have hfill : (s.fill? slot json).isSome = (slot.part? json).isSome := by
    cases slot <;> rw [fill?, Slot.part?, Option.isSome_map, Option.isSome_map]
  rw [h, Option.isSome_some, Option.isSome_iff_exists] at hfill
  obtain ⟨s', hs'⟩ := hfill
  exact ⟨s', hs', Option.some.inj ((fill?_eq_some.mp hs').1.symm.trans h)⟩

/-! ### Objects -/

section Objects

/-- The slot that a member of an object names. -/
def slotOf? (m : Option String × Json) : Option Slot := m.1.bind Slot.ofName?

/-- The slots that the members of an object name. -/
def slotsOf (members : List (Option String × Json)) : List Slot := members.filterMap slotOf?

/-- The members of an object, each put into the slot that it names, turn
settings into others. -/
structure Turns (s : Settings) (free : List Slot) (members : List (Option String × Json))
    (s' : Settings) : Prop where
  named : ∀ m ∈ members, m.1 ≠ none
  /-- No setting comes twice. -/
  nodup : (slotsOf members).Nodup
  free : ∀ slot ∈ slotsOf members, slot ∈ free
  fills : ∀ m ∈ members, ∀ slot, slotOf? m = some slot → slot.part? m.2 = some (s'.part slot)
  /-- What no member names stays as it was. -/
  keeps : ∀ slot ∉ slotsOf members, s'.part slot = s.part slot

variable {s s' : Settings} {free : List Slot} {members : List (Option String × Json)}
  {m : Option String × Json}

theorem turns_nil : s.Turns free [] s' ↔ s = s' := by
  constructor
  · exact fun h => (ext_part fun slot => h.keeps slot List.not_mem_nil).symm
  · rintro rfl
    exact ⟨List.forall_mem_nil _, .nil, List.forall_mem_nil _, List.forall_mem_nil _,
      fun _ _ => rfl⟩

/-- A member that names no slot is passed over. -/
theorem turns_cons_none (hm : slotOf? m = none) :
    s.Turns free (m :: members) s' ↔ m.1 ≠ none ∧ s.Turns free members s' := by
  have hslots : slotsOf (m :: members) = slotsOf members := List.filterMap_cons_none hm
  constructor
  · rintro ⟨hnamed, hnodup, hfree, hfills, hkeeps⟩
    rw [List.forall_mem_cons] at hnamed hfills
    rw [hslots] at hnodup hfree hkeeps
    exact ⟨hnamed.1, hnamed.2, hnodup, hfree, hfills.2, hkeeps⟩
  · rintro ⟨hname, hnamed, hnodup, hfree, hfills, hkeeps⟩
    rw [← hslots] at hnodup hfree hkeeps
    refine ⟨List.forall_mem_cons.mpr ⟨hname, hnamed⟩, hnodup, hfree,
      List.forall_mem_cons.mpr ⟨fun slot hslot => ?_, hfills⟩, hkeeps⟩
    rw [hm] at hslot
    exact absurd hslot.symm (Option.some_ne_none slot)

/-- A member that names a slot fills it, if it is free, and takes it. -/
theorem turns_cons_some {slot : Slot} (hfree : free.Nodup) (hm : slotOf? m = some slot) :
    s.Turns free (m :: members) s' ↔
      slot ∈ free ∧ ∃ t, s.fill? slot m.2 = some t ∧ t.Turns (free.erase slot) members s' := by
  have hslots : slotsOf (m :: members) = slot :: slotsOf members := List.filterMap_cons_some hm
  constructor
  · rintro ⟨hnamed, hnodup, hmem, hfills, hkeeps⟩
    rw [List.forall_mem_cons] at hnamed hfills
    rw [hslots, List.nodup_cons] at hnodup
    rw [hslots, List.forall_mem_cons] at hmem
    obtain ⟨t, hfill, hpart⟩ := exists_fill? (hfills.1 slot hm) s
    refine ⟨hmem.1, t, hfill, hnamed.2, hnodup.2, fun other hother => ?_, hfills.2,
      fun other hother => ?_⟩
    · exact (hfree.mem_erase_iff).mpr ⟨fun heq => hnodup.1 (heq ▸ hother), hmem.2 other hother⟩
    · by_cases heq : other = slot
      · rw [heq, hpart]
      · rw [hkeeps other (by simp [hslots, heq, hother]), (fill?_eq_some.mp hfill).2 other heq]
  · rintro ⟨hmem, t, hfill, hnamed, hnodup, hrest, hfills, hkeeps⟩
    obtain ⟨hpart, hothers⟩ := fill?_eq_some.mp hfill
    have hslot : slot ∉ slotsOf members := fun h => (hfree.mem_erase_iff.mp (hrest slot h)).1 rfl
    refine ⟨List.forall_mem_cons.mpr ⟨fun hnone => ?_, hnamed⟩, ?_, ?_,
      List.forall_mem_cons.mpr ⟨fun other hother => ?_, hfills⟩, fun other hother => ?_⟩
    · rw [slotOf?, hnone] at hm
      exact absurd hm.symm (Option.some_ne_none slot)
    · rw [hslots]
      exact List.nodup_cons.mpr ⟨hslot, hnodup⟩
    · rw [hslots]
      exact List.forall_mem_cons.mpr
        ⟨hmem, fun other hother => List.mem_of_mem_erase (hrest other hother)⟩
    · obtain rfl : slot = other := Option.some.inj (hm.symm.trans hother)
      rw [hpart, hkeeps slot hslot]
    · rw [hslots, List.mem_cons, not_or] at hother
      rw [hkeeps other hother.2, hothers other hother.1]

theorem ofMembers?_eq_some (hfree : free.Nodup) :
    ofMembers? s free members = some s' ↔ s.Turns free members s' := by
  induction members generalizing s free with
  | nil => rw [ofMembers?, turns_nil, Option.some_inj]
  | cons m members ih =>
    obtain ⟨name, json⟩ := m
    cases name with
    | none =>
      rw [ofMembers?]
      refine iff_of_false (Option.some_ne_none s').symm fun h => ?_
      exact h.named _ (List.mem_cons_self ..) rfl
    | some name =>
      rw [ofMembers?]
      cases hslot : Slot.ofName? name with
      | none =>
        have hm : slotOf? (some name, json) = none := hslot
        rw [turns_cons_none hm, ← ih hfree]
        exact (and_iff_right (Option.some_ne_none name)).symm
      | some slot =>
        have hm : slotOf? (some name, json) = some slot := hslot
        rw [turns_cons_some hfree hm]
        dsimp only
        split
        · rename_i hmem
          rw [and_iff_right hmem, Option.bind_eq_bind, Option.bind_eq_some_iff]
          exact exists_congr fun t => and_congr_right fun _ => ih (hfree.erase slot)
        · rename_i hmem
          exact iff_of_false (Option.some_ne_none s').symm fun h => hmem h.1

/-- What an object says: settings of which each is named once at most, and has
what it is said to have, or nothing.  Members of other names make no
difference, and neither does their order. -/
theorem ofJson?_object : ofJson? (.object members) = some s ↔ empty.Turns Slot.all members s :=
  ofMembers?_eq_some (by decide)

/-- An array says what an object does that has its items under the names of the
slots, in order, if there are slots for all of them. -/
theorem ofJson?_array (items : List Json) :
    ofJson? (.array items) =
      if items.length ≤ Slot.all.length then
        ofJson? (.object ((Slot.all.zip items).map fun (slot, json) => (some slot.name, json)))
      else none := by
  -- For any settings, and any slots in place of those that are left.
  suffices h : ∀ (s : Settings) (slots : List Slot), slots.Nodup →
      ofItems? s slots items =
        if items.length ≤ slots.length then
          ofMembers? s slots ((slots.zip items).map fun (slot, json) => (some slot.name, json))
        else none from h empty Slot.all (by decide)
  induction items with
  | nil =>
    intro s slots _
    rw [List.zip_nil_right, List.map_nil, List.length_nil, if_pos (Nat.zero_le _)]
    cases slots <;> rfl
  | cons json items ih =>
    intro s slots hnodup
    cases slots with
    | nil => rfl
    | cons slot slots =>
      have hname : Slot.ofName? slot.name = some slot := Slot.ofName?_eq_some.mpr rfl
      rw [ofItems?, List.zip_cons_cons, List.map_cons, ofMembers?, hname]
      dsimp only
      rw [if_pos (List.mem_cons_self ..), List.erase_cons_head, List.length_cons, List.length_cons]
      simp only [Nat.succ_le_succ_iff]
      cases hfill : s.fill? slot json with
      | none => exact (ite_self none).symm
      | some s' => exact ih s' slots hnodup.tail

end Objects

/-! ### Documents -/

/-- A text as a member of an object. -/
def textMember (name text : String) : Json.Member :=
  ⟨name, Json.textChars text, .string (some text)⟩

/-- The properties as members of an object of their own. -/
def propertyMembers (s : Settings) : List Json.Member :=
  s.properties.toList.map fun entry => textMember entry.1 entry.2

/-- What settings have in a slot as a member of an object, unless it is missing
or there are no properties. -/
def member? (s : Settings) : Slot → Option Json.Member
  | .named key => (s.get? key).map (textMember key.name)
  | .properties =>
    if s.properties.isEmpty then none
    else some ⟨Slot.properties.name, Json.objectChars s.propertyMembers,
      .object (s.propertyMembers.map Json.Member.value)⟩

/-- Settings as members of an object. -/
def members (s : Settings) : List Json.Member := Slot.all.filterMap s.member?

/-- The document in which settings are stored. -/
def document (s : Settings) : String := String.ofList (Json.objectChars s.members)

theorem textsOf?_texts (texts : List (String × String)) :
    textsOf? (texts.map fun entry => (some entry.1, .string (some entry.2))) =
      some (texts.foldl (fun map entry => map.insert entry.1 entry.2) ∅) := by
  rw [textsOf?, List.foldl_map]
  -- For any map to begin with.
  generalize (∅ : StringMap) = map
  induction texts generalizing map with
  | nil => rfl
  | cons entry texts ih => exact ih (map.insert entry.1 entry.2)

theorem foldl_insert_toList (map : StringMap) :
    map.toList.foldl (fun map entry => map.insert entry.1 entry.2) ∅ = map := by
  refine Std.ExtTreeMap.ext_getElem? fun name => ?_
  rw [getElem?_foldl_toList name, Std.ExtTreeMap.getElem?_empty, Option.or_none]
  · exact fun map value => Std.ExtTreeMap.getElem?_insert_self
  · intro map entry hne
    rw [Std.ExtTreeMap.getElem?_insert, if_neg]
    exact fun hcompare => hne (Std.LawfulEqCmp.eq_of_compare hcompare)

theorem properties?_propertyMembers (s : Settings) :
    properties? (.object (s.propertyMembers.map Json.Member.value)) = some s.properties := by
  rw [properties?, propertyMembers, List.map_map]
  exact (textsOf?_texts _).trans (congrArg some (foldl_insert_toList s.properties))

/-- A member has the name of its slot, and as its value what is there. -/
theorem member?_eq_some {s : Settings} {slot : Slot} {m : Json.Member}
    (h : s.member? slot = some m) :
    m.name = slot.name ∧ Json.Parses m.chars m.json ∧
      slot.part? m.json = some (s.part slot) := by
  cases slot with
  | named key =>
    obtain ⟨text, htext, rfl⟩ := Option.map_eq_some_iff.mp h
    refine ⟨rfl, Json.parses_text text, ?_⟩
    rw [part, htext]
    rfl
  | properties =>
    rw [member?] at h
    split_ifs at h
    obtain rfl := Option.some.inj h
    refine ⟨rfl, Json.parses_object fun m hm => ?_, ?_⟩
    · obtain ⟨entry, -, rfl⟩ := List.mem_map.mp hm
      exact Json.parses_text entry.2
    · rw [Slot.part?, properties?_propertyMembers]
      rfl

theorem part_of_member?_eq_none {s : Settings} {slot : Slot} (h : s.member? slot = none) :
    s.part slot = empty.part slot := by
  cases slot with
  | named key =>
    rw [part, Option.map_eq_none_iff.mp h]
    cases key <;> rfl
  | properties =>
    rw [member?] at h
    split_ifs at h with hempty
    rw [part, Std.ExtTreeMap.isEmpty_iff.mp hempty]
    rfl

/-- The members name the slots in which there is something, in order. -/
theorem slotsOf_members (s : Settings) :
    slotsOf (s.members.map Json.Member.value) =
      Slot.all.filter fun slot => (s.member? slot).isSome := by
  rw [slotsOf, members, List.filterMap_map, List.filterMap_filterMap, ← List.filterMap_eq_filter]
  refine List.filterMap_congr fun slot _ => ?_
  cases h : s.member? slot with
  | none => simp [Option.guard, h]
  | some m =>
    have hslot : slotOf? m.value = some slot :=
      Slot.ofName?_eq_some.mpr (member?_eq_some h).1.symm
    simp [Option.guard, h, hslot]

theorem turns_members (s : Settings) :
    empty.Turns Slot.all (s.members.map Json.Member.value) s where
  named := by
    intro m hm
    obtain ⟨m, -, rfl⟩ := List.mem_map.mp hm
    exact Option.some_ne_none m.name
  nodup := by
    rw [slotsOf_members]
    exact List.filter_sublist.nodup (by decide)
  free slot _ := Slot.mem_all slot
  fills := by
    intro m hm slot hslot
    obtain ⟨m, hmem, rfl⟩ := List.mem_map.mp hm
    obtain ⟨slot', -, hmember⟩ := List.mem_filterMap.mp hmem
    obtain ⟨hname, -, hpart⟩ := member?_eq_some hmember
    have heq : slot = slot' := Slot.name_inj ((Slot.ofName?_eq_some.mp hslot).trans hname)
    rwa [heq]
  keeps := by
    intro slot hslot
    rw [slotsOf_members, List.mem_filter, not_and] at hslot
    exact part_of_member?_eq_none (Option.not_isSome_iff_eq_none.mp (hslot (Slot.mem_all slot)))

/-- Settings are read back from the document in which they are stored. -/
theorem ofDocument?_document (s : Settings) : ofDocument? s.document = some s := by
  have hparses : Json.Parses (Json.objectChars s.members)
      (.object (s.members.map Json.Member.value)) := by
    refine Json.parses_object fun m hm => ?_
    obtain ⟨slot, -, hmember⟩ := List.mem_filterMap.mp hm
    exact (member?_eq_some hmember).2.1
  rw [ofDocument?, document, hparses.parse?_eq]
  exact ofJson?_object.mpr s.turns_members

end Tabular.Settings
