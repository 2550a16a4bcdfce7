/-
Formats are restored from their settings.

* `getElem?_ofMap_properties` — what a flat map says of a property;
* `getElem?_toMap_name`, `getElem?_toMap_property` — where settings are put
  into a flat map;
* `Settings.ofMap_toMap` — settings are read back from their flat map;
* `Delimiter.ofSetting?_setting`, `Encoding.ofName?_name`, … — and each that
  is stored has its meaning;
* `Format.applySettings_toSettings` — so a format takes over what another has
  stored, and is restored but for what is not stored.

Design notes: a flat map is filled by loops over other maps.  What such a loop
leaves under a name is told by the one step that puts something there.
-/
import Mathlib.Data.List.Basic
import Tabular.Format.Settings
import Tabular.Proofs.Format.Escape

namespace Tabular

/-! ### Maps filled step by step -/

section

variable {α : Type} {put : StringMap → α → StringMap} {name : String}

/-- What no step puts under a name. -/
theorem getElem?_foldl_of_forall {xs : List α}
    (h : ∀ x ∈ xs, ∀ map : StringMap, (put map x)[name]? = map[name]?) (map : StringMap) :
    (xs.foldl put map)[name]? = map[name]? := by
  induction xs generalizing map with
  | nil => rfl
  | cons x xs ih =>
    rw [List.forall_mem_cons] at h
    rw [List.foldl_cons, ih h.2, h.1]

/-- What one step puts under a name, and no other. -/
theorem getElem?_foldl_of_mem {xs : List α} {x : α} {value : String} (hx : x ∈ xs)
    (hput : ∀ map : StringMap, (put map x)[name]? = some value)
    (hother : ∀ y ∈ xs, y ≠ x → ∀ map : StringMap, (put map y)[name]? = map[name]?)
    (map : StringMap) : (xs.foldl put map)[name]? = some value := by
  induction xs using List.reverseRecOn with
  | nil => exact absurd hx (List.not_mem_nil)
  | append_singleton xs y ih =>
    rw [List.foldl_append, List.foldl_cons, List.foldl_nil]
    by_cases hy : y = x
    · rw [hy, hput]
    · have hmem : x ∈ xs := by
        rcases List.mem_append.mp hx with hmem | hmem
        · exact hmem
        · exact absurd (List.mem_singleton.mp hmem).symm hy
      rw [hother y (by simp) hy]
      exact ih hmem fun z hz => hother z (List.mem_append_left _ hz)

/-- What the entry of a map under one key puts under a name, and no other. -/
theorem getElem?_foldl_toList {put : StringMap → String × String → StringMap} (key : String)
    (hput : ∀ map value, (put map (key, value))[name]? = some value)
    (hother : ∀ map entry, entry.1 ≠ key → (put map entry)[name]? = map[name]?)
    (entries map : StringMap) :
    (entries.toList.foldl put map)[name]? = entries[key]?.or map[name]? := by
  cases hv : entries[key]? with
  | some value =>
    refine getElem?_foldl_of_mem (Std.ExtTreeMap.mem_toList_iff_getElem?_eq_some.mpr hv)
      (fun map => hput map value) (fun entry hentry hne map => ?_) map
    refine hother map entry fun hkey => hne (Prod.ext hkey ?_)
    -- A key has one value, so that no other entry is under it.
    rw [Std.ExtTreeMap.mem_toList_iff_getElem?_eq_some, hkey, hv] at hentry
    exact (Option.some.inj hentry).symm
  | none =>
    refine getElem?_foldl_of_forall (fun entry hentry map => ?_) map
    refine hother map entry fun hkey => ?_
    rw [Std.ExtTreeMap.mem_toList_iff_getElem?_eq_some, hkey, hv] at hentry
    simp at hentry

end

/-! ### Names in a flat map -/

theorem propertyName?_eq_some {key name : String} :
    propertyName? key = some name ↔ key = propertyPath ++ name := by
  rw [propertyName?, Option.map_eq_some_iff]
  constructor
  · rintro ⟨cs, hcs, rfl⟩
    rw [← String.toList_inj, String.toList_append, String.toList_ofList]
    exact (List.isPrefixOf?_eq_some_iff_append_eq.mp hcs).symm
  · rintro rfl
    refine ⟨name.toList, ?_, String.ofList_toList⟩
    rw [String.toList_append]
    exact List.isPrefixOf?_eq_some_iff_append_eq.mpr rfl

theorem path_append_inj {name name' : String} :
    propertyPath ++ name = propertyPath ++ name' ↔ name = name' := by
  rw [← String.toList_inj, String.toList_append, String.toList_append, List.append_cancel_left_eq,
    String.toList_inj]

/-- No property goes by the name of another setting. -/
theorem name_ne_path_append (key : SettingKey) (name : String) :
    key.name ≠ propertyPath ++ name := by
  intro h
  have hhead := congrArg (·.toList.head?) h
  simp only [String.toList_append] at hhead
  cases key <;> simp [SettingKey.name, propertyPath] at hhead

theorem SettingKey.mem_all (key : SettingKey) : key ∈ all := by
  cases key <;> decide

theorem SettingKey.name_inj {key key' : SettingKey} (h : key.name = key'.name) : key = key' := by
  cases key <;> cases key' <;> first | rfl | exact absurd h (by decide)

namespace Settings

/-- Where `ofMap` puts an entry of a flat map. -/
def putProperty (properties : StringMap) (entry : String × String) : StringMap :=
  match propertyName? entry.1 with
  | some name => properties.insert name entry.2
  | none => properties

/-- A flat map says of a property what it has under the name of the property
with the path before it. -/
theorem getElem?_ofMap_properties (map : StringMap) (name : String) :
    (ofMap map).properties[name]? = map[propertyPath ++ name]? := by
  have hfold : (ofMap map).properties = map.toList.foldl putProperty ∅ := by
    rw [ofMap, Std.ExtTreeMap.foldl_eq_foldl_toList]
    rfl
  rw [hfold, getElem?_foldl_toList (propertyPath ++ name), Std.ExtTreeMap.getElem?_empty,
    Option.or_none]
  · intro map value
    rw [putProperty, propertyName?_eq_some.mpr rfl]
    exact Std.ExtTreeMap.getElem?_insert_self
  · rintro map ⟨key, value⟩ hne
    rw [putProperty]
    split
    · rename_i other hother
      rw [Std.ExtTreeMap.getElem?_insert, if_neg]
      intro hcompare
      obtain rfl := Std.LawfulEqCmp.eq_of_compare hcompare
      exact hne (propertyName?_eq_some.mp hother)
    · rfl

/-- Where `toMap` puts a setting that has a name of its own. -/
def putNamed (s : Settings) (map : StringMap) (key : SettingKey) : StringMap :=
  match s.get? key with
  | some value => map.insert key.name value
  | none => map

theorem toMap_eq (s : Settings) :
    s.toMap = s.properties.toList.foldl
      (fun map entry => map.insert (propertyPath ++ entry.1) entry.2)
      (SettingKey.all.foldl s.putNamed ∅) := by
  rw [toMap, Std.ExtTreeMap.foldl_eq_foldl_toList]
  rfl

/-- A flat map has a property under its name with the path before it. -/
theorem getElem?_toMap_property (s : Settings) (name : String) :
    s.toMap[propertyPath ++ name]? = s.properties[name]? := by
  have hnamed : (SettingKey.all.foldl s.putNamed ∅)[propertyPath ++ name]? = none := by
    rw [getElem?_foldl_of_forall, Std.ExtTreeMap.getElem?_empty]
    intro key _ map
    rw [putNamed]
    split
    · rw [Std.ExtTreeMap.getElem?_insert, if_neg]
      exact fun hcompare => name_ne_path_append key name (Std.LawfulEqCmp.eq_of_compare hcompare)
    · rfl
  rw [toMap_eq, getElem?_foldl_toList name, hnamed, Option.or_none]
  · intro map value
    exact Std.ExtTreeMap.getElem?_insert_self
  · intro map entry hne
    rw [Std.ExtTreeMap.getElem?_insert, if_neg]
    exact fun hcompare => hne (path_append_inj.mp (Std.LawfulEqCmp.eq_of_compare hcompare))

/-- A flat map has each other setting under its name. -/
theorem getElem?_toMap_name (s : Settings) (key : SettingKey) :
    s.toMap[key.name]? = s.get? key := by
  have hother : ∀ other ∈ SettingKey.all, other ≠ key →
      ∀ map : StringMap, (s.putNamed map other)[key.name]? = map[key.name]? := by
    intro other _ hne map
    rw [putNamed]
    split
    · rw [Std.ExtTreeMap.getElem?_insert, if_neg]
      exact fun hcompare => hne (SettingKey.name_inj (Std.LawfulEqCmp.eq_of_compare hcompare))
    · rfl
  rw [toMap_eq, getElem?_foldl_of_forall]
  · cases hvalue : s.get? key with
    | some value =>
      refine getElem?_foldl_of_mem (SettingKey.mem_all key) (fun map => ?_) hother ∅
      rw [putNamed, hvalue]
      exact Std.ExtTreeMap.getElem?_insert_self
    | none =>
      rw [getElem?_foldl_of_forall, Std.ExtTreeMap.getElem?_empty]
      intro other hmem map
      by_cases hkey : other = key
      · rw [putNamed, hkey, hvalue]
      · exact hother other hmem hkey map
  · intro entry _ map
    rw [Std.ExtTreeMap.getElem?_insert, if_neg]
    exact fun hcompare =>
      name_ne_path_append key entry.1 (Std.LawfulEqCmp.eq_of_compare hcompare).symm

/-- Settings are read back from their flat map. -/
theorem ofMap_toMap (s : Settings) : ofMap s.toMap = s := by
  have hproperties : (ofMap s.toMap).properties = s.properties :=
    Std.ExtTreeMap.ext_getElem? fun name => by
      rw [getElem?_ofMap_properties, getElem?_toMap_property]
  have hnamed := s.getElem?_toMap_name
  obtain ⟨separator, enclosing, lineEnding, encoding, byteOrderMark, properties⟩ := s
  rw [ofMap] at hproperties ⊢
  congr 1
  · exact hnamed .separator
  · exact hnamed .enclosing
  · exact hnamed .lineEnding
  · exact hnamed .encoding
  · exact hnamed .byteOrderMark

end Settings

/-! ### What is stored has its meaning -/

theorem Delimiter.ofSetting?_setting (d : Delimiter) : ofSetting? d.setting = some d := by
  cases d with
  | off => rfl
  | auto => rfl
  | char c =>
    -- Neither word for something else begins with a backslash.
    have hhead : (String.ofList (Escape.escape c)).toList.head? = some '\\' := by
      rw [String.toList_ofList, Escape.head?_escape]
    have hoff : String.ofList (Escape.escape c) ≠ "" := by
      intro h
      rw [h] at hhead
      simp at hhead
    have hauto : String.ofList (Escape.escape c) ≠ "auto" := by
      intro h
      rw [h] at hhead
      simp at hhead
    rw [setting, ofSetting?, if_neg hoff, if_neg hauto, String.toList_ofList,
      Escape.unescape?_escape, Option.map_some]

theorem LineEnding.ofName?_name (e : LineEnding) : ofName? e.name = some e := by
  cases e <;> rfl

theorem Encoding.ofName?_name (e : Encoding) : ofName? e.name = some e := by
  cases e <;> decide +kernel

theorem boolOfSetting?_text (b : Bool) :
    boolOfSetting? (if b then "true" else "false") = some b := by
  cases b <;> rfl

/-- A text with a meaning passes its check. -/
theorem Settings.check_some {α : Type} {key : SettingKey} {meaning : String → Option α}
    {value : String} {a : α} (h : meaning value = some a) :
    check key meaning (some value) = .ok (some a) := by
  rw [check]
  simp only [h]

attribute [ext] Format

namespace Format

/-- A format with everything that another has stored in place of its own. -/
structure Restores (f g restored : Format) : Prop where
  separator : restored.separator = f.separator
  enclosing : restored.enclosing = f.enclosing
  lineEnding : restored.lineEnding = f.lineEnding
  encoding : restored.encoding = f.encoding
  writesMark : restored.writesMark = f.writesMark
  /-- The line end is not stored itself, but comes of the line ending. -/
  lineEnd : restored.lineEnd = .char f.lineEnding.readChar
  trims : restored.trims = g.trims
  keepsCrLf : restored.keepsCrLf = g.keepsCrLf
  properties : ∀ name : String,
    restored.properties[name]? = f.properties[name]?.or g.properties[name]?

/-- A format takes over what another has stored. -/
theorem exists_applySettings_toSettings (f g : Format) :
    ∃ restored, g.applySettings f.toSettings = .ok restored ∧ Restores f g restored := by
  have hstored : (Settings.ofFormat f).applyTo g = .ok {
      separator := f.separator
      enclosing := f.enclosing
      lineEnd := .char f.lineEnding.readChar
      trims := g.trims
      keepsCrLf := g.keepsCrLf
      lineEnding := f.lineEnding
      encoding := f.encoding
      writesMark := f.writesMark
      properties := g.properties ∪ f.properties } := by
    rw [Settings.applyTo, Settings.ofFormat]
    simp only [Settings.check_some f.separator.ofSetting?_setting,
      Settings.check_some f.enclosing.ofSetting?_setting,
      Settings.check_some f.lineEnding.ofName?_name, Settings.check_some f.encoding.ofName?_name,
      Settings.check_some (boolOfSetting?_text f.writesMark)]
    rfl
  have hread : g.applySettings f.toSettings = (Settings.ofFormat f).applyTo g := by
    rw [applySettings, toSettings, Settings.ofMap_toMap]
  exact ⟨_, hread.trans hstored, rfl, rfl, rfl, rfl, rfl, rfl, rfl, rfl,
    fun _ => Std.ExtTreeMap.getElem?_union⟩

/-- A format that is restored on top of comma separated values is as it was,
unless something of it is not stored. -/
theorem Restores.eq_iff {f restored : Format} (h : Restores f csv restored) :
    restored = f ↔
      f.trims = false ∧ f.keepsCrLf = false ∧ f.lineEnd = .char f.lineEnding.readChar := by
  constructor
  · rintro rfl
    exact ⟨h.trims, h.keepsCrLf, h.lineEnd⟩
  · rintro ⟨htrims, hkeeps, hlineEnd⟩
    have hproperties : restored.properties = f.properties :=
      Std.ExtTreeMap.ext_getElem? fun name => by
        rw [h.properties]
        exact Option.or_none
    refine Format.ext h.separator h.enclosing ?_ ?_ ?_ h.lineEnding h.encoding h.writesMark
      hproperties
    · exact h.lineEnd.trans hlineEnd.symm
    · exact h.trims.trans htrims.symm
    · exact h.keepsCrLf.trans hkeeps.symm

/-- Applied to any format, the settings of a format restore what is stored of
it; by themselves they restore the format just if it has nothing else. -/
theorem applySettings_toSettings (f g : Format) :
    (∃ restored, g.applySettings f.toSettings = .ok restored ∧ Restores f g restored) ∧
    ∃ restored, ofSettings f.toSettings = .ok restored ∧
      (restored = f ↔
        f.trims = false ∧ f.keepsCrLf = false ∧ f.lineEnd = .char f.lineEnding.readChar) := by
  refine ⟨exists_applySettings_toSettings f g, ?_⟩
  obtain ⟨restored, hok, hrestores⟩ := exists_applySettings_toSettings f csv
  exact ⟨restored, hok, hrestores.eq_iff⟩

end Format

end Tabular
