/-
Settings are merged into a format, all of them or none.

* `invalidSetting?` — the first setting with a value that means nothing;
* `Changes` — what settings change of a format, once they are checked, and
  `Changes.after` — two such changes as one;
* `Settings.applyTo_eq` — settings are refused for the first invalid one, or
  else change what they mention;
* `Settings.change_eq` — and in place the same, so that nothing is changed
  where anything is refused;
* `Format.changeSettings_merges` — so that maps of settings can be merged first
  and applied then.

Design notes: the checks make no use of the format, so what they leave is a
value of its own, and merging is an operation on such values.
-/
import Tabular.Proofs.Format.Settings

namespace Tabular

/-- Whether a text means anything as the value of a setting. -/
def SettingKey.accepts : SettingKey → String → Bool
  | separator, value | enclosing, value => (Delimiter.ofSetting? value).isSome
  | lineEnding, value => (LineEnding.ofName? value).isSome
  | encoding, value => (Encoding.ofName? value).isSome
  | byteOrderMark, value => (boolOfSetting? value).isSome

/-- The first of some settings of a flat map with a value that means nothing. -/
def invalidAmong? (keys : List SettingKey) (map : StringMap) : Option (SettingKey × String) :=
  keys.findSome? fun key =>
    (map[key.name]?.filter fun value => !key.accepts value).map (key, ·)

/-- The first setting of a flat map, in the order of the keys, with a value
that means nothing. -/
def invalidSetting? (map : StringMap) : Option (SettingKey × String) :=
  invalidAmong? SettingKey.all map

theorem invalidSetting?_eq_none {map : StringMap} :
    invalidSetting? map = none ↔
      ∀ (key : SettingKey) (value : String), map[key.name]? = some value → key.accepts value := by
  rw [invalidSetting?, invalidAmong?, List.findSome?_eq_none_iff]
  simp only [Option.map_eq_none_iff, Option.filter_eq_none_iff, Bool.not_eq_true',
    Bool.not_eq_false]
  exact ⟨fun h key => h key key.mem_all, fun h key _ => h key⟩

/-! ### What settings change -/

/-- What settings change of a format. -/
structure Changes where
  separator : Option Delimiter
  enclosing : Option Delimiter
  lineEnding : Option LineEnding
  encoding : Option Encoding
  writesMark : Option Bool
  properties : StringMap

namespace Changes

/-- The format with the changes. -/
def onto (c : Changes) (f : Format) : Format where
  separator := c.separator.getD f.separator
  enclosing := c.enclosing.getD f.enclosing
  lineEnd := (c.lineEnding.map fun e => Delimiter.char e.readChar).getD f.lineEnd
  trims := f.trims
  keepsCrLf := f.keepsCrLf
  lineEnding := c.lineEnding.getD f.lineEnding
  encoding := c.encoding.getD f.encoding
  writesMark := c.writesMark.getD f.writesMark
  properties := f.properties ∪ c.properties

/-- The changes made after others, and those of the others that they leave. -/
def after (c b : Changes) : Changes where
  separator := c.separator.or b.separator
  enclosing := c.enclosing.or b.enclosing
  lineEnding := c.lineEnding.or b.lineEnding
  encoding := c.encoding.or b.encoding
  writesMark := c.writesMark.or b.writesMark
  properties := b.properties ∪ c.properties

theorem union_assoc (a b c : StringMap) : (a ∪ b) ∪ c = a ∪ (b ∪ c) :=
  Std.ExtTreeMap.ext_getElem? fun key => by
    simp only [Std.ExtTreeMap.getElem?_union, Option.or_assoc]

/-- One change after another is one change. -/
theorem onto_onto (b c : Changes) (f : Format) : c.onto (b.onto f) = (c.after b).onto f := by
  obtain ⟨separator, enclosing, lineEnding, encoding, writesMark, properties⟩ := c
  refine Format.ext ?_ ?_ ?_ rfl rfl ?_ ?_ ?_ (union_assoc ..)
  · cases separator <;> rfl
  · cases enclosing <;> rfl
  · cases lineEnding <;> rfl
  · cases lineEnding <;> rfl
  · cases encoding <;> rfl
  · cases writesMark <;> rfl

/-- The same changes again change nothing. -/
theorem after_self (c : Changes) : c.after c = c := by
  obtain ⟨separator, enclosing, lineEnding, encoding, writesMark, properties⟩ := c
  have hproperties : properties ∪ properties = properties :=
    Std.ExtTreeMap.ext_getElem? fun key => by rw [Std.ExtTreeMap.getElem?_union, Option.or_self]
  simp only [after, Option.or_self, hproperties]

end Changes

namespace Settings

/-- What settings change, where they mean something. -/
def changes (s : Settings) : Changes where
  separator := s.separator.bind Delimiter.ofSetting?
  enclosing := s.enclosing.bind Delimiter.ofSetting?
  lineEnding := s.lineEnding.bind LineEnding.ofName?
  encoding := s.encoding.bind Encoding.ofName?
  writesMark := s.byteOrderMark.bind boolOfSetting?
  properties := s.properties

/-- What is refused for an invalid setting, if there is one. -/
def refuse {α : Type} : Option (SettingKey × String) → α → Except Error α
  | some (key, value), _ => .error (.badSetting key value)
  | none, a => .ok a

/-- The check of one setting comes before those of the others. -/
theorem check_bind {α β : Type} (key : SettingKey) {keys : List SettingKey} {map : StringMap}
    {meaning : String → Option α} (haccepts : ∀ value, key.accepts value = (meaning value).isSome)
    {go : Option α → Except Error β} {b : β}
    (h : go (map[key.name]?.bind meaning) = refuse (invalidAmong? keys map) b) :
    (check key meaning map[key.name]? >>= go) = refuse (invalidAmong? (key :: keys) map) b := by
  rw [invalidAmong?, List.findSome?_cons]
  cases hmap : map[key.name]? with
  | none =>
    rw [hmap] at h
    exact h
  | some value =>
    rw [hmap] at h
    rw [check, Option.filter, haccepts]
    cases hmeaning : meaning value with
    | none => rfl
    | some a =>
      rw [show (some value).bind meaning = some a from hmeaning] at h
      exact h

/-- Settings are refused for the first invalid one, or else change what they
mention. -/
theorem applyTo_eq (map : StringMap) (f : Format) :
    (ofMap map).applyTo f = refuse (invalidSetting? map) ((ofMap map).changes.onto f) := by
  rw [applyTo]
  refine check_bind .separator (fun _ => rfl) ?_
  refine check_bind .enclosing (fun _ => rfl) ?_
  refine check_bind .lineEnding (fun _ => rfl) ?_
  refine check_bind .encoding (fun _ => rfl) ?_
  exact check_bind .byteOrderMark (fun _ => rfl) rfl

/-- Properties put into a format one by one are put there all at once. -/
theorem foldl_withProperty (properties : StringMap) (f : Format) :
    properties.foldl Format.withProperty f =
      { f with properties := f.properties ∪ properties } := by
  have hfold : ∀ (entries : List (String × String)) (f : Format),
      entries.foldl (fun f entry => f.withProperty entry.1 entry.2) f =
        { f with
          properties := entries.foldl (fun map entry => map.insert entry.1 entry.2)
            f.properties } := by
    intro entries
    induction entries with
    | nil => intro f; rfl
    | cons entry entries ih => intro f; exact ih _
  rw [Std.ExtTreeMap.foldl_eq_foldl_toList, hfold]
  congr 1
  refine Std.ExtTreeMap.ext_getElem? fun name => ?_
  rw [getElem?_foldl_toList name, Std.ExtTreeMap.getElem?_union]
  · exact fun map value => Std.ExtTreeMap.getElem?_insert_self
  · intro map entry hne
    rw [Std.ExtTreeMap.getElem?_insert, if_neg]
    exact fun hcompare => hne (Std.LawfulEqCmp.eq_of_compare hcompare)

/-- What an attempt to change a format comes to, and the format that it leaves. -/
def inPlace (f : Format) : Except Error Format → Attempt Format Unit
  | .ok g => .ok () g
  | .error e => .error e f

theorem inPlace_bind {α : Type} {f : Format} {x : Except Error α}
    {go : α → EStateM Error Format Unit} {make : α → Except Error Format}
    (h : ∀ a, go a f = inPlace f (make a)) :
    (MonadExcept.ofExcept x >>= go) f = inPlace f (x >>= make) := by
  cases x with
  | error e => rfl
  | ok a => exact h a

/-- A format is changed in place just as another is made of it, and is left as
it was where the settings are refused. -/
theorem change_eq (s : Settings) (f : Format) : s.change f = inPlace f (s.applyTo f) := by
  rw [change, applyTo]
  refine inPlace_bind fun separator => ?_
  refine inPlace_bind fun enclosing => ?_
  refine inPlace_bind fun lineEnding => ?_
  refine inPlace_bind fun encoding => ?_
  refine inPlace_bind fun writesMark => ?_
  refine congrArg (EStateM.Result.ok ()) ((foldl_withProperty ..).trans ?_)
  -- Each part was replaced on its own, or was not.
  cases separator <;> cases enclosing <;> cases lineEnding <;> cases encoding <;>
    cases writesMark <;> rfl

end Settings

/-! ### Maps of settings -/

/-- Two flat maps with the same settings and the same properties. -/
def SameSettings (map map' : StringMap) : Prop :=
  ∀ key : String, (∃ k : SettingKey, key = k.name) ∨ propertyPath.toList <+: key.toList →
    map[key]? = map'[key]?

theorem Settings.ofMap_congr {map map' : StringMap} (h : SameSettings map map') :
    ofMap map = ofMap map' := by
  have hnamed : ∀ key : SettingKey, map[key.name]? = map'[key.name]? :=
    fun key => h _ (.inl ⟨key, rfl⟩)
  have hproperties : (ofMap map).properties = (ofMap map').properties :=
    Std.ExtTreeMap.ext_getElem? fun name => by
      rw [getElem?_ofMap_properties, getElem?_ofMap_properties]
      refine h _ (.inr ?_)
      rw [String.toList_append]
      exact List.prefix_append ..
  rw [ofMap] at hproperties ⊢
  rw [ofMap]
  congr 1
  · exact hnamed .separator
  · exact hnamed .enclosing
  · exact hnamed .lineEnding
  · exact hnamed .encoding
  · exact hnamed .byteOrderMark

/-- What the later of two texts means, or the earlier one where there is no
later, if both mean something. -/
theorem bind_or {α : Type} {meaning : String → Option α} {earlier later : Option String}
    (h : ∀ value, later = some value → (meaning value).isSome) :
    (later.or earlier).bind meaning = (later.bind meaning).or (earlier.bind meaning) := by
  cases later with
  | none => rfl
  | some value =>
    obtain ⟨a, ha⟩ := Option.isSome_iff_exists.mp (h value rfl)
    rw [Option.some_or, Option.bind_some, ha, Option.some_or]

/-- Settings that are merged change what they change one after the other. -/
theorem Settings.changes_union {map₁ map₂ : StringMap} (h : invalidSetting? map₂ = none) :
    (ofMap (map₁ ∪ map₂)).changes = (ofMap map₂).changes.after (ofMap map₁).changes := by
  have haccepts := invalidSetting?_eq_none.mp h
  have hproperties : (ofMap (map₁ ∪ map₂)).properties =
      (ofMap map₁).properties ∪ (ofMap map₂).properties :=
    Std.ExtTreeMap.ext_getElem? fun name => by
      rw [getElem?_ofMap_properties, Std.ExtTreeMap.getElem?_union,
        Std.ExtTreeMap.getElem?_union, getElem?_ofMap_properties, getElem?_ofMap_properties]
  have hnamed : ∀ (key : SettingKey) {α : Type} {meaning : String → Option α},
      (∀ value, key.accepts value = (meaning value).isSome) →
      (map₁ ∪ map₂)[key.name]?.bind meaning =
        (map₂[key.name]?.bind meaning).or (map₁[key.name]?.bind meaning) := by
    intro key α meaning hmeaning
    rw [Std.ExtTreeMap.getElem?_union]
    exact bind_or fun value hvalue => hmeaning value ▸ haccepts key value hvalue
  rw [changes, changes, changes, Changes.after, hproperties]
  congr 1
  · exact hnamed .separator fun _ => rfl
  · exact hnamed .enclosing fun _ => rfl
  · exact hnamed .lineEnding fun _ => rfl
  · exact hnamed .encoding fun _ => rfl
  · exact hnamed .byteOrderMark fun _ => rfl

theorem invalidSetting?_union {map₁ map₂ : StringMap} (h₁ : invalidSetting? map₁ = none)
    (h₂ : invalidSetting? map₂ = none) : invalidSetting? (map₁ ∪ map₂) = none := by
  rw [invalidSetting?_eq_none] at h₁ h₂ ⊢
  intro key value hvalue
  rw [Std.ExtTreeMap.getElem?_union, Option.or_eq_some_iff] at hvalue
  rcases hvalue with hvalue | ⟨-, hvalue⟩
  · exact h₂ key value hvalue
  · exact h₁ key value hvalue

namespace Format

/-- A format takes over what a flat map of settings says, or is left as it was
where one of them is invalid. -/
theorem changeSettings_eq (map : StringMap) (f : Format) :
    changeSettings map f =
      match invalidSetting? map with
      | some (key, value) => .error (.badSetting key value) f
      | none => .ok () ((Settings.ofMap map).changes.onto f) := by
  rw [changeSettings, Settings.change_eq, Settings.applyTo_eq]
  cases invalidSetting? map <;> rfl

theorem changeSettings_valid {map : StringMap} (h : invalidSetting? map = none) (f : Format) :
    changeSettings map f = .ok () ((Settings.ofMap map).changes.onto f) := by
  rw [changeSettings_eq, h]

/-- Flat maps of settings are merged into a format.  A map is refused for the
first invalid setting, in the order of the keys, whatever the format, which is
then left as it was; names that mean nothing do not matter; and two maps that
are not refused come to the same one after the other and as one, in which the
entries of the second take precedence. -/
theorem changeSettings_merges :
    SettingKey.all.map SettingKey.name =
      ["separator_char", "enclosing_char", "end_of_line_type", "encoding", "bom_writing"] ∧
    (∀ map : StringMap,
      match invalidSetting? map with
      | some (key, value) => ∀ f, changeSettings map f = .error (.badSetting key value) f
      | none => ∀ f, ∃ g, changeSettings map f = .ok () g) ∧
    (∀ map map' : StringMap, SameSettings map map' →
      changeSettings map = changeSettings map') ∧
    (∀ map₁ map₂ : StringMap, invalidSetting? map₁ = none → invalidSetting? map₂ = none →
      ∀ f, ∃ g h, changeSettings map₁ f = .ok () g ∧ changeSettings map₂ g = .ok () h ∧
        changeSettings (map₁ ∪ map₂) f = .ok () h) ∧
    (∀ (map : StringMap) (f g : Format), changeSettings map f = .ok () g →
      changeSettings map g = .ok () g) := by
  refine ⟨rfl, fun map => ?_, fun map map' hsame => ?_, fun map₁ map₂ h₁ h₂ f => ?_,
    fun map f g hg => ?_⟩
  · split
    · rename_i key value hinvalid
      intro f
      rw [changeSettings_eq, hinvalid]
    · rename_i hvalid
      exact fun f => ⟨_, changeSettings_valid hvalid f⟩
  · rw [changeSettings, changeSettings, Settings.ofMap_congr hsame]
  · refine ⟨_, _, changeSettings_valid h₁ f, changeSettings_valid h₂ _, ?_⟩
    rw [changeSettings_valid (invalidSetting?_union h₁ h₂), Settings.changes_union h₂,
      Changes.onto_onto]
  · rw [changeSettings_eq] at hg
    split at hg
    · exact absurd hg (by simp)
    · rename_i hvalid
      obtain ⟨-, rfl⟩ := EStateM.Result.ok.inj hg
      rw [changeSettings_valid hvalid, Changes.onto_onto, Changes.after_self]

/-- Maps of which the second takes precedence, an entry that means nothing, and
a map with two invalid settings, which is refused for the one that is checked
first. -/
theorem changeSettings_merges_overlapping :
    let named : StringMap := .ofList [("separator_char", ";"), ("properties/a", "1")]
    let map₁ := named.insert "unrelated" "x"
    let map₂ : StringMap := .ofList
      [("end_of_line_type", "rn"), ("properties/a", "2"), ("separator_char", "\\t")]
    let refused : StringMap := .ofList
      [("encoding", "EBCDIC"), ("end_of_line_type", "crlf"), ("separator_char", "|")]
    SameSettings map₁ named ∧ changeSettings map₁ = changeSettings named ∧
      invalidSetting? map₁ = none ∧ invalidSetting? map₂ = none ∧
      (∃ g h, changeSettings map₁ csv = .ok () g ∧ changeSettings map₂ g = .ok () h ∧
        changeSettings (map₁ ∪ map₂) csv = .ok () h ∧ changeSettings (map₁ ∪ map₂) h = .ok () h ∧
        h.separator = .char '\t' ∧ h.lineEnding = .crlf ∧ h.properties["a"]? = some "2") ∧
      changeSettings refused csv = .error (.badSetting .lineEnding "crlf") csv := by
  intro named map₁ map₂ refused
  obtain ⟨-, hrefused, hsame, hunion, hagain⟩ := changeSettings_merges
  have hnamed : SameSettings map₁ named := by
    intro key hkey
    rw [Std.ExtTreeMap.getElem?_insert, if_neg]
    intro hcompare
    obtain rfl := Std.LawfulEqCmp.eq_of_compare hcompare
    rcases hkey with ⟨k, hk⟩ | hprefix
    · cases k <;> exact absurd hk (by decide)
    · exact absurd (List.isPrefixOf_iff_prefix.mpr hprefix) (by decide)
  have h₁ : invalidSetting? map₁ = none := by decide +kernel
  have h₂ : invalidSetting? map₂ = none := by decide +kernel
  have hfirst : invalidSetting? refused = some (.lineEnding, "crlf") := by decide +kernel
  have herror := hrefused refused
  rw [hfirst] at herror
  obtain ⟨g, h, hg, hh, hmerged⟩ := hunion map₁ map₂ h₁ h₂ csv
  have hparts : (match changeSettings (map₁ ∪ map₂) csv with
      | .ok () h => some (h.separator, h.lineEnding, h.properties["a"]?)
      | .error _ _ => none) = some (.char '\t', .crlf, some "2") := by decide +kernel
  rw [hmerged] at hparts
  obtain ⟨hseparator, hlineEnding, hproperty⟩ :
      h.separator = .char '\t' ∧ h.lineEnding = .crlf ∧ h.properties["a"]? = some "2" := by
    simpa using hparts
  exact ⟨hnamed, hsame map₁ named hnamed, h₁, h₂, ⟨g, h, hg, hh, hmerged,
    hagain _ csv h hmerged, hseparator, hlineEnding, hproperty⟩, herror csv⟩

end Format

end Tabular
