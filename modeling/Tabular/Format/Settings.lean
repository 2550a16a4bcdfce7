/-
Formats as stored settings: texts under names.

* `Settings` — the raw texts, of which any may be missing;
* `Settings.ofMap`, `Settings.toMap` — from and to a flat map;
* `Settings.ofFormat`, `Settings.applyTo` — from a format, and onto one;
* `Settings.change` — the same in place.

Every text is checked before a format is changed, in the order of the keys,
so a format is changed as a whole or not at all.  What no setting mentions
stays as it was.
-/
import Tabular.Error
import Tabular.Format.Basic
import Tabular.Format.Escape

namespace Tabular

/-- The raw texts of stored settings. -/
structure Settings where
  separator : Option String
  enclosing : Option String
  lineEnding : Option String
  encoding : Option String
  byteOrderMark : Option String
  properties : StringMap
  deriving DecidableEq

/-- What stands before the name of a property in a flat map. -/
def propertyPath : String := "properties/"

/-- The name of a property, from its name in a flat map. -/
def propertyName? (key : String) : Option String :=
  (propertyPath.toList.isPrefixOf? key.toList).map String.ofList

namespace Delimiter

/-- The stored form: escaped, empty, or the word `auto`. -/
def setting : Delimiter → String
  | char c => String.ofList (Escape.escape c)
  | off => ""
  | auto => "auto"

def ofSetting? (value : String) : Option Delimiter :=
  if value = "" then some off
  else if value = "auto" then some auto
  else (Escape.unescape? value.toList).map char

end Delimiter

/-- A yes or no. -/
def boolOfSetting? (value : String) : Option Bool :=
  if value = "true" ∨ value = "1" then some true
  else if value = "false" ∨ value = "0" then some false
  else none

namespace Settings

/-- No settings. -/
def empty : Settings := ⟨none, none, none, none, none, ∅⟩

/-- The settings in a flat map; names that mean nothing are passed over. -/
def ofMap (map : StringMap) : Settings where
  separator := map[SettingKey.separator.name]?
  enclosing := map[SettingKey.enclosing.name]?
  lineEnding := map[SettingKey.lineEnding.name]?
  encoding := map[SettingKey.encoding.name]?
  byteOrderMark := map[SettingKey.byteOrderMark.name]?
  properties := map.foldl (fun properties key value =>
    match propertyName? key with
    | some name => properties.insert name value
    | none => properties) ∅

/-- The text of a setting that has a name of its own. -/
def get? (s : Settings) : SettingKey → Option String
  | .separator => s.separator
  | .enclosing => s.enclosing
  | .lineEnding => s.lineEnding
  | .encoding => s.encoding
  | .byteOrderMark => s.byteOrderMark

/-- The settings as a flat map. -/
def toMap (s : Settings) : StringMap :=
  let named := SettingKey.all.foldl (fun map key =>
    match s.get? key with
    | some value => map.insert key.name value
    | none => map) (∅ : StringMap)
  s.properties.foldl (fun map name value => map.insert (propertyPath ++ name) value) named

/-- Everything about a format that is stored. -/
def ofFormat (f : Format) : Settings where
  separator := some f.separator.setting
  enclosing := some f.enclosing.setting
  lineEnding := some f.lineEnding.name
  encoding := some f.encoding.name
  byteOrderMark := some (if f.writesMark then "true" else "false")
  properties := f.properties

/-- What a text means, if there is one. -/
def check {α : Type} (key : SettingKey) (meaning : String → Option α) :
    Option String → Except Error (Option α)
  | none => .ok none
  | some value =>
    match meaning value with
    | some a => .ok (some a)
    | none => .error (.badSetting key value)

/-- Changes a format as the settings say. -/
def applyTo (s : Settings) (f : Format) : Except Error Format := do
  -- Everything is checked before anything is changed.
  let separator ← check .separator Delimiter.ofSetting? s.separator
  let enclosing ← check .enclosing Delimiter.ofSetting? s.enclosing
  let lineEnding ← check .lineEnding LineEnding.ofName? s.lineEnding
  let encoding ← check .encoding Encoding.ofName? s.encoding
  let writesMark ← check .byteOrderMark boolOfSetting? s.byteOrderMark
  return {
    separator := separator.getD f.separator
    enclosing := enclosing.getD f.enclosing
    lineEnd := (lineEnding.map fun e => Delimiter.char e.readChar).getD f.lineEnd
    trims := f.trims
    keepsCrLf := f.keepsCrLf
    lineEnding := lineEnding.getD f.lineEnding
    encoding := encoding.getD f.encoding
    writesMark := writesMark.getD f.writesMark
    properties := f.properties ∪ s.properties }

/-- Replaces a part of a format, if there is something in its place. -/
def replace {α : Type} (write : Format → α → Format) (part : Option α) :
    EStateM Error Format Unit :=
  modify fun f => part.elim f (write f)

/-- Changes a format in place as the settings say, one part after another. -/
def change (s : Settings) : EStateM Error Format Unit := do
  let separator ← MonadExcept.ofExcept (check .separator Delimiter.ofSetting? s.separator)
  let enclosing ← MonadExcept.ofExcept (check .enclosing Delimiter.ofSetting? s.enclosing)
  let lineEnding ← MonadExcept.ofExcept (check .lineEnding LineEnding.ofName? s.lineEnding)
  let encoding ← MonadExcept.ofExcept (check .encoding Encoding.ofName? s.encoding)
  let writesMark ← MonadExcept.ofExcept (check .byteOrderMark boolOfSetting? s.byteOrderMark)
  replace ({ · with separator := · }) separator
  replace ({ · with enclosing := · }) enclosing
  replace Format.withLineEnding lineEnding
  replace ({ · with encoding := · }) encoding
  replace ({ · with writesMark := · }) writesMark
  modify fun f => s.properties.foldl Format.withProperty f

end Settings

namespace Format

/-- The format as a flat map of settings. -/
def toSettings (f : Format) : StringMap := (Settings.ofFormat f).toMap

/-- The format, changed as a flat map of settings says. -/
def applySettings (f : Format) (map : StringMap) : Except Error Format :=
  (Settings.ofMap map).applyTo f

/-- Changes the format in place as a flat map of settings says. -/
def changeSettings (map : StringMap) : EStateM Error Format Unit := (Settings.ofMap map).change

/-- Comma separated values, changed as a flat map of settings says. -/
def ofSettings (map : StringMap) : Except Error Format := csv.applySettings map

end Format

end Tabular
