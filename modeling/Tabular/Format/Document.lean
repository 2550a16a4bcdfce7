/-
Stored settings in a JSON document.

Settings are an object with a member for each, or an array of their values in
order, where those left out at the end are missing.  In an object, members of
other names are passed over and no setting may come twice.
-/
import Tabular.Format.Settings
import Tabular.Json.Value

namespace Tabular.Settings

/-- A text that may be missing. -/
def optionalText? : Json → Option (Option String)
  | .null => some none
  | .string (some text) => some (some text)
  | _ => none

/-- The members of an object of texts; of two with one name the later counts. -/
def textsOf? (members : List (Option String × Json)) : Option StringMap :=
  members.foldl (fun map member => do
    match ← map, member with
    | map, (some name, .string (some text)) => some (map.insert name text)
    | _, _ => none) (some ∅)

/-- An object of texts. -/
def properties? : Json → Option StringMap
  | .object members => textsOf? members
  | _ => none

/-- A place for a value in a document. -/
inductive Slot
  | named (key : SettingKey)
  | properties
  deriving DecidableEq

namespace Slot

/-- Every slot, in the order of an array. -/
def all : List Slot := SettingKey.all.map named ++ [properties]

def name : Slot → String
  | named key => key.name
  | properties => "properties"

/-- The slot with that name. -/
def ofName? (name : String) : Option Slot := all.find? fun slot => slot.name == name

end Slot

/-- The settings with one that has a name of its own. -/
def set (s : Settings) (key : SettingKey) (text : Option String) : Settings :=
  match key with
  | .separator => { s with separator := text }
  | .enclosing => { s with enclosing := text }
  | .lineEnding => { s with lineEnding := text }
  | .encoding => { s with encoding := text }
  | .byteOrderMark => { s with byteOrderMark := text }

/-- The settings with one more value, if it is of the kind that goes there. -/
def fill? (s : Settings) (slot : Slot) (json : Json) : Option Settings :=
  match slot with
  | .named key => (optionalText? json).map (s.set key)
  | .properties => (properties? json).map fun map => { s with properties := map }

/-- The settings in an array of values. -/
def ofItems? : Settings → List Slot → List Json → Option Settings
  | s, _, [] => some s
  | _, [], _ :: _ => none
  | s, slot :: slots, json :: items => do
    let s ← s.fill? slot json
    ofItems? s slots items

/-- The settings in an object, where `free` are the slots not yet filled. -/
def ofMembers? : Settings → (free : List Slot) → List (Option String × Json) → Option Settings
  | s, _, [] => some s
  | _, _, (none, _) :: _ => none
  | s, free, (some name, json) :: members =>
    match Slot.ofName? name with
    -- A member that is no setting.
    | none => ofMembers? s free members
    | some slot =>
      if slot ∈ free then do
        let s ← s.fill? slot json
        ofMembers? s (free.erase slot) members
      else none

/-- The settings that a value stands for. -/
def ofJson? : Json → Option Settings
  | .object members => ofMembers? empty Slot.all members
  | .array items => ofItems? empty Slot.all items
  | _ => none

/-- The settings in a document. -/
def ofDocument? (text : String) : Option Settings := (Json.parse? text).bind ofJson?

end Tabular.Settings
