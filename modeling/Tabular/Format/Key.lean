/-
The names under which the parts of a format are stored.
-/

namespace Tabular

/-- A part of a format that is stored under a name of its own. -/
inductive SettingKey
  | separator
  | enclosing
  | lineEnding
  | encoding
  | byteOrderMark
  deriving DecidableEq

namespace SettingKey

/-- Every key, in the order in which the settings are checked. -/
def all : List SettingKey := [separator, enclosing, lineEnding, encoding, byteOrderMark]

def name : SettingKey → String
  | separator => "separator_char"
  | enclosing => "enclosing_char"
  | lineEnding => "end_of_line_type"
  | encoding => "encoding"
  | byteOrderMark => "bom_writing"

/-- The key with that name. -/
def ofName? (name : String) : Option SettingKey := all.find? fun key => key.name == name

end SettingKey

end Tabular
