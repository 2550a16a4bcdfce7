/-
What can go wrong, by cause.

`Error.message` is the wording of each error; `Error.kind` sorts the errors
into those of the input or output, those of a format that does not fit what
is asked of it, those of a stored setting, and others.
-/
import Tabular.Text.Encoding
import Tabular.Text.Quoted
import Tabular.Format.Key

namespace Tabular

/-- Why bytes could not be read or written. -/
inductive Fault
  /-- The other side reports a failure of its own. -/
  | failed (reason : String)
  /-- The call was interrupted and may be made again. -/
  | interrupted
  /-- There is no room for the bytes. -/
  | full
  /-- There is no such file. -/
  | missing
  deriving DecidableEq

def Fault.message : Fault → String
  | failed reason => reason
  | interrupted => "interrupted"
  | full => "disk full"
  | missing => "No such file or directory (os error 2)"

inductive Error
  | io (fault : Fault)
  /-- Cells are ranges of the input, but the input is not in memory. -/
  | viewOfStream
  /-- Cells are ranges of the input, but quotes would have to be removed. -/
  | viewWithEnclosing
  /-- Cells are ranges of the input, but a unit is more than a byte. -/
  | viewOfWideUnits (encoding : Encoding)
  /-- Splitting at bytes needs a separator and a line end of one byte. -/
  | splitWithoutBytes
  /-- Work is to be shared among no workers. -/
  | noWorkers
  /-- The workers that are to share it cannot be had. -/
  | noPool (reason : String)
  /-- Writing needs to know the separator. -/
  | writeWithoutSeparator
  /-- Writing needs to know the enclosing character, or that there is none. -/
  | writeWithoutEnclosing
  /-- A stored setting has a value that means nothing. -/
  | badSetting (key : SettingKey) (value : String)
  deriving DecidableEq

inductive ErrorKind
  | io
  | format
  | setting
  | other
  deriving DecidableEq

namespace Error

def kind : Error → ErrorKind
  | io _ => .io
  | viewOfStream | viewWithEnclosing | viewOfWideUnits _ | splitWithoutBytes | noWorkers
  | writeWithoutSeparator | writeWithoutEnclosing => .format
  | badSetting _ _ => .setting
  | noPool _ => .other

def message : Error → String
  | io fault => "IO error: " ++ fault.message
  | viewOfStream => "Invalid format: view appender requires in-memory input"
  | viewWithEnclosing =>
    "Invalid format: view appender cannot be combined with an enclosing character"
  | viewOfWideUnits encoding =>
    "Invalid format: view appender requires a single-byte encoding, got " ++ encoding.name
  | splitWithoutBytes =>
    "Invalid format: barebones parsing needs concrete ASCII separator and end of line"
  | noWorkers => "Invalid format: thread count must be at least 1"
  | noPool reason => "Failed to build thread pool: " ++ reason
  | writeWithoutSeparator => "Invalid format: writing requires a concrete separator"
  | writeWithoutEnclosing =>
    "Invalid format: writing requires a concrete or disabled enclosing character"
  | badSetting key value => "Invalid setting '" ++ key.name ++ "': " ++ Quoted.text value

end Error

/-- An attempt to get an `α` that leaves a state behind whether or not it
succeeds, so that what follows a failure is defined as well. -/
abbrev Attempt (σ α : Type) := EStateM.Result Error σ α

end Tabular
