import WordStudy.Engine.Files
import WordStudy.Settings.Text

/-!
# Settings files

Settings are kept in a file; where there is none, the usual ones are taken. Settings that are
read from a file are **checked**: the alphabet has upper-case letters only, and the tables can
be read.
-/

namespace WordStudy

/-- Why settings cannot be loaded. -/
inductive SettingsFault where
  | unreadable (path : String) (cause : FileFault)
  | malformed (cause : Json.Placed)
  | badAlphabet (alphabet : String)
  | table (cause : TableFault)
  deriving DecidableEq, Repr

namespace SettingsFault

/-- The fault in words, without its cause. -/
def message : SettingsFault → String
  | unreadable path _ => s!"Failed to read config file {path}"
  | malformed _ => "Failed to parse config file"
  | badAlphabet alphabet => s!"alphabet must be non-empty upper-case ASCII: '{alphabet}'"
  | table cause => (EngineFault.table cause).message

/-- The cause in words. -/
def cause? : SettingsFault → Option String
  | unreadable _ cause => some cause.message
  | malformed cause => some cause.message
  | badAlphabet _ => none
  | table _ => none

end SettingsFault

namespace Settings

/-- The settings mean something. -/
def check (s : Settings) : Except SettingsFault Settings :=
  let letters := Word.ofText s.alphabet
  if letters.isEmpty || !letters.all isUpper then .error (.badAlphabet s.alphabet)
  else
    match s.bag with
    | .ok _ => .ok s
    | .error cause => .error (.table cause)

def parse (text : String) : Except SettingsFault Settings :=
  match read text with
  | .ok s => s.check
  | .error cause => .error (.malformed cause)

/-- **The settings in a file**, or the usual ones if there is no such file. -/
def load (files : Files) (path : String) : Except SettingsFault Settings :=
  if files.exists? path then
    match files.readText path with
    | .ok text => parse text
    | .error cause => .error (.unreadable path cause)
  else .ok standard

end Settings

end WordStudy
