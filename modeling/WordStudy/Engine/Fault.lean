import WordStudy.Attributes.Store
import WordStudy.Graph.Image
import WordStudy.Search.Query
import WordStudy.Tiles.Bag

/-!
# Faults

All ways in which an operation on lexicons can fail, and how they are told to the user.
-/

namespace WordStudy

/-- Why a file cannot be read or written. -/
inductive FileFault where
  | missing
  | exists
  | noDevice
  | isDirectory
  | notDirectory
  | nameTooLong
  | notText
  deriving DecidableEq, Repr

/-- The fault in words. -/
def FileFault.message : FileFault → String
  | missing => "No such file or directory (os error 2)"
  | .exists => "File exists (os error 17)"
  | noDevice => "No such device (os error 19)"
  | isDirectory => "Is a directory (os error 21)"
  | notDirectory => "Not a directory (os error 20)"
  | nameTooLong => "File name too long (os error 36)"
  | notText => "stream did not contain valid UTF-8"

/-- Why an operation failed. -/
inductive EngineFault where
  | file (path : String) (cause : FileFault)
  | image (cause : ImageFault)
  | notLoaded (name : String)
  | store (cause : StoreFault)
  | query (cause : QueryFault)
  | table (cause : TableFault)
  deriving DecidableEq, Repr

/-- The fault in words. -/
def EngineFault.message : EngineFault → String
  | file path cause => s!"Can't open file '{path}': {cause.message}"
  | image cause => s!"Format error: {cause.message}"
  | notLoaded name => s!"Lexicon not loaded: {name}"
  | store cause => s!"Attribute index unavailable: {cause.message}"
  | query cause => s!"Invalid query: {cause.message}"
  | table cause => s!"Configuration error: {cause.message}"

end WordStudy
