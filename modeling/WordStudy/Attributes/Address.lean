import WordStudy.Text.Blank
import WordStudy.Text.Numeral
import WordStudy.Text.Utf8

/-!
# Store addresses

An attribute store is named by a path or by an **address** `file:PATH?NAME=VALUE&NAME=VALUE#REMARK`,
in which `%` and two hexadecimal digits write a byte. Options of an address ask for less than the
caller asks for, or for a store that is kept in memory only.
-/

namespace WordStudy

open Text

/-- What a store is opened for, from the least to the most. -/
inductive StoreAccess where
  /-- Rows are read. -/
  | read
  /-- Rows are read and written. -/
  | write
  /-- As before, and a store is made if there is none. -/
  | create
  /-- The store is kept in memory and is gone when it is closed. -/
  | memory
  deriving DecidableEq, Repr

namespace StoreAccess

/-- The place in the order. -/
def level : StoreAccess → Nat
  | read => 0
  | write => 1
  | create => 2
  | memory => 3

/-- The access that an option names. -/
def ofName? : String → Option StoreAccess
  | "ro" => some read
  | "rw" => some write
  | "rwc" => some create
  | "memory" => some memory
  | _ => none

/-- An access may be asked for instead of the present one: memory always, and else no more. -/
def allows (present asked : StoreAccess) : Bool := asked = memory || asked.level ≤ present.level

end StoreAccess

/-- Why an address means nothing. -/
inductive AddressFault where
  /-- Stores of other hosts cannot be opened. -/
  | badHost (host : String)
  | noSuchMode (option value : String)
  | modeNotAllowed (value : String)
  | noSuchSystem (name : String)
  deriving DecidableEq, Repr

/-- The fault in words. -/
def AddressFault.message : AddressFault → String
  | badHost host => s!"invalid uri authority: {host}"
  | noSuchMode option value => s!"no such {option} mode: {value}"
  | modeNotAllowed value => s!"access mode not allowed: {value}"
  | noSuchSystem name => s!"no such vfs: {name}"

/-- Where a store is, and what it is opened for. -/
structure StoreAddress where
  path : String
  access : StoreAccess
  /-- The file system that is asked for. -/
  system : String := "unix"
  deriving DecidableEq, Repr

namespace StoreAddress

/-! ## §1 Parts of an address -/

/-- The characters that `%` and two digits write, up to the first null character. -/
def decodeBytes : List UInt8 → List UInt8
  | 0x25 :: a :: b :: rest =>
    match digitValue? 16 (Char.ofNat a.toNat), digitValue? 16 (Char.ofNat b.toNat) with
    | some high, some low =>
      if high = 0 && low = 0 then [] else UInt8.ofNat (high * 16 + low) :: decodeBytes rest
    | _, _ => 0x25 :: decodeBytes (a :: b :: rest)
  | b :: rest => b :: decodeBytes rest
  | [] => []

def decode (part : List Char) : String := Utf8.textOf (decodeBytes (Utf8.encode part))

/-- The part before the first `mark`, and what follows it. -/
def splitAt (mark : Char) (text : List Char) : List Char × List Char :=
  (cutAt (· == mark) text).getD (text, [])

def optionOf (part : List Char) : String × String :=
  let (name, value) := splitAt '=' part
  (decode name, decode value)

/-- The options of an address; those without a name do not count. -/
def optionsOf (query : List Char) : List (String × String) :=
  ((splitBy (· == '&') query).map optionOf).filter fun option => option.1 != ""

/-- The path of an address behind its host, which must be this one. -/
def behindHost (text : List Char) : Except AddressFault (List Char) :=
  match text with
  | '/' :: '/' :: rest =>
    let host := String.ofList (rest.takeWhile (· ≠ '/'))
    if host = "" || host = "localhost" then .ok (rest.dropWhile (· ≠ '/'))
    else .error (.badHost host)
  | _ => .ok text

/-- The address as an option changes it. -/
def withOption (address : StoreAddress) : String × String → Except AddressFault StoreAddress
  | ("vfs", name) => .ok { address with system := name }
  | ("cache", value) =>
    -- The cache may be shared or private, which changes nothing here.
    if value = "shared" || value = "private" then .ok address
    else .error (.noSuchMode "cache" value)
  | ("mode", value) =>
    match StoreAccess.ofName? value with
    | none => .error (.noSuchMode "access" value)
    | some asked =>
      -- A mode may only take rights away.
      if address.access.allows asked then .ok { address with access := asked }
      else .error (.modeNotAllowed value)
  | _ => .ok address

/-- The file systems that can be asked for; the last one is memory. -/
def systems : List String := ["unix", "unix-none", "unix-dotfile", "unix-excl", "memdb"]

/-! ## §2 Reading -/

/-- The text that begins every address that is not a path. -/
def scheme : List Char := "file:".toList

/-- **Read an address** that is opened for `access`. -/
def read (access : StoreAccess) (text : String) : Except AddressFault StoreAddress :=
  match behind scheme text.toList with
  | none => .ok { path := text, access }
  | some rest => do
    -- What stands behind the sign `#` is not read at all.
    let (rest, _) := splitAt '#' (← behindHost rest)
    let (path, query) := splitAt '?' rest
    let address ← (optionsOf query).foldlM withOption { path := decode path, access }
    if systems.contains address.system then .ok address
    else .error (.noSuchSystem address.system)

/-- The store is gone when it is closed. A path that is empty names a store of this kind too. -/
def isTransient (address : StoreAddress) : Bool :=
  address.access = .memory || address.system = "memdb" || address.path = "" ||
    address.path = ":memory:"

end StoreAddress

end WordStudy
