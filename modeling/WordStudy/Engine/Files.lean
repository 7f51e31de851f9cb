import WordStudy.Attributes.TableFile
import WordStudy.Engine.Fault

/-!
# Files

The files that operations read and write, as a value: what lies at which path. A folder is there if
it was made, or if something lies in it. Paths are **walked** name by name, while the address of an
attribute store is put in its shortest form first.
-/

namespace WordStudy

/-- What lies at a path. -/
inductive FileEntry where
  | bytes (content : List UInt8)
  /-- The file of an attribute store. -/
  | table (rows : AttributeTable)
  | folder

namespace FileEntry

def isFolder : FileEntry → Bool
  | folder => true
  | bytes _ | table _ => false

def content? : FileEntry → Option (List UInt8)
  | bytes content => some content
  | table rows => some (TableFile.encode rows)
  | folder => none

end FileEntry

/-- Files and folders by the keys of their places. -/
structure Files where
  entries : Std.TreeMap String FileEntry

namespace Files

def empty : Files := ⟨∅⟩

/-! ## §1 Paths -/

/-- The names in a path; a dot names the folder that it stands in. -/
def segments (path : String) : List (List Char) :=
  (Text.splitBy (· == '/') path.toList).filter fun name => name != [] && name != ['.']

def isAbsolute (path : String) : Bool := path.toList.head? == some '/'

def endsWithSlash (path : String) : Bool := path.toList.getLast? == some '/'

/-- The last name of the path is a dot, or two: it leads to a folder. -/
def endsWithDots (path : String) : Bool :=
  match ((Text.splitBy (· == '/') path.toList).filter (· != [])).getLast? with
  | some name => name = ['.'] || name = ['.', '.']
  | none => true

def parentName : List Char := ['.', '.']

/-- One step up from where some steps lead. There is nothing above the root. -/
def stepUp (absolute : Bool) (steps : List (List Char)) : List (List Char) :=
  match steps.getLast? with
  | none => if absolute then [] else [parentName]
  | some name => if name = parentName then steps ++ [name] else steps.dropLast

def stepTo (absolute : Bool) (steps : List (List Char)) (name : List Char) : List (List Char) :=
  if name = parentName then stepUp absolute steps else steps ++ [name]

/-- The key for the place to which steps lead. -/
def keyOf (absolute : Bool) (steps : List (List Char)) : String :=
  String.ofList ((if absolute then ['/'] else []) ++ Text.join ['/'] steps)

/-- The steps that a path leads, without those that are taken back. -/
def stepsOf (path : String) : List (List Char) :=
  (segments path).foldl (stepTo (isAbsolute path)) []

/-- Two paths with one key lead to one file. -/
def key (path : String) : String := keyOf (isAbsolute path) (stepsOf path)

/-- The keys of the folders that a path leads through. -/
def parents (path : String) : List String :=
  let names := segments path
  (List.range names.length).filterMap fun n =>
    if n = 0 then none
    else some (keyOf (isAbsolute path) ((names.take n).foldl (stepTo (isAbsolute path)) []))

/-- The last part of a file name behind a dot that is not its first character. -/
def extension? (path : String) : Option String :=
  match (segments path).getLast? with
  | none => none
  | some name =>
    if name = parentName then none
    else
      -- A name that begins with its only dot has no extension.
      match Text.cutAt (· == '.') name.reverse with
      | some (ending, _ :: _) => some (String.ofList ending.reverse)
      | _ => none

/-! ## §2 Walking -/

/-- The most bytes that a name may have. -/
def maxNameSize : Nat := 255

/-- The most bytes that a path may have. -/
def maxPathSize : Nat := 4095

/-- The file that is always there, and always empty. -/
def nullDevice : String := "/dev/null"

/-- What lies at the place with a key. Everything above the folder in which the paths begin is a
folder, and so is the one for passing files. -/
def placed? (files : Files) (key : String) : Option FileEntry :=
  match files.entries[key]? with
  | some entry => some entry
  | none =>
    if key = nullDevice then some (.bytes [])
    -- Folders are not kept themselves: one is there if a file is below it.
    else if ["/", "/dev", "/tmp"].contains key || (segments key).all (· = parentName) ||
        files.entries.keys.any fun other => (parents other).contains key then
      some .folder
    else none

/-- One step on in a folder, and what lies there. -/
def enter (files : Files) (absolute : Bool) (steps : List (List Char)) (name : List Char) :
    Except FileFault (List (List Char) × Option FileEntry) :=
  if maxNameSize < (Text.Utf8.encode name).length then .error .nameTooLong
  else
    let steps := stepTo absolute steps name
    .ok (steps, files.placed? (keyOf absolute steps))

/-- Go through folders with the given names, one after the other. -/
def walk (files : Files) (absolute : Bool) :
    List (List Char) → List (List Char) → Except FileFault (List (List Char))
  | steps, [] => .ok steps
  | steps, name :: rest => do
    match ← files.enter absolute steps name with
    | (steps, some .folder) => walk files absolute steps rest
    | (_, some _) => throw .notDirectory
    | (_, none) => throw .missing

/-- Where a path leads but for its last name, unless that is a dot or two. It leads through
folders. -/
def approach (files : Files) (path : String) : Except FileFault (List (List Char)) :=
  let names := segments path
  if path = "" then .error .missing
  else if maxPathSize < path.utf8ByteSize then .error .nameTooLong
  else files.walk (isAbsolute path) [] (if endsWithDots path then names else names.dropLast)

/-- What lies at a path, which may lead to nothing. -/
def find? (files : Files) (path : String) : Except FileFault (Option FileEntry) := do
  let steps ← files.approach path
  if endsWithDots path then pure (some .folder)
  else pure (← files.enter (isAbsolute path) steps ((segments path).getLast?.getD [])).2

/-- What lies at a path, which is a folder if a slash is behind it. -/
def look (files : Files) (path : String) : Except FileFault FileEntry := do
  match ← files.find? path with
  | none => throw .missing
  | some .folder => pure .folder
  | some entry => if endsWithSlash path then throw .notDirectory else pure entry

def exists? (files : Files) (path : String) : Bool := (files.look path).isOk

/-! ## §3 Reading -/

/-- The bytes of a file; `folderFault` is what comes of a folder. -/
def readOr (files : Files) (path : String) (folderFault : FileFault) :
    Except FileFault (List UInt8) := do
  match (← files.look path).content? with
  | some content => pure content
  | none => throw folderFault

/-- **The bytes of a file.** A folder cannot be mapped into memory. -/
def read (files : Files) (path : String) : Except FileFault (List UInt8) :=
  files.readOr path .noDevice

/-- The text of a file. -/
def readText (files : Files) (path : String) : Except FileFault String := do
  let bytes ← files.readOr path .isDirectory
  match Text.Utf8.validTextOf? bytes with
  | some text => pure text
  | none => throw .notText

/-! ## §4 Writing -/

/-- A file can be written at a path. It has no slash at the end, whatever lies there. -/
def checkWritable (files : Files) (path : String) : Except FileFault Unit := do
  let _ ← files.approach path
  if endsWithSlash path then throw .isDirectory
  match ← files.find? path with
  | some .folder => throw .isDirectory
  | _ => pure ()

/-- Put a file in the place with a key. Nothing is kept on the null device. -/
def put (files : Files) (key : String) (entry : FileEntry) : Files :=
  if key = nullDevice then files else ⟨files.entries.insert key entry⟩

/-- **Write a file.** -/
def write (files : Files) (path : String) (content : List UInt8) : Except FileFault Files := do
  files.checkWritable path
  pure (files.put (key path) (.bytes content))

def remove (files : Files) (path : String) : Except FileFault Files := do
  if (← files.look path).isFolder then throw .isDirectory
  else pure ⟨files.entries.erase (key path)⟩

/-- Make a folder, unless it is there. -/
def makeFolder (files : Files) (path : String) : Except FileFault Files := do
  match ← files.find? path with
  | some .folder => pure files
  | some _ => throw .exists
  | none => pure ⟨files.entries.insert (key path) .folder⟩

/-! ## §5 Attribute stores -/

/-- The key of the file to which the path of a store leads. Names that are taken back need not
lead to anything, as long as no file is taken for a folder on the way. -/
def storeKey? (files : Files) (path : String) : Option String :=
  let absolute := isAbsolute path
  let steps := (segments path).foldlM (fun steps name =>
    let next := stepTo absolute steps name
    match files.find? (keyOf absolute next) with
    | .ok _ => some next
    -- A step that is missing is kept, as the file itself may have to be made.
    | .error .missing => some next
    | .error _ => none) []
  match steps with
  | none => none
  | some [] => if absolute then none else some ""
  | some steps => some (keyOf absolute steps)

/-- The rows of a store that is read from its file. -/
def storedTable (files : Files) (address key : String) : Except StoreFault AttributeTable :=
  match files.placed? key with
  | none => .error (.unopened address (.noFile address))
  | some .folder => .error (.unopened address .noContent)
  | some (.table t) => .ok t
  | some (.bytes content) => .error (if content.length ≤ 1 then .noTable address else .notStore)

/-- **The attribute store with an address**, opened for reading. A store that is not kept has no
table. -/
def openStore (files : Files) (address : String) : Except StoreFault AttributeStore :=
  match StoreAddress.read .read address with
  | .error cause => .error (.unopened address (.badAddress cause))
  | .ok target =>
    -- A store in memory is empty when it is opened.
    if target.isTransient then .error (.noTable address)
    else
      match files.storeKey? target.path with
      | none => .error (.unopened address (.noFile address))
      | some key => return ⟨some key, some (← files.storedTable address key)⟩

/-- What is added to the name of a store for the file in which its changes are noted. -/
def journalSuffix : String := "-journal"

/-- The place with a key has room for the journal of a store. -/
def hasJournalRoom (key : String) : Bool :=
  (segments key).getLast?.all fun name =>
    (Text.Utf8.encode name).length + journalSuffix.utf8ByteSize ≤ maxNameSize

/-- A store without rows, if it can be written in the place with a key. -/
def newTable (key : String) : Except StoreFault AttributeTable :=
  if hasJournalRoom key then .ok .empty else .error .longName

/-- The rows of a file that is to become a store, or that is one already. A file with one byte
counts as empty. -/
def tableToWrite (files : Files) (address key : String) (access : StoreAccess) :
    Except StoreFault AttributeTable :=
  match files.placed? key with
  | some .folder => .error (.unmade (.noFile address))
  | some (.table t) => .ok t
  | some (.bytes content) =>
    if 1 < content.length then .error .notStore
    else if access = .read then .error .readOnly
    else newTable key
  | none =>
    if access = .create && (files.checkWritable key).isOk then newTable key
    else .error (.unmade (.noFile address))

/-- **Put rows in the attribute store with an address**, which is made if need be; rows of other
words stay. A store whose name is too long stays behind without a table. -/
def storeRows (files : Files) (address : String) (rows : List Row) :
    Except StoreFault Unit × Files :=
  match StoreAddress.read .create address with
  | .error cause => (.error (.unmade (.badAddress cause)), files)
  | .ok target =>
    if target.isTransient then (.ok (), files)
    else
      match files.storeKey? target.path with
      | none => (.error (.unmade (.noFile address)), files)
      | some key =>
        match files.tableToWrite address key target.access with
        -- The file was made before its name turned out too long.
        | .error .longName =>
          (.error .longName, files.put key ((files.placed? key).getD (.bytes [])))
        | .error fault => (.error fault, files)
        | .ok t =>
          -- Without rows nothing is written, and so nothing is refused.
          if target.access = .read && !rows.isEmpty then (.error .readOnly, files)
          else (.ok (), files.put key (.table (t.insert rows)))

/-- A store as it is after files have changed. One whose file holds no table any more cannot
answer. -/
def follow (files : Files) (store : AttributeStore) : AttributeStore :=
  match store.origin with
  | none => store
  | some key =>
    match files.placed? key with
    | some (.table t) => ⟨some key, some t⟩
    | _ => ⟨some key, none⟩

end Files

end WordStudy
