namespace MetricUpload

/-- Why a file has no text. -/
inductive ReadFault where
  | notFound
  | notDirectory
  | isDirectory
  | nameTooLong
  | nulInName
  | notUtf8
  | other (text : String)
  deriving DecidableEq

namespace ReadFault

def message : ReadFault → String
  | .notFound => "No such file or directory (os error 2)"
  | .notDirectory => "Not a directory (os error 20)"
  | .isDirectory => "Is a directory (os error 21)"
  | .nameTooLong => "File name too long (os error 36)"
  | .nulInName => "file name contained an unexpected NUL byte"
  | .notUtf8 => "stream did not contain valid UTF-8"
  | .other text => text

end ReadFault

/-- What is found under each path. -/
abbrev Disk := String → Except ReadFault ByteArray

/-- The whole content as text; a single bad byte anywhere spoils it. -/
def Disk.readText (disk : Disk) (path : String) : Except ReadFault String := do
  match String.fromUTF8? (← disk path) with
  | some text => .ok text
  | none => .error .notUtf8

inductive Entry where
  | file (content : ByteArray)
  | directory

/-- The files below a working directory, by the names on the way to them. A directory is there also
when only something inside it is listed. -/
structure Files where
  entries : List (List String × Entry)

namespace Files

def empty : Files := ⟨[]⟩

def find? (files : Files) (names : List String) : Option Entry :=
  match files.entries.lookup names with
  | some entry => some entry
  | none =>
    if names = [] ∨ files.entries.any (fun (path, _) => names.isPrefixOf path) then some .directory
    else none

/-- The names that a written path leads through. -/
def namesOf (path : String) : List String :=
  (path.splitOn "/").foldl
    (fun names name =>
      if name = "" ∨ name = "." then names
      else if name = ".." then names.dropLast
      else names ++ [name])
    []

def write (files : Files) (path : String) (entry : Entry) : Files :=
  let names := namesOf path
  ⟨files.entries.filter (fun (other, _) => other != names) ++ [(names, entry)]⟩

/-- A stop on the way along a path. Nothing is known to exist outside the working directory. -/
inductive Stopover where
  | inside (names : List String)
  | outside

def longestName : Nat := 255

def longestPath : Nat := 4095

/-- One name further. -/
def enter (files : Files) (stopover : Stopover) (name : String) : Except ReadFault Stopover :=
  match stopover with
  | .outside =>
    if name = "" ∨ name = "." ∨ name = ".." then .ok .outside
    else if longestName < name.utf8ByteSize then .error .nameTooLong
    else .error .notFound
  | .inside names =>
    match files.find? names with
    | some .directory =>
      if name = "" ∨ name = "." then .ok stopover
      else if name = ".." then .ok (if names = [] then .outside else .inside names.dropLast)
      else if longestName < name.utf8ByteSize then .error .nameTooLong
      else if (files.find? (names ++ [name])).isSome then .ok (.inside (names ++ [name]))
      else .error .notFound
    | _ => .error .notDirectory

def read (files : Files) : Disk := fun path => do
  if path.contains '\x00' then .error .nulInName
  else if path = "" then .error .notFound
  else if longestPath < path.utf8ByteSize then .error .nameTooLong
  else
    let origin := if path.startsWith "/" then Stopover.outside else .inside []
    match ← (path.splitOn "/").foldlM files.enter origin with
    | .outside => .error .isDirectory
    | .inside names =>
      match files.find? names with
      | some (.file content) => .ok content
      | some .directory => .error .isDirectory
      | none => .error .notFound

end Files

end MetricUpload
