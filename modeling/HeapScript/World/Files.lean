import HeapScript.Fault

/-!
# Files

The files that a program can reach from the directory it runs in. A path is a
sequence of names between slashes; empty names and single dots do not count, two
dots lead back, and a slash in front leads to the root.

* `Files.read` is the text of a file, `Files.write` replaces it.
* `Files.locate` takes the steps of a path that lead back.
* A directory is there when it is listed or a file is in it.
-/

namespace HeapScript

/-- Files by path, each with its bytes, and directories. -/
structure Files where
  entries : List (List String × ByteArray) := []
  directories : List (List String) := []

namespace Files

/-! ## Paths -/

/-- The names of a path. -/
def components (path : String) : List String :=
  let names := (path.splitOn "/").filter fun c => c != "" && c != "."
  if path.toList.head? = some '/' then "/" :: names else names

/-- A path as text. -/
def pathText : List String → String
  | "/" :: names => "/" ++ "/".intercalate names
  | names => "/".intercalate names

/-- Whether a path is written as only that of a directory is: with a slash or a dot
as its last name. -/
def endsInDirectory (path : String) : Bool :=
  match (path.splitOn "/").getLast? with
  | some name => name == "" || name == "."
  | none => false

/-- The way back from a path, given backwards. There is none out of the root. -/
def stepBack : List String → List String
  | [] => [".."]
  | ["/"] => ["/"]
  | name :: up => if name == ".." then ".." :: name :: up else up

/-- The path with its steps back taken, whatever is there. -/
def shorten (path : List String) : List String :=
  (path.foldl (fun back name => if name == ".." then stepBack back else name :: back) []).reverse

/-- Whether a name is longer than a file can have. -/
def isTooLong (name : String) : Bool :=
  255 < name.utf8ByteSize

/-! ## What is there -/

/-- The bytes of the file at a path. -/
def find? (fs : Files) (path : List String) : Option ByteArray :=
  fs.entries.lookup path

/-- Whether a path leads to a directory: this one, one above it, a listed one, or
one that holds a file. -/
def isDirectory (fs : Files) (path : List String) : Bool :=
  path.all (fun c => c == ".." || c == "/") || fs.directories.contains path ||
    fs.entries.any fun e => path.isPrefixOf e.1 && path.length < e.1.length

/-- Whether a path leads to a file, or through one as if it were a directory. -/
def reachesFile (fs : Files) (path : List String) : Bool :=
  fs.entries.any fun e => e.1.isPrefixOf path

/-- Why there is no directory at a path. -/
def noDirectory (fs : Files) (path : List String) : FileFault :=
  if fs.reachesFile path then .notDirectory else .notFound

/-- Follows the names of a path, given the names so far backwards. What a step leads
back from must be a directory. -/
def follow (fs : Files) (back : List String) : List String → Except FileFault (List String)
  | [] => .ok back.reverse
  | name :: rest =>
    if name == ".." || isTooLong name then
      if !fs.isDirectory back.reverse then .error (fs.noDirectory back.reverse)
      else if isTooLong name then .error .nameTooLong
      else fs.follow (stepBack back) rest
    else fs.follow (name :: back) rest

/-- The names that a path leads by. -/
def locate (fs : Files) (path : String) : Except FileFault (List String) :=
  if path.isEmpty then .error .notFound
  else if path.contains '\x00' then .error .nulInName
  else if 4096 ≤ path.utf8ByteSize then .error .nameTooLong
  else fs.follow [] (components path)

/-! ## Changes -/

/-- Puts bytes at a path, in the place of any that are there. -/
def insert (fs : Files) (path : List String) (bytes : ByteArray) : Files :=
  { fs with entries := (path, bytes) :: fs.entries.filter fun e => e.1 != path }

/-- Puts bytes at a path given as text. -/
def add (fs : Files) (path : String) (bytes : ByteArray) : Files :=
  fs.insert (components path) bytes

/-- Lists a directory. -/
def addDirectory (fs : Files) (path : List String) : Files :=
  { fs with directories := path :: fs.directories }

/-! ## Reading and writing -/

/-- The text of the file at a path. -/
def read (fs : Files) (path : String) : Except FileFault String := do
  let names ← fs.locate path
  if fs.isDirectory names then .error .isDirectory
  else
    match fs.find? names with
    | none => .error (fs.noDirectory names.dropLast)
    | some bytes =>
      if endsInDirectory path then .error .notDirectory
      else (String.fromUTF8? bytes).elim (.error .invalidUtf8) .ok

/-- The files after a text is written to a path. -/
def write (fs : Files) (path text : String) : Except FileFault Files := do
  let names ← fs.locate path
  if fs.isDirectory names then .error .isDirectory
  else if !fs.isDirectory names.dropLast then .error (fs.noDirectory names.dropLast)
  else if endsInDirectory path then .error .isDirectory
  else .ok (fs.insert names text.toUTF8)

end Files

end HeapScript
