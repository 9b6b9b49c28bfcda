import ConsLisp.Error

/-!
# Files that a program can load

A program asks for a file by its path, absolute or not, and gets the contents, or learns why there
are none. What it gets is up to the system it runs on: to the program, the files are how reading
goes at each path.

A tree of files is one such system. Each file of a tree is known by the names on the way to it from
the root. A path is a sequence of names between slashes, followed one name after the other, from the
root if it starts with a slash and otherwise from the working directory: an empty name and `.` stay
in a directory, `..` goes to the one around it. Directories are those that the names of the files
and of the working directory pass through. A path has no NUL character and is not longer than
`maxPathBytes`; otherwise it is not followed at all. A name longer than `maxNameBytes` is refused
when it is looked up in a directory, so that an earlier fault on the path comes first.

## Main definitions

* `Files`: the files that a program can load, at each path.
* `FileTree`: a tree of files with a working directory.
* `maxPathBytes`, `maxNameBytes`: how long paths and names may be.
* `FileTree.follow`: where a sequence of names leads.
* `FileTree.read`: the contents of the file at a path, or why there is none.
* `Files.ofList`: the files with given paths and contents.
-/

namespace ConsLisp

/-- The files that a program can load: the contents of the file at a path, or why there are none. -/
structure Files where
  read (path : String) : Except LoadFault ByteArray

/-- No path leads to a file. -/
def Files.empty : Files where
  read _ := .error .missing

instance : Inhabited Files :=
  ⟨.empty⟩

/-! ### Trees -/

/-- A tree of files. The names on the way from the root lead to the contents of each file, and to
the working directory. -/
structure FileTree where
  entries : List (List String × ByteArray)
  working : List String

/-- A place in a tree. -/
inductive Location where
  /-- A directory, given by the names on the way to it. -/
  | directory (names : List String)
  | file (contents : ByteArray)

namespace FileTree

/-- The names on a path, between its slashes. -/
def namesOn (path : String) : List String :=
  (path.toList.splitOn '/').map String.ofList

/-- Whether a path is followed from the root. -/
def isAbsolute (path : String) : Bool :=
  path.toList.head? = some '/'

/-- Whether the names lead to a directory. -/
def hasDirectory (tree : FileTree) (names : List String) : Bool :=
  names.isPrefixOf tree.working || tree.entries.any fun entry => names.isPrefixOf entry.1

/-- What lies under a name inside the directory at `names`. -/
def enter (tree : FileTree) (names : List String) (name : String) : Except LoadFault Location :=
  let path := names ++ [name]
  match tree.entries.find? fun entry => entry.1 = path with
  | some entry => .ok (.file entry.2)
  | none => if tree.hasDirectory path then .ok (.directory path) else .error .missing

/-- The greatest number of bytes in a path. -/
def maxPathBytes : Nat := 4095

/-- The greatest number of bytes in one name of a path. -/
def maxNameBytes : Nat := 255

/-- Where one name of a path leads from a place. -/
def step (tree : FileTree) (name : String) (place : Location) : Except LoadFault Location :=
  match place with
  | .file _ => .error .notDirectory
  | .directory names =>
    if name = "" ∨ name = "." then .ok place
    else if name = ".." then .ok (.directory names.dropLast)
    else if maxNameBytes < name.utf8ByteSize then .error .nameTooLong
    else tree.enter names name

/-- Where a sequence of names leads from a place. -/
def follow (tree : FileTree) (start : Location) (names : List String) : Except LoadFault Location :=
  names.foldlM (fun place name => tree.step name place) start

/-- The contents of the file at a path. -/
def read (tree : FileTree) (path : String) : Except LoadFault ByteArray := do
  if path.toList.contains '\x00' then throw .nulInPath
  if path = "" then throw .missing
  if maxPathBytes < path.utf8ByteSize then throw .nameTooLong
  let start := if isAbsolute path then [] else tree.working
  match ← tree.follow (.directory start) (namesOn path) with
  | .file contents => return contents
  | .directory _ => throw .isDirectory

end FileTree

/-- The files with the given paths and contents. A path that is not absolute starts in the working
directory. This has a name that no path can hold, so that it can be left but not entered. -/
def Files.ofList (files : List (String × ByteArray)) : Files :=
  let working := ["\x00"]
  let place (path : String) : List String :=
    (if FileTree.isAbsolute path then [] else working) ++
      (FileTree.namesOn path).filter fun name => name != "" && name != "."
  { read := FileTree.read ⟨files.map fun (path, contents) => (place path, contents), working⟩ }

/-- A file is found at its absolute path. -/
theorem Files.read_ofList_sole (contents : ByteArray) :
    (ofList [("/tmp/b", contents)]).read "/tmp/b" = .ok contents := by
  with_unfolding_all rfl

/-- The text that a file holds, if its contents are text at all. -/
def decodeText (contents : ByteArray) : Except LoadFault String :=
  match String.fromUTF8? contents with
  | some text => .ok text
  | none => .error .notText

end ConsLisp
