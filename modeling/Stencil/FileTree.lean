import Stencil.SystemError
import Stencil.Text.Utf8

/-!
# Files

What a program reads of the files around it, and a tree of files and directories as a value. Paths
start at the root of the tree or at its working directory; reading and writing say why they fail, and
writing gives a new tree in which one file has changed.
-/

namespace Stencil

/-- What a file holds, or why it cannot be read. -/
abbrev FileContent := Except SystemError (List UInt8)

/-- The files that can be read, by their paths. -/
structure Files where
  read : Text → FileContent
  /-- Whether a file or a directory is seen at a path. One that is there need not be readable. -/
  exists? : Text → Bool

namespace Files

/-- Files that are seen wherever reading does not say that nothing is there. -/
def ofRead (read : Text → FileContent) : Files where
  read := read
  exists? path :=
    match read path with
    | .error .notFound | .error .notADirectory => false
    | _ => true

/-- The text of a file, which must be UTF-8. -/
def readText (files : Files) (path : Text) : Except SystemError Text :=
  match files.read path with
  | .error e => .error e
  | .ok content =>
    match Utf8.decode? content with
    | some t => .ok t
    | none => .error .invalidUtf8

end Files

/-- What stands at a place of a tree. -/
inductive FileEntry
  | file (content : List UInt8)
  | directory
deriving DecidableEq, Repr

/-- A tree of files and directories: what stands at each place, which is a list of names, and the
place of the working directory. -/
structure FileTree where
  entries : List (List Text × FileEntry)
  current : List Text

namespace FileTree

def empty : FileTree := ⟨[], []⟩

/-- What stands at a place; the root is a directory. -/
def find? (tree : FileTree) (place : List Text) : Option FileEntry :=
  if place.isEmpty then some .directory else tree.entries.lookup place

/-- The tree with an entry at a place, in front of any that was there. -/
def put (tree : FileTree) (place : List Text) (entry : FileEntry) : FileTree :=
  { tree with entries := (place, entry) :: tree.entries }

theorem find?_put_self (tree : FileTree) {place : List Text} (entry : FileEntry)
    (h : place ≠ []) : (tree.put place entry).find? place = some entry := by
  simp [find?, put, h]

theorem find?_put_of_ne (tree : FileTree) {place other : List Text} (entry : FileEntry)
    (h : other ≠ place) : (tree.put place entry).find? other = tree.find? other := by
  have h' : (other == place) = false := by simpa using h
  simp [find?, put, List.lookup_cons, h']

/-- The place that names lead to from another one. All but the last must be directories. The root
is above itself. -/
def walk (tree : FileTree) : (place names : List Text) → Except SystemError (List Text)
  | place, [] => .ok place
  | place, name :: names =>
    match tree.find? place with
    | none => .error .notFound
    | some (.file _) => .error .notADirectory
    | some .directory =>
      if name.isEmpty ∨ name = ['.'] then walk tree place names
      else if name = ['.', '.'] then walk tree place.dropLast names
      else walk tree (place ++ [name]) names

/-- The place where a path starts. -/
def start (tree : FileTree) (path : Text) : List Text :=
  if path.head? = some '/' then [] else tree.current

/-- The place that a path leads to. -/
def locate (tree : FileTree) (path : Text) : Except SystemError (List Text) :=
  if path.isEmpty then .error .notFound else tree.walk (tree.start path) (Text.fields '/' path)

def read (tree : FileTree) (path : Text) : FileContent := do
  match tree.find? (← tree.locate path) with
  | none => throw .notFound
  | some .directory => throw .isADirectory
  | some (.file content) => return content

/-- The place of a file that can be written at a path: its directory is there, and it is none
itself. -/
def target (tree : FileTree) (path : Text) : Except SystemError (List Text) :=
  if path.isEmpty then .error .notFound
  else do
    let names := Text.fields '/' path
    let name := names.getLastD []
    let directory ← tree.walk (tree.start path) names.dropLast
    match tree.find? directory with
    | none => throw (if name.isEmpty then .isADirectory else .notFound)
    | some (.file _) => throw .notADirectory
    | some .directory =>
      let place := directory ++ [name]
      if name.isEmpty ∨ name = ['.'] ∨ name = ['.', '.'] then throw .isADirectory
      else if tree.find? place = some .directory then throw .isADirectory
      else return place

/-- The tree after a text is written to a file. -/
def write (tree : FileTree) (path content : Text) : Except SystemError FileTree := do
  return tree.put (← tree.target path) (.file (Utf8.encode content))

def files (tree : FileTree) : Files := .ofRead tree.read

/-- The tree with directories at all places on the way to one. -/
def makeParents (tree : FileTree) (place : List Text) : FileTree :=
  (List.range (place.length - 1)).foldl (fun tree n => tree.put (place.take (n + 1)) .directory)
    tree

/-- The tree of given entries, with the directories that they need, seen from its root. -/
def ofList (entries : List (Text × FileEntry)) : FileTree :=
  entries.foldl (fun tree (path, entry) =>
    let place := Text.fields '/' path
    (tree.makeParents place).put place entry) .empty

end FileTree
end Stencil
