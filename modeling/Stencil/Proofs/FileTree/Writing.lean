import Stencil.FileTree
import Stencil.Proofs.Fallible

/-!
# Files that are written

Main statement: after a text is written to a path, reading the path gives the text, and at every
other place stands what stood there before. A path still leads where it led, since a file is only
put where no directory is and the way to a place goes through directories.
-/

namespace Stencil.FileTree
open Fallible

section
variable {tree : FileTree} {file : List Text} {content : List UInt8}

/-- The way through directories does not meet a file that is put where none of them is. -/
theorem walk_put (hfile : tree.find? file ≠ some .directory) {place names target : List Text}
    (h : tree.walk place names = .ok target) :
    (tree.put file (.file content)).walk place names = .ok target := by
  induction names generalizing place with
  | nil => exact h
  | cons name names ih =>
    rw [walk] at h ⊢
    cases hfind : tree.find? place with
    | none => simp [hfind] at h
    | some entry =>
      cases entry with
      | file _ => simp [hfind] at h
      | directory =>
        -- A directory is not the file, so that the walk goes on as before.
        have hne : place ≠ file := fun heq => hfile (heq ▸ hfind)
        rw [find?_put_of_ne tree _ hne, hfind]
        simp only [hfind] at h
        split at h
        · next hstay =>
          rw [if_pos hstay]
          exact ih h
        · next hstay =>
          rw [if_neg hstay]
          split at h
          · next hup =>
            rw [if_pos hup]
            exact ih h
          · next hup =>
            rw [if_neg hup]
            exact ih h

theorem walk_append (tree : FileTree) (place names rest : List Text) :
    tree.walk place (names ++ rest) = (tree.walk place names).bind (tree.walk · rest) := by
  induction names generalizing place with
  | nil => rfl
  | cons name names ih =>
    rw [List.cons_append, walk, walk]
    cases tree.find? place with
    | none => rfl
    | some entry =>
      cases entry with
      | file _ => rfl
      | directory =>
        dsimp only
        split
        · exact ih place
        · split
          · exact ih place.dropLast
          · exact ih (place ++ [name])

end

/-- What a path that can be written leads to: a proper name in a directory, and none itself. -/
structure Writable (tree : FileTree) (path : Text) (directory : List Text) (name : Text) : Prop where
  nonempty : ¬path.isEmpty
  leads : tree.walk (tree.start path) (Text.fields '/' path).dropLast = .ok directory
  last : Text.fields '/' path = (Text.fields '/' path).dropLast ++ [name]
  isDirectory : tree.find? directory = some .directory
  proper : ¬(name.isEmpty ∨ name = ['.'] ∨ name = ['.', '.'])
  noDirectory : tree.find? (directory ++ [name]) ≠ some .directory

theorem writable_of_target {tree : FileTree} {path : Text} {place : List Text}
    (h : tree.target path = .ok place) :
    ∃ directory name, place = directory ++ [name] ∧ tree.Writable path directory name := by
  rw [target] at h
  split at h
  · exact absurd h (by simp)
  · next hnonempty =>
    obtain ⟨directory, hleads, h⟩ := bind_eq_ok_iff.mp h
    cases hfind : tree.find? directory with
    | none => simp [hfind] at h
    | some entry =>
      cases entry with
      | file _ => simp [hfind] at h
      | directory =>
        simp only [hfind] at h
        split at h
        · exact absurd h (throw_ne_ok _ _)
        · next hproper =>
          split at h
          · exact absurd h (throw_ne_ok _ _)
          · next hnone =>
            have hfields := Text.fields_ne_nil '/' path
            have hlast : Text.fields '/' path =
                (Text.fields '/' path).dropLast ++ [(Text.fields '/' path).getLastD []] := by
              rw [List.getLastD_eq_getLast?, List.getLast?_eq_some_getLast hfields,
                Option.getD_some, List.dropLast_concat_getLast]
            exact ⟨directory, _, (pure_eq_ok_iff.mp h).symm, hnonempty, hleads, hlast, hfind,
              hproper, hnone⟩

theorem Writable.locate_put {tree : FileTree} {path : Text} {directory : List Text} {name : Text}
    (h : tree.Writable path directory name) (content : List UInt8) :
    (tree.put (directory ++ [name]) (.file content)).locate path = .ok (directory ++ [name]) := by
  have hne : directory ≠ directory ++ [name] := by simp
  have hdirectory : (tree.put (directory ++ [name]) (.file content)).find? directory =
      some .directory := (find?_put_of_ne tree _ hne).trans h.isDirectory
  have hproper := h.proper
  simp only [not_or] at hproper
  have hlast : (tree.put (directory ++ [name]) (.file content)).walk directory [name] =
      .ok (directory ++ [name]) := by
    simp [FileTree.walk, hdirectory, hproper]
  have hstart : (tree.put (directory ++ [name]) (.file content)).start path = tree.start path := rfl
  rw [locate, if_neg h.nonempty, hstart, h.last, walk_append, walk_put h.noDirectory h.leads]
  exact hlast

theorem write_eq_ok_iff {tree tree' : FileTree} {path text : Text} :
    tree.write path text = .ok tree' ↔
      ∃ place, tree.target path = .ok place ∧
        tree.put place (.file (Utf8.encode text)) = tree' := by
  rw [write, bind_eq_ok_iff]
  simp only [pure_eq_ok_iff]

/-- Reading what was written. -/
theorem read_of_write {tree tree' : FileTree} {path text : Text}
    (h : tree.write path text = .ok tree') : tree'.read path = .ok (Utf8.encode text) := by
  obtain ⟨place, htarget, rfl⟩ := write_eq_ok_iff.mp h
  obtain ⟨directory, name, rfl, hwritable⟩ := writable_of_target htarget
  have hfind := find?_put_self tree (.file (Utf8.encode text))
    (show directory ++ [name] ≠ [] by simp)
  have hlocate := hwritable.locate_put (Utf8.encode text)
  simp only [read, hlocate, hfind, bind, pure, Except.bind, Except.pure]

/-- What stands anywhere else. -/
theorem find?_of_write {tree tree' : FileTree} {path text : Text}
    (h : tree.write path text = .ok tree') :
    ∃ place, tree.target path = .ok place ∧
      ∀ other, other ≠ place → tree'.find? other = tree.find? other := by
  obtain ⟨place, htarget, rfl⟩ := write_eq_ok_iff.mp h
  exact ⟨place, htarget, fun other hother => find?_put_of_ne tree _ hother⟩

end Stencil.FileTree
