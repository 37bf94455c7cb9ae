import Stencil.FileTree

/-!
# Inquiries

A computation that asks about files, one question after the other: whether something is at a path,
and what a file holds. What it asks next may depend on the answers so far. The questions can be put
to the files of a system one by one, as they come up, or to files as a value; then the result is a
function of the files, and the questions are two lists of paths. Files that answer these questions
in the same way lead to the same result.
-/

namespace Stencil

inductive Inquiry (α : Type)
  | done (result : α)
  /-- Asks whether something is at a path. -/
  | look (path : Text) (next : Bool → Inquiry α)
  /-- Asks what a file holds. -/
  | read (path : Text) (next : FileContent → Inquiry α)

namespace Inquiry
variable {α β : Type}

def bind : Inquiry α → (α → Inquiry β) → Inquiry β
  | done result, f => f result
  | look path next, f => look path fun found => bind (next found) f
  | read path next, f => read path fun content => bind (next content) f

instance : Monad Inquiry where
  pure := done
  bind := bind

def exists? (path : Text) : Inquiry Bool := look path done

def content (path : Text) : Inquiry FileContent := read path done

/-- The result when the questions are put to given files. -/
def answer (files : Files) : Inquiry α → α
  | done result => result
  | look path next => answer files (next (files.exists? path))
  | read path next => answer files (next (files.read path))

/-- The paths that are looked at, in turn, when the questions are put to given files. -/
def looks (files : Files) : Inquiry α → List Text
  | done _ => []
  | look path next => path :: looks files (next (files.exists? path))
  | read path next => looks files (next (files.read path))

/-- The files that are read, in turn, when the questions are put to given files. -/
def reads (files : Files) : Inquiry α → List Text
  | done _ => []
  | look path next => reads files (next (files.exists? path))
  | read path next => path :: reads files (next (files.read path))

section
variable (files : Files) (result : α) (path : Text) (x : Inquiry α) (f : α → Inquiry β)

@[simp] theorem answer_pure : (pure result : Inquiry α).answer files = result := rfl

@[simp] theorem looks_pure : (pure result : Inquiry α).looks files = [] := rfl

@[simp] theorem reads_pure : (pure result : Inquiry α).reads files = [] := rfl

@[simp] theorem answer_exists? : (exists? path).answer files = files.exists? path := rfl

@[simp] theorem looks_exists? : (exists? path).looks files = [path] := rfl

@[simp] theorem reads_exists? : (exists? path).reads files = [] := rfl

@[simp] theorem answer_content : (content path).answer files = files.read path := rfl

@[simp] theorem looks_content : (content path).looks files = [] := rfl

@[simp] theorem reads_content : (content path).reads files = [path] := rfl

@[simp] theorem answer_bind : (x >>= f).answer files = (f (x.answer files)).answer files := by
  induction x with
  | done result => rfl
  | look path next ih => exact ih _
  | read path next ih => exact ih _

@[simp] theorem looks_bind :
    (x >>= f).looks files = x.looks files ++ (f (x.answer files)).looks files := by
  induction x with
  | done result => rfl
  | look path next ih => exact congrArg (path :: ·) (ih _)
  | read path next ih => exact ih _

@[simp] theorem reads_bind :
    (x >>= f).reads files = x.reads files ++ (f (x.answer files)).reads files := by
  induction x with
  | done result => rfl
  | look path next ih => exact ih _
  | read path next ih => exact congrArg (path :: ·) (ih _)

end

/-- An inquiry depends on nothing but the answers to its own questions. -/
theorem answer_congr {files files' : Files} {x : Inquiry α}
    (hlooks : ∀ path ∈ x.looks files, files'.exists? path = files.exists? path)
    (hreads : ∀ path ∈ x.reads files, files'.read path = files.read path) :
    x.answer files' = x.answer files := by
  induction x with
  | done result => rfl
  | look path next ih =>
    obtain ⟨hpath, hlooks⟩ := List.forall_mem_cons.mp hlooks
    rw [answer, answer, hpath]
    exact ih _ hlooks hreads
  | read path next ih =>
    obtain ⟨hpath, hreads⟩ := List.forall_mem_cons.mp hreads
    rw [answer, answer, hpath]
    exact ih _ hlooks hreads

/-! ## Snapshots -/

/-- What the files at some paths hold. -/
def contents : List Text → Inquiry (List (Text × FileContent))
  | [] => return []
  | path :: paths => do
    let here ← content path
    return (path, here) :: (← contents paths)

/-- The files at some paths, as they are now; no others are seen. -/
def snapshot (paths : List Text) : Inquiry Files := do
  let held ← contents paths
  return .ofRead fun path => (held.lookup path).getD (.error .notFound)

section
variable (files : Files) (paths : List Text)

@[simp] theorem answer_contents :
    (contents paths).answer files = paths.map fun path => (path, files.read path) := by
  induction paths with
  | nil => rfl
  | cons path paths ih => simp [contents, ih]

@[simp] theorem looks_contents : (contents paths).looks files = [] := by
  induction paths with
  | nil => rfl
  | cons path paths ih => simp [contents, ih]

@[simp] theorem reads_contents : (contents paths).reads files = paths := by
  induction paths with
  | nil => rfl
  | cons path paths ih => simp [contents, ih]

@[simp] theorem looks_snapshot : (snapshot paths).looks files = [] := by
  simp [snapshot]

@[simp] theorem reads_snapshot : (snapshot paths).reads files = paths := by
  simp [snapshot]

theorem lookup_map_read {path : Text} (h : path ∈ paths) :
    (paths.map fun path => (path, files.read path)).lookup path = some (files.read path) := by
  induction paths with
  | nil => exact absurd h List.not_mem_nil
  | cons other paths ih =>
    rw [List.map_cons, List.lookup_cons]
    by_cases heq : path = other
    · rw [heq, beq_self_eq_true]
    · rw [beq_eq_false_iff_ne.mpr heq]
      exact ih ((List.mem_cons.mp h).resolve_left heq)

/-- A snapshot holds what the files hold at its paths. -/
theorem read_snapshot {path : Text} (h : path ∈ paths) :
    ((snapshot paths).answer files).read path = files.read path := by
  simp [snapshot, Files.ofRead, lookup_map_read files paths h]

end

end Inquiry
end Stencil
