/-
Caips.Logic.FileTree — a tree of directories and files, without links, and the
writes of a program that makes directories and replaces files.

`fileAt` forgets the directories. Making directories does not change it
(`fileAt_mkdirs`), and writing a file changes it at one path (`fileAt_write`).

Nothing in this file knows what is being verified.
-/
import Mathlib.Data.List.Infix
import Mathlib.Tactic.Basic

namespace Caips.Logic

/-- What is at a path. -/
inductive Node (α : Type) where
  | dir
  | file (content : α)

/-- The components of a path from the root. -/
abbrev FilePath := List String

abbrev FileTree (α : Type) := FilePath → Option (Node α)

namespace FileTree

variable {α : Type}

def put (t : FileTree α) (p : FilePath) (n : Node α) : FileTree α := fun q => if q = p then some n else t q

/-- The content of the file at a path. -/
def fileAt (t : FileTree α) (p : FilePath) : Option α :=
  match t p with
  | some (.file content) => some content
  | _ => none

/-- Make the directories on the way from `base`; nothing if a file is in the way. -/
def mkdirs (t : FileTree α) (base : FilePath) : List String → Option (FileTree α)
  | [] => some t
  | c :: rest =>
    let p := base ++ [c]
    match t p with
    | some .dir => mkdirs t p rest
    | some (.file _) => none
    | none => mkdirs (t.put p .dir) p rest

/-- Replace the file at a path; nothing if it is a directory. -/
def write (t : FileTree α) (p : FilePath) (content : α) : Option (FileTree α) :=
  match t p with
  | some .dir => none
  | _ => some (t.put p (.file content))

/-- A path under another one: an absolute name starts at the root, and `..` goes
one up. -/
def join (base : FilePath) (absolute : Bool) (parts : List String) : FilePath :=
  parts.foldl (fun p c => if c = ".." then p.dropLast else p ++ [c]) (if absolute then [] else base)

theorem fileAt_put_file (t : FileTree α) (p q : FilePath) (content : α) :
    (t.put p (.file content)).fileAt q = if q = p then some content else t.fileAt q := by
  unfold fileAt put
  by_cases h : q = p
  · simp [h]
  · simp [h]

theorem fileAt_put_dir {t : FileTree α} {p : FilePath} (h : t p = none) : (t.put p .dir).fileAt = t.fileAt := by
  funext q
  unfold fileAt put
  by_cases hq : q = p
  · simp [hq, h]
  · simp [hq]

theorem fileAt_mkdirs : ∀ {cs : List String} {t t' : FileTree α} {base : FilePath},
    t.mkdirs base cs = some t' → t'.fileAt = t.fileAt
  | [], t, t', base, h => by
      obtain rfl := Option.some.inj h
      rfl
  | c :: rest, t, t', base, h => by
      unfold mkdirs at h
      cases hnode : t (base ++ [c]) with
      | none =>
        simp only [hnode] at h
        exact (fileAt_mkdirs h).trans (fileAt_put_dir hnode)
      | some node =>
        cases node with
        | dir =>
          simp only [hnode] at h
          exact fileAt_mkdirs h
        | file content =>
          simp only [hnode] at h
          exact nomatch h

theorem fileAt_write {t t' : FileTree α} {p : FilePath} {content : α} (h : t.write p content = some t') (q : FilePath) :
    t'.fileAt q = if q = p then some content else t.fileAt q := by
  unfold write at h
  split at h
  · exact nomatch h
  · obtain rfl := Option.some.inj h
    exact fileAt_put_file t p q content

theorem join_eq {parts : List String} (h : ".." ∉ parts) (base : FilePath) : join base false parts = base ++ parts := by
  unfold join
  simp only [Bool.false_eq_true, if_false]
  induction parts generalizing base with
  | nil => simp
  | cons c rest ih =>
    obtain ⟨hc, hrest⟩ := List.ne_and_not_mem_of_not_mem_cons h
    rw [List.foldl_cons, if_neg (Ne.symm hc), ih hrest, List.append_assoc, List.singleton_append]

end FileTree

end Caips.Logic
