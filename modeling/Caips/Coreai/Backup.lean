/-
Caips.Coreai.Backup — checking and restoring a backup, after `verify` and
`restore` of `coreai/backup.py`.

An archive is what `tarfile` answers about it, so its members are whatever they
are. The target is in a tree without symbolic links. `json.loads`, the hash, the
parsing of a DSN and the run of `pg_restore` are given.
-/
import Caips.Api.Compat
import Caips.Logic.Bytes
import Caips.Logic.FileTree

namespace Caips.Coreai.Backup

open Caips.Logic Caips.Api

/-- `FORMAT`, as a number of the manifest: `1`, `1.0` and `true` are equal to it. -/
def isFormat : Json → Bool
  | .atom (.int n) => n = 1
  | .atom (.bool b) => b
  | .atom (.float x) => x.text = "1.0".toList
  | _ => false

/-- What `extractfile` gives for a name. -/
inductive Extracted where
  | regular (content : Bytes)
  /-- No regular file: `None`. -/
  | special
  /-- It raises, or reading does. -/
  | raises

/-- A tar archive. -/
structure Archive where
  names : List String
  extract : String → Extracted

/-- `BackupError`. -/
inductive BackupError where
  | manifestMissing
  | notRegular (rel : String)
  | format (value : Json)
  | entry (rel : String)
  | checksum (rel : String)
  | overwrite (count : ℕ) (first : String)
  | dumps (count : ℕ)
  | dsn
  | noTool (tool : String)
  | pgRestore (redacted stderr : String)

/-- The message of a refusal. -/
def BackupError.text (P : Python) : BackupError → List Char
  | manifestMissing => "not a CaiPS backup: manifest.json missing".toList
  | notRegular rel => s!"not a regular file: {rel}".toList
  | format value => "unsupported backup format ".toList ++ str P value
  | entry rel => s!"bad or missing entry: {rel}".toList
  | checksum rel => s!"checksum mismatch: {rel}".toList
  | overwrite count first => s!"would overwrite {count} file(s), e.g. {first}; use --force".toList
  | dumps count => s!"--pg-restore-to needs exactly one Postgres dump in the archive, found {count}".toList
  | dsn => "Postgres DSN needs a host and a database name".toList
  | noTool tool => s!"{tool} not found on PATH; install the PostgreSQL client tools".toList
  | pgRestore redacted stderr => s!"pg_restore failed for {redacted}: {stderr}".toList

/-- What the functions raise: a refusal, or something else. -/
inductive Raised where
  | backup (e : BackupError)
  | other

/-- What lies outside. -/
structure Setting where
  loads : Bytes → Option Json
  /-- `hashlib.sha256(content).hexdigest()`. -/
  sha256 : Bytes → List Char
  /-- `_pg_parts`, up to the redacted DSN. -/
  pgParts : String → Except Raised String
  /-- `pg_restore` is on the path. -/
  hasPgRestore : Bool
  /-- The return code and the error output of `pg_restore`, unless it cannot be run or takes too long. -/
  runPgRestore : Option (ℤ × String)

/-! ## Names -/

/-- `Path(name).parts`, after the root. -/
def parts (name : String) : List String :=
  ((name.toList.splitOn '/').map String.ofList).filter fun c => c ≠ "" ∧ c ≠ "."

def isAbsolute (name : String) : Bool := name.toList.head? = some '/'

/-- `_safe`. -/
def safe (name : String) : Bool := !isAbsolute name && ".." ∉ parts name

/-- `target / name`. -/
def path (target : FilePath) (name : String) : FilePath := FileTree.join target (isAbsolute name) (parts name)

/-! ## verify -/

variable (S : Setting)

/-- `_read`. -/
def readMember (A : Archive) (rel : String) : Except Raised Bytes :=
  match A.extract rel with
  | .regular content => .ok content
  | .special => .error (.backup (.notRegular rel))
  | .raises => .error .other

/-- The check of one file of the manifest. -/
def checkFile (A : Archive) (rel : String) (about : Json) : Except Raised Unit :=
  if ¬safe rel ∨ rel ∉ A.names then .error (.backup (.entry rel))
  else do
    let content ← readMember A rel
    match (dict? about).bind fun members => item? members "sha256" with
    | none => .error .other
    | some (.str h) => if h ≠ S.sha256 content then .error (.backup (.checksum rel)) else .ok ()
    | some _ => .error (.backup (.checksum rel))

def checkFiles (A : Archive) : List (String × Json) → Except Raised Unit
  | [] => .ok ()
  | (rel, about) :: rest => do
      checkFile S A rel about
      checkFiles A rest

/-- `verify`: the names in `manifest["files"]`; an archive that cannot be opened is
`none`. -/
def verify (archive : Option Archive) : Except Raised (List String) :=
  match archive with
  | none => .error .other
  | some A =>
    if "manifest.json" ∉ A.names then .error (.backup .manifestMissing)
    else do
      let raw ← readMember A "manifest.json"
      match (S.loads raw).bind dict? with
      | none => .error .other
      | some manifest =>
        if ¬isFormat (get manifest "format") then .error (.backup (.format (get manifest "format")))
        else match (item? manifest "files").bind dict? with
          | none => .error .other
          | some files => do
              let files := files.map fun m => (String.ofList m.1, m.2)
              checkFiles S A files
              return files.map Prod.fst

/-! ## restore -/

/-- How the writing of a file goes wrong, if it does: it cannot be opened, or some
of it is written. -/
abbrev Faults := String → Option (Option Bytes)

/-- `dst.write_bytes(_read(tar, rel))`, after its directories were made. -/
def writeMember (A : Archive) (faults : Faults) (target : FilePath) (rel : String) (t : FileTree Bytes) :
    FileTree Bytes × Except Raised Unit :=
  let dst := path target rel
  match t.mkdirs [] dst.dropLast with
  | none => (t, .error .other)
  | some t => match readMember A rel with
    | .error e => (t, .error e)
    | .ok content => match faults rel with
      | some none => (t, .error .other)
      | some (some part) => ((t.write dst part).getD t, .error .other)
      | none => match t.write dst content with
        | none => (t, .error .other)
        | some t => (t, .ok ())

def writeMembers (A : Archive) (faults : Faults) (target : FilePath) :
    List String → FileTree Bytes → FileTree Bytes × Except Raised Unit
  | [], t => (t, .ok ())
  | rel :: rest, t => match writeMember A faults target rel t with
    | (t, .error e) => (t, .error e)
    | (t, .ok ()) => writeMembers A faults target rest t

/-- `_pg_restore`. -/
def pgRestore (dsn : String) : Except Raised Unit := do
  let redacted ← S.pgParts dsn
  if ¬S.hasPgRestore then .error (.backup (.noTool "pg_restore"))
  else match S.runPgRestore with
    | none => .error .other
    | some (code, stderr) =>
      if code ≠ 0 then .error (.backup (.pgRestore redacted (String.ofList ((Keystore.strip stderr).toList.take 300))))
      else .ok ()

def isDump (rel : String) : Bool := "pg/".toList.isPrefixOf rel.toList

/-- The end of `restore`, when everything was written. -/
def loadDump (files : List String) (dsn : String) : Except Raised (List String) :=
  if dsn = "" then .ok files
  else
    let dumps := files.filter isDump
    if dumps.length ≠ 1 then .error (.backup (.dumps dumps.length))
    else (pgRestore S dsn).map fun _ => files

/-- What `restore` is given. -/
structure Call where
  archive : Option Archive
  target : FilePath
  force : Bool := false
  pgRestoreTo : String := ""
  faults : Faults := fun _ => none

/-- The files of the manifest that are there already. -/
def clashes (target : FilePath) (t : FileTree Bytes) (files : List String) : List String :=
  files.filter fun rel => (t (path target rel)).isSome

/-- `restore`, after the archive was found good. -/
def restoreFiles (c : Call) (A : Archive) (files : List String) (t : FileTree Bytes) :
    FileTree Bytes × Except Raised (List String) :=
  match clashes c.target t files, c.force with
  | first :: rest, false => (t, .error (.backup (.overwrite (rest.length + 1) first)))
  | _, _ => match writeMembers A c.faults c.target files t with
    | (t, .error e) => (t, .error e)
    | (t, .ok ()) => (t, loadDump S files c.pgRestoreTo)

/-- `restore`: the tree it leaves, and what it returns or raises. -/
def restore (c : Call) (t : FileTree Bytes) : FileTree Bytes × Except Raised (List String) :=
  match c.archive, verify S c.archive with
  | some A, .ok files => restoreFiles S c A files t
  | _, .error e => (t, .error e)
  | none, .ok _ => (t, .error .other)

end Caips.Coreai.Backup
