/-
Caips.Coreai.BackupTheorems — what a refused restore leaves behind.

Everything that `verify` refuses and every clash is found before the first write.
The number of dumps is counted after the last one, and `pg_restore` runs after it,
so these refusals leave the files of the backup in the target (`harmless_iff`).
-/
import Caips.Coreai.Backup
import Caips.Logic.Sync

namespace Caips.Coreai.Backup

open Caips.Logic Caips.Api

variable {S : Setting} {A : Archive} {c : Call} {t t' : FileTree Bytes} {target : FilePath} {faults : Faults}
  {files : List String} {rel dsn : String}

/-! ## Names -/

theorem path_of_safe (h : safe rel = true) (target : FilePath) : path target rel = target ++ parts rel := by
  simp only [safe, Bool.and_eq_true, Bool.not_eq_true', decide_eq_true_eq] at h
  rw [path, h.1, FileTree.join_eq h.2]

/-! ## What `verify` has checked -/

/-- A file of a good archive: its name stays in the target, and it can be read. -/
structure Good (A : Archive) (rel : String) : Prop where
  safe : safe rel = true
  readable : ∃ content, readMember A rel = .ok content

theorem good_of_checkFile {about : Json} (h : checkFile S A rel about = .ok ()) : Good A rel := by
  unfold checkFile at h
  split at h
  · exact nomatch h
  · next hname =>
      obtain ⟨content, hread, -⟩ := bind_ok_iff.mp h
      exact ⟨not_not.mp fun hsafe => hname (.inl hsafe), content, hread⟩

theorem good_of_checkFiles : ∀ {files : List (String × Json)}, checkFiles S A files = .ok () →
    ∀ rel ∈ files.map Prod.fst, Good A rel
  | [], _ => by simp
  | (rel, about) :: rest, h => by
      obtain ⟨⟨⟩, hfile, hrest⟩ := bind_ok_iff.mp h
      rw [List.map_cons, List.forall_mem_cons]
      exact ⟨good_of_checkFile hfile, good_of_checkFiles hrest⟩

theorem good_of_verify (h : verify S (some A) = .ok files) : ∀ rel ∈ files, Good A rel := by
  unfold verify at h
  simp only at h
  split at h
  · exact nomatch h
  · obtain ⟨raw, -, h⟩ := bind_ok_iff.mp h
    split at h
    · exact nomatch h
    · split at h
      · exact nomatch h
      · split at h
        · exact nomatch h
        · obtain ⟨⟨⟩, hcheck, h⟩ := bind_ok_iff.mp h
          obtain rfl := Except.ok.inj h
          exact good_of_checkFiles hcheck

/-! ## The writes -/

/-- What the files of a list have at a path in the end: the last one counts. -/
def landed (A : Archive) (target : FilePath) : List String → FilePath → Option Bytes
  | [], _ => none
  | rel :: rest, p => (landed A target rest p).or
      (if p = path target rel then (readMember A rel).toOption else none)

variable (A t faults) in
/-- Writing a file changes at most the file at its path. -/
theorem fileAt_writeMember {p : FilePath} (h : p ≠ path target rel) :
    (writeMember A faults target rel t).1.fileAt p = t.fileAt p := by
  unfold writeMember
  simp only
  cases hdirs : t.mkdirs [] (path target rel).dropLast with
  | none => rfl
  | some u =>
    have hu := congrFun (FileTree.fileAt_mkdirs hdirs) p
    have hwrite : ∀ {content : Bytes} {v : FileTree Bytes}, u.write (path target rel) content = some v →
        v.fileAt p = t.fileAt p := by
      intro content v hv
      rw [FileTree.fileAt_write hv, if_neg h, hu]
    simp only
    cases readMember A rel with
    | error e => exact hu
    | ok content =>
      simp only
      cases faults rel with
      | none =>
        simp only
        cases hv : u.write (path target rel) content with
        | none => exact hu
        | some v => exact hwrite hv
      | some fault =>
        cases fault with
        | none => exact hu
        | some part =>
          simp only
          cases hv : u.write (path target rel) part with
          | none => exact hu
          | some v => exact hwrite hv

/-- A file that was written has its content. -/
theorem writeMember_ok (h : writeMember A faults target rel t = (t', .ok ())) (p : FilePath) :
    t'.fileAt p = (if p = path target rel then (readMember A rel).toOption else none).or (t.fileAt p) := by
  unfold writeMember at h
  simp only at h
  cases hdirs : t.mkdirs [] (path target rel).dropLast with
  | none =>
    rw [hdirs] at h
    exact nomatch (Prod.mk.inj h).2
  | some u =>
    rw [hdirs] at h
    simp only at h
    cases hread : readMember A rel with
    | error e =>
      rw [hread] at h
      exact nomatch (Prod.mk.inj h).2
    | ok content =>
      rw [hread] at h
      simp only at h
      cases hfault : faults rel with
      | some fault =>
        rw [hfault] at h
        cases fault <;> exact nomatch (Prod.mk.inj h).2
      | none =>
        rw [hfault] at h
        simp only at h
        cases hwrite : u.write (path target rel) content with
        | none =>
          rw [hwrite] at h
          exact nomatch (Prod.mk.inj h).2
        | some v =>
          rw [hwrite] at h
          obtain rfl := (Prod.mk.inj h).1
          rw [FileTree.fileAt_write hwrite, FileTree.fileAt_mkdirs hdirs]
          split_ifs <;> rfl

/-- Writing a file that can be read is never refused. -/
theorem writeMember_error {e : Raised} (hgood : Good A rel) (h : (writeMember A faults target rel t).2 = .error e) :
    e = .other := by
  obtain ⟨content, hread⟩ := hgood.readable
  unfold writeMember at h
  simp only [hread] at h
  split at h
  · exact (Except.error.inj h).symm
  · split at h
    · exact (Except.error.inj h).symm
    · exact (Except.error.inj h).symm
    · split at h
      · exact (Except.error.inj h).symm
      · exact nomatch h

theorem fileAt_writeMembers {p : FilePath} : ∀ {files : List String} {t : FileTree Bytes},
    (∀ rel ∈ files, p ≠ path target rel) → (writeMembers A faults target files t).1.fileAt p = t.fileAt p
  | [], _, _ => rfl
  | rel :: rest, t, h => by
      obtain ⟨hrel, hrest⟩ := List.forall_mem_cons.mp h
      have hfirst := fileAt_writeMember A t faults hrel
      unfold writeMembers
      split
      · next u e heq =>
          rw [heq] at hfirst
          exact hfirst
      · next u heq =>
          rw [heq] at hfirst
          exact (fileAt_writeMembers hrest).trans hfirst

theorem writeMembers_ok (p : FilePath) : ∀ {files : List String} {t : FileTree Bytes},
    writeMembers A faults target files t = (t', .ok ()) → t'.fileAt p = (landed A target files p).or (t.fileAt p)
  | [], t, h => by
      obtain ⟨rfl, -⟩ := Prod.mk.inj h
      rfl
  | rel :: rest, t, h => by
      unfold writeMembers at h
      split at h
      · exact nomatch (Prod.mk.inj h).2
      · next u heq =>
          rw [writeMembers_ok p h, writeMember_ok heq, landed, Option.or_assoc]

theorem writeMembers_error {e : Raised} : ∀ {files : List String} {t : FileTree Bytes}, (∀ rel ∈ files, Good A rel) →
    (writeMembers A faults target files t).2 = .error e → e = .other
  | [], _, _, h => nomatch h
  | rel :: rest, t, hgood, h => by
      obtain ⟨hrel, hrest⟩ := List.forall_mem_cons.mp hgood
      unfold writeMembers at h
      split at h
      · next u e' heq =>
          obtain rfl := Except.error.inj h
          exact writeMember_error hrel (congrArg Prod.snd heq)
      · exact writeMembers_error hrest h

/-! ## When a refusal changes nothing -/

/-- The files of the target. -/
def Untouched (target : FilePath) (t t' : FileTree Bytes) : Prop := ∀ p, target <+: p → t'.fileAt p = t.fileAt p

/-- A refused restore leaves the files of the target, and none writes outside. -/
structure Harmless (S : Setting) (c : Call) (t : FileTree Bytes) : Prop where
  refused : ∀ e, (restore S c t).2 = .error (.backup e) → Untouched c.target t (restore S c t).1
  inside : ∀ p, ¬c.target <+: p → (restore S c t).1.fileAt p = t.fileAt p

/-- The restore is refused after all files were written: the dumps are not one, or
`pg_restore` cannot be started or fails. -/
structure LateRefusal (S : Setting) (c : Call) (A : Archive) (files : List String) (t : FileTree Bytes) : Prop where
  good : verify S (some A) = .ok files
  free : c.force = true ∨ clashes c.target t files = []
  written : (writeMembers A c.faults c.target files t).2 = .ok ()
  load : c.pgRestoreTo ≠ ""
  refused : (files.filter isDump).length ≠ 1 ∨ ∃ e, pgRestore S c.pgRestoreTo = .error (.backup e)

/-- The files of the backup are in the target already. -/
def Present (c : Call) (A : Archive) (files : List String) (t : FileTree Bytes) : Prop :=
  ∀ p content, landed A c.target files p = some content → t.fileAt p = some content

theorem loadDump_refused_iff : (∃ e, loadDump S files dsn = .error (.backup e)) ↔
    dsn ≠ "" ∧ ((files.filter isDump).length ≠ 1 ∨ ∃ e, pgRestore S dsn = .error (.backup e)) := by
  unfold loadDump
  by_cases hdsn : dsn = ""
  · simp [hdsn]
  · simp only [hdsn, if_false, ne_eq, not_false_eq_true, true_and]
    by_cases hdumps : (files.filter isDump).length = 1
    · simp only [hdumps, not_true_eq_false, if_false, false_or]
      cases pgRestore S dsn with
      | ok _ => simp [Except.map]
      | error e => simp [Except.map]
    · simp [hdumps]

theorem restoreFiles_free (h : c.force = true ∨ clashes c.target t files = []) :
    restoreFiles S c A files t = match writeMembers A c.faults c.target files t with
      | (t, .error e) => (t, .error e)
      | (t, .ok ()) => (t, loadDump S files c.pgRestoreTo) := by
  unfold restoreFiles
  split
  · next hclashes hforce =>
      rcases h with h | h
      · exact nomatch hforce.symm.trans h
      · exact nomatch hclashes.symm.trans h
  · rfl

theorem restoreFiles_clash (h : ¬(c.force = true ∨ clashes c.target t files = [])) :
    (restoreFiles S c A files t).1 = t := by
  unfold restoreFiles
  split
  · rfl
  · next hno =>
      obtain ⟨hforce, hclashes⟩ := not_or.mp h
      obtain ⟨first, rest, heq⟩ := List.exists_cons_of_ne_nil hclashes
      exact absurd (by simpa using hforce) (hno first rest heq)

theorem mem_of_landed {p : FilePath} {content : Bytes} : ∀ {files : List String},
    landed A target files p = some content → ∃ rel ∈ files, p = path target rel
  | [], h => nomatch h
  | rel :: rest, h => by
      unfold landed at h
      rcases Option.or_eq_some_iff.mp h with hrest | ⟨-, hrel⟩
      · obtain ⟨r, hr, hp⟩ := mem_of_landed hrest
        exact ⟨r, List.mem_cons_of_mem _ hr, hp⟩
      · by_cases hp : p = path target rel
        · exact ⟨rel, List.mem_cons_self, hp⟩
        · rw [if_neg hp] at hrel
          exact nomatch hrel

theorem Good.under (h : Good A rel) (target : FilePath) : target <+: path target rel := by
  rw [path_of_safe h.safe]
  exact List.prefix_append _ _

theorem restore_some (h : c.archive = some A) (hverify : verify S (some A) = .ok files) :
    restore S c t = restoreFiles S c A files t := by
  simp [restore, h, hverify]

/-- A restore leaves the tree as it is, or it writes the files of its backup, and loads the dump after the last. -/
theorem restore_cases (S : Setting) (c : Call) (t : FileTree Bytes) : (restore S c t).1 = t ∨
    ∃ A files u, c.archive = some A ∧ verify S (some A) = .ok files ∧ (c.force = true ∨ clashes c.target t files = []) ∧
      ((∃ e, writeMembers A c.faults c.target files t = (u, .error e) ∧ restore S c t = (u, .error e)) ∨
        writeMembers A c.faults c.target files t = (u, .ok ()) ∧
          restore S c t = (u, loadDump S files c.pgRestoreTo)) := by
  cases harchive : c.archive with
  | none =>
    have hverify : verify S none = .error .other := rfl
    left
    simp [restore, harchive, hverify]
  | some A =>
    cases hverify : verify S (some A) with
    | error e =>
      left
      simp [restore, harchive, hverify]
    | ok files =>
      rw [restore_some harchive hverify]
      by_cases hfree : c.force = true ∨ clashes c.target t files = []
      · right
        rw [restoreFiles_free hfree]
        obtain ⟨u, result, hu⟩ : ∃ u result, writeMembers A c.faults c.target files t = (u, result) := ⟨_, _, rfl⟩
        refine ⟨A, files, u, rfl, hverify, hfree, ?_⟩
        rw [hu]
        cases result with
        | error e => exact .inl ⟨e, rfl, rfl⟩
        | ok _ => exact .inr ⟨rfl, rfl⟩
      · left
        exact restoreFiles_clash hfree

theorem restore_inside (p : FilePath) (h : ¬c.target <+: p) : (restore S c t).1.fileAt p = t.fileAt p := by
  rcases restore_cases S c t with hkept | ⟨A, files, u, harchive, hverify, hfree, hwrite⟩
  · rw [hkept]
  · have hwritten : (writeMembers A c.faults c.target files t).1.fileAt p = t.fileAt p :=
      fileAt_writeMembers fun rel hrel hp => h (hp ▸ (good_of_verify hverify rel hrel).under c.target)
    obtain ⟨e, hu, hrestore⟩ | ⟨hu, hrestore⟩ := hwrite
    · rw [hrestore, ← hwritten, hu]
    · rw [hrestore, ← hwritten, hu]

/-- **A refused restore changes no file of the target, exactly if it is refused before
its first write, or after writing what was there already.** -/
theorem harmless_iff (S : Setting) (c : Call) (t : FileTree Bytes) :
    Harmless S c t ↔ ∀ A files, c.archive = some A → LateRefusal S c A files t → Present c A files t := by
  constructor
  · intro h A files harchive hlate p content hlanded
    have hrestore := restore_some (c := c) (t := t) harchive hlate.good
    rw [restoreFiles_free hlate.free] at hrestore
    obtain ⟨u, hu⟩ : ∃ u, writeMembers A c.faults c.target files t = (u, .ok ()) := ⟨_, Prod.ext rfl hlate.written⟩
    rw [hu] at hrestore
    obtain ⟨e, he⟩ := loadDump_refused_iff.mpr ⟨hlate.load, hlate.refused⟩
    obtain ⟨rel, hrel, rfl⟩ := mem_of_landed hlanded
    have hsame := h.refused e (by rw [hrestore]; exact he) _ ((good_of_verify hlate.good rel hrel).under c.target)
    rw [hrestore, writeMembers_ok _ hu, hlanded] at hsame
    exact hsame.symm
  · intro h
    refine ⟨fun e he p hp => ?_, restore_inside⟩
    rcases restore_cases S c t with
      hkept | ⟨A, files, u, harchive, hverify, hfree, ⟨e', hu, hrestore⟩ | ⟨hu, hrestore⟩⟩
    · rw [hkept]
    · rw [hrestore] at he
      obtain rfl := Except.error.inj he
      cases writeMembers_error (good_of_verify hverify) (congrArg Prod.snd hu)
    · rw [hrestore] at he ⊢
      obtain ⟨hload, hrefused⟩ := loadDump_refused_iff.mp ⟨e, he⟩
      have hpresent := h A files harchive ⟨hverify, hfree, congrArg Prod.snd hu, hload, hrefused⟩
      rw [writeMembers_ok p hu]
      cases hlanded : landed A c.target files p with
      | none => rfl
      | some content => exact (hpresent p content hlanded).symm

/-- An archive with one file of the configuration. -/
def configArchive : Archive where
  names := ["manifest.json", "a"]
  extract _ := .regular [1]

/-- Surroundings where every text is the manifest of that archive. -/
def configSetting : Setting where
  loads _ := some (.obj [field "format" (.atom (.int 1)), field "files" (.obj [field "a" (.obj [field "sha256" (text "x")])])])
  sha256 _ := ['x']
  pgParts dsn := .ok dsn
  hasPgRestore := true
  runPgRestore := some (0, "")

def configCall : Call := { archive := some configArchive, target := ["srv"], pgRestoreTo := "postgres://h/d" }

/-- A backup without a dump is written before it is refused. -/
theorem written_refused : ¬Harmless configSetting configCall fun _ => none := by
  intro h
  have hsame := h.refused (.dumps 0) (by rfl) ["srv", "a"] (by decide)
  have hwritten : (restore configSetting configCall fun _ => none).1.fileAt ["srv", "a"] = some [1] := by rfl
  exact nomatch hwritten.symm.trans hsame

end Caips.Coreai.Backup
