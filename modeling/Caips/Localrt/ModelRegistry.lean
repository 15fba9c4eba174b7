/-
Caips.Localrt.ModelRegistry — scanning a directory of model files, after
`ModelRegistry.scan` of `localrt/registry.py`.

A file that raises a `GGUFError` or an `OSError` is skipped; everything else that
one file raises ends the whole scan. `robust_iff` says which directories are scanned
as they should be.
-/
import Caips.Localrt.GgufTheorems
import Caips.Logic.Json
import Caips.Logic.Sync
import Mathlib.Data.List.Pairwise
import Mathlib.Data.List.Infix

namespace Caips.Localrt

open Caips.Logic

/-! ## scan -/

/-- What a scan raises. -/
inductive ScanError where
  | recursion
  | unhashable
  /-- `"tools" in tpl` of a number. -/
  | notIterable

/-- A model that was found. -/
structure FoundModel where
  info : ModelInfo
  path : String
  capabilities : Dict String Json

abbrev FoundModels := Dict String FoundModel

/-- The `.gguf` files below a directory, in the order they are looked at. -/
structure Directory where
  files : List ModelFile
  distinct : (files.map ModelFile.path).Nodup

variable (D : Decoding)

def boolean (b : Bool) : Json := .atom (.bool b)

/-- `"tools" in tpl`, where `tpl` is `info.get("chat_template") or ""`. -/
def usesTools (template : Option GValue) : Except ScanError Bool :=
  match template.filter GValue.truthy with
  | none => .ok false
  | some (.str s) => .ok (decide ("tools".toList <:+: s))
  | some (.list items) => .ok (items.any fun v => match v with
      | .str s => s = "tools".toList
      | _ => false)
  | some _ => .error .notIterable

/-- `_detect`. -/
def detect (info : ModelInfo) : Except ScanError (Dict String Json) := do
  let tools ← usesTools info.chatTemplate
  return .ofList [("tools", boolean tools), ("vision", boolean false), ("json_mode", boolean true),
    ("embeddings", boolean (decide ("bert".toList <:+: info.architecture.text D)))]

/-- Looking at one file: nothing where it is skipped. -/
def look (overrides : Dict String (Dict String Json)) (frames : ℕ) (f : ModelFile) :
    Except ScanError (Option FoundModel) :=
  match describe D frames f with
  | .error (.read (.gguf _)) => .ok none
  | .error .os => .ok none
  | .error (.read .recursion) => .error .recursion
  | .error .unhashable => .error .unhashable
  | .ok info => do
      let capabilities ← detect D info
      return some ⟨info, f.path, capabilities.update ((overrides.get? f.stem).getD .empty)⟩

/-- The loop of `scan`. -/
def scanFiles (overrides : Dict String (Dict String Json)) (frames : ℕ) :
    List ModelFile → FoundModels → Except ScanError FoundModels
  | [], found => .ok found
  | f :: rest, found => do
      match ← look D overrides frames f with
      | none => scanFiles overrides frames rest found
      | some model => scanFiles overrides frames rest (found.set f.stem model)

/-- `scan`. -/
def scan (overrides : Dict String (Dict String Json)) (frames : ℕ) (dir : Directory) : Except ScanError FoundModels :=
  scanFiles D overrides frames dir.files .empty

/-! ## What a scan should do -/

/-- Every file is read to its metadata or to a `GGUFError`, and the scan finds the
files that can be described, each under its stem, and nothing else. -/
structure Robust (overrides : Dict String (Dict String Json)) (frames : ℕ) (dir : Directory) : Prop where
  reads : ∀ f ∈ dir.files, ∀ content, f.content = some content →
    (∃ m, readMetadata D frames content = .ok m) ∨ ∃ e, readMetadata D frames content = .error (.gguf e)
  scans : ∃ found, scan D overrides frames dir = .ok found ∧
    (∀ f ∈ dir.files, ∀ info, describe D frames f = .ok info →
      ∃ model, found.get? f.stem = some model ∧ model.path = f.path ∧ model.info = info) ∧
    ∀ stem model, found.get? stem = some model →
      ∃ f ∈ dir.files, f.stem = stem ∧ f.path = model.path ∧ describe D frames f = .ok model.info

/-- A chat template `"tools" in` works with. -/
def SearchableTemplate : Option GValue → Prop
  | none => True
  | some (.str _) => True
  | some (.list _) => True
  | some v => v.truthy = false

def HashableType : Option GValue → Prop
  | some (.list _) => False
  | _ => True

/-- A file the scan gets over: its arrays are not nested too deep, and where it has
metadata their file type is no list and their chat template no number. -/
structure Tame (frames : ℕ) (f : ModelFile) : Prop where
  depth : ∀ content, f.content = some content → callDepth content ≤ frames
  fileType : ∀ content m size, f.content = some content → readMetadata D frames content = .ok m → f.size = some size →
    HashableType (m.lookup "general.file_type")
  template : ∀ content m size, f.content = some content → readMetadata D frames content = .ok m → f.size = some size →
    SearchableTemplate (m.lookup "tokenizer.chat_template")

/-- A file that can be described. -/
def Describable (frames : ℕ) (f : ModelFile) : Prop := ∃ info, describe D frames f = .ok info

/-- Two files that are not models under one stem. -/
def Apart (frames : ℕ) (f g : ModelFile) : Prop := Describable D frames f → Describable D frames g → f.stem ≠ g.stem

instance (frames : ℕ) : Std.Symm (Apart D frames) := ⟨fun _ _ h hg hf => (h hf hg).symm⟩

variable {D} {overrides : Dict String (Dict String Json)} {frames : ℕ} {f : ModelFile} {files : List ModelFile}
  {found found' : FoundModels} {model : FoundModel} {info : ModelInfo} {stem : String}

/-! ## One file -/

theorem usesTools_ok_iff (template : Option GValue) :
    (∃ b, usesTools template = .ok b) ↔ SearchableTemplate template := by
  cases template with
  | none => simp [usesTools, SearchableTemplate]
  | some v =>
    by_cases htruthy : v.truthy = true
    · cases v <;> simp [usesTools, SearchableTemplate, Option.filter, htruthy]
    · cases v <;> simp [usesTools, SearchableTemplate, Option.filter, htruthy]

theorem detect_ok_iff : (∃ c, detect D info = .ok c) ↔ SearchableTemplate info.chatTemplate := by
  rw [← usesTools_ok_iff]
  constructor
  · rintro ⟨c, h⟩
    obtain ⟨b, hb, -⟩ := bind_ok_iff.mp h
    exact ⟨b, hb⟩
  · rintro ⟨b, hb⟩
    exact ⟨_, bind_ok_iff.mpr ⟨b, hb, rfl⟩⟩

theorem quantizationOf_cases (ft : GValue) :
    (∃ q, quantizationOf D ft = .ok q) ∧ HashableType (some ft) ∨
      quantizationOf D ft = .error .unhashable ∧ ¬HashableType (some ft) := by
  unfold quantizationOf
  cases ft with
  | list items => exact .inr ⟨rfl, id⟩
  | _ =>
    left
    refine ⟨?_, trivial⟩
    simp only
    split
    · exact ⟨_, rfl⟩
    · exact ⟨_, rfl⟩

theorem describeMetadata_cases (f : ModelFile) (size : ℕ) (m : Metadata) :
    (∃ info, describeMetadata D f size m = .ok info ∧ info.chatTemplate = m.lookup "tokenizer.chat_template") ∧
        HashableType (m.lookup "general.file_type") ∨
      describeMetadata D f size m = .error .unhashable ∧ ¬HashableType (m.lookup "general.file_type") := by
  unfold describeMetadata
  cases hft : m.lookup "general.file_type" with
  | none => exact .inl ⟨⟨_, rfl, rfl⟩, trivial⟩
  | some ft =>
    rcases quantizationOf_cases (D := D) ft with ⟨⟨q, hq⟩, hhash⟩ | ⟨hq, hhash⟩
    · left
      simp only [hq]
      exact ⟨⟨_, rfl, rfl⟩, hhash⟩
    · right
      simp only [hq]
      exact ⟨rfl, hhash⟩

theorem look_of_describe (h : describe D frames f = .ok info) :
    (∃ o, look D overrides frames f = .ok o) ↔ SearchableTemplate info.chatTemplate := by
  rw [← detect_ok_iff (D := D)]
  unfold look
  simp only [h]
  constructor
  · rintro ⟨o, ho⟩
    obtain ⟨c, hc, -⟩ := bind_ok_iff.mp ho
    exact ⟨c, hc⟩
  · rintro ⟨c, hc⟩
    exact ⟨_, bind_ok_iff.mpr ⟨c, hc, rfl⟩⟩

variable (D frames) in
theorem describe_of_content {content : Bytes} (hcontent : f.content = some content) :
    describe D frames f = match readMetadata D frames content with
      | .error e => .error (.read e)
      | .ok m => match f.size with
        | none => .error .os
        | some size => describeMetadata D f size m := by
  unfold describe
  split
  · next hnone => exact nomatch hcontent.symm.trans hnone
  · next content' hsome =>
      obtain rfl := Option.some.inj (hcontent.symm.trans hsome)
      rfl

theorem tame_of_depth (hdepth : ∀ content, f.content = some content → callDepth content ≤ frames)
    (h : ∀ content m size, f.content = some content → readMetadata D frames content = .ok m → f.size ≠ some size) :
    Tame D frames f :=
  ⟨hdepth, fun content m size hcontent hread hsize => absurd hsize (h content m size hcontent hread),
    fun content m size hcontent hread hsize => absurd hsize (h content m size hcontent hread)⟩

theorem callDepth_le_of_ne {content : Bytes} (h : readMetadata D frames content ≠ .error .recursion) :
    callDepth content ≤ frames := by
  by_contra hlt
  exact h ((readMetadata_recursion_iff frames content).mpr (not_le.mp hlt))

variable (overrides) in
/-- The scan gets over a file exactly if the file is tame. -/
theorem look_ok_iff : (∃ o, look D overrides frames f = .ok o) ↔ Tame D frames f := by
  cases hcontent : f.content with
  | none =>
    have hdescribe : describe D frames f = .error .os := by
      unfold describe
      rw [hcontent]
    have hlook : look D overrides frames f = .ok none := by
      unfold look
      rw [hdescribe]
    refine iff_of_true ⟨_, hlook⟩ (tame_of_depth ?_ ?_)
    · simp [hcontent]
    · simp [hcontent]
  | some content =>
    have hdescribe := describe_of_content D frames hcontent
    cases hread : readMetadata D frames content with
    | error e =>
      simp only [hread] at hdescribe
      cases e with
      | gguf e =>
        have hlook : look D overrides frames f = .ok none := by
          unfold look
          rw [hdescribe]
        have hdepth : callDepth content ≤ frames := callDepth_le_of_ne (D := D) (by simp [hread])
        refine iff_of_true ⟨_, hlook⟩ (tame_of_depth ?_ ?_)
        · simpa [hcontent] using hdepth
        · intro content' m size hcontent' hread'
          obtain rfl := Option.some.inj (hcontent.symm.trans hcontent')
          exact nomatch hread.symm.trans hread'
      | recursion =>
        have hlook : look D overrides frames f = .error .recursion := by
          unfold look
          rw [hdescribe]
        refine iff_of_false (by simp [hlook]) fun htame => ?_
        have hdepth := (readMetadata_recursion_iff frames content).mp hread
        exact absurd (htame.depth content hcontent) (by omega)
    | ok m =>
      have hdepth : callDepth content ≤ frames := callDepth_le_of_ne (D := D) (by simp [hread])
      simp only [hread] at hdescribe
      cases hsize : f.size with
      | none =>
        simp only [hsize] at hdescribe
        have hlook : look D overrides frames f = .ok none := by
          unfold look
          rw [hdescribe]
        refine iff_of_true ⟨_, hlook⟩ (tame_of_depth ?_ ?_)
        · simpa [hcontent] using hdepth
        · simp [hsize]
      | some size =>
        simp only [hsize] at hdescribe
        rcases describeMetadata_cases (D := D) f size m with ⟨⟨info, hinfo, htemplate⟩, hhash⟩ | ⟨herror, hhash⟩
        · rw [look_of_describe (hdescribe.trans hinfo), htemplate]
          constructor
          · intro hsearch
            constructor
            · simpa [hcontent] using hdepth
            · intro content' m' size' hcontent' hread' hsize'
              obtain rfl := Option.some.inj (hcontent.symm.trans hcontent')
              obtain rfl := Except.ok.inj (hread.symm.trans hread')
              exact hhash
            · intro content' m' size' hcontent' hread' hsize'
              obtain rfl := Option.some.inj (hcontent.symm.trans hcontent')
              obtain rfl := Except.ok.inj (hread.symm.trans hread')
              exact hsearch
          · intro htame
            exact htame.template content m size hcontent hread hsize
        · have hlook : look D overrides frames f = .error .unhashable := by
            unfold look
            rw [hdescribe, herror]
          refine iff_of_false (by simp [hlook]) fun htame => ?_
          exact hhash (htame.fileType content m size hcontent hread hsize)

/-- A model that is found is the one the file describes. -/
theorem look_some (h : look D overrides frames f = .ok (some model)) :
    model.path = f.path ∧ describe D frames f = .ok model.info := by
  unfold look at h
  split at h
  · simp at h
  · simp at h
  · simp at h
  · simp at h
  · next info hdescribe =>
      obtain ⟨capabilities, -, hmodel⟩ := bind_ok_iff.mp h
      obtain rfl := Option.some.inj (Except.ok.inj hmodel)
      exact ⟨rfl, hdescribe⟩

theorem look_none (h : look D overrides frames f = .ok none) : ¬Describable D frames f := by
  rintro ⟨info, hdescribe⟩
  unfold look at h
  simp only [hdescribe] at h
  obtain ⟨capabilities, -, hmodel⟩ := bind_ok_iff.mp h
  cases Except.ok.inj hmodel

/-! ## All files -/

variable (overrides) in
theorem scanFiles_ok_iff (files : List ModelFile) :
    ∀ found, (∃ found', scanFiles D overrides frames files found = .ok found') ↔ ∀ f ∈ files, Tame D frames f := by
  induction files with
  | nil => simp [scanFiles]
  | cons f rest ih =>
    intro found
    rw [List.forall_mem_cons, ← look_ok_iff overrides]
    constructor
    · rintro ⟨found', h⟩
      obtain ⟨o, hlook, hrest⟩ := bind_ok_iff.mp h
      refine ⟨⟨o, hlook⟩, ?_⟩
      cases o with
      | none => exact (ih _).mp ⟨found', hrest⟩
      | some model => exact (ih _).mp ⟨found', hrest⟩
    · rintro ⟨⟨o, hlook⟩, hrest⟩
      cases o with
      | none =>
        obtain ⟨found', h⟩ := (ih found).mpr hrest
        exact ⟨found', bind_ok_iff.mpr ⟨none, hlook, h⟩⟩
      | some model =>
        obtain ⟨found', h⟩ := (ih (found.set f.stem model)).mpr hrest
        exact ⟨found', bind_ok_iff.mpr ⟨some model, hlook, h⟩⟩

/-- What is found under a stem was there before, or is the model of a file with that
stem. -/
theorem scanFiles_get? (files : List ModelFile) :
    ∀ {found found'}, scanFiles D overrides frames files found = .ok found' → ∀ {stem model},
      found'.get? stem = some model → found.get? stem = some model ∨
        ∃ f ∈ files, f.stem = stem ∧ f.path = model.path ∧ describe D frames f = .ok model.info := by
  induction files with
  | nil =>
    intro found found' h stem model hget
    obtain rfl := Except.ok.inj h
    exact .inl hget
  | cons f rest ih =>
    intro found found' h stem model hget
    obtain ⟨o, hlook, hrest⟩ := bind_ok_iff.mp h
    cases o with
    | none =>
      rcases ih hrest hget with hfound | ⟨g, hg, hmodel⟩
      · exact .inl hfound
      · exact .inr ⟨g, List.mem_cons_of_mem f hg, hmodel⟩
    | some new =>
      rcases ih hrest hget with hfound | ⟨g, hg, hmodel⟩
      · by_cases hstem : f.stem = stem
        · subst hstem
          rw [Dict.get?_set_self] at hfound
          obtain rfl := Option.some.inj hfound
          obtain ⟨hpath, hdescribe⟩ := look_some hlook
          exact .inr ⟨f, List.mem_cons_self, rfl, hpath.symm, hdescribe⟩
        · rw [Dict.get?_set_ne _ _ hstem] at hfound
          exact .inl hfound
      · exact .inr ⟨g, List.mem_cons_of_mem f hg, hmodel⟩

/-- A stem is kept once there is a model under it. -/
theorem scanFiles_kept (files : List ModelFile) :
    ∀ {found found'}, scanFiles D overrides frames files found = .ok found' → ∀ {stem},
      (∃ model, found.get? stem = some model) → ∃ model, found'.get? stem = some model := by
  induction files with
  | nil =>
    intro found found' h stem hget
    obtain rfl := Except.ok.inj h
    exact hget
  | cons f rest ih =>
    intro found found' h stem hget
    obtain ⟨o, -, hrest⟩ := bind_ok_iff.mp h
    cases o with
    | none => exact ih hrest hget
    | some new =>
      refine ih hrest ?_
      by_cases hstem : f.stem = stem
      · subst hstem
        exact ⟨new, Dict.get?_set_self _ _ _⟩
      · rw [Dict.get?_set_ne _ _ hstem]
        exact hget

/-- There is a model under the stem of each file that can be described. -/
theorem scanFiles_complete (files : List ModelFile) :
    ∀ {found found'}, scanFiles D overrides frames files found = .ok found' → ∀ f ∈ files, Describable D frames f →
      ∃ model, found'.get? f.stem = some model := by
  induction files with
  | nil => simp
  | cons g rest ih =>
    intro found found' h f hf hdescribable
    obtain ⟨o, hlook, hrest⟩ := bind_ok_iff.mp h
    rcases List.mem_cons.mp hf with rfl | hf
    · cases o with
      | none => exact absurd hdescribable (look_none hlook)
      | some new => exact scanFiles_kept rest hrest ⟨new, Dict.get?_set_self _ _ _⟩
    · cases o with
      | none => exact ih hrest f hf hdescribable
      | some new => exact ih hrest f hf hdescribable

/-! ## The whole directory -/

theorem readMetadata_cases_iff (content : Bytes) :
    ((∃ m, readMetadata D frames content = .ok m) ∨ ∃ e, readMetadata D frames content = .error (.gguf e)) ↔
      callDepth content ≤ frames := by
  rw [← not_lt, ← readMetadata_recursion_iff]
  cases readMetadata D frames content with
  | ok m => simp
  | error e => cases e <;> simp

/-- **A directory is scanned as it should be exactly if all its files are tame and no
two that can be described have one stem.** -/
theorem robust_iff (D : Decoding) (overrides : Dict String (Dict String Json)) (frames : ℕ) (dir : Directory) :
    Robust D overrides frames dir ↔ (∀ f ∈ dir.files, Tame D frames f) ∧ dir.files.Pairwise (Apart D frames) := by
  have hpaths := List.pairwise_map.mp dir.distinct
  constructor
  · rintro ⟨-, found, hscan, hall, -⟩
    refine ⟨(scanFiles_ok_iff _ _ _).mp ⟨found, hscan⟩, ?_⟩
    refine hpaths.imp_of_mem fun {f g} hf hg hne => ?_
    rintro ⟨info, hinfo⟩ ⟨info', hinfo'⟩ hstem
    obtain ⟨model, hmodel, hpath, -⟩ := hall f hf info hinfo
    obtain ⟨model', hmodel', hpath', -⟩ := hall g hg info' hinfo'
    rw [hstem, hmodel'] at hmodel
    obtain rfl := Option.some.inj hmodel
    exact hne (hpath.symm.trans hpath')
  · rintro ⟨htame, hstems⟩
    obtain ⟨found, hscan⟩ := (scanFiles_ok_iff overrides dir.files .empty).mpr htame
    have hsource : ∀ stem model, found.get? stem = some model →
        ∃ f ∈ dir.files, f.stem = stem ∧ f.path = model.path ∧ describe D frames f = .ok model.info := by
      intro stem model hmodel
      rcases scanFiles_get? dir.files hscan hmodel with hempty | hfile
      · exact nomatch hempty
      · exact hfile
    refine ⟨?_, found, hscan, ?_, hsource⟩
    · intro f hf content hcontent
      exact (readMetadata_cases_iff content).mpr ((htame f hf).depth content hcontent)
    · intro f hf info hinfo
      obtain ⟨model, hmodel⟩ := scanFiles_complete dir.files hscan f hf ⟨info, hinfo⟩
      obtain ⟨g, hg, hstem, hpath, hdescribe⟩ := hsource f.stem model hmodel
      have hfg : g = f := by
        by_contra hne
        exact hstems.forall hg hf hne ⟨_, hdescribe⟩ ⟨info, hinfo⟩ hstem
      subst hfg
      rw [hinfo] at hdescribe
      exact ⟨model, hmodel, hpath.symm, (Except.ok.inj hdescribe).symm⟩

def nested : ModelFile := ⟨"models/nested.gguf", "nested.gguf", "nested", some (deepFile 1000), some 0⟩

/-- Under the interpreter's own limit of calls there is a file that is no model and ends the scan. -/
theorem nested_ends_scan : ¬Robust ⟨fun _ => [], fun _ => []⟩ .empty 1000 ⟨[nested], List.nodup_singleton _⟩ := by
  intro hrobust
  obtain ⟨-, found, hscan, -⟩ := hrobust
  let D : Decoding := ⟨fun _ => [], fun _ => []⟩
  have htame := (scanFiles_ok_iff _ _ _).mp ⟨found, hscan⟩ nested List.mem_cons_self
  have hdepth := (readMetadata_recursion_iff (D := D) 1000 (deepFile 1000)).mp (deepFile_recursion 1000)
  exact absurd (htame.depth (deepFile 1000) rfl) (by omega)

end Caips.Localrt
