/-
Caips.Coreai.KeyFile — the file of the key store, after `_read`, `_write`, `add`
and `remove` of `coreai/keystore.py`.

Reading returns less where the file is damaged, and writing replaces the whole
file by what was read and changed. So a change keeps the rest of the file exactly
where all of it was read (`keeps_iff`). On a file with nothing but entries a
change is one of `Caips.Coreai.Keystore` (`add_stored`, `remove_stored`), and so
are all changes since there was no file (`file_refines`).

A file is what `json` makes of its text. The temporary file of `_write` is another
one than the store, so a write that fails leaves the store as it was.
-/
import Caips.Api.Compat
import Caips.Coreai.KeystoreTheorems

namespace Caips.Coreai.KeyFile

open Caips.Logic Caips.Api Caips.Providers

/-! ## The file -/

/-- What is in the file. -/
inductive Content where
  | absent
  /-- No JSON, or no text; some entries can still be found in it. -/
  | broken (entries : List Json)
  /-- JSON that is nested too deep for `json.loads`. -/
  | tooDeep (value : Json)
  | json (value : Json)

/-- The file when an operation starts, and whether it can be read and replaced. -/
structure Disk where
  content : Content
  readable : Bool
  writable : Bool

/-- What an operation raises. -/
inductive KeyFileError where
  | keyStore (message : String)
  | recursion
  | os
  deriving DecidableEq

/-- `_read`. -/
def read (d : Disk) : Except KeyFileError (List Members) :=
  match d.content with
  | .absent => .ok []
  | .broken _ => .ok []
  | .tooDeep _ => if d.readable then .error .recursion else .ok []
  | .json value => if ¬d.readable then .ok [] else match value with
    | .arr items => .ok (items.filterMap dict?)
    | _ => .ok []

/-- `_write`. -/
def write (d : Disk) (entries : List Members) : Except KeyFileError Content :=
  if d.writable then .ok (.json (.arr (entries.map .obj))) else .error .os

/-! ## Entries -/

/-- What `add` and the loader read of a stored object; nothing that `add` looks for
is the empty text. -/
def textOf (e : Members) (key : String) : String := ((str? (get e key)).map String.ofList).getD ""

/-- A stored object, as the entry it stands for. -/
def view (e : Members) : KeyEntry where
  id := textOf e "id"
  provider := textOf e "provider"
  label := textOf e "label"
  baseUrl := textOf e "base_url"
  model := textOf e "model"
  created := match get e "created" with
    | .atom (.int (.ofNat n)) => n
    | _ => 0
  token := textOf e "token"

/-- The object `add` stores. -/
def object (e : KeyEntry) : Members :=
  [field "id" (text e.id), field "provider" (text e.provider), field "label" (text e.label),
    field "base_url" (text e.baseUrl), field "model" (text e.model), field "created" (.atom (.int e.created)),
    field "token" (text e.token)]

variable (S : KeySetting)

/-- What `_fernet` and the checks raise. -/
def raise {α : Type} : Except String α → Except KeyFileError α
  | .ok a => .ok a
  | .error message => .error (.keyStore message)

/-- The token of a key. -/
def encryptKey (apiKey : String) : Except KeyFileError String :=
  if apiKey = "" then .ok "" else do
    raise (Keystore.fernet S)
    return S.encrypt apiKey

/-- `add`: the new file, and the entry that was stored. -/
def add (d : Disk) (body : KeyBody) (id : String) (now : ℕ) : Except KeyFileError (Content × KeyEntry) :=
  match S.byId.get? body.provider with
  | none => .error (.keyStore s!"unknown provider '{body.provider}'")
  | some lab => do
      let apiKey := Keystore.strip body.apiKey
      let label := S.lower (Keystore.strip body.label)
      let model := Keystore.strip body.model
      let baseUrl ← raise (Keystore.checkBody S lab body.provider apiKey label
        (Keystore.stripSlashes (Keystore.strip body.baseUrl)))
      let entries ← read d
      let label ← raise (Keystore.chooseLabel lab (entries.map view) body.provider label)
      let token ← encryptKey S apiKey
      let entry : KeyEntry := { id, provider := body.provider, label, baseUrl, model, created := now, token }
      let content ← write d (entries ++ [object entry])
      return (content, entry)

/-- An entry that stays: `e.get("id") != entry_id`. -/
def otherId (id : String) (e : Members) : Bool := !isText id (get e "id")

/-- `remove`: the new file, and whether an entry was removed. -/
def remove (d : Disk) (id : String) : Except KeyFileError (Content × Bool) := do
  let entries ← read d
  let kept := entries.filter (otherId id)
  if kept.length = entries.length then return (d.content, false)
  else do
    let content ← write d kept
    return (content, true)

/-! ## What is kept -/

/-- A change of the store. -/
inductive Op where
  | add (body : KeyBody) (id : String) (now : ℕ)
  | remove (id : String)

/-- A change and what it leaves in the file; nothing if it raises. -/
def perform (d : Disk) : Op → Option Content
  | .add body id now => ((add S d body id now).toOption).map Prod.fst
  | .remove id => ((remove d id).toOption).map Prod.fst

/-- Everything that is stored in a file; what is no list is one thing. -/
def stored : Content → List Json
  | .absent => []
  | .broken entries => entries
  | .tooDeep value => [value]
  | .json (.arr items) => items
  | .json value => [value]

def untouched : Op → Json → Bool
  | .add _ _ _, _ => true
  | .remove id, value => match dict? value with
    | none => true
    | some e => otherId id e

/-- What a change leaves beside the entry it added. -/
def others : Op → Content → List Json
  | .add _ _ _, content => (stored content).dropLast
  | .remove _, content => stored content

/-- A change raises and leaves the file as it was, or keeps everything it is not
about, in its order. -/
def Keeps (d : Disk) (op : Op) : Prop :=
  ∀ content, perform S d op = some content → ((stored d.content).filter (untouched op)).Sublist (others op content)

/-- The file can be read and is a list of objects, or nothing is stored in it. -/
def Complete (d : Disk) : Prop :=
  stored d.content = [] ∨ d.readable = true ∧ ∃ entries : List Members, d.content = .json (.arr (entries.map .obj))

/-- The inputs of an `add` are valid for the entries that were read. -/
structure Valid (entries : List Members) (body : KeyBody) : Prop where
  lab : ∃ lab, S.byId.get? body.provider = some lab ∧
    (∃ url, Keystore.checkBody S lab body.provider (Keystore.strip body.apiKey) (S.lower (Keystore.strip body.label))
      (Keystore.stripSlashes (Keystore.strip body.baseUrl)) = .ok url) ∧
    ∃ label, Keystore.chooseLabel lab (entries.map view) body.provider (S.lower (Keystore.strip body.label)) = .ok label
  secret : Keystore.strip body.apiKey = "" ∨ S.hasSecret = true

/-- A change comes to its write, and that succeeds: a valid `add`, or the removal of
an entry that was read. -/
def Writes (d : Disk) (op : Op) : Prop :=
  d.writable = true ∧ ∃ entries, read d = .ok entries ∧ match op with
    | .add body _ _ => Valid S entries body
    | .remove id => ∃ e ∈ entries, otherId id e = false

variable {S} {d : Disk} {entries : List Members} {body : KeyBody} {id : String} {now : ℕ}

variable {content : Content}

theorem write_ok_iff :
    write d entries = .ok content ↔ d.writable = true ∧ content = .json (.arr (entries.map .obj)) := by
  unfold write
  by_cases hwritable : d.writable = true
  · rw [if_pos hwritable, and_iff_right hwritable, Except.ok.injEq]
    exact eq_comm
  · simp [hwritable]

@[simp] theorem raise_ok_iff {α : Type} {x : Except String α} {a : α} : raise x = .ok a ↔ x = .ok a := by
  cases x <;> simp [raise]

theorem encryptKey_ok_iff {apiKey : String} :
    (∃ token, encryptKey S apiKey = .ok token) ↔ apiKey = "" ∨ S.hasSecret = true := by
  unfold encryptKey
  by_cases hkey : apiKey = ""
  · simp [hkey]
  · by_cases hsecret : S.hasSecret = true
    · simp [hkey, hsecret, Keystore.fernet, raise, bind, Except.bind, pure, Except.pure]
    · simp [hkey, hsecret, Keystore.fernet, raise, bind, Except.bind]

/-- What an `add` that returns has written. -/
theorem add_ok {entry : KeyEntry} (h : add S d body id now = .ok (content, entry)) :
    d.writable = true ∧ ∃ entries, read d = .ok entries ∧ Valid S entries body ∧
      content = .json (.arr ((entries ++ [object entry]).map .obj)) := by
  unfold add at h
  cases hlab : S.byId.get? body.provider with
  | none =>
    rw [hlab] at h
    exact nomatch h
  | some lab =>
    simp only [hlab] at h
    obtain ⟨url, hurl, h⟩ := bind_ok_iff.mp h
    obtain ⟨entries, hread, h⟩ := bind_ok_iff.mp h
    obtain ⟨label, hlabel, h⟩ := bind_ok_iff.mp h
    obtain ⟨token, htoken, h⟩ := bind_ok_iff.mp h
    obtain ⟨c, hwrite, h⟩ := bind_ok_iff.mp h
    obtain ⟨rfl, rfl⟩ := Prod.mk.inj (Except.ok.inj h)
    obtain ⟨hwritable, hc⟩ := write_ok_iff.mp hwrite
    refine ⟨hwritable, entries, hread, ⟨⟨lab, hlab, ⟨url, raise_ok_iff.mp hurl⟩, label, raise_ok_iff.mp hlabel⟩, ?_⟩, hc⟩
    exact encryptKey_ok_iff.mp ⟨token, htoken⟩

theorem add_of_writes (h : Writes S d (.add body id now)) : ∃ content entry, add S d body id now = .ok (content, entry) := by
  obtain ⟨hwritable, entries, hread, ⟨lab, hlab, ⟨url, hurl⟩, label, hlabel⟩, hsecret⟩ := h
  obtain ⟨token, htoken⟩ := encryptKey_ok_iff.mpr hsecret
  simp only [add, hlab, raise_ok_iff.mpr hurl, hread, raise_ok_iff.mpr hlabel, htoken, write, hwritable, if_true, bind,
    Except.bind, pure, Except.pure, Except.ok.injEq]
  exact ⟨_, _, rfl⟩

/-- What a `remove` that returns has done. -/
theorem remove_ok {removed : Bool} (h : remove d id = .ok (content, removed)) :
    ∃ entries, read d = .ok entries ∧ ((∀ e ∈ entries, otherId id e = true) ∧ content = d.content ∨
      d.writable = true ∧ (∃ e ∈ entries, otherId id e = false) ∧
        content = .json (.arr ((entries.filter (otherId id)).map .obj))) := by
  obtain ⟨entries, hread, h⟩ := bind_ok_iff.mp h
  refine ⟨entries, hread, ?_⟩
  simp only at h
  split at h
  · next hlength =>
      left
      obtain ⟨rfl, -⟩ := Prod.mk.inj (Except.ok.inj h)
      exact ⟨List.length_filter_eq_length_iff.mp hlength, rfl⟩
  · next hlength =>
      right
      obtain ⟨c, hwrite, h⟩ := bind_ok_iff.mp h
      obtain ⟨rfl, -⟩ := Prod.mk.inj (Except.ok.inj h)
      obtain ⟨hwritable, hc⟩ := write_ok_iff.mp hwrite
      refine ⟨hwritable, ?_, hc⟩
      by_contra hall
      refine hlength (List.length_filter_eq_length_iff.mpr fun e he => ?_)
      simpa using fun hfalse => hall ⟨e, he, hfalse⟩

/-! ## When everything is kept -/

theorem eq_obj_of_dict? {value : Json} {e : Members} (h : dict? value = some e) : value = .obj e := by
  cases value with
  | obj members => exact congrArg Json.obj (Option.some.inj h)
  | _ => exact nomatch h

theorem map_obj_of_all : ∀ {items : List Json}, (∀ value ∈ items, dict? value ≠ none) →
    items = (items.filterMap dict?).map .obj
  | [], _ => rfl
  | value :: items, h => by
      obtain ⟨e, he⟩ := Option.ne_none_iff_exists'.mp (h value List.mem_cons_self)
      have hrest := map_obj_of_all fun v hv => h v (List.mem_cons_of_mem _ hv)
      rw [List.filterMap_cons_some he, List.map_cons, ← hrest, eq_obj_of_dict? he]

theorem filter_objects (id : String) (entries : List Members) :
    (entries.map Json.obj).filter (untouched (.remove id)) = (entries.filter (otherId id)).map .obj := by
  rw [List.filter_map]
  rfl

theorem filterMap_objects (entries : List Members) : (entries.map Json.obj).filterMap dict? = entries := by
  rw [List.filterMap_map]
  exact List.filterMap_some

/-- Only a list is read to anything. -/
theorem read_cons (hread : read d = .ok entries) (hne : entries ≠ []) :
    d.readable = true ∧ ∃ items, d.content = .json (.arr items) ∧ entries = items.filterMap dict? := by
  unfold read at hread
  cases hcontent : d.content with
  | absent => simp [hcontent, hne.symm] at hread
  | broken es => simp [hcontent, hne.symm] at hread
  | tooDeep value =>
    by_cases hreadable : d.readable = true
    · simp [hcontent, hreadable] at hread
    · simp [hcontent, hreadable, hne.symm] at hread
  | json value =>
    by_cases hreadable : d.readable = true
    · cases value with
      | arr items =>
        simp only [hcontent, hreadable, not_true_eq_false, if_false, Except.ok.injEq] at hread
        exact ⟨hreadable, items, rfl, hread.symm⟩
      | _ => simp [hcontent, hreadable, hne.symm] at hread
    · simp [hcontent, hreadable, hne.symm] at hread

theorem read_objects {es : List Members} (hreadable : d.readable = true)
    (hcontent : d.content = .json (.arr (es.map .obj))) : read d = .ok es := by
  simp only [read, hcontent, hreadable, not_true_eq_false, if_false, filterMap_objects]

/-- An `add` writes back all that is stored exactly if all of it was read. -/
theorem sublist_read_iff (hread : read d = .ok entries) :
    (stored d.content).Sublist (entries.map .obj) ↔ Complete d := by
  constructor
  · intro h
    by_cases hnil : entries = []
    · rw [hnil] at h
      exact .inl (List.sublist_nil.mp h)
    · obtain ⟨hreadable, items, hcontent, rfl⟩ := read_cons hread hnil
      rw [hcontent] at h
      refine .inr ⟨hreadable, items.filterMap dict?, hcontent.trans (congrArg (Content.json ∘ Json.arr) ?_)⟩
      refine map_obj_of_all fun value hvalue hnone => ?_
      obtain ⟨e, -, rfl⟩ := List.mem_map.mp (h.subset hvalue)
      exact nomatch hnone
  · rintro (hempty | ⟨hreadable, es, hcontent⟩)
    · rw [hempty]
      exact List.nil_sublist _
    · obtain rfl := Except.ok.inj (hread.symm.trans (read_objects hreadable hcontent))
      rw [hcontent]
      exact List.Sublist.refl _

/-- A `remove` writes back all it is not about exactly if all that is stored was
read. -/
theorem sublist_kept_iff (hread : read d = .ok entries) (hne : entries ≠ []) :
    ((stored d.content).filter (untouched (.remove id))).Sublist ((entries.filter (otherId id)).map .obj) ↔
      Complete d := by
  obtain ⟨hreadable, items, hcontent, rfl⟩ := read_cons hread hne
  constructor
  · intro h
    rw [hcontent] at h
    refine .inr ⟨hreadable, items.filterMap dict?, hcontent.trans (congrArg (Content.json ∘ Json.arr) ?_)⟩
    refine map_obj_of_all fun value hvalue hnone => ?_
    have huntouched : untouched (.remove id) value = true := by simp [untouched, hnone]
    obtain ⟨e, -, rfl⟩ := List.mem_map.mp (h.subset (List.mem_filter.mpr ⟨hvalue, huntouched⟩))
    exact nomatch hnone
  · rintro (hempty | ⟨-, es, hes⟩)
    · rw [hempty]
      exact List.nil_sublist _
    · obtain rfl := Except.ok.inj (hread.symm.trans (read_objects hreadable hes))
      rw [hes]
      simp only [stored, filter_objects]
      exact List.Sublist.refl _

theorem filter_add (values : List Json) : values.filter (untouched (.add body id now)) = values :=
  List.filter_eq_self.mpr fun _ _ => rfl

theorem others_add (entries : List Members) (e : Members) :
    others (.add body id now) (.json (.arr ((entries ++ [e]).map .obj))) = entries.map .obj := by
  simp [others, stored]

/-- **A change raises or keeps everything else exactly if nothing is written, or all
that is stored was read.** -/
theorem keeps_iff (S : KeySetting) (d : Disk) (op : Op) : Keeps S d op ↔ (Writes S d op → Complete d) := by
  cases op with
  | add body id now =>
    constructor
    · intro hkeeps hwrites
      obtain ⟨content, entry, hadd⟩ := add_of_writes hwrites
      have hsub := hkeeps content (by simp [perform, hadd, Except.toOption])
      obtain ⟨-, entries, hread, -, rfl⟩ := add_ok hadd
      rw [filter_add, others_add] at hsub
      exact (sublist_read_iff hread).mp hsub
    · intro h content hcontent
      cases hadd : add S d body id now with
      | error e => simp [perform, hadd, Except.toOption] at hcontent
      | ok result =>
        obtain ⟨c, entry⟩ := result
        obtain rfl : c = content := by simpa [perform, hadd, Except.toOption] using hcontent
        obtain ⟨hwritable, entries, hread, hvalid, rfl⟩ := add_ok hadd
        rw [filter_add, others_add]
        exact (sublist_read_iff hread).mpr (h ⟨hwritable, entries, hread, hvalid⟩)
  | remove id =>
    constructor
    · rintro hkeeps ⟨hwritable, entries, hread, e, he, hid⟩
      have hne : entries ≠ [] := List.ne_nil_of_mem he
      have hlength : (entries.filter (otherId id)).length ≠ entries.length := by
        intro hlength
        have := List.length_filter_eq_length_iff.mp hlength e he
        simp [hid] at this
      have hperform : perform S d (.remove id) = some (.json (.arr ((entries.filter (otherId id)).map .obj))) := by
        simp [perform, remove, hread, hlength, write, hwritable, bind, Except.bind, pure, Except.pure, Except.toOption]
      exact (sublist_kept_iff hread hne).mp (hkeeps _ hperform)
    · intro h content hcontent
      cases hremove : remove d id with
      | error e => simp [perform, hremove, Except.toOption] at hcontent
      | ok result =>
        obtain ⟨c, removed⟩ := result
        obtain rfl : c = content := by simpa [perform, hremove, Except.toOption] using hcontent
        obtain ⟨entries, hread, ⟨-, rfl⟩ | ⟨hwritable, ⟨e, he, hid⟩, rfl⟩⟩ := remove_ok hremove
        · exact List.filter_sublist
        · exact (sublist_kept_iff hread (List.ne_nil_of_mem he)).mpr (h ⟨hwritable, entries, hread, e, he, hid⟩)

/-- A damaged file with one key in it. -/
def damaged : Disk where
  content := .broken [.obj (object ⟨"a", "openai", "1", "", "", 0, "key"⟩)]
  readable := true
  writable := true

/-- The first `add` after the damage. -/
theorem broken_lost : ¬Keeps Keystore.plainSetting damaged (.add Keystore.openaiKey "b" 0) := by
  intro h
  have hkeeps := h (.json (.arr [.obj (object ⟨"b", "openai", "1", "", "", 0, "key"⟩)])) rfl
  simp [damaged, stored, others, untouched] at hkeeps

/-! ## A file of entries only -/

theorem str?_text (s : String) : ((str? (text s)).map String.ofList).getD "" = s := by simp [str?, text]

theorem view_object (e : KeyEntry) : view (object e) = e := by
  obtain ⟨id, provider, label, baseUrl, model, created, token⟩ := e
  simp only [view, textOf, object, get_field_ne, get_field, str?_text, ne_eq, String.reduceEq, not_false_eq_true]

theorem otherId_object (id : String) (e : KeyEntry) : otherId id (object e) = decide (e.id ≠ id) := by
  simp only [otherId, object, get_field, text, isText, String.toList_inj, decide_not]

/-- A store of entries, in its file. -/
def ofEntries (store : List KeyEntry) : Disk where
  content := .json (.arr ((store.map object).map .obj))
  readable := true
  writable := true

theorem read_ofEntries (store : List KeyEntry) : read (ofEntries store) = .ok (store.map object) :=
  read_objects rfl rfl

theorem write_ofEntries (store : List KeyEntry) (e : KeyEntry) :
    write (ofEntries store) (store.map object ++ [object e]) = .ok (ofEntries (store ++ [e])).content := by
  simp [write, ofEntries]

theorem map_view (store : List KeyEntry) : (store.map object).map view = store := by
  rw [List.map_map]
  exact (List.map_congr_left fun e _ => view_object e).trans (List.map_id store)

/-- On a file of entries `add` is `Keystore.add`. -/
theorem add_stored (store : List KeyEntry) (body : KeyBody) (id : String) (now : ℕ) :
    (add S (ofEntries store) body id now).map Prod.fst =
      (raise (Keystore.add S store body id now)).map fun store => (ofEntries store).content := by
  unfold add Keystore.add
  cases hlab : S.byId.get? body.provider with
  | none => rfl
  | some lab =>
    simp only [read_ofEntries]
    cases hcheck : Keystore.checkBody S lab body.provider (Keystore.strip body.apiKey)
        (S.lower (Keystore.strip body.label)) (Keystore.stripSlashes (Keystore.strip body.baseUrl)) with
    | error message => rfl
    | ok url =>
      cases hchoose : Keystore.chooseLabel lab store body.provider (S.lower (Keystore.strip body.label)) with
      | error message =>
        simp only [map_view, hchoose, raise, bind, Except.bind, Except.map]
      | ok label =>
        simp only [map_view, hchoose, raise, bind, Except.bind, Except.map, encryptKey, write_ofEntries]
        by_cases hkey : Keystore.strip body.apiKey = ""
        · simp only [hkey, if_true]
          rfl
        · simp only [hkey, if_false]
          cases Keystore.fernet S with
          | error message => rfl
          | ok _ => rfl

theorem remove_stored (store : List KeyEntry) (id : String) :
    remove (ofEntries store) id =
      .ok (((Keystore.remove store id).map fun store => (ofEntries store).content).getD (ofEntries store).content,
        (Keystore.remove store id).isSome) := by
  have hfilter : (store.map object).filter (otherId id) = (store.filter fun e => e.id ≠ id).map object := by
    rw [List.filter_map]
    exact congrArg _ (List.filter_congr fun e _ => otherId_object id e)
  simp only [remove, Keystore.remove, read_ofEntries, bind, Except.bind, hfilter, List.length_map]
  split
  · rfl
  · rfl

/-! ## Runs -/

/-- The file after a change by a program that can read and replace it. -/
def next (S : KeySetting) (content : Content) (op : Op) : Content := (perform S ⟨content, true, true⟩ op).getD content

def Op.plain : Op → Keystore.Op
  | .add body id now => .add body id now
  | .remove id => .remove id

/-- The file stores these entries, and may be missing where there are none. -/
def Stores (content : Content) (store : List KeyEntry) : Prop :=
  content = (ofEntries store).content ∨ content = .absent ∧ store = []

theorem perform_add (store : List KeyEntry) : perform S (ofEntries store) (.add body id now) =
    (Keystore.add S store body id now).toOption.map fun kept => (ofEntries kept).content := by
  have hmap {α β : Type} (x : Except KeyFileError α) (f : α → β) : (x.map f).toOption = x.toOption.map f := by cases x <;> rfl
  have hraise (x : Except String (List KeyEntry)) : (raise x).toOption = x.toOption := by cases x <;> rfl
  simpa only [perform, hmap, hraise] using congrArg Except.toOption (add_stored (S := S) store body id now)

/-- A change that raises leaves the file and the store. -/
theorem Stores.next {store : List KeyEntry} (h : Stores content store) (op : Op) :
    Stores (next S content op) (Keystore.perform S store op.plain) := by
  cases op with
  | add body id now =>
    have hperform : perform S ⟨content, true, true⟩ (.add body id now) =
        (Keystore.add S store body id now).toOption.map fun kept => (ofEntries kept).content := by
      obtain rfl | ⟨rfl, rfl⟩ := h
      · exact perform_add store
      · exact perform_add []
    simp only [KeyFile.next, hperform, Op.plain, Keystore.perform]
    cases Keystore.add S store body id now with
    | error message => exact h
    | ok kept => exact .inl rfl
  | remove id =>
    obtain rfl | ⟨rfl, rfl⟩ := h
    · left
      change ((remove (ofEntries store) id).toOption.map Prod.fst).getD _ = _
      rw [remove_stored]
      cases hremove : Keystore.remove store id <;> simp [Op.plain, Keystore.perform, hremove, Except.toOption]
    · exact .inr ⟨rfl, rfl⟩

/-- **The file refines the store**: after any changes by programs that can read and replace it, it stores
the entries of the store after the same changes. -/
theorem file_refines (S : KeySetting) (ops : List Op) :
    Stores (ops.foldl (next S) .absent) ((ops.map Op.plain).foldl (Keystore.perform S) []) := by
  induction ops using List.reverseRecOn with
  | nil => exact .inr ⟨rfl, rfl⟩
  | append_singleton ops op ih => simpa using ih.next op

end Caips.Coreai.KeyFile
