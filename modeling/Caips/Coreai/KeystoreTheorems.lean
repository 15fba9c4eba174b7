/-
Caips.Coreai.KeystoreTheorems — the labels of stored keys, over whole runs of
`add` and `remove`.

No two entries ever share their name (`labelled_of_reach`). An `add` without a label
takes the number one above the count of the provider's entries; that is not
always free, and where it is taken the `add` fails (`clashes_iff`).
-/
import Caips.Logic.Machine
import Caips.Logic.Sync
import Caips.Providers.Catalog

namespace Caips.Coreai.Keystore

open Caips.Logic Caips.Providers

/-! ## Runs -/

/-- A change of the store. -/
inductive Op where
  | add (body : KeyBody) (id : String) (now : ℕ)
  | remove (id : String)

variable (S : KeySetting)

/-- The store after a change; one that fails leaves it. -/
def perform (entries : List KeyEntry) : Op → List KeyEntry
  | .add body id now => match add S entries body id now with
    | .ok entries => entries
    | .error _ => entries
  | .remove id => (remove entries id).getD entries

def machine : Machine (List KeyEntry) Op := .ofFun (fun entries => entries = []) fun entries op => some (perform S entries op)

/-! ## Names -/

def IsServer (provider : String) : Prop := provider = "local" ∨ provider = "custom"

/-- Two entries of one name: one provider and one label, where all servers count
as one provider. -/
def SameName (a b : KeyEntry) : Prop :=
  a.label = b.label ∧ (a.provider = b.provider ∨ IsServer a.provider ∧ IsServer b.provider)

/-- No two entries share their name, and every label is a name. -/
structure Labelled (entries : List KeyEntry) : Prop where
  distinct : entries.Pairwise fun a b => ¬SameName a b
  names : ∀ e ∈ entries, nameOk e.label = true

variable {S} {lab : Lab} {entries entries' : List KeyEntry} {provider label label' : String} {body : KeyBody}
  {id : String} {now : ℕ}

/-- The number of an entry that gets no label. -/
def nextNumber (entries : List KeyEntry) (provider : String) : String :=
  toString ((entries.filter fun e => e.provider = provider).length + 1)

def clash (provider label : String) : String := s!"{provider} already has a key labelled '{label}'"

/-- A label that is chosen for a server is the given one, and no server has it. -/
theorem chooseLabel_server (hkind : lab.kind = .local ∨ lab.kind = .custom) :
    chooseLabel lab entries provider label = .ok label' ↔
      label' = label ∧ ∀ e ∈ entries, IsServer e.provider → e.label ≠ label := by
  unfold chooseLabel IsServer
  simp only [hkind, if_true]
  split_ifs with hany
  · simp only [false_iff, not_and]
    rintro rfl hfree
    obtain ⟨e, he, htest⟩ := List.any_eq_true.mp hany
    simp only [Bool.and_eq_true, Bool.or_eq_true, beq_iff_eq] at htest
    exact hfree e he htest.1 htest.2
  · have hfree : ∀ e ∈ entries, e.provider = "local" ∨ e.provider = "custom" → e.label ≠ label := by
      simpa using hany
    simp only [Except.ok.injEq, eq_comm (a := label)]
    exact ⟨fun h => ⟨h, hfree⟩, And.left⟩

/-- A label for an entry of a lab, once it is known which. -/
def takeLabel (entries : List KeyEntry) (provider label : String) : Except String String :=
  if ¬nameOk label then .error "label must be a-z, 0-9, '-' or '_'"
  else if (entries.filter fun e => e.provider = provider).any fun e => e.label == label then
    .error (clash provider label)
  else .ok label

theorem chooseLabel_lab (hkind : ¬(lab.kind = .local ∨ lab.kind = .custom)) :
    chooseLabel lab entries provider label =
      takeLabel entries provider (if label = "" then nextNumber entries provider else label) := by
  unfold chooseLabel
  simp only [hkind, if_false]
  rfl

/-- An entry of the lab has this label. -/
def Taken (entries : List KeyEntry) (provider label : String) : Prop :=
  ∃ e ∈ entries, e.provider = provider ∧ e.label = label

theorem any_iff_taken :
    ((entries.filter fun e => e.provider = provider).any fun e => e.label == label) = true ↔
      Taken entries provider label := by
  simp only [Taken, List.any_eq_true, List.mem_filter, decide_eq_true_eq, beq_iff_eq, and_assoc]

theorem takeLabel_of_taken (hname : nameOk label = true) (h : Taken entries provider label) :
    takeLabel entries provider label = .error (clash provider label) := by
  unfold takeLabel
  rw [if_neg (not_not.mpr hname), if_pos (any_iff_taken.mpr h)]

theorem takeLabel_of_free (hname : nameOk label = true) (h : ¬Taken entries provider label) :
    takeLabel entries provider label = .ok label := by
  unfold takeLabel
  rw [if_neg (not_not.mpr hname), if_neg (any_iff_taken.not.mpr h)]

theorem takeLabel_of_not_name (hname : ¬nameOk label = true) :
    takeLabel entries provider label = .error "label must be a-z, 0-9, '-' or '_'" := if_pos hname

theorem takeLabel_ok (h : takeLabel entries provider label = .ok label') :
    label' = label ∧ nameOk label = true ∧ ¬Taken entries provider label := by
  by_cases hname : nameOk label = true
  · by_cases htaken : Taken entries provider label
    · rw [takeLabel_of_taken hname htaken] at h
      exact nomatch h
    · rw [takeLabel_of_free hname htaken] at h
      exact ⟨(Except.ok.inj h).symm, hname, htaken⟩
  · rw [takeLabel_of_not_name hname] at h
    exact nomatch h

/-- What is stored by an `add`: one entry more, with a label that `chooseLabel`
made of the given one. -/
theorem add_ok (h : add S entries body id now = .ok entries') :
    ∃ lab baseUrl e, S.byId.get? body.provider = some lab ∧ entries' = entries ++ [e] ∧ e.provider = body.provider ∧
      checkBody S lab body.provider (strip body.apiKey) (S.lower (strip body.label))
        (stripSlashes (strip body.baseUrl)) = .ok baseUrl ∧
      chooseLabel lab entries body.provider (S.lower (strip body.label)) = .ok e.label := by
  unfold add at h
  cases hlab : S.byId.get? body.provider with
  | none =>
    rw [hlab] at h
    exact nomatch h
  | some lab =>
    simp only [hlab] at h
    obtain ⟨baseUrl, hbase, h⟩ := bind_ok_iff.mp h
    obtain ⟨label, hlabel, h⟩ := bind_ok_iff.mp h
    split at h
    · obtain ⟨token, -, h⟩ := bind_ok_iff.mp h
      exact ⟨lab, baseUrl, _, rfl, (Except.ok.inj h).symm, rfl, hbase, hlabel⟩
    · obtain ⟨-, -, h⟩ := bind_ok_iff.mp h
      obtain ⟨token, -, h⟩ := bind_ok_iff.mp h
      exact ⟨lab, baseUrl, _, rfl, (Except.ok.inj h).symm, rfl, hbase, hlabel⟩

theorem nameOk_of_checkBody {apiKey baseUrl url : String} (hkind : lab.kind = .local ∨ lab.kind = .custom)
    (h : checkBody S lab provider apiKey label baseUrl = .ok url) : nameOk label = true := by
  by_contra hname
  unfold checkBody at h
  split at h
  · cases h
  · simp [bind, Except.bind] at h

/-! ## Every run -/

theorem sublist_of_remove (h : remove entries id = some entries') : List.Sublist entries' entries := by
  unfold remove at h
  simp only at h
  split at h
  · exact nomatch h
  · obtain rfl := Option.some.inj h
    exact List.filter_sublist

theorem Labelled.sublist (h : Labelled entries) (hsub : List.Sublist entries' entries) : Labelled entries' :=
  ⟨h.distinct.sublist hsub, fun e he => h.names e (hsub.subset he)⟩

/-- A catalog where the servers are the labs of the two provider ids. -/
def Servers (S : KeySetting) : Prop :=
  ∀ provider lab, S.byId.get? provider = some lab → ((lab.kind = .local ∨ lab.kind = .custom) ↔ IsServer provider)

theorem Labelled.append {e : KeyEntry} (h : Labelled entries) (hname : nameOk e.label = true)
    (hfree : ∀ x ∈ entries, ¬SameName x e) : Labelled (entries ++ [e]) := by
  constructor
  · rw [List.pairwise_append]
    refine ⟨h.distinct, List.pairwise_singleton _ _, fun x hx y hy => ?_⟩
    rw [List.mem_singleton.mp hy]
    exact hfree x hx
  · intro x hx
    rcases List.mem_append.mp hx with hx | hx
    · exact h.names x hx
    · rw [List.mem_singleton.mp hx]
      exact hname

theorem Labelled.add (hS : Servers S) (h : Labelled entries) (hadd : Keystore.add S entries body id now = .ok entries') :
    Labelled entries' := by
  obtain ⟨lab, baseUrl, e, hlab, rfl, hprovider, hcheck, hlabel⟩ := add_ok hadd
  have hserver := hS _ _ hlab
  by_cases hkind : lab.kind = .local ∨ lab.kind = .custom
  · obtain ⟨heq, hfree⟩ := (chooseLabel_server hkind).mp hlabel
    refine h.append ?_ fun x hx hsame => ?_
    · rw [heq]
      exact nameOk_of_checkBody hkind hcheck
    · have hx' : IsServer x.provider := by
        rcases hsame.2 with hp | hp
        · rw [hp, hprovider]
          exact hserver.mp hkind
        · exact hp.1
      exact hfree x hx hx' (hsame.1.trans heq)
  · rw [chooseLabel_lab hkind] at hlabel
    obtain ⟨heq, hname, hfree⟩ := takeLabel_ok hlabel
    rw [← heq] at hname hfree
    refine h.append hname fun x hx hsame => ?_
    rcases hsame.2 with hp | hp
    · exact hfree ⟨x, hx, hp.trans hprovider, hsame.1⟩
    · rw [hprovider] at hp
      exact hkind (hserver.mpr hp.2)

theorem Labelled.perform (hS : Servers S) (h : Labelled entries) (op : Op) : Labelled (perform S entries op) := by
  cases op with
  | add body id now =>
    simp only [Keystore.perform]
    split
    · next hadd => exact h.add hS hadd
    · exact h
  | remove id =>
    simp only [Keystore.perform]
    cases hremove : remove entries id with
    | none => exact h
    | some kept => exact h.sublist (sublist_of_remove hremove)

theorem labelled_of_reach (hS : Servers S) (h : (machine S).Reach Machine.free entries) : Labelled entries := by
  refine Machine.Reach.invariant (I := Labelled) ?_ ?_ h
  · rintro s rfl
    exact ⟨.nil, by simp⟩
  · intro s op t hs hstep _
    obtain rfl := Option.some.inj hstep
    exact hs.perform hS op

/-! ## Adding without a label -/

/-- An `add` without a label, for a lab, whose other inputs are valid. -/
structure Unlabelled (S : KeySetting) (body : KeyBody) : Prop where
  empty : S.lower (strip body.label) = ""
  lab : ∃ lab, S.byId.get? body.provider = some lab ∧ ¬(lab.kind = .local ∨ lab.kind = .custom) ∧
    ∃ baseUrl, checkBody S lab body.provider (strip body.apiKey) "" (stripSlashes (strip body.baseUrl)) = .ok baseUrl

/-- An `add` fails because its label is taken. -/
def Clashes (S : KeySetting) (entries : List KeyEntry) (body : KeyBody) (id : String) (now : ℕ) : Prop :=
  ∃ label, add S entries body id now = .error (clash body.provider label)

theorem take_clash (h : 2 ≤ provider.toList.length) (label : String) :
    (clash provider label).toList.take 2 = provider.toList.take 2 := by
  have heq : (clash provider label).toList =
      provider.toList ++ (" already has a key labelled '".toList ++ (label.toList ++ "'".toList)) := by
    change (provider ++ " already has a key labelled '" ++ label ++ "'").toList = _
    simp only [String.toList_append, List.append_assoc]
  rw [heq, List.take_append_of_le_length h]

/-- The id of a lab, that no other message starts with. -/
structure Telling (provider : String) : Prop where
  long : 2 ≤ provider.toList.length
  name : provider.toList.take 2 ≠ ['l', 'a']
  secret : provider.toList.take 2 ≠ ['s', 'e']

theorem clash_ne (h : Telling provider) (label : String) :
    clash provider label ≠ "label must be a-z, 0-9, '-' or '_'" ∧
      clash provider label ≠ "set SECRET_KEY (or CAIPS_KEYSTORE_SECRET) to store keys" := by
  have htake := take_clash h.long label
  constructor
  · intro heq
    rw [heq] at htake
    exact h.name (htake.symm.trans (by decide))
  · intro heq
    rw [heq] at htake
    exact h.secret (htake.symm.trans (by decide))

variable (entries id now) in
theorem add_unlabelled (h : Unlabelled S body) :
    (∃ e, takeLabel entries body.provider (nextNumber entries body.provider) = .error e ∧
      add S entries body id now = .error e) ∨
    takeLabel entries body.provider (nextNumber entries body.provider) =
      .ok (nextNumber entries body.provider) ∧
      ∀ e, add S entries body id now = .error e →
        e = "set SECRET_KEY (or CAIPS_KEYSTORE_SECRET) to store keys" := by
  obtain ⟨lab, hlab, hkind, baseUrl, hcheck⟩ := h.lab
  cases htake : takeLabel entries body.provider (nextNumber entries body.provider) with
  | error e =>
    left
    refine ⟨e, rfl, ?_⟩
    simp [add, hlab, h.empty, hcheck, chooseLabel_lab hkind, htake, bind, Except.bind]
  | ok label =>
    right
    refine ⟨by rw [(takeLabel_ok htake).1], fun e he => ?_⟩
    simp only [add, hlab, h.empty, hcheck, chooseLabel_lab hkind, if_true, htake, bind, Except.bind, fernet] at he
    by_cases hkey : strip body.apiKey = ""
    · simp [hkey] at he
    · by_cases hsecret : S.hasSecret = true
      · simp [hkey, hsecret] at he
      · simpa [hkey, hsecret, eq_comm] using he

/-- An `add` without a label fails exactly where the number it takes is the label of
an entry of the lab. -/
theorem clashes_iff (hprovider : Telling body.provider) (h : Labelled entries) (hbody : Unlabelled S body) :
    Clashes S entries body id now ↔ Taken entries body.provider (nextNumber entries body.provider) := by
  constructor
  · rintro ⟨label, hclash⟩
    by_contra hfree
    rcases add_unlabelled entries id now hbody with ⟨e, htake, hadd⟩ | ⟨-, hadd⟩
    · obtain rfl := Except.error.inj (hadd.symm.trans hclash)
      by_cases hname : nameOk (nextNumber entries body.provider) = true
      · rw [takeLabel_of_free hname hfree] at htake
        exact nomatch htake
      · rw [takeLabel_of_not_name hname] at htake
        exact (clash_ne hprovider label).1 (Except.error.inj htake).symm
    · exact (clash_ne hprovider label).2 (hadd _ hclash)
  · intro htaken
    have hname : nameOk (nextNumber entries body.provider) = true := by
      obtain ⟨e, he, -, hlabel⟩ := htaken
      rw [← hlabel]
      exact h.names e he
    rcases add_unlabelled entries id now hbody with ⟨e, htake, hadd⟩ | ⟨htake, -⟩
    · rw [takeLabel_of_taken hname htaken] at htake
      obtain rfl := Except.error.inj htake
      exact ⟨_, hadd⟩
    · rw [takeLabel_of_taken hname htaken] at htake
      exact nomatch htake

/-! ## The store of the catalog -/

variable {lower encrypt : String → String} {decrypt : String → Option String} {hasSecret : Bool}

theorem servers_catalog : Servers (keySetting lower encrypt decrypt hasSecret) := fun _ _ h => kind_iff h

theorem telling_catalog (h : (keySetting lower encrypt decrypt hasSecret).byId.get? provider = some lab) :
    Telling provider := by
  have hall : ∀ l ∈ catalog, 2 ≤ l.id.toList.length ∧ l.id.toList.take 2 ≠ ['l', 'a'] ∧
      l.id.toList.take 2 ≠ ['s', 'e'] := by decide
  obtain ⟨hmem, rfl⟩ := mem_catalog h
  obtain ⟨hlong, hname, hsecret⟩ := hall lab hmem
  exact ⟨hlong, hname, hsecret⟩

/-- An `add` of a run without a label, and valid otherwise, does not fail because of
a label. -/
def NoClash (S : KeySetting) (entries : List KeyEntry) (op : Op) : Prop :=
  ∀ body id now, op = .add body id now → Unlabelled S body → ¬Clashes S entries body id now

/-- The number above the count of the provider's entries is the label of none of
them. -/
def NextFree (S : KeySetting) (entries : List KeyEntry) (op : Op) : Prop :=
  ∀ body id now, op = .add body id now → Unlabelled S body →
    ¬Taken entries body.provider (nextNumber entries body.provider)

/-- **In every run names stay distinct, and no `add` without a label fails because of
one exactly as long as the number it takes is free.** -/
theorem clash_free_iff (lower encrypt : String → String) (decrypt : String → Option String) (hasSecret : Bool)
    {s t : List KeyEntry} {l : List (Machine.Step (List KeyEntry) Op)}
    (hstart : (machine (keySetting lower encrypt decrypt hasSecret)).start s)
    (hrun : (machine (keySetting lower encrypt decrypt hasSecret)).Run s l t) :
    (t.Pairwise (fun a b => ¬SameName a b) ∧
      ∀ e ∈ l, e.target.Pairwise (fun a b => ¬SameName a b) ∧
        NoClash (keySetting lower encrypt decrypt hasSecret) e.source e.label) ↔
    ∀ e ∈ l, NextFree (keySetting lower encrypt decrypt hasSecret) e.source e.label := by
  have hlabelled := fun entries => @labelled_of_reach _ entries (@servers_catalog lower encrypt decrypt hasSecret)
  have htargets := hrun.mem_target (G := Machine.free) hstart fun _ _ => trivial
  have hend := hlabelled t (hrun.reach hstart fun _ _ => trivial)
  have hsteps := hrun.steps_iff (P := fun s op _ => NoClash (keySetting lower encrypt decrypt hasSecret) s op)
    (C := NextFree (keySetting lower encrypt decrypt hasSecret)) (fun s op _ hs _ => by
      unfold NoClash NextFree
      refine forall_congr' fun body => forall_congr' fun id => forall_congr' fun now => forall_congr' fun _ =>
        forall_congr' fun hbody => not_congr ?_
      obtain ⟨lab, hlab, -⟩ := hbody.lab
      exact clashes_iff (telling_catalog hlab) (hlabelled s hs) hbody) hstart
  rw [← hsteps]
  constructor
  · intro h e he
    exact (h.2 e he).2
  · intro h
    exact ⟨hend.distinct, fun e he => ⟨(hlabelled _ (htargets e he)).distinct, h e he⟩⟩

def plainSetting : KeySetting := keySetting (fun s => s) (fun s => s) some true

def openaiKey : KeyBody := { provider := "openai", apiKey := "key" }

theorem unlabelled_openaiKey : Unlabelled plainSetting openaiKey :=
  ⟨by decide +kernel, { id := "openai", kind := .native }, by decide +kernel, by decide, "", by decide +kernel⟩

instance (entries : List KeyEntry) (provider label : String) : Decidable (Taken entries provider label) :=
  inferInstanceAs (Decidable (∃ e ∈ entries, _))

/-- One run of the store, change by change. -/
def change (entries : List KeyEntry) (op : Op) : Option (List KeyEntry) := some (perform plainSetting entries op)

/-- `clash_free_iff` for keys with the labels 1, `work`, 3, and 3 once more when the last one is removed. -/
theorem clash_free_removed : ∃ t l, (machine plainSetting).Run [] l t ∧
    l.map (fun e => e.target.map KeyEntry.label) =
      [["1"], ["1", "work"], ["1", "work", "3"], ["1", "work"], ["1", "work", "3"]] ∧
    t.Pairwise (fun a b => ¬SameName a b) ∧ ∀ e ∈ l, e.target.Pairwise (fun a b => ¬SameName a b) ∧
      NoClash plainSetting e.source e.label := by
  obtain ⟨t, ht, -⟩ := Machine.exists_of_any
    (show (Machine.exec change [] [.add openaiKey "a" 0, .add { openaiKey with label := "work" } "b" 0,
      .add openaiKey "c" 0, .remove "c", .add openaiKey "d" 0]).any (fun _ => true) = true by decide +kernel)
  have hrun : (machine plainSetting).Run [] _ t := Machine.run_steps ht
  have hfree : ((Machine.steps change [] [.add openaiKey "a" 0, .add { openaiKey with label := "work" } "b" 0,
      .add openaiKey "c" 0, .remove "c", .add openaiKey "d" 0]).all fun e => match e.label with
        | .add body _ _ => !decide (Taken e.source body.provider (nextNumber e.source body.provider))
        | .remove _ => true) = true := by decide +kernel
  refine ⟨t, _, hrun, by decide +kernel, (clash_free_iff (fun s => s) (fun s => s) some true rfl hrun).mpr ?_⟩
  intro e he body id now heq _
  have hnext := List.all_eq_true.mp hfree e he
  rw [heq] at hnext
  simpa using hnext

/-- Two keys get the labels 1 and 2; when the first is removed, the next one
would be 2 again. -/
theorem second_clashes : ∃ t, Machine.exec change [] [.add openaiKey "a" 0, .add openaiKey "b" 0, .remove "a"] = some t ∧
    t.map KeyEntry.label = ["2"] ∧ Unlabelled plainSetting openaiKey ∧ Clashes plainSetting t openaiKey "c" 0 := by
  let kept : KeyEntry :=
    { id := "b", provider := "openai", label := "2", baseUrl := "", model := "", created := 0, token := "key" }
  have hexec : Machine.exec change [] [.add openaiKey "a" 0, .add openaiKey "b" 0, .remove "a"] = some [kept] := by
    decide +kernel
  exact ⟨[kept], hexec, rfl, unlabelled_openaiKey, "2", by decide +kernel⟩

end Caips.Coreai.Keystore
