/-
Caips.Coreai.PolicyStoreTheorems — when a policy store refines its overlay.

The layers of the store are those of the overlay in every state, so what is
effective is what the overlay shows, whatever the file holds. What can go wrong
is the call itself: a content or a body that breaks validation is met with an
exception that is not `PolicyError`, and `current` lets it through to the
request that called it (`mixed_keys`).
-/
import Caips.Coreai.PolicyFileTheorems
import Caips.Coreai.PolicyStore

namespace Caips.Coreai

open Caips.Logic

variable {S : PolicySetting} {s : PolicyStore} {o : Overlay String ParsedPolicy}

/-! ## The layers -/

/-- The store has the layers of the overlay. Every edit it keeps was accepted. -/
structure Layers (S : PolicySetting) (s : PolicyStore) (o : Overlay String ParsedPolicy) : Prop where
  base : ∀ n, o.base n = s.set.get? n
  hidden : ∀ n, n ∈ o.hidden ↔ n ∈ s.removed
  edits : ∀ n, s.edits.get? n = none ∧ o.edits n = none ∨
    ∃ body p, s.edits.get? n = some body ∧ o.edits n = some p ∧
      parseBody S S.knownProviders (.str n) (.dict body) = .ok ([], some p)

/-- What is effective is what the overlay shows. -/
structure Agrees (S : PolicySetting) (s : PolicyStore) (o : Overlay String ParsedPolicy) : Prop extends
    Layers S s o where
  effective : ∀ n, s.effective.get? n = o.view n

theorem Layers.congr {s' : PolicyStore} (h : Layers S s o) (hset : s'.set = s.set) (hedits : s'.edits = s.edits)
    (hremoved : s'.removed = s.removed) : Layers S s' o where
  base := by rw [hset]; exact h.base
  hidden := by rw [hremoved]; exact h.hidden
  edits := by rw [hedits]; exact h.edits

theorem Agrees.congr {s' : PolicyStore} (h : Agrees S s o) (hset : s'.set = s.set) (hedits : s'.edits = s.edits)
    (hremoved : s'.removed = s.removed) (heffective : s'.effective = s.effective) : Agrees S s' o where
  toLayers := h.toLayers.congr hset hedits hremoved
  effective := by rw [heffective]; exact h.effective

/-- The edits are parsed to what the overlay has over its base. -/
theorem Layers.parse_edits (h : Layers S s o) (hne : s.edits.entries ≠ []) :
    ∃ d, parsePolicies S none (editsDocument s.edits) = .ok d ∧ ∀ n, d.get? n = o.edits n := by
  obtain ⟨first, hfirst⟩ := List.exists_mem_of_ne_nil _ hne
  have hof : ∀ {n b}, (n, b) ∈ s.edits.entries → ∃ p, o.edits n = some p ∧ p.name = n ∧
      parseBody S S.knownProviders (.str n) (.dict b) = .ok ([], some p) := by
    intro n b hmem
    rcases h.edits n with ⟨hnone, -⟩ | ⟨body, p, hbody, hp, hparse⟩
    · cases (Dict.mem_entries.mp hmem).symm.trans hnone
    · obtain rfl := Option.some.inj ((Dict.mem_entries.mp hmem).symm.trans hbody)
      obtain ⟨q, hq, hname⟩ := parseBody_ok S hparse
      exact ⟨p, hp, Option.some.inj hq ▸ hname, hparse⟩
  obtain ⟨default, -⟩ := hof hfirst
  -- one policy under each name, the overlay's
  have hentries := parseEntries_ok S none (fun n => (o.edits n).getD default)
    (l := s.edits.entries.map fun e => (e.1, .dict e.2)) (by
      intro e he
      obtain ⟨⟨n, b⟩, hmem, rfl⟩ := List.mem_map.mp he
      obtain ⟨p, hp, -, hparse⟩ := hof hmem
      simpa [hp] using parseBody_known S hparse)
  rw [List.map_map, List.map_map] at hentries
  refine ⟨byName (s.edits.entries.map fun e => (o.edits e.1).getD default), ?_, fun n => ?_⟩
  · unfold editsDocument parsePolicies
    obtain ⟨e, l, hel⟩ := List.exists_cons_of_ne_nil hne
    simp only [lookupD, Dict.find, if_true, Option.getD_some, hel, List.map_cons]
    rw [hel] at hentries
    simp only [Function.comp_def, List.map_cons] at hentries
    simp [hentries, bind, Except.bind, pure, Except.pure]
  · have hnames : (s.edits.entries.map fun e => (o.edits e.1).getD default).map (fun p => (p.name, p)) =
        s.edits.entries.map fun e => (e.1, (o.edits e.1).getD default) := by
      rw [List.map_map]
      refine List.map_congr_left fun e he => ?_
      obtain ⟨p, hp, hname, -⟩ := hof (n := e.1) (b := e.2) he
      simp [hp, hname]
    rw [byName, hnames]
    rcases h.edits n with ⟨hnone, hon⟩ | ⟨body, p, hbody, hp, -⟩
    · rw [hon]
      refine Option.eq_none_iff_forall_ne_some.mpr fun q hq => ?_
      obtain ⟨e, he, hen⟩ := List.mem_map.mp (Dict.mem_of_get?_ofList hq)
      have hget : s.edits.get? n = some e.2 := by
        rw [← (Prod.mk.inj hen).1]
        exact Dict.mem_entries.mp he
      cases hnone.symm.trans hget
    · rw [hp]
      refine Dict.get?_ofList_of_nodup ?_ (List.mem_map.mpr ⟨(n, body), Dict.mem_entries.mpr hbody, by simp [hp]⟩)
      rw [List.map_map]
      exact s.edits.nodup

/-- `_merge` never raises, and makes effective what the overlay shows. -/
theorem Layers.merge (h : Layers S s o) :
    ∃ e, s.merge S = .ok { s with effective := e } ∧ Agrees S { s with effective := e } o := by
  have hmerged : ∀ n, (s.removed.foldl (fun d name => d.pop name) s.set).get? n =
      if n ∈ s.removed then none else s.set.get? n := fun n => Dict.get?_foldl_pop n _ _
  have hbelow : ∀ n, o.edits n = none →
      (s.removed.foldl (fun d name => d.pop name) s.set).get? n = o.view n := by
    intro n hn
    rw [hmerged]
    by_cases hr : n ∈ s.removed
    · rw [if_pos hr, Overlay.view_of_hidden hn ((h.hidden n).mpr hr)]
    · rw [if_neg hr, Overlay.view_of_base hn (fun hh => hr ((h.hidden n).mp hh)), h.base]
  by_cases hne : s.edits.entries = []
  · refine ⟨_, if_pos hne, h.congr rfl rfl rfl, fun n => hbelow n ?_⟩
    rcases h.edits n with ⟨-, hn⟩ | ⟨body, p, hbody, -⟩
    · exact hn
    · exact absurd (Dict.mem_entries.mpr hbody) (by simp [hne])
  · obtain ⟨d, hd, hget⟩ := h.parse_edits hne
    refine ⟨(s.removed.foldl (fun d name => d.pop name) s.set).update d, ?_, h.congr rfl rfl rfl, fun n => ?_⟩
    · unfold PolicyStore.merge
      simp only [if_neg hne, hd]
      rfl
    · show ((s.removed.foldl (fun d name => d.pop name) s.set).update d).get? n = _
      rw [Dict.get?_update, hget]
      cases hn : o.edits n with
      | none => exact hbelow n hn
      | some p => exact (Overlay.view_of_edit hn).symm

/-! ## The methods -/

/-- A load looks at what is new in the file. It raises if that breaks
validation, and changes what is effective only if it is valid. -/
structure Loaded (S : PolicySetting) (s : PolicyStore) (o : Overlay String ParsedPolicy)
    (seen : Option FileContent) (r : PolicyStore × Option PolicyFailure) : Prop where
  agrees : Agrees S r.1 (lookAt S seen o)
  returns : r.2 = none ↔ seen.any FileContent.breaks = false
  keeps : seen.bind (validPolicies S) = none → r.1.effective = s.effective

theorem Agrees.load (h : Agrees S s o) (file : FileState) :
    Loaded S s o (s.news file) (PolicyStore.load S false file s) := by
  cases file with
  | missing => exact ⟨h, by simp [PolicyStore.load, PolicyStore.news], fun _ => rfl⟩
  | present mtime content =>
    unfold PolicyStore.load PolicyStore.news
    simp only
    split
    · exact ⟨h, by simp, fun _ => rfl⟩
    · have hother := loadPolicies_other S S.knownProviders content
      cases hload : loadPolicies S S.knownProviders content with
      | error f =>
        rw [hload] at hother
        have hlook : lookAt S (some content) o = o := by simp [lookAt, validPolicies, hload]
        cases f with
        | policyError problems =>
          refine ⟨by rw [hlook]; exact h.congr rfl rfl rfl rfl, ?_, fun _ => rfl⟩
          simpa using hother
        | other exc =>
          refine ⟨by rw [hlook]; exact h.congr rfl rfl rfl rfl, ?_, fun _ => rfl⟩
          simpa using hother
      | ok set =>
        rw [hload] at hother
        have hlook : lookAt S (some content) o = o.reload set.get? := by simp [lookAt, validPolicies, hload]
        have hlayers : Layers S { s with mtime := some mtime, set := set, lastError := none, reloads := s.reloads + 1 }
            (o.reload set.get?) := ⟨fun n => rfl, h.hidden, h.edits⟩
        obtain ⟨e, hmerge, hagrees⟩ := hlayers.merge
        simp only [hmerge]
        refine ⟨by rw [hlook]; exact hagrees.congr rfl rfl rfl rfl, ?_, fun hnone => ?_⟩
        · simpa using hother
        · simp [validPolicies, hload] at hnone

/-- `current` returns what is effective, unless what it reads breaks
validation. -/
structure Read (S : PolicySetting) (s : PolicyStore) (o : Overlay String ParsedPolicy) (seen : Option FileContent)
    (r : PolicyStore × Except PolicyFailure (Dict String ParsedPolicy)) : Prop where
  agrees : Agrees S r.1 (lookAt S seen o)
  returns : (∃ set, r.2 = .ok set) ↔ seen.any FileContent.breaks = false
  returned : ∀ set, r.2 = .ok set → set = r.1.effective
  keeps : seen.bind (validPolicies S) = none → r.1.effective = s.effective

theorem Agrees.current (h : Agrees S s o) (now : ℚ) (file : FileState) :
    Read S s o (s.sees now file) (s.current S now file) := by
  unfold PolicyStore.current PolicyStore.sees
  split
  · have hmoved : Agrees S { s with nextCheck := now + S.checkInterval } o := h.congr rfl rfl rfl rfl
    have hloaded := hmoved.load file
    have hnews : ({ s with nextCheck := now + S.checkInterval } : PolicyStore).news file = s.news file := by
      cases file <;> rfl
    rw [hnews] at hloaded
    obtain ⟨hagrees, hreturns, hkeeps⟩ := hloaded
    generalize PolicyStore.load S false file { s with nextCheck := now + S.checkInterval } = r at *
    obtain ⟨s', f⟩ := r
    cases f with
    | none => exact ⟨hagrees, by simpa using hreturns, fun set hset => (Except.ok.inj hset).symm, hkeeps⟩
    | some f => exact ⟨hagrees, by simpa using hreturns, fun set hset => (nomatch hset), hkeeps⟩
  · exact ⟨h, by simp, fun set hset => (Except.ok.inj hset).symm, fun _ => rfl⟩

/-- The body of an edit breaks its validation. -/
def editBreaks (name : String) : YamlValue → Bool
  | .dict body => runtimeName name && bodyBreaks body
  | _ => false

/-- How the validation of an edit ends: with an exception, which is `PolicyError`
unless the body breaks it, or with the policy. -/
theorem parse_single (known : Option (List String)) (name : String) (body : YamlEntries) :
    (∃ f, parsePolicies S known (singleDocument name (.dict body)) = .error f ∧
        (∀ p, parseBody S known (.str name) (.dict body) ≠ .ok ([], p)) ∧
        ((∃ ps, f = .policyError ps) ↔ bodyBreaks body = false)) ∨
      ∃ p d, parseBody S known (.str name) (.dict body) = .ok ([], some p) ∧
        parsePolicies S known (singleDocument name (.dict body)) = .ok d := by
  have hparse : parsePolicies S known (singleDocument name (.dict body)) =
      (parseEntries S known [(.str name, .dict body)]).bind fun parsed =>
        if parsed.1 = [] then .ok (byName parsed.2) else .error (.policyError parsed.1) := rfl
  have hsettles := settles_parseBody S known (.str name) (.dict body)
  have hbreaks : entryBreaks (.str name, .dict body) = bodyBreaks body := by
    simp [entryBreaks, YamlScalar.writable]
  rw [hbreaks] at hsettles
  rw [hparse, parseEntries]
  cases hb : bodyBreaks body with
  | true =>
    rw [hb] at hsettles
    obtain ⟨e, he⟩ := hsettles
    exact .inl ⟨.other e, by simp [he, bind, Except.bind], by simp [he], by simp⟩
  | false =>
    rw [hb] at hsettles
    obtain ⟨⟨problems, policy⟩, hr⟩ := hsettles
    simp only [hr, bind, Except.bind, parseEntries, pure, Except.pure, List.append_nil]
    by_cases hp : problems = []
    · subst hp
      obtain ⟨p, rfl, -⟩ := parseBody_ok S hr
      exact .inr ⟨p, _, rfl, if_pos rfl⟩
    · refine .inl ⟨_, if_neg hp, fun p hp' => hp ?_, by simp⟩
      exact (Prod.mk.inj (Except.ok.inj hp')).1

theorem parseBody_of_accepted {name : String} {body : YamlEntries} {p : ParsedPolicy}
    (h : acceptedEdit S name (.dict body) = some p) :
    parseBody S S.knownProviders (.str name) (.dict body) = .ok ([], some p) := by
  unfold acceptedEdit at h
  split at h
  · cases hparse : parseBody S S.knownProviders (.str name) (.dict body) with
    | error f => simp [hparse] at h
    | ok r =>
      obtain ⟨problems, policy⟩ := r
      cases problems with
      | nil => simpa [hparse] using h
      | cons a l => simp [hparse] at h
  · exact nomatch h

theorem not_editBreaks {name : String} {body : YamlValue} {p : ParsedPolicy}
    (h : acceptedEdit S name body = some p) : editBreaks name body = false := by
  cases body with
  | scalar k => rfl
  | list items => rfl
  | other items => rfl
  | dict body =>
    have hsettles := settles_parseBody S S.knownProviders (.str name) (.dict body)
    rw [parseBody_of_accepted h] at hsettles
    cases hb : bodyBreaks body with
    | false => simp [editBreaks, hb]
    | true =>
      have hbreaks : entryBreaks (.str name, .dict body) = true := by simp [entryBreaks, hb]
      rw [hbreaks] at hsettles
      exact nomatch hsettles.choose_spec

/-- An accepted edit is shown from now on and returned; a rejected one changes
nothing, and is a `PolicyError` unless its body breaks validation. -/
theorem Agrees.setPolicy (h : Agrees S s o) (name : String) (body : YamlValue) :
    (∃ p, acceptedEdit S name body = some p ∧ (s.setPolicy S name body).2 = .ok p ∧
        Agrees S (s.setPolicy S name body).1 (o.edit name p)) ∨
      acceptedEdit S name body = none ∧ ∃ f, s.setPolicy S name body = (s, .error f) ∧
        ((∃ ps, f = .policyError ps) ↔ editBreaks name body = false) := by
  unfold PolicyStore.setPolicy acceptedEdit
  cases hname : runtimeName name with
  | false =>
    refine .inr ⟨by simp, _, if_pos rfl, ?_⟩
    cases body <;> simp [editBreaks, hname]
  | true =>
    simp only [Bool.true_eq_false, if_false, if_true]
    cases body with
    | scalar k => exact .inr ⟨rfl, _, rfl, by simp [editBreaks]⟩
    | list items => exact .inr ⟨rfl, _, rfl, by simp [editBreaks]⟩
    | other items => exact .inr ⟨rfl, _, rfl, by simp [editBreaks]⟩
    | dict entries =>
      simp only [editBreaks, hname, Bool.true_and]
      rcases parse_single (S := S) S.knownProviders name entries with ⟨f, hf, hno, hkind⟩ | ⟨p, d, hp, hd⟩
      · refine .inr ⟨?_, f, by rw [hf], hkind⟩
        split
        · next policy hpolicy => exact absurd hpolicy (hno policy)
        · rfl
      · obtain ⟨q, hq, hpname⟩ := parseBody_ok S hp
        obtain rfl := Option.some.inj hq
        have hlayers : Layers S
            { s with edits := s.edits.set name entries, removed := s.removed.filter (· ≠ name) }
            (o.edit name p) := by
          refine ⟨h.base, fun n => ?_, fun n => ?_⟩
          · simp [Overlay.edit, h.hidden n]
          · by_cases hn : n = name
            · subst hn
              exact .inr ⟨entries, p, by simp, by simp [Overlay.edit], hp⟩
            · simpa [Overlay.edit, hn, Dict.get?_set_ne _ _ (Ne.symm hn)] using h.edits n
        obtain ⟨e, hmerge, hagrees⟩ := hlayers.merge
        have hshown : e.get? name = some p := by
          have heff := hagrees.effective name
          rwa [Overlay.view_edit_self] at heff
        refine .inl ⟨p, by simp [hp], ?_⟩
        simp only [hd, hmerge, hshown]
        exact ⟨trivial, hagrees⟩

/-- A removed policy is no longer shown, and the answer is whether it was. -/
theorem Agrees.removePolicy (h : Agrees S s o) (name : String) :
    (s.removePolicy S name).2 = .ok (o.view name).isSome ∧
      Agrees S (s.removePolicy S name).1 (o.drop name) := by
  have hlayers : Layers S
      { s with
        edits := s.edits.pop name
        removed := if s.set.contains name && decide (name ∉ s.removed) then s.removed ++ [name] else s.removed }
      (o.drop name) := by
    refine ⟨h.base, fun n => ?_, fun n => ?_⟩
    · rw [Overlay.mem_hidden_drop, h.hidden, h.base, ← Dict.contains]
      by_cases hr : name ∈ s.removed
      · simp only [hr, not_true_eq_false, decide_false, Bool.and_false, Bool.false_eq_true, if_false]
        exact ⟨fun hn => hn.elim id fun hn => hn.1 ▸ hr, .inl⟩
      · cases hc : s.set.contains name <;> simp [hr]
    · by_cases hn : n = name
      · subst hn
        exact .inl ⟨by simp, by simp [Overlay.drop]⟩
      · simpa [Overlay.drop, hn, Dict.get?_pop_ne _ (Ne.symm hn)] using h.edits n
  obtain ⟨e, hmerge, hagrees⟩ := hlayers.merge
  unfold PolicyStore.removePolicy
  simp only [hmerge]
  refine ⟨?_, hagrees⟩
  -- an edited name is among the effective ones
  have hexisted : (s.effective.contains name || s.edits.contains name) = (o.view name).isSome := by
    rw [Dict.contains, h.effective, Dict.contains]
    rcases h.edits name with ⟨hnone, -⟩ | ⟨body, p, hbody, hp, -⟩
    · simp [hnone]
    · simp [hbody, Overlay.view_of_edit hp]
  rw [hexisted]

theorem agrees_init {now : ℚ} {file : FileState} (h : PolicyStore.init S now file = some s) :
    Agrees S s (lookAt S file.content ⟨fun _ => none, ∅, fun _ => none⟩) := by
  have hempty : Agrees S {} ⟨fun _ => none, ∅, fun _ => none⟩ := by
    refine ⟨⟨fun n => rfl, by simp, fun n => .inl ⟨rfl, rfl⟩⟩, fun n => ?_⟩
    rw [Overlay.view_of_base rfl (by simp)]
    rfl
  have hload : Agrees S (PolicyStore.load S true file {}).1
      (lookAt S file.content ⟨fun _ => none, ∅, fun _ => none⟩) := by
    cases file with
    | missing => exact hempty.congr rfl rfl rfl rfl
    | present mtime content => exact (hempty.load (.present mtime content)).agrees
  unfold PolicyStore.init at h
  generalize PolicyStore.load S true file {} = r at *
  obtain ⟨s', f⟩ := r
  cases f with
  | some f => exact nomatch h
  | none =>
    obtain ⟨e, hmerge, hagrees⟩ := hload.toLayers.merge
    simp only at h hmerge
    rw [hmerge] at h
    exact Option.some.inj h ▸ hagrees.congr rfl rfl rfl rfl

/-! ## Runs -/

/-- What a call reads or is given breaks validation. -/
def PolicyWatch.breaks (r : PolicyWatch) : PolicyEvent → Bool
  | .current => (r.store.sees r.now r.file).any FileContent.breaks
  | .setPolicy name body => editBreaks name body
  | _ => false

/-- The step is one of the specification: `current` returns what the overlay
shows, a rejected edit is a `PolicyError`, and neither it nor a reload that
fails changes what is effective. -/
structure FollowsSpec (S : PolicySetting) (r : PolicyWatch) (e : PolicyEvent) (r' : PolicyWatch) : Prop where
  effective : ∀ n, r'.store.effective.get? n = r'.wanted.view n
  current : e = .current → ∃ set, (r.store.current S r.now r.file).2 = .ok set ∧
    ∀ n, set.get? n = r'.wanted.view n
  reload : e = .current → (r.store.sees r.now r.file).bind (validPolicies S) = none →
    r'.store.effective = r.store.effective
  accepted : ∀ name body p, e = .setPolicy name body → (r.store.setPolicy S name body).2 = .ok p →
    acceptedEdit S name body = some p
  rejected : ∀ name body f, e = .setPolicy name body → (r.store.setPolicy S name body).2 = .error f →
    (∃ problems, f = .policyError problems) ∧ r'.store.effective = r.store.effective
  removed : ∀ name, e = .removePolicy name →
    (r.store.removePolicy S name).2 = .ok (r.wanted.view name).isSome

variable {r r' : PolicyWatch} {e : PolicyEvent}

theorem agrees_step (h : Agrees S r.store r.wanted) (e : PolicyEvent) :
    Agrees S (r.step S e).store (r.step S e).wanted := by
  cases e with
  | file f => exact h
  | tick now => exact h
  | current => exact (h.current r.now r.file).agrees
  | removePolicy name => exact (h.removePolicy name).2
  | setPolicy name body =>
    rcases h.setPolicy name body with ⟨p, hp, -, hagrees⟩ | ⟨hnone, f, hf, -⟩
    · simpa [PolicyWatch.step, hp] using hagrees
    · simpa [PolicyWatch.step, hnone, hf] using h

theorem agrees_reach (h : (PolicyWatch.machine S).Reach Machine.free r) : Agrees S r.store r.wanted := by
  refine Machine.Reach.invariant (I := fun r => Agrees S r.store r.wanted) ?_ ?_ h
  · rintro r ⟨hinit, hwanted⟩
    rw [hwanted]
    exact agrees_init hinit
  · intro r e r' hr hstep _
    obtain rfl := Option.some.inj hstep
    exact agrees_step hr e

/-- A step is one of the specification unless it breaks validation. -/
theorem followsSpec_iff (h : Agrees S r.store r.wanted) (e : PolicyEvent) :
    FollowsSpec S r e (r.step S e) ↔ r.breaks e = false := by
  have hagrees := agrees_step h e
  constructor
  · intro hf
    cases e with
    | file f => rfl
    | tick now => rfl
    | removePolicy name => rfl
    | current =>
      obtain ⟨set, hset, -⟩ := hf.current rfl
      exact (h.current r.now r.file).returns.mp ⟨set, hset⟩
    | setPolicy name body =>
      rcases h.setPolicy name body with ⟨p, hp, hok, -⟩ | ⟨hnone, f, hf', hkind⟩
      · exact not_editBreaks hp
      · exact hkind.mp (hf.rejected name body f rfl (by rw [hf'])).1
  · intro hb
    refine ⟨hagrees.effective, ?_, ?_, ?_, ?_, ?_⟩
    · rintro rfl
      obtain ⟨set, hset⟩ := (h.current r.now r.file).returns.mpr hb
      obtain rfl := (h.current r.now r.file).returned set hset
      exact ⟨_, hset, hagrees.effective⟩
    · rintro rfl
      exact (h.current r.now r.file).keeps
    · rintro name body p rfl hok
      rcases h.setPolicy name body with ⟨q, hq, hok', -⟩ | ⟨-, f, hf, -⟩
      · rw [hq, Except.ok.inj (hok.symm.trans hok')]
      · rw [hf] at hok
        exact nomatch hok
    · rintro name body f rfl herr
      rcases h.setPolicy name body with ⟨q, -, hok, -⟩ | ⟨-, g, hg, hkind⟩
      · exact nomatch herr.symm.trans hok
      · obtain rfl : g = f := by simpa [hg] using herr
        exact ⟨hkind.mpr hb, by simp [PolicyWatch.step, hg]⟩
    · rintro name rfl
      exact (h.removePolicy name).1

/-- **The store refines its specification**, in every run, exactly as long as
no content that is read and no edit breaks validation. -/
theorem refines_overlay {l : List (Machine.Step PolicyWatch PolicyEvent)} (hstart : PolicyWatch.Start S r)
    (hrun : (PolicyWatch.machine S).Run r l r') :
    (∀ e ∈ l, FollowsSpec S e.source e.label e.target) ↔ ∀ e ∈ l, e.source.breaks e.label = false := by
  refine hrun.steps_iff (P := fun r e r' => FollowsSpec S r e r') (C := fun r e => r.breaks e = false) ?_ hstart
  intro r e r' hr hstep
  obtain rfl := Option.some.inj hstep
  exact followsSpec_iff (agrees_reach hr) e

def withoutFile : PolicyWatch where
  store := { nextCheck := 0 + 2, lastError := some ["routing.yml: file not found"] }
  now := 0
  file := .missing
  wanted := ⟨fun _ => none, ∅, fun _ => none⟩

theorem withoutFile_start : PolicyWatch.Start routingSetting withoutFile := ⟨by rfl, rfl⟩

/-- The run in which a file with this document appears and is read. -/
def readingRun (data : YamlValue) : List (Machine.Step PolicyWatch PolicyEvent) :=
  let r := withoutFile.step routingSetting (.file (.present 1 (.document data)))
  let r' := r.step routingSetting (.tick 2)
  [⟨withoutFile, .file (.present 1 (.document data)), r⟩, ⟨r, .tick 2, r'⟩,
    ⟨r', .current, r'.step routingSetting .current⟩]

theorem run_readingRun (data : YamlValue) :
    ∃ r', (PolicyWatch.machine routingSetting).Run withoutFile (readingRun data) r' :=
  ⟨_, ((Machine.Run.nil withoutFile).snoc rfl |>.snoc rfl).snoc rfl⟩

theorem readingRun_breaks (data : YamlValue) :
    (∀ e ∈ readingRun data, e.source.breaks e.label = false) ↔ documentBreaks data = false := by
  simp [readingRun, PolicyWatch.breaks, PolicyWatch.step, PolicyStore.sees, PolicyStore.news, withoutFile,
    FileContent.breaks]

/-- A document with one policy, the cheapest provider. -/
def cheapestDocument : YamlValue :=
  .dict [(.str "policies", .dict [(.str "default", .dict [(.str "strategy", .str "cheapest")])])]

/-- A document whose policy has the unknown keys `1` and `x`. -/
def mixedDocument : YamlValue :=
  .dict [(.str "policies", .dict [(.str "default", .dict [(.int 1, .null), (.str "x", .null)])])]

/-- `refines_overlay` for a file that appears and is read. -/
theorem refines_overlay_cheapest :
    ∃ r', (PolicyWatch.machine routingSetting).Run withoutFile (readingRun cheapestDocument) r' ∧
      ∀ e ∈ readingRun cheapestDocument, FollowsSpec routingSetting e.source e.label e.target := by
  obtain ⟨r', hrun⟩ := run_readingRun cheapestDocument
  exact ⟨r', hrun, (refines_overlay withoutFile_start hrun).mpr ((readingRun_breaks _).mpr (by decide +kernel))⟩

/-- Two unknown keys of different types in the file, and `current` raises. -/
theorem mixed_keys :
    PolicyWatch.Start routingSetting withoutFile ∧
      ∃ r', (PolicyWatch.machine routingSetting).Run withoutFile (readingRun mixedDocument) r' ∧
        ¬∀ e ∈ readingRun mixedDocument, FollowsSpec routingSetting e.source e.label e.target := by
  obtain ⟨r', hrun⟩ := run_readingRun mixedDocument
  refine ⟨withoutFile_start, r', hrun, fun hall => ?_⟩
  have hmem := hrun.mem_step withoutFile_start
  have hbreaks : documentBreaks mixedDocument = false :=
    (readingRun_breaks _).mp fun e he => by
      obtain ⟨hreach, hstep⟩ := hmem e he
      refine (followsSpec_iff (agrees_reach hreach) e.label).mp ?_
      rw [Option.some.inj hstep]
      exact hall e he
  exact absurd hbreaks (by decide +kernel)

end Caips.Coreai
