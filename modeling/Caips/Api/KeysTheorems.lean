/-
Caips.Api.KeysTheorems — when key reloads converge.

A reload registers what the store gave when it started, and it may be waiting
for a server's models while the store is edited again. If the edit removes or
changes a provider that the reload has yet to register, the reload registers
it all the same, after the reload of the edit or before (`resurrected`). As
long as no edit does, every provider a reload registers is one of the present
store, and that makes the order of the reloads irrelevant.

Two designs part the router from the loader without any interleaving: a server
whose entry names no model gets one it is found to have, and a name of
`config/local.yml` is not taken over by a key.
-/
import Caips.Api.Keys

namespace Caips.Providers

open Caips.Logic Caips.Coreai

/-! ## What is loaded is managed -/

/-- Every provider of a result is managed. -/
def AllManaged (result : ProviderLoadResult) : Prop :=
  ∀ n p, result.providers.get? n = some p → p.managed = true

theorem AllManaged.congr {r r' : ProviderLoadResult} (h : AllManaged r) (heq : r'.providers = r.providers) :
    AllManaged r' := by
  unfold AllManaged
  rw [heq]
  exact h

theorem AllManaged.set {r r' : ProviderLoadResult} (h : AllManaged r) {n : String} {p : LoadedProvider}
    (hp : p.managed = true) (heq : r'.providers = r.providers.set n p) : AllManaged r' := by
  intro m q hq
  rw [heq] at hq
  by_cases hn : n = m
  · subst hn
    rw [Dict.get?_set_self] at hq
    exact Option.some.inj hq ▸ hp
  · rw [Dict.get?_set_ne _ _ hn] at hq
    exact h m q hq

theorem AllManaged.foldl {α : Type} {f : ProviderLoadResult → α → ProviderLoadResult}
    (hf : ∀ r a, AllManaged r → AllManaged (f r a)) :
    ∀ (l : List α) {r : ProviderLoadResult}, AllManaged r → AllManaged (l.foldl f r)
  | [], _, h => h
  | a :: l, _, h => foldl hf l (hf _ a h)

variable (S : LoadSetting)

variable {r : ProviderLoadResult}

theorem allManaged_loadNative (h : AllManaged r) (n v k : String) :
    AllManaged (loadNative S r n v k) := by
  unfold loadNative
  split
  · exact h.congr rfl
  · split
    · exact h.set rfl rfl
    · exact h.congr rfl

theorem allManaged_loadLab (h : AllManaged r) (lab : Lab) (items : List KeySecret) :
    AllManaged (loadLab S lab items r) := by
  unfold loadLab
  simp only
  split
  · exact h.congr rfl
  · exact h.set rfl rfl

theorem allManaged_loadServer (h : AllManaged r) (kind : LabKind) (item : KeySecret) :
    AllManaged (loadServer S kind r item) := by
  unfold loadServer
  split
  · exact h.congr rfl
  · split
    · exact h.set rfl rfl
    · exact h.congr rfl

theorem allManaged_loadProviders (entries : List KeyEntry) : AllManaged (loadProviders S entries) := by
  have hnative : AllManaged (S.providerMap.foldl (fun r e => loadNative S r e.1 e.2.1 e.2.2) {}) :=
    AllManaged.foldl (fun r e h => allManaged_loadNative S h e.1 e.2.1 e.2.2) _ fun n p hp => by simp at hp
  unfold loadProviders loadStore
  split
  · exact hnative.congr rfl
  · refine AllManaged.foldl (fun r e h => ?_) _ hnative
    split
    · exact h
    · split
      · exact allManaged_loadLab S h _ _
      · exact AllManaged.foldl (fun r item h => allManaged_loadServer S h _ item) _ h

end Caips.Providers

namespace Caips.Api

open Caips.Logic Caips.Coreai Caips.Providers

namespace Gateway

variable {S : LoadSetting} {g g' : Gateway}

/-- The providers the loader builds from the store. -/
abbrev wanted (S : LoadSetting) (g : Gateway) : Dict String LoadedProvider :=
  (loadProviders S g.store).providers

/-- The managed providers of the router are those of the store, with the same
credentials, endpoints and default models. -/
def Converged (S : LoadSetting) (g : Gateway) : Prop :=
  ∀ name accounts, (∃ p, g.providers.get? name = some p ∧ p.managed = true ∧ fingerprint p = accounts) ↔
    ∃ q, (wanted S g).get? name = some q ∧ fingerprint q = accounts

/-- The new store leaves what a waiting reload has yet to register as it was,
and takes no name of a provider that is not managed. -/
def SafeEdit (S : LoadSetting) (g : Gateway) (store : List KeyEntry) : Prop :=
  (∀ r ∈ g.reloads, ∀ e ∈ r.pending, ∃ q, (loadProviders S store).providers.get? e.1 = some q ∧
    fingerprint q = fingerprint e.2) ∧
  ∀ n q p, (loadProviders S store).providers.get? n = some q → g.providers.get? n = some p → p.managed = true

/-- The provider has its default model, or no model was found. -/
def Named (p : LoadedProvider) (found : Option (List String)) : Prop :=
  found.getD [] = [] ∨ ∀ a ∈ p.members, a.defaultModel ≠ ""

/-- The steps after which the order of the reloads does not matter. -/
def Calm (S : LoadSetting) (g : Gateway) : KeyEvent → Prop
  | .addKey body id now => ∀ store, Keystore.add S.toKeySetting g.store body id now = .ok store →
      SafeEdit S g store
  | .deleteKey id => ∀ store, Keystore.remove g.store id = some store → SafeEdit S g store
  | .refreshed i found => ∀ r, g.reloads[i]? = some r → Named r.provider found
  | .probed name found => ∀ p, g.providers.get? name = some p → p.managed = true → Named p found

theorem discover_of_named {p : LoadedProvider} {found : Option (List String)} (h : Named p found) :
    discover p found = p := by
  cases found with
  | none => rfl
  | some found =>
    have hsame : ∀ a ∈ p.members, (if a.defaultModel = "" ∧ found ≠ [] then
        { a with defaultModel := firstModel found } else a) = a := by
      intro a ha
      refine if_neg fun hand => ?_
      rcases h with hnone | hnamed
      · exact hand.2 hnone
      · exact hnamed a ha hand.1
    unfold discover
    simp only [List.map_congr_left hsame, List.map_id']

/-! ## Registering -/

section Register

variable {L live : Dict String LoadedProvider}

/-- The managed providers are those with a wanted name. -/
def Fits (L live : Dict String LoadedProvider) : Prop :=
  ∀ n p, live.get? n = some p → (p.managed = true ↔ ∃ q, L.get? n = some q)

/-- The provider of this name, if it is wanted, is registered as it should be. -/
def Current (L live : Dict String LoadedProvider) (n : String) : Prop :=
  ∀ q, L.get? n = some q → ∃ p, live.get? n = some p ∧ fingerprint p = fingerprint q

/-- A provider of the wanted ones. -/
def Wanted (L : Dict String LoadedProvider) (e : String × LoadedProvider) : Prop :=
  e.2.managed = true ∧ ∃ q, L.get? e.1 = some q ∧ fingerprint q = fingerprint e.2

variable {p : LoadedProvider} {n : String}

theorem Fits.set (h : Fits L live) (hp : Wanted L (n, p)) :
    Fits L (live.set n p) := by
  intro m r hr
  by_cases hn : n = m
  · subst hn
    rw [Dict.get?_set_self] at hr
    obtain rfl := Option.some.inj hr
    obtain ⟨hmanaged, q, hq, -⟩ := hp
    exact ⟨fun _ => ⟨q, hq⟩, fun _ => hmanaged⟩
  · rw [Dict.get?_set_ne _ _ hn] at hr
    exact h m r hr

theorem current_set (hp : Wanted L (n, p)) : Current L (live.set n p) n := by
  intro q hq
  obtain ⟨-, q', hq', hsame⟩ := hp
  obtain rfl := Option.some.inj (hq.symm.trans hq')
  exact ⟨p, Dict.get?_set_self _ _ _, hsame.symm⟩

theorem Current.set {m n : String} (h : Current L live m) (hp : Wanted L (n, p)) :
    Current L (live.set n p) m := by
  by_cases hn : n = m
  · subst hn
    exact current_set hp
  · intro q hq
    obtain ⟨r, hr, hsame⟩ := h q hq
    exact ⟨r, (Dict.get?_set_ne _ _ hn).trans hr, hsame⟩

/-- What a reload does up to its next await. -/
structure Registered (L live : Dict String LoadedProvider) (todo : List (String × LoadedProvider))
    (out : Dict String LoadedProvider × List Reload) : Prop where
  fits : Fits L out.1
  keeps : ∀ m, Current L live m → Current L out.1 m
  done : ∀ e ∈ todo, Current L out.1 e.1 ∨ ∃ r ∈ out.2, e.1 ∈ r.pending.map Prod.fst
  waiting : ∀ r ∈ out.2, ∀ e ∈ r.pending, e ∈ todo

theorem Registered.cons {todo : List (String × LoadedProvider)}
    {live' : Dict String LoadedProvider} {out : Dict String LoadedProvider × List Reload}
    (h : Registered L live' todo out) (hkeeps : ∀ m, Current L live m → Current L live' m)
    (hdone : Current L live' n) : Registered L live ((n, p) :: todo) out where
  fits := h.fits
  keeps m hm := h.keeps m (hkeeps m hm)
  done e he := by
    rcases List.mem_cons.mp he with rfl | he
    · exact .inl (h.keeps n hdone)
    · exact h.done e he
  waiting r hr e he := List.mem_cons_of_mem _ (h.waiting r hr e he)

theorem Registered.await {todo : List (String × LoadedProvider)}
    (h : Fits L live) : Registered L live ((n, p) :: todo) (live, [⟨n, p, todo⟩]) where
  fits := h
  keeps _ hm := hm
  done e he := .inr ⟨_, List.mem_cons_self, List.mem_map.mpr ⟨e, he, rfl⟩⟩
  waiting r hr e he := by
    obtain rfl := List.mem_singleton.mp hr
    exact he

theorem registered_register (todo : List (String × LoadedProvider)) : ∀ {live : Dict String LoadedProvider},
    Fits L live → (∀ e ∈ todo, Wanted L e) → Registered L live todo (register live todo) := by
  induction todo with
  | nil => exact fun hfits _ => ⟨hfits, fun _ hm => hm, fun _ he => (nomatch he), fun _ hr => nomatch hr⟩
  | cons e todo ih =>
    intro live hfits hwanted
    obtain ⟨n, p⟩ := e
    have hp := hwanted (n, p) List.mem_cons_self
    have hrest : ∀ e ∈ todo, Wanted L e := fun e he => hwanted e (List.mem_cons_of_mem _ he)
    have hset : Registered L live ((n, p) :: todo) (register (live.set n p) todo) :=
      (ih (hfits.set hp) hrest).cons (fun m hm => hm.set hp) (current_set hp)
    unfold register
    cases hcur : live.get? n with
    | none =>
      simp only
      split
      · exact .await hfits
      · exact hset
    | some cur =>
      obtain ⟨-, q, hq, hsame⟩ := hp
      have hmanaged : cur.managed = true := (hfits n cur hcur).mpr ⟨q, hq⟩
      simp only [hmanaged, not_true_eq_false, if_false]
      split
      · split
        · exact .await hfits
        · exact hset
      · next heq =>
          refine (ih hfits hrest).cons (fun _ hm => hm) fun q' hq' => ?_
          obtain rfl := Option.some.inj (hq.symm.trans hq')
          exact ⟨cur, hcur, (not_not.mp heq).trans hsame.symm⟩

theorem get?_foldl_pop (c : String × LoadedProvider → Bool) (n : String) :
    ∀ (l : List (String × LoadedProvider)) (d : Dict String LoadedProvider),
      (l.foldl (fun d e => if c e then d.pop e.1 else d) d).get? n =
        if l.any (fun e => e.1 == n && c e) then none else d.get? n
  | [], d => by simp
  | e :: l, d => by
      rw [List.foldl_cons, get?_foldl_pop c n l, List.any_cons]
      cases hc : c e with
      | false => rw [if_neg Bool.false_ne_true, Bool.and_false, Bool.false_or]
      | true =>
        rw [if_pos rfl, Bool.and_true]
        by_cases hn : e.1 = n
        · subst hn
          simp
        · rw [Dict.get?_pop_ne _ hn, beq_eq_false_iff_ne.mpr hn, Bool.false_or]

theorem get?_dropStale (h : (dropStale live L).get? n = some p) :
    live.get? n = some p ∧ (p.managed = true → ∃ q, L.get? n = some q) := by
  unfold dropStale at h
  rw [get?_foldl_pop (fun e => e.2.managed && !L.contains e.1)] at h
  obtain ⟨hkept, hlive⟩ := Option.ite_none_left_eq_some.mp h
  refine ⟨hlive, fun hmanaged => ?_⟩
  by_contra hnone
  refine hkept (List.any_eq_true.mpr ⟨(n, p), Dict.mem_entries.mpr hlive, ?_⟩)
  have hnone' : L.get? n = none := Option.eq_none_iff_forall_ne_some.mpr fun q hq => hnone ⟨q, hq⟩
  simp [hmanaged, Dict.contains, hnone']

theorem fits_dropStale (hclash : ∀ n q p, L.get? n = some q → live.get? n = some p → p.managed = true) :
    Fits L (dropStale live L) := by
  intro n p hp
  obtain ⟨hlive, hwanted⟩ := get?_dropStale hp
  exact ⟨hwanted, fun ⟨q, hq⟩ => hclash n q p hq hlive⟩

end Register

/-! ## Whole runs -/

/-- Whoever registers a provider registers one of the store's, and what is not
registered yet some reload will register. -/
structure Inv (S : LoadSetting) (g : Gateway) : Prop where
  fits : Fits (wanted S g) g.providers
  pending : ∀ r ∈ g.reloads, ∀ e ∈ r.pending, Wanted (wanted S g) e
  current : ∀ n, Current (wanted S g) g.providers n ∨ ∃ r ∈ g.reloads, n ∈ r.pending.map Prod.fst

theorem Inv.converged (h : Inv S g) (hdone : g.reloads = []) : Converged S g := by
  have hcurrent : ∀ n, Current (wanted S g) g.providers n := by
    intro n
    rcases h.current n with hn | ⟨r, hr, -⟩
    · exact hn
    · rw [hdone] at hr
      cases hr
  intro n accounts
  constructor
  · rintro ⟨p, hp, hmanaged, rfl⟩
    obtain ⟨q, hq⟩ := (h.fits n p hp).mp hmanaged
    obtain ⟨r, hr, hsame⟩ := hcurrent n q hq
    obtain rfl := Option.some.inj (hp.symm.trans hr)
    exact ⟨q, hq, hsame.symm⟩
  · rintro ⟨q, hq, rfl⟩
    obtain ⟨p, hp, hsame⟩ := hcurrent n q hq
    exact ⟨p, hp, (h.fits n p hp).mpr ⟨q, hq⟩, hsame⟩

/-- An edit and the first part of its reload. -/
theorem Inv.edit (h : Inv S g) {store : List KeyEntry} (hsafe : SafeEdit S g store) :
    Inv S ({ g with store }.reloadProviders S) := by
  obtain ⟨hpending, hclash⟩ := hsafe
  have hwanted : ∀ e ∈ (loadProviders S store).providers.entries, Wanted (loadProviders S store).providers e := by
    intro e he
    have hget := Dict.mem_entries.mp he
    exact ⟨allManaged_loadProviders S store e.1 e.2 hget, e.2, hget, rfl⟩
  have hreg := registered_register _ (fits_dropStale hclash) hwanted
  refine ⟨hreg.fits, fun r hr e he => ?_, fun n => ?_⟩
  · rcases List.mem_append.mp hr with hr | hr
    · exact ⟨(h.pending r hr e he).1, hpending r hr e he⟩
    · exact hwanted e (hreg.waiting r hr e he)
  · cases hq : (loadProviders S store).providers.get? n with
    | none => exact .inl fun q hq' => nomatch hq.symm.trans hq'
    | some q =>
      rcases hreg.done (n, q) (Dict.mem_entries.mpr hq) with hdone | ⟨r, hr, hn⟩
      · exact .inl hdone
      · exact .inr ⟨r, List.mem_append_right _ hr, hn⟩

/-- A reload that goes on. -/
theorem Inv.refreshed (h : Inv S g) {i : Nat} {found : Option (List String)}
    (hcalm : Calm S g (.refreshed i found)) (hstep : g.refreshed i found = some g') : Inv S g' := by
  unfold Gateway.refreshed at hstep
  cases hr : g.reloads[i]? with
  | none => simp [hr] at hstep
  | some r =>
    simp only [hr, discover_of_named (hcalm r hr)] at hstep
    obtain rfl := Option.some.inj hstep
    have hmem : r ∈ g.reloads := List.mem_of_getElem? hr
    have hself : Wanted (wanted S g) (r.name, r.provider) := h.pending r hmem _ List.mem_cons_self
    have hrest : ∀ e ∈ r.rest, Wanted (wanted S g) e := fun e he =>
      h.pending r hmem e (List.mem_cons_of_mem _ he)
    have hreg := registered_register r.rest (h.fits.set hself) hrest
    refine ⟨hreg.fits, fun t ht e he => ?_, fun n => ?_⟩
    · rcases List.mem_append.mp ht with ht | ht
      · exact h.pending t (List.mem_of_mem_eraseIdx ht) e he
      · exact hrest e (hreg.waiting t ht e he)
    · rcases h.current n with hn | ⟨t, ht, hn⟩
      · exact .inl (hreg.keeps n (hn.set hself))
      · obtain ⟨j, hj⟩ := List.mem_iff_getElem?.mp ht
        by_cases hij : j = i
        · subst hij
          obtain rfl := Option.some.inj (hr.symm.trans hj)
          obtain ⟨e, he, rfl⟩ := List.mem_map.mp hn
          rcases List.mem_cons.mp he with rfl | he
          · exact .inl (hreg.keeps _ (current_set hself))
          · rcases hreg.done e he with hdone | ⟨t, ht, hn⟩
            · exact .inl hdone
            · exact .inr ⟨t, List.mem_append_right _ ht, hn⟩
        · exact .inr ⟨t, List.mem_append_left _ (List.mem_eraseIdx_iff_getElem?.mpr ⟨j, hij, hj⟩), hn⟩

theorem Inv.step (h : Inv S g) {e : KeyEvent} (hcalm : Calm S g e) (hstep : g.step S e = some g') : Inv S g' := by
  cases e with
  | addKey body id now =>
    obtain rfl := Option.some.inj hstep
    unfold Gateway.addKey
    split
    · exact h
    · next store hadd => exact h.edit (hcalm store hadd)
  | deleteKey id =>
    obtain rfl := Option.some.inj hstep
    unfold Gateway.deleteKey
    split
    · exact h
    · split
      · exact h
      · next store hremove => exact h.edit (hcalm store hremove)
  | refreshed i found => exact h.refreshed hcalm hstep
  | probed name found =>
    simp only [Gateway.step, Gateway.probed] at hstep
    cases hp : g.providers.get? name with
    | none => simp [hp] at hstep
    | some p =>
      simp only [hp] at hstep
      obtain ⟨-, hstep⟩ := Option.ite_none_right_eq_some.mp hstep
      obtain rfl := Option.some.inj hstep
      have hmark : (discover p found).managed = p.managed := by
        unfold discover
        split <;> rfl
      refine ⟨fun n r hr => ?_, h.pending, fun n => ?_⟩
      · by_cases hn : name = n
        · subst hn
          obtain rfl := Option.some.inj ((Dict.get?_set_self _ _ _).symm.trans hr)
          rw [hmark]
          exact h.fits name p hp
        · exact h.fits n r ((Dict.get?_set_ne _ _ hn).symm.trans hr)
      · rcases h.current n with hn | hn
        · refine .inl fun q hq => ?_
          obtain ⟨r, hr, hsame⟩ := hn q hq
          by_cases heq : name = n
          · subst heq
            obtain rfl := Option.some.inj (hp.symm.trans hr)
            have hmanaged := (h.fits name p hp).mpr ⟨q, hq⟩
            refine ⟨_, Dict.get?_set_self _ _ _, ?_⟩
            rw [discover_of_named (hcalm p hp hmanaged)]
            exact hsame
          · exact ⟨r, (Dict.get?_set_ne _ _ heq).trans hr, hsame⟩
        · exact .inr hn

/-- The gateway starts with the providers of its store. -/
theorem Inv.of_started (h : Started S g) : Inv S g := by
  obtain ⟨locals, hlocals, hnone, hproviders⟩ := h
  have hmanaged := allManaged_loadProviders S g.store
  -- the local ones go to free names
  have hfold : ∀ (l : List (String × LoadedProvider)) (d : Dict String LoadedProvider),
      (∀ e ∈ l, e.2.managed = false) → Fits (wanted S g) d → (∀ n, Current (wanted S g) d n) →
      Fits (wanted S g) (l.foldl (fun d e => if d.contains e.1 then d else d.set e.1 e.2) d) ∧
        ∀ n, Current (wanted S g) (l.foldl (fun d e => if d.contains e.1 then d else d.set e.1 e.2) d) n := by
    intro l
    induction l with
    | nil => exact fun d _ hfits hcurrent => ⟨hfits, hcurrent⟩
    | cons e l ih =>
      intro d hl hfits hcurrent
      rw [List.foldl_cons]
      have hrest := fun x hx => hl x (List.mem_cons_of_mem _ hx)
      split
      · exact ih d hrest hfits hcurrent
      · next hfree =>
          have hget : d.get? e.1 = none := by simpa [Dict.contains] using hfree
          have hname : (wanted S g).get? e.1 = none := by
            refine Option.eq_none_iff_forall_ne_some.mpr fun q hq => ?_
            obtain ⟨p, hp, -⟩ := hcurrent e.1 q hq
            cases hget.symm.trans hp
          refine ih _ hrest (fun n p hp => ?_) fun n q hq => ?_
          · by_cases hn : e.1 = n
            · subst hn
              obtain rfl := Option.some.inj ((Dict.get?_set_self _ _ _).symm.trans hp)
              simp [hl e List.mem_cons_self, hname]
            · exact hfits n p ((Dict.get?_set_ne _ _ hn).symm.trans hp)
          · have hn : e.1 ≠ n := by
              rintro rfl
              cases hname.symm.trans hq
            obtain ⟨p, hp, hsame⟩ := hcurrent n q hq
            exact ⟨p, (Dict.get?_set_ne _ _ hn).trans hp, hsame⟩
  obtain ⟨hfits, hcurrent⟩ := hfold locals (wanted S g) hlocals
    (fun n p hp => ⟨fun _ => ⟨p, hp⟩, fun _ => hmanaged n p hp⟩) fun n q hq => ⟨q, hq, rfl⟩
  rw [← hproviders] at hfits hcurrent
  refine ⟨hfits, fun r hr => ?_, fun n => .inl (hcurrent n)⟩
  rw [hnone] at hr
  cases hr

/-- **Key reloads converge** in every interleaving of calm steps: once no reload
is waiting, the managed providers of the router are those the loader builds from
the store. -/
theorem reloads_converge (h : (machine S).Reach (Calm S) g) (hdone : g.reloads = []) : Converged S g := by
  have hinv : Inv S g := h.invariant (I := fun g => Inv S g) (fun _ hs => .of_started hs)
    fun _ _ _ hi hstep hcalm => hi.step hcalm hstep
  exact hinv.converged hdone

/-! ## A server of one's own -/

/-- A gateway that knows self-hosted servers only. -/
def homeSetting : LoadSetting where
  catalog := [{ id := "local", kind := .local }]
  presets := .empty
  lower := id
  encrypt := id
  decrypt := some
  hasSecret := true
  providerMap := []
  extraEnv := []
  native := fun _ _ => .error "no such provider"
  client := fun _ _ => none
  grokModel := "grok-3-mini"

def homeServer : KeyBody :=
  { provider := "local", label := "box", baseUrl := "http://box:1234/v1", model := "llama" }

theorem started_home : Started homeSetting ⟨[], .empty, []⟩ :=
  ⟨[], fun _ he => (nomatch he), rfl, rfl⟩

/-- The server is added, and its reload ends. -/
theorem reloads_converge_add : ∃ g, Converged homeSetting g ∧ g.providers.keys = ["box"] := by
  have hrun : ((step homeSetting ⟨[], .empty, []⟩ (.addKey homeServer "1" 0)).any fun g =>
      (g.reloads.map fun r => r.provider.members.map Account.defaultModel) == [["llama"]] &&
      (g.step homeSetting (.refreshed 0 (some ["llama"]))).any fun g' =>
        g'.reloads.isEmpty && g'.providers.keys == ["box"]) = true := by decide +kernel
  obtain ⟨g, hg, htest⟩ := Machine.exists_of_any hrun
  obtain ⟨hnamed, hnext⟩ := Bool.and_eq_true_iff.mp htest
  obtain ⟨g', hg', htest'⟩ := Machine.exists_of_any hnext
  obtain ⟨hdone, hkeys⟩ := Bool.and_eq_true_iff.mp htest'
  have hadd : (machine homeSetting).Reach (Calm homeSetting) g := by
    refine .step (.start started_home) hg fun store _ => ⟨fun r hr => ?_, fun n q p _ hp => ?_⟩
    · cases hr
    · simp at hp
  have hreach : (machine homeSetting).Reach (Calm homeSetting) g' := by
    refine .step hadd hg' fun r hr => .inr fun a ha hempty => ?_
    have hmodels : (g.reloads.map fun r => r.provider.members.map Account.defaultModel) = [["llama"]] := by
      simpa using hnamed
    have hmem : r.provider.members.map Account.defaultModel ∈ [["llama"]] :=
      hmodels ▸ List.mem_map.mpr ⟨r, List.mem_of_getElem? hr, rfl⟩
    have hmodel : a.defaultModel ∈ ["llama"] :=
      List.mem_singleton.mp hmem ▸ List.mem_map.mpr ⟨a, ha, rfl⟩
    simp [hempty] at hmodel
  exact ⟨g', reloads_converge hreach (List.isEmpty_iff.mp hdone), by simpa using hkeys⟩

/-- The server is deleted while the reload that adds it waits for its models: the
reload registers it when the store no longer has it. -/
theorem resurrected : ∃ g, (machine homeSetting).Reach Machine.free g ∧ g.reloads = [] ∧
    ¬Converged homeSetting g := by
  have hrun : ((Machine.exec (step homeSetting) ⟨[], .empty, []⟩
      [.addKey homeServer "1" 0, .deleteKey "1", .refreshed 0 (some ["llama"])]).any fun g =>
        g.reloads.isEmpty && g.store.isEmpty && (g.providers.get? "box").any LoadedProvider.managed) = true := by
    decide +kernel
  obtain ⟨g, hg, htest⟩ := Machine.exists_of_any hrun
  obtain ⟨hempty, hbox⟩ := Bool.and_eq_true_iff.mp htest
  obtain ⟨hdone, hstore⟩ := Bool.and_eq_true_iff.mp hempty
  refine ⟨g, Machine.exec_reach (.start started_home) hg, List.isEmpty_iff.mp hdone, fun hconverged => ?_⟩
  obtain ⟨p, hp, hmanaged⟩ := Machine.exists_of_any hbox
  obtain ⟨q, hq, -⟩ := (hconverged "box" (fingerprint p)).mp ⟨p, hp, hmanaged, rfl⟩
  have hnone : (wanted homeSetting g).get? "box" = none := by
    unfold wanted
    rw [List.isEmpty_iff.mp hstore]
    decide +kernel
  exact nomatch hnone.symm.trans hq

end Gateway

end Caips.Api
