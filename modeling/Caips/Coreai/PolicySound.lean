/-
Caips.Coreai.PolicySound — what validation of a policy file promises of the
policies it returns, and when it keeps the promise.

`BodyValid` says what a policy must look like, field by field, and a body is
accepted exactly if it does (`parseBody_accepts`). That is not enough for its
weights and delays to be sound: comparisons let NaN and infinity pass, and a
sum may be too large. `NumbersFit` says what is missing.
-/
import Caips.Coreai.PolicyFileTheorems
import Caips.Logic.Floats
import Caips.Logic.Sync

namespace Caips.Coreai

open Caips.Logic Caips.Logic.Binary64

/-! ## Sound policies -/

/-- A finite number of milliseconds, more than 0. -/
def Delay (x : Float) : Prop := x.isFinite = true ∧ 0 < toRat x

/-- What the router relies on of a policy. -/
structure ParsedPolicy.Sound (p : ParsedPolicy) : Prop where
  weights : Shares p.costWeight p.latencyWeight
  ceiling : ∀ x ∈ p.latencyCeilingMs, Delay x
  hedge : ∀ x ∈ p.hedgeAfterMs, Delay x
  chain : p.fallbackChain.Nodup
  disjoint : ∀ allow ∈ p.allow, ∀ n ∈ allow, n ∉ p.deny
  explicit : p.strategy = .explicit → p.provider ≠ none
  fallback : p.strategy = .fallback → p.fallbackChain ≠ []

/-- Validation refuses with `PolicyError`, or returns sound policies. -/
def Honest : Except PolicyFailure (Dict String ParsedPolicy) → Prop
  | .ok policies => ∀ p ∈ policies.values, p.Sound
  | .error (.policyError _) => True
  | .error (.other _) => False

/-! ## Valid documents -/

def YamlValue.text : YamlValue → Option String
  | .scalar (.str s) => some s
  | _ => none

def YamlValue.names : YamlValue → List String
  | .list items => items.filterMap YamlValue.text
  | _ => []

/-- A list of strings and nothing else. -/
def YamlValue.IsNames (v : YamlValue) : Prop := v = .list (v.names.map YamlValue.str)

/-- A string, or nothing. -/
def YamlValue.IsText (v : YamlValue) : Prop := v = .null ∨ ∃ s, v = .str s

/-- The providers are registered, where that is known. -/
def AllKnown (known : Option (List String)) (names : List String) : Prop :=
  ∀ registered ∈ known, ∀ n ∈ names, n ∈ registered

/-- Weights are numbers, not negative, and not both 0. -/
def WeightsValid : YamlValue → Prop
  | .scalar .null => True
  | .dict weights =>
    (∀ e ∈ weights, e.1 = .str "cost" ∨ e.1 = .str "latency") ∧
      ∃ c lat, number (lookupD weights "cost" (.scalar (.float 0))) = .ok (some c) ∧
        number (lookupD weights "latency" (.scalar (.float 0))) = .ok (some lat) ∧
        ¬ c < 0 ∧ ¬ lat < 0 ∧ (c + lat == 0) = false
  | _ => False

def DelayValid : YamlValue → Prop
  | .scalar .null => True
  | v => ∃ x, number v = .ok (some x) ∧ ¬ x ≤ 0

/-- What the fields of a body with names must be. -/
structure NamesValid (known : Option (List String)) (body : YamlEntries) (strategy : PolicyStrategy) : Prop where
  chain : (lookupD body "fallback_chain" (.list [])).IsNames
  distinct : (lookupD body "fallback_chain" (.list [])).names.Nodup
  chainRegistered : AllKnown known (lookupD body "fallback_chain" (.list [])).names
  allow : ∀ v ∈ Dict.find (.str "allow") body, v.IsNames ∧ AllKnown known v.names
  deny : (lookupD body "deny" (.list [])).IsNames
  denyRegistered : AllKnown known (lookupD body "deny" (.list [])).names
  disjoint : ∀ v ∈ Dict.find (.str "allow") body, ∀ n ∈ v.names, n ∉ (lookupD body "deny" (.list [])).names
  provider : (lookupD body "provider" .null).IsText
  providerRegistered : AllKnown known (lookupD body "provider" .null).text.toList
  explicit : strategy = .explicit → (lookupD body "provider" .null).text ≠ none
  fallback : strategy = .fallback → (lookupD body "fallback_chain" (.list [])).names ≠ []
  model : (lookupD body "model" .null).IsText
  fallbackModel : (lookupD body "fallback_model" .null).IsText

/-- What a body must be. -/
structure BodyValid (known : Option (List String)) (body : YamlEntries) : Prop where
  keys : unknownKeys body = []
  weights : WeightsValid (lookupD body "weights" .null)
  ceiling : DelayValid (lookupD body "latency_ceiling_ms" .null)
  hedge : DelayValid (lookupD body "hedge_after_ms" .null)
  names : ∃ strategy, strategyOf (lookupD body "strategy" (.str "cost_aware")) = some strategy ∧
    NamesValid known body strategy

/-- The entry has a name that can be written, and a valid body. -/
def EntryValid (known : Option (List String)) (e : YamlScalar × YamlValue) : Prop :=
  e.1.writable = true ∧ ∃ body, e.2 = .dict body ∧ BodyValid known body

/-! ## Finite numbers -/

/-- A number of the document that is not NaN and not infinite. -/
def YamlValue.finite : YamlValue → Prop
  | .scalar (.float x) => x.isFinite = true
  | _ => True

def YamlValue.toFloat : YamlValue → Float
  | .scalar k => k.toFloat
  | _ => 0

/-- Weights that are finite, with a sum that is not too large. -/
def WeightsFit : YamlValue → Prop
  | .dict weights =>
    (lookupD weights "cost" (.scalar (.float 0))).finite ∧
      (lookupD weights "latency" (.scalar (.float 0))).finite ∧
      toRat (lookupD weights "cost" (.scalar (.float 0))).toFloat +
        toRat (lookupD weights "latency" (.scalar (.float 0))).toFloat < overflow
  | _ => True

/-- The numbers of a body are finite, and the sum of its weights is not too large. -/
structure NumbersFit (body : YamlEntries) : Prop where
  weights : WeightsFit (lookupD body "weights" .null)
  ceiling : (lookupD body "latency_ceiling_ms" .null).finite
  hedge : (lookupD body "hedge_after_ms" .null).finite

/-! ## Names -/

theorem eq_str_of_text {v : YamlValue} {s : String} (h : v.text = some s) : v = .str s := by
  cases v with
  | scalar k =>
    cases k with
    | str s' => exact congrArg YamlValue.str (Option.some.inj h)
    | _ => exact nomatch h
  | _ => exact nomatch h

/-- All items are strings if none was left out. -/
theorem filterMap_text_length : ∀ items : List YamlValue,
    (items.filterMap YamlValue.text).length = items.length ↔
      items = (items.filterMap YamlValue.text).map YamlValue.str
  | [] => by simp
  | v :: items => by
      have ih := filterMap_text_length items
      cases htext : v.text with
      | none =>
        have hle := List.length_filterMap_le YamlValue.text items
        rw [List.filterMap_cons_none htext]
        constructor
        · intro h
          simp only [List.length_cons] at h
          omega
        · intro h
          have := congrArg List.length h
          simp only [List.length_cons, List.length_map] at this
          omega
      | some s =>
        rw [List.filterMap_cons_some htext, List.length_cons, List.length_cons, Nat.add_right_cancel_iff, ih,
          List.map_cons, List.cons.injEq, and_iff_right (eq_str_of_text htext)]

section

variable (S : PolicySetting) {known : Option (List String)} {place : String} {v : YamlValue}

theorem nameList_list (items : List YamlValue) :
    nameList place (.list items) =
      if (items.filterMap YamlValue.text).length = items.length then (items.filterMap YamlValue.text, [])
      else ([], [s!"{place}: must be a list of provider names"]) := rfl

theorem isNames_list (items : List YamlValue) :
    (YamlValue.list items).IsNames ↔ (items.filterMap YamlValue.text).length = items.length := by
  rw [filterMap_text_length, YamlValue.IsNames, YamlValue.list.injEq]
  rfl

theorem nameList_iff : (nameList place v).2 = [] ↔ v.IsNames := by
  cases v with
  | list items =>
    rw [isNames_list, nameList_list]
    split
    · next h => exact ⟨fun _ => h, fun _ => rfl⟩
    · next h => exact ⟨fun hnil => absurd hnil (List.cons_ne_nil _ _), fun hlen => absurd hlen h⟩
  | scalar k => simp [nameList, YamlValue.IsNames]
  | dict entries => simp [nameList, YamlValue.IsNames]
  | other items => simp [nameList, YamlValue.IsNames]

theorem nameList_fst (h : v.IsNames) : (nameList place v).1 = v.names := by
  cases v with
  | list items => rw [nameList_list, if_pos ((isNames_list items).mp h)]; rfl
  | scalar k => rfl
  | dict entries => rfl
  | other items => rfl

theorem checkProviders_iff {names : List String} :
    checkProviders S known place names = [] ↔ AllKnown known names := by
  unfold checkProviders AllKnown
  cases known with
  | none => simp
  | some known => simp [List.filter_eq_nil_iff]

theorem checkChain_fst (h : v.IsNames) : (checkChain S known place v).1 = v.names := nameList_fst h

theorem checkChain_iff :
    (checkChain S known place v).2 = [] ↔ v.IsNames ∧ v.names.Nodup ∧ AllKnown known v.names := by
  simp only [checkChain, List.append_eq_nil_iff, nameList_iff, checkProviders_iff, and_assoc]
  refine and_congr_right fun h => ?_
  rw [nameList_fst h]
  refine and_congr_left fun _ => ?_
  split
  · next hnodup => exact ⟨fun _ => hnodup, fun _ => rfl⟩
  · next hdup => exact ⟨fun hnil => absurd hnil (List.cons_ne_nil _ _), fun hnodup => absurd hnodup hdup⟩

theorem checkSet_fst (h : v.IsNames) : (checkSet S known place v).1 = v.names.dedup :=
  congrArg List.dedup (nameList_fst h)

theorem checkSet_iff : (checkSet S known place v).2 = [] ↔ v.IsNames ∧ AllKnown known v.names := by
  simp only [checkSet, List.append_eq_nil_iff, nameList_iff, checkProviders_iff]
  refine and_congr_right fun h => ?_
  rw [nameList_fst h]
  simp only [AllKnown, List.mem_dedup]

theorem not_isText (hnull : v ≠ .null) (htext : v.text = none) : ¬ v.IsText := by
  rintro (h | ⟨s, rfl⟩)
  · exact hnull h
  · exact nomatch htext

theorem checkProvider_fst : (checkProvider S known place v).1 = v.text := by
  cases v with
  | scalar k => cases k <;> rfl
  | list items => rfl
  | dict entries => rfl
  | other items => rfl

theorem problem_iff_isText {problem : String} (hnull : v ≠ .null) (htext : v.text = none) : [problem] = [] ↔ v.IsText :=
  iff_of_false (List.cons_ne_nil _ _) (not_isText hnull htext)

theorem checkProvider_iff :
    (checkProvider S known place v).2 = [] ↔ v.IsText ∧ AllKnown known v.text.toList := by
  have hno : ∀ {v : YamlValue} {problem : String}, v ≠ .null → v.text = none →
      ([problem] = [] ↔ v.IsText ∧ AllKnown known v.text.toList) := by
    intro v problem hnull htext
    rw [problem_iff_isText hnull htext, htext]
    simp [AllKnown]
  cases v with
  | scalar k =>
    cases k with
    | null => exact ⟨fun _ => ⟨.inl rfl, fun _ _ _ h => nomatch h⟩, fun _ => rfl⟩
    | str s =>
      rw [and_iff_right (.inr ⟨s, rfl⟩)]
      exact checkProviders_iff S
    | _ => exact hno nofun rfl
  | list items => exact hno nofun rfl
  | dict entries => exact hno nofun rfl
  | other items => exact hno nofun rfl

theorem checkModel_iff {field : String} : (checkModel place field v).2 = [] ↔ v.IsText := by
  cases v with
  | scalar k =>
    cases k with
    | null => exact ⟨fun _ => .inl rfl, fun _ => rfl⟩
    | str s => exact ⟨fun _ => .inr ⟨s, rfl⟩, fun _ => rfl⟩
    | _ => exact problem_iff_isText nofun rfl
  | list items => exact problem_iff_isText nofun rfl
  | dict entries => exact problem_iff_isText nofun rfl
  | other items => exact problem_iff_isText nofun rfl

theorem checkDisjoint_iff {allow : Option (List String)} {deny : List String} :
    checkDisjoint S place allow deny = [] ↔ ∀ names ∈ allow, ∀ n ∈ names, n ∉ deny := by
  cases allow with
  | none => simp [checkDisjoint]
  | some names =>
    have hboth : (names.filter fun n => n ∈ deny) = [] ↔ ∀ n ∈ names, n ∉ deny := by
      simp [List.filter_eq_nil_iff]
    simp only [checkDisjoint, Option.mem_def, Option.some.injEq, forall_eq']
    rw [← hboth]
    split
    · next h => exact ⟨fun _ => h, fun _ => rfl⟩
    · next h => exact ⟨fun hnil => absurd hnil (List.cons_ne_nil _ _), fun hnil => absurd hnil h⟩

theorem problem_iff {p : Prop} [Decidable p] {problem : String} : (if p then [problem] else []) = [] ↔ ¬ p := by
  split <;> simp_all

end

section

variable (S : PolicySetting) (known : Option (List String)) (place name : String) (body : YamlEntries)
  (strategy : PolicyStrategy) (weights : Float × Float) (ceiling hedge : Option Float)

theorem checkAllow_iff (allow : Option YamlValue) :
    (allow.map (checkSet S known place)).elim [] Prod.snd = [] ↔
      ∀ v ∈ allow, v.IsNames ∧ AllKnown known v.names := by
  cases allow with
  | none => simp
  | some v => simpa using checkSet_iff S

theorem disjoint_iff {allow : Option YamlValue} {deny : YamlValue} {place' : String}
    (hallow : ∀ v ∈ allow, v.IsNames) (hdeny : deny.IsNames) :
    (∀ names ∈ (allow.map (checkSet S known place)).map Prod.fst, ∀ n ∈ names,
        n ∉ (checkSet S known place' deny).1) ↔
      ∀ v ∈ allow, ∀ n ∈ v.names, n ∉ deny.names := by
  rw [checkSet_fst S hdeny]
  cases allow with
  | none => simp
  | some v =>
    have hfst : (checkSet S known place v).1 = v.names.dedup := checkSet_fst S (hallow v rfl)
    simp [hfst]

/-- The names in a body have no problem if they are valid. -/
theorem checkNames_iff :
    (checkNames S known place name body strategy weights ceiling hedge).2 = [] ↔ NamesValid known body strategy := by
  simp only [checkNames, List.append_eq_nil_iff, checkChain_iff, checkAllow_iff, checkSet_iff, checkProvider_iff,
    checkModel_iff, checkProvider_fst, checkDisjoint_iff, problem_iff, and_assoc]
  constructor
  · rintro ⟨hchain, hdistinct, hregistered, hallow, hdeny, hdenied, hdisjoint, hprovider, hprovided, hexplicit,
      hfallback, hmodel, hfallbackModel⟩
    rw [checkChain_fst S hchain] at hfallback
    exact
      { chain := hchain
        distinct := hdistinct
        chainRegistered := hregistered
        allow := hallow
        deny := hdeny
        denyRegistered := hdenied
        disjoint := (disjoint_iff S known _ (fun v hv => (hallow v hv).1) hdeny).mp hdisjoint
        provider := hprovider
        providerRegistered := hprovided
        explicit := fun hs htext => hexplicit ⟨hs, htext⟩
        fallback := fun hs hnil => hfallback ⟨hs, hnil⟩
        model := hmodel
        fallbackModel := hfallbackModel }
  · intro h
    refine ⟨h.chain, h.distinct, h.chainRegistered, h.allow, h.deny, h.denyRegistered,
      (disjoint_iff S known _ (fun v hv => (h.allow v hv).1) h.deny).mpr h.disjoint, h.provider, h.providerRegistered,
      fun he => h.explicit he.1 he.2, fun hf => ?_, h.model, h.fallbackModel⟩
    rw [checkChain_fst S h.chain] at hf
    exact h.fallback hf.1 hf.2

/-- The policy of a body with valid names is sound if its numbers are. -/
theorem checkNames_sound (h : NamesValid known body strategy) :
    (checkNames S known place name body strategy weights ceiling hedge).1.Sound ↔
      Shares weights.1 weights.2 ∧ (∀ x ∈ ceiling, Delay x) ∧ ∀ x ∈ hedge, Delay x := by
  constructor
  · intro hsound
    exact ⟨hsound.weights, hsound.ceiling, hsound.hedge⟩
  · rintro ⟨hweights, hceiling, hhedge⟩
    refine ⟨hweights, hceiling, hhedge, ?_, ?_, fun hs => ?_, fun hs => ?_⟩
    · change (checkChain S known place _).1.Nodup
      rw [checkChain_fst S h.chain]
      exact h.distinct
    · exact (disjoint_iff S known _ (fun v hv => (h.allow v hv).1) h.deny).mpr h.disjoint
    · change (checkProvider S known place _).1 ≠ none
      rw [checkProvider_fst]
      exact h.explicit hs
    · change (checkChain S known place _).1 ≠ []
      rw [checkChain_fst S h.chain]
      exact h.fallback hs

end

/-! ## Numbers -/

/-- A number is finite if the document's is: no integer that is a float is infinite. -/
theorem of_number {v : YamlValue} {x : Float} (h : number v = .ok (some x)) :
    x = v.toFloat ∧ (x.isFinite = true ↔ v.finite) := by
  cases v with
  | scalar k =>
    cases k with
    | int n =>
      simp only [number] at h
      split at h
      · cases h
      · next hinf =>
          obtain rfl := Option.some.inj (Except.ok.inj h)
          exact ⟨rfl, fun _ => trivial, fun _ => ofInt_isFinite (Bool.eq_false_of_not_eq_true hinf)⟩
    | float y =>
      obtain rfl := Option.some.inj (Except.ok.inj h)
      exact ⟨rfl, Iff.rfl⟩
    | _ => cases h
  | list items => cases h
  | dict entries => cases h
  | other items => cases h

section

variable {place field : String} {v : YamlValue}

variable {w : Float × Float}

/-- Two numbers have no problem as weights if they are not negative, and not both 0. -/
theorem weigh_iff {c lat : Float} {negative zero : String} :
    (if c < 0 ∨ lat < 0 then .ok (defaultCostAwareWeights, [negative])
      else if (c + lat == 0) = true then .ok (defaultCostAwareWeights, [zero])
      else .ok ((c / (c + lat), lat / (c + lat)), []) : Except PolicyFailure ((Float × Float) × List String)) =
        .ok (w, []) ↔
      ¬ c < 0 ∧ ¬ lat < 0 ∧ (c + lat == 0) = false ∧ w = (c / (c + lat), lat / (c + lat)) := by
  split
  · next h =>
      constructor
      · exact fun heq => nomatch heq
      · exact fun hw => absurd h (not_or.mpr ⟨hw.1, hw.2.1⟩)
  · next h =>
      rw [not_or] at h
      rw [and_iff_right h.1, and_iff_right h.2]
      split
      · next hzero => simp [hzero]
      · next hne =>
          rw [and_iff_right (Bool.eq_false_of_not_eq_true hne)]
          simp [eq_comm]

/-- What it takes for weights to have no problem. -/
theorem checkWeights_ok_iff {weights : YamlEntries} :
    checkWeights place (.dict weights) = .ok (w, []) ↔
      (∀ e ∈ weights, e.1 = .str "cost" ∨ e.1 = .str "latency") ∧
        ∃ c lat, number (lookupD weights "cost" (.scalar (.float 0))) = .ok (some c) ∧
          number (lookupD weights "latency" (.scalar (.float 0))) = .ok (some lat) ∧
          ¬ c < 0 ∧ ¬ lat < 0 ∧ (c + lat == 0) = false ∧ w = (c / (c + lat), lat / (c + lat)) := by
  have hkeys : (weights.any fun e => e.1 ≠ .str "cost" && e.1 ≠ .str "latency") = false ↔
      ∀ e ∈ weights, e.1 = .str "cost" ∨ e.1 = .str "latency" := by
    simp only [List.any_eq_false, Bool.and_eq_true, decide_eq_true_eq]
    exact forall₂_congr fun e _ => by tauto
  rw [← hkeys]
  simp only [checkWeights]
  by_cases hany : (weights.any fun e => e.1 ≠ .str "cost" && e.1 ≠ .str "latency") = true
  · rw [if_pos hany, hany]
    simp
  · rw [if_neg hany, and_iff_right (Bool.eq_false_of_not_eq_true hany)]
    cases hc : number (lookupD weights "cost" (.scalar (.float 0))) with
    | error e => simp [bind, Except.bind]
    | ok c =>
      cases hl : number (lookupD weights "latency" (.scalar (.float 0))) with
      | error e => simp [bind, Except.bind]
      | ok lat =>
        cases c with
        | none => simp [bind, Except.bind, pure, Except.pure]
        | some c =>
          cases lat with
          | none => simp [bind, Except.bind, pure, Except.pure]
          | some lat =>
            simp only [bind, Except.bind, pure, Except.pure, Bool.or_eq_true, decide_eq_true_eq]
            rw [weigh_iff]
            constructor
            · exact fun h => ⟨c, lat, rfl, rfl, h⟩
            · rintro ⟨c', lat', hc', hlat', h⟩
              obtain rfl := Option.some.inj (Except.ok.inj hc')
              obtain rfl := Option.some.inj (Except.ok.inj hlat')
              exact h

theorem checkWeights_valid : (∃ w, checkWeights place v = .ok (w, [])) ↔ WeightsValid v := by
  cases v with
  | scalar k =>
    cases k with
    | null => exact ⟨fun _ => trivial, fun _ => ⟨_, rfl⟩⟩
    | _ => exact ⟨(fun ⟨_, h⟩ => nomatch h), False.elim⟩
  | list items => exact ⟨(fun ⟨_, h⟩ => nomatch h), False.elim⟩
  | other items => exact ⟨(fun ⟨_, h⟩ => nomatch h), False.elim⟩
  | dict weights =>
    simp only [checkWeights_ok_iff]
    constructor
    · rintro ⟨w, hkeys, c, lat, hc, hlat, hc0, hlat0, hne, -⟩
      exact ⟨hkeys, c, lat, hc, hlat, hc0, hlat0, hne⟩
    · rintro ⟨hkeys, c, lat, hc, hlat, hc0, hlat0, hne⟩
      exact ⟨_, hkeys, c, lat, hc, hlat, hc0, hlat0, hne, rfl⟩

theorem shares_default : Shares defaultCostAwareWeights.1 defaultCostAwareWeights.2 := by
  have hcost : unpacked defaultCostAwareWeights.1 = .finite .positive 6305039478318694 (-53) (by norm_num) := rfl
  have hlatency : unpacked defaultCostAwareWeights.2 = .finite .positive 5404319552844595 (-54) (by norm_num) := rfl
  refine ⟨⟨?_, ?_⟩, ?_, ?_, ?_⟩
  · rw [isFinite_eq, hcost]
    rfl
  · rw [isFinite_eq, hlatency]
    rfl
  all_goals
    simp only [toRat, hcost, hlatency, value]
    norm_num

/-- Weights without problems become shares if they fit. -/
theorem checkWeights_shares (h : checkWeights place v = .ok (w, [])) :
    Shares w.1 w.2 ↔ WeightsFit v := by
  cases v with
  | scalar k =>
    cases k with
    | null =>
      obtain rfl := (Prod.mk.inj (Except.ok.inj h)).1
      exact ⟨fun _ => trivial, fun _ => shares_default⟩
    | _ => exact nomatch h
  | list items => exact nomatch h
  | other items => exact nomatch h
  | dict weights =>
    obtain ⟨-, c, lat, hc, hlat, hc0, hlat0, hne, rfl⟩ := checkWeights_ok_iff.mp h
    obtain ⟨rfl, hcost⟩ := of_number hc
    obtain ⟨rfl, hlatency⟩ := of_number hlat
    rw [shares_iff hc0 hlat0 hne, hcost, hlatency]
    rfl

/-- What it takes for a delay to have no problem. -/
theorem checkPositive_ok_iff (hnull : v ≠ .null) {o : Option Float} :
    checkPositive place field v = .ok (o, []) ↔ ∃ x, number v = .ok (some x) ∧ ¬ x ≤ 0 ∧ o = some x := by
  unfold checkPositive
  split
  · exact absurd rfl hnull
  · cases hx : number v with
    | error e => simp [bind, Except.bind]
    | ok x =>
      cases x with
      | none => simp [bind, Except.bind, pure, Except.pure]
      | some x =>
        simp only [bind, Except.bind, pure, Except.pure, Except.ok.injEq, Option.some.injEq, exists_eq_left']
        split
        · next hle => simp [hle]
        · next hgt => simp [hgt, eq_comm]

theorem checkPositive_valid : (∃ o, checkPositive place field v = .ok (o, [])) ↔ DelayValid v := by
  by_cases hnull : v = .null
  · rw [hnull]
    exact ⟨fun _ => trivial, fun _ => ⟨none, rfl⟩⟩
  · have hvalid : DelayValid v ↔ ∃ x, number v = .ok (some x) ∧ ¬ x ≤ 0 := by
      unfold DelayValid
      split
      · exact absurd rfl hnull
      · exact Iff.rfl
    simp only [checkPositive_ok_iff hnull, hvalid]
    constructor
    · rintro ⟨o, x, hx, hle, -⟩
      exact ⟨x, hx, hle⟩
    · rintro ⟨x, hx, hle⟩
      exact ⟨some x, x, hx, hle, rfl⟩

/-- A delay without problems is one if it is finite. -/
theorem checkPositive_delay {o : Option Float} (h : checkPositive place field v = .ok (o, [])) :
    (∀ x ∈ o, Delay x) ↔ v.finite := by
  by_cases hnull : v = .null
  · rw [hnull] at h
    obtain rfl := (Prod.mk.inj (Except.ok.inj h)).1
    rw [hnull]
    exact ⟨fun _ => trivial, fun _ _ hx => nomatch hx⟩
  · obtain ⟨x, hx, hle, rfl⟩ := (checkPositive_ok_iff hnull).mp h
    rw [← (of_number hx).2]
    constructor
    · exact fun hdelay => (hdelay x rfl).1
    · intro hfinite y hy
      obtain rfl := Option.some.inj hy
      exact ⟨hfinite, toRat_pos hle hfinite⟩

end

/-! ## Bodies -/

section

variable (S : PolicySetting) {known : Option (List String)}

theorem checkKeys_iff {place : String} {body : YamlEntries} :
    checkKeys S place body = .ok [] ↔ unknownKeys body = [] := by
  unfold checkKeys sortKeys
  constructor
  · intro h
    split at h
    · have hnil := List.forall₂_nil_right_iff.mp (forall₂_of_mapM h)
      exact List.nil_perm.mp (hnil ▸ List.mergeSort_perm _ _)
    · exact nomatch h
  · intro h
    simp [h, sortable, bind, Except.bind, pure, Except.pure]

theorem keyText_writable {k : YamlScalar} : (∃ text, keyText S k = .ok text) ↔ k.writable = true := by
  unfold keyText
  split
  · exact ⟨fun _ => rfl, fun _ => ⟨_, rfl⟩⟩
  · split
    · next h => exact ⟨fun _ => h, fun _ => ⟨_, rfl⟩⟩
    · next h => exact ⟨(fun ⟨_, h⟩ => nomatch h), fun hw => absurd hw h⟩

/-- An entry is accepted exactly if it is valid. -/
theorem parseBody_accepts (e : YamlScalar × YamlValue) :
    (∃ policy, parseBody S known e.1 e.2 = .ok ([], policy)) ↔ EntryValid known e := by
  simp only [parseBody_ok_iff, checkKeys_iff, checkNames_iff]
  constructor
  · rintro ⟨policy, text, body, strategy, weights, ceiling, hedge, htext, hbody, hkeys, hs, hw, hc, hh, hnames, -⟩
    exact ⟨(keyText_writable S).mp ⟨text, htext⟩, body, hbody,
      { keys := hkeys
        weights := checkWeights_valid.mp ⟨weights, hw⟩
        ceiling := checkPositive_valid.mp ⟨ceiling, hc⟩
        hedge := checkPositive_valid.mp ⟨hedge, hh⟩
        names := ⟨strategy, hs, hnames⟩ }⟩
  · rintro ⟨hwritable, body, hbody, h⟩
    obtain ⟨text, htext⟩ := (keyText_writable S).mpr hwritable
    obtain ⟨strategy, hs, hnames⟩ := h.names
    obtain ⟨weights, hw⟩ := checkWeights_valid.mpr h.weights
    obtain ⟨ceiling, hc⟩ := checkPositive_valid.mpr h.ceiling
    obtain ⟨hedge, hh⟩ := checkPositive_valid.mpr h.hedge
    exact ⟨_, text, body, strategy, weights, ceiling, hedge, htext, hbody, h.keys, hs, hw, hc, hh, hnames, rfl⟩

variable {e : YamlScalar × YamlValue}

theorem parseBody_sound {policy : Option ParsedPolicy}
    (h : parseBody S known e.1 e.2 = .ok ([], policy)) :
    ∃ p body, policy = some p ∧ e.2 = .dict body ∧ keyText S e.1 = .ok p.name ∧ (p.Sound ↔ NumbersFit body) := by
  obtain ⟨text, body, strategy, weights, ceiling, hedge, htext, hbody, -, -, hw, hc, hh, hnames, rfl⟩ :=
    (parseBody_ok_iff S).mp h
  refine ⟨_, body, rfl, hbody, htext, ?_⟩
  rw [checkNames_sound S known _ _ _ _ _ _ _ ((checkNames_iff S known _ _ _ _ _ _ _).mp hnames),
    checkWeights_shares hw, checkPositive_delay hc, checkPositive_delay hh]
  exact ⟨fun ⟨h1, h2, h3⟩ => ⟨h1, h2, h3⟩, fun ⟨h1, h2, h3⟩ => ⟨h1, h2, h3⟩⟩

/-! ## Documents -/

theorem forall₂_append_cons {α β : Type} {R : α → β → Prop} {a : α} {after : List α} {bs : List β} :
    ∀ {before : List α}, List.Forall₂ R (before ++ a :: after) bs →
      ∃ bs₁ b bs₂, bs = bs₁ ++ b :: bs₂ ∧ R a b ∧ List.Forall₂ R after bs₂
  | [], h => by
      obtain ⟨b, bs₂, hab, hafter, rfl⟩ := List.forall₂_cons_left_iff.mp h
      exact ⟨[], b, bs₂, rfl, hab, hafter⟩
  | a' :: before, h => by
      obtain ⟨b', bs', hb', hrest, rfl⟩ := List.forall₂_cons_left_iff.mp h
      obtain ⟨bs₁, b, bs₂, rfl, hab, hafter⟩ := forall₂_append_cons hrest
      exact ⟨b' :: bs₁, b, bs₂, rfl, hab, hafter⟩

/-- The loop accepts all bodies, or finds a problem. -/
theorem parseEntries_ok_iff : ∀ {l : YamlEntries} {ps : List ParsedPolicy},
    parseEntries S known l = .ok ([], ps) ↔
      List.Forall₂ (fun e p => parseBody S known e.1 e.2 = .ok ([], some p)) l ps
  | [], ps => by
      rw [List.forall₂_nil_left_iff]
      exact ⟨fun h => (Prod.mk.inj (Except.ok.inj h)).2.symm, fun h => h ▸ rfl⟩
  | e :: l, ps => by
      rw [List.forall₂_cons_left_iff]
      constructor
      · intro h
        obtain ⟨⟨problems, policy⟩, hfirst, h⟩ := ok_of_bind h
        obtain ⟨⟨problems', policies⟩, hrest, h⟩ := ok_of_bind h
        obtain ⟨hproblems, hpolicies⟩ := Prod.mk.inj (Except.ok.inj h)
        obtain ⟨rfl, rfl⟩ := List.append_eq_nil_iff.mp hproblems
        obtain ⟨p, -, rfl, -⟩ := parseBody_sound S hfirst
        exact ⟨p, policies, hfirst, parseEntries_ok_iff.mp hrest, hpolicies.symm⟩
      · rintro ⟨p, policies, hfirst, hrest, rfl⟩
        rw [parseEntries, hfirst, parseEntries_ok_iff.mpr hrest]
        rfl

/-- The entries under `policies`, if there are any. -/
def policiesOf : YamlValue → YamlEntries
  | .dict document => match lookupD document "policies" .null with
    | .dict raw => raw
    | _ => []
  | _ => []

/-- An entry of which no later one has the name: its policy stays. -/
def LastNamed (raw : YamlEntries) (e : YamlScalar × YamlValue) : Prop :=
  ∃ before after, raw = before ++ e :: after ∧ ∀ e' ∈ after, keyText S e'.1 ≠ keyText S e.1

/-- All entries are valid if the loop accepts them. -/
theorem valid_of_parseEntries {l : YamlEntries} :
    (∃ ps, parseEntries S known l = .ok ([], ps)) ↔ ∀ e ∈ l, EntryValid known e := by
  constructor
  · rintro ⟨ps, h⟩ e he
    exact (parseBody_accepts S e).mp (of_parseEntries_ok S h e he)
  · intro h
    induction l with
    | nil => exact ⟨[], rfl⟩
    | cons e l ih =>
      obtain ⟨policy, hfirst⟩ := (parseBody_accepts S e).mpr (h e List.mem_cons_self)
      obtain ⟨p, -, rfl, -⟩ := parseBody_sound S hfirst
      obtain ⟨ps, hrest⟩ := ih fun e' he' => h e' (List.mem_cons_of_mem e he')
      exact ⟨p :: ps, (parseEntries_ok_iff S).mpr (.cons hfirst ((parseEntries_ok_iff S).mp hrest))⟩

theorem keyText_of_accepted {p : ParsedPolicy}
    (h : parseBody S known e.1 e.2 = .ok ([], some p)) : keyText S e.1 = .ok p.name := by
  obtain ⟨p', -, hp, -, htext, -⟩ := parseBody_sound S h
  rw [Option.some.inj hp]
  exact htext

theorem sound_of_accepted {p : ParsedPolicy}
    (h : parseBody S known e.1 e.2 = .ok ([], some p)) : ∃ body, e.2 = .dict body ∧ (p.Sound ↔ NumbersFit body) := by
  obtain ⟨p', body, hp, hbody, -, hsound⟩ := parseBody_sound S h
  rw [Option.some.inj hp]
  exact ⟨body, hbody, hsound⟩

/-- The policies that stay are sound if the numbers of their entries fit. -/
theorem values_sound {l : YamlEntries} {ps : List ParsedPolicy} (h : parseEntries S known l = .ok ([], ps)) :
    (∀ p ∈ (byName ps).values, p.Sound) ↔ ∀ e body, LastNamed S l e → e.2 = .dict body → NumbersFit body := by
  have hall := (parseEntries_ok_iff S).mp h
  constructor
  · rintro hvalues e body ⟨before, after, rfl, hlast⟩ hbody
    obtain ⟨ps₁, p, ps₂, rfl, hp, hafter⟩ := forall₂_append_cons hall
    have hget : (byName (ps₁ ++ p :: ps₂)).get? p.name = some p := by
      refine Dict.get?_ofList_iff.mpr ⟨ps₁.map fun p => (p.name, p), ps₂.map fun p => (p.name, p), by simp, ?_⟩
      intro hmem
      simp only [List.map_map, List.mem_map, Function.comp_apply] at hmem
      obtain ⟨q, hq, hname⟩ := hmem
      obtain ⟨e', he', hq'⟩ := exists_of_forall₂ hafter.flip q hq
      exact hlast e' he' (by rw [keyText_of_accepted S hq', keyText_of_accepted S hp, hname])
    obtain ⟨body', hbody', hsound⟩ := sound_of_accepted S hp
    obtain rfl := YamlValue.dict.inj (hbody'.symm.trans hbody)
    exact hsound.mp (hvalues p (Dict.mem_values hget))
  · intro hfits p hp
    obtain ⟨k, hget⟩ := Dict.exists_of_mem_values hp
    obtain ⟨l₁, l₂, hsplit, hnot⟩ := Dict.get?_ofList_iff.mp hget
    obtain ⟨ps₁, rest, rfl, -, hrest⟩ := List.map_eq_append_iff.mp hsplit
    obtain ⟨p', ps₂, rfl, hp', rfl⟩ := List.map_eq_cons_iff.mp hrest
    obtain ⟨rfl, rfl⟩ := Prod.mk.inj hp'
    obtain ⟨before, e, after, rfl, he, hafter⟩ := forall₂_append_cons hall.flip
    obtain ⟨body, hbody, hsound⟩ := sound_of_accepted S he
    refine hsound.mpr (hfits e body ⟨before, after, rfl, fun e' he' hname => hnot ?_⟩ hbody)
    obtain ⟨q, hq, hq'⟩ := exists_of_forall₂ hafter.flip e' he'
    rw [keyText_of_accepted S hq', keyText_of_accepted S he] at hname
    exact List.mem_map.mpr ⟨(q.name, q), List.mem_map_of_mem hq, Except.ok.inj hname⟩

theorem policiesOf_dict (document : YamlEntries) :
    policiesOf (.dict document) = match lookupD document "policies" .null with
      | .dict raw => raw
      | _ => [] := rfl

/-- Without policies, validation refuses. -/
theorem parsePolicies_nil {data : YamlValue} (h : policiesOf data = []) :
    ∃ problems, parsePolicies S known data = .error (.policyError problems) := by
  cases data with
  | dict document =>
    rw [policiesOf_dict] at h
    cases hraw : lookupD document "policies" .null with
    | dict raw =>
      rw [hraw] at h
      obtain rfl : raw = [] := h
      simp only [parsePolicies, hraw]
      exact ⟨_, rfl⟩
    | _ =>
      simp only [parsePolicies, hraw]
      exact ⟨_, rfl⟩
  | _ => exact ⟨_, rfl⟩

/-- With policies, it runs the loop. -/
theorem parsePolicies_cons {data : YamlValue} (h : policiesOf data ≠ []) :
    parsePolicies S known data = (do
      let parsed ← parseEntries S known (policiesOf data)
      if parsed.1 = [] then return byName parsed.2 else .error (.policyError parsed.1)) := by
  cases data with
  | dict document =>
    rw [policiesOf_dict] at h ⊢
    cases hraw : lookupD document "policies" .null with
    | dict raw =>
      rw [hraw] at h
      obtain ⟨e, raw, rfl⟩ := List.exists_cons_of_ne_nil h
      simp only [parsePolicies, hraw]
    | _ => exact absurd (by rw [hraw]) h
  | _ => exact absurd rfl h

/-- Validation is honest on the documents that do not break it and where, if nothing else is wrong,
the numbers of the policies that stay fit. -/
theorem honest_iff (known : Option (List String)) (data : YamlValue) :
    Honest (parsePolicies S known data) ↔
      documentBreaks data = false ∧
        ((∀ e ∈ policiesOf data, EntryValid known e) →
          ∀ e body, LastNamed S (policiesOf data) e → e.2 = .dict body → NumbersFit body) := by
  have hother := parsePolicies_other S known data
  by_cases hbreaks : documentBreaks data = true
  · obtain ⟨e, he⟩ := hother.mpr hbreaks
    rw [he, hbreaks]
    simp [Honest]
  · rw [and_iff_right (Bool.eq_false_of_not_eq_true hbreaks)]
    by_cases hnil : policiesOf data = []
    · obtain ⟨problems, hrefused⟩ : ∃ problems, parsePolicies S known data = .error (.policyError problems) :=
        parsePolicies_nil S hnil
      rw [hrefused, hnil]
      refine ⟨fun _ _ e body hlast => ?_, fun _ => trivial⟩
      obtain ⟨before, after, hsplit, -⟩ := hlast
      simp at hsplit
    · have hcons : parsePolicies S known data = _ := parsePolicies_cons S hnil
      rw [← valid_of_parseEntries S]
      cases hloop : parseEntries S known (policiesOf data) with
      | error failure =>
        rw [hloop] at hcons
        cases failure with
        | policyError problems =>
          rw [hcons]
          exact ⟨(fun _ ⟨_, h⟩ => nomatch h), fun _ => trivial⟩
        | other e => exact absurd (hother.mp ⟨e, hcons⟩) hbreaks
      | ok parsed =>
        obtain ⟨problems, ps⟩ := parsed
        rw [hloop] at hcons
        by_cases hproblems : problems = []
        · subst hproblems
          have haccepted : parsePolicies S known data = .ok (byName ps) := hcons
          rw [haccepted]
          exact (values_sound S hloop).trans ⟨fun h _ => h, fun h => h ⟨ps, rfl⟩⟩
        · have hrefused : parsePolicies S known data = .error (.policyError problems) := by
            rw [hcons]
            simp [bind, Except.bind, hproblems]
          rw [hrefused]
          refine ⟨fun _ ⟨ps', h⟩ => ?_, fun _ => trivial⟩
          exact absurd (Prod.mk.inj (Except.ok.inj h)).1 hproblems

end

/-- `policies: {default: {latency_ceiling_ms: .nan}}`. -/
def endlessDocument : YamlValue :=
  .dict [(.str "policies", .dict [(.str "default", .dict [(.str "latency_ceiling_ms", .scalar (.float (0 / 0)))])])]

def endlessPolicy : ParsedPolicy where
  name := "default"
  strategy := .balanced
  costWeight := 0.7
  latencyWeight := 0.3
  latencyCeilingMs := some (0 / 0)
  hedgeAfterMs := none
  fallbackChain := []
  fallbackModel := none
  provider := none
  model := none
  allow := none
  deny := []

/-- A ceiling that is not a number is accepted. -/
theorem endless_ceiling : ¬Honest (parsePolicies routingSetting none endlessDocument) := by
  intro hhonest
  have hvalues : (parsePolicies routingSetting none endlessDocument).toOption.map Dict.values =
      some [endlessPolicy] := by
    decide +kernel
  cases hparse : parsePolicies routingSetting none endlessDocument with
  | error failure =>
    rw [hparse] at hvalues
    exact nomatch hvalues
  | ok policies =>
    rw [hparse] at hhonest hvalues
    have hmem : endlessPolicy ∈ policies.values := by
      rw [Option.some.inj hvalues]
      exact List.mem_cons_self
    have hceiling := (hhonest endlessPolicy hmem).ceiling (0 / 0) rfl
    exact absurd hceiling.1 (by decide +kernel)

end Caips.Coreai
