/-
Caips.Coreai.PolicyFileTheorems — which documents make validation raise
something other than `PolicyError`.

`documentBreaks` says it of the document alone: a body with unknown keys that
Python does not order, or an integer where it is too large to be a float or a
text. Every check settles its own part of that, and the parts add up along the
binds of `Except`.
-/
import Caips.Coreai.PolicyFile

namespace Caips.Coreai

open Caips.Logic

/-! ## Documents that break validation -/

def tooLarge : YamlValue → Bool
  | .scalar (.int n) => (Float.ofInt n).isInf
  | _ => false

/-- The weights of a body have a number that is no float. -/
def weightsBreak : YamlValue → Bool
  | .dict weights =>
    !(weights.any fun e => e.1 ≠ .str "cost" && e.1 ≠ .str "latency") &&
      (tooLarge (lookupD weights "cost" (.scalar (.float 0))) ||
        tooLarge (lookupD weights "latency" (.scalar (.float 0))))
  | _ => false

/-- A body whose validation raises something other than `PolicyError`. -/
def bodyBreaks (body : YamlEntries) : Bool :=
  !sortable (unknownKeys body) || (unknownKeys body).any (fun k => !k.writable) ||
    match strategyOf (lookupD body "strategy" (.str "cost_aware")) with
    | none => !(lookupD body "strategy" (.str "cost_aware")).writable
    | some _ => weightsBreak (lookupD body "weights" .null) ||
        tooLarge (lookupD body "latency_ceiling_ms" .null) || tooLarge (lookupD body "hedge_after_ms" .null)

/-- An entry under `policies`, likewise. -/
def entryBreaks (e : YamlScalar × YamlValue) : Bool :=
  !e.1.writable || match e.2 with
    | .dict body => bodyBreaks body
    | _ => false

def documentBreaks : YamlValue → Bool
  | .dict document => match lookupD document "policies" .null with
    | .dict raw => raw.any entryBreaks
    | _ => false
  | _ => false

/-- A file content, likewise: reading it raises, or its document breaks. -/
def FileContent.breaks : FileContent → Bool
  | .unreadable _ | .invalid _ => false
  | .raises _ => true
  | .document data => documentBreaks data

/-! ## Checks that raise or return -/

/-- The check raises another exception if `b`, and returns if not. -/
def Settles {α : Type} (x : Except PolicyFailure α) (b : Bool) : Prop :=
  if b then ∃ e, x = .error (.other e) else ∃ a, x = .ok a

variable {α β : Type} {x : Except PolicyFailure α} {b c : Bool}

theorem Settles.ok (a : α) : Settles (.ok a) false := ⟨a, rfl⟩

theorem Settles.raise (e : String) : Settles (.error (.other e) : Except PolicyFailure α) true := ⟨e, rfl⟩

theorem Settles.of_ite {p : Bool} {a : α} {e : String} :
    Settles (if p then .ok a else .error (.other e)) (!p) := by
  cases p
  · exact .raise e
  · exact .ok a

variable {f : α → Except PolicyFailure β} {known : Option (List String)} {policy : Option ParsedPolicy}
  {body : YamlValue}

theorem Settles.bind (hx : Settles x b)
    (hf : ∀ a, x = .ok a → Settles (f a) c) : Settles (x >>= f) (b || c) := by
  cases b with
  | true =>
    obtain ⟨e, rfl⟩ := hx
    exact .raise e
  | false =>
    obtain ⟨a, rfl⟩ := hx
    exact hf a rfl

theorem Settles.map (hx : Settles x b)
    (hf : ∀ a, Settles (f a) false) : Settles (x >>= f) b := by
  simpa using hx.bind (c := false) fun a _ => hf a

theorem Settles.mapM {p : α → Bool} (hf : ∀ a, Settles (f a) (p a)) :
    ∀ l : List α, Settles (l.mapM f) (l.any p)
  | [] => .ok []
  | a :: l => by
      rw [List.mapM_cons, List.any_cons]
      exact (hf a).bind fun b _ => (Settles.mapM hf l).map fun bs => .ok (b :: bs)

variable (S : PolicySetting)

theorem settles_keyText (k : YamlScalar) : Settles (keyText S k) (!k.writable) := by
  unfold keyText
  cases k with
  | str s => exact .ok s
  | _ => exact .of_ite

theorem settles_reprOf (v : YamlValue) : Settles (reprOf S v) (!v.writable) := Settles.of_ite

theorem settles_sortKeys (keys : List YamlScalar) : Settles (sortKeys keys) (!sortable keys) := Settles.of_ite

theorem settles_number (v : YamlValue) : Settles (number v) (tooLarge v) := by
  cases v with
  | list items => exact .ok _
  | dict entries => exact .ok _
  | other items => exact .ok _
  | scalar k =>
    cases k with
    | int n =>
      simp only [number, tooLarge]
      cases (Float.ofInt n).isInf with
      | true => exact .raise _
      | false => exact .ok _
    | _ => exact .ok _

theorem settles_checkKeys (place : String) (body : YamlEntries) :
    Settles (checkKeys S place body)
      (!sortable (unknownKeys body) || (unknownKeys body).any fun k => !k.writable) := by
  unfold checkKeys
  refine (settles_sortKeys _).bind fun keys hkeys => ?_
  have hperm : keys.Perm (unknownKeys body) := by
    unfold sortKeys at hkeys
    split at hkeys
    · exact Except.ok.inj hkeys ▸ List.mergeSort_perm _ _
    · exact nomatch hkeys
  rw [← hperm.any_eq]
  exact Settles.mapM (fun key => (settles_reprOf S (.scalar key)).map fun text => .ok _) keys

theorem settles_checkWeights (place : String) (v : YamlValue) :
    Settles (checkWeights place v) (weightsBreak v) := by
  cases v with
  | scalar k => cases k <;> exact .ok _
  | list items => exact .ok _
  | other items => exact .ok _
  | dict weights =>
    simp only [checkWeights, weightsBreak]
    cases hkeys : weights.any fun e => e.1 ≠ .str "cost" && e.1 ≠ .str "latency" with
    | true => exact .ok _
    | false =>
      refine (settles_number _).bind fun c _ => (settles_number _).map fun lat => ?_
      cases c with
      | none => exact .ok _
      | some c =>
        cases lat with
        | none => exact .ok _
        | some lat =>
          simp only
          split
          · exact .ok _
          · split
            · exact .ok _
            · exact .ok _

theorem settles_checkPositive (place field : String) (v : YamlValue) :
    Settles (checkPositive place field v) (tooLarge v) := by
  unfold checkPositive
  split
  · exact .ok _
  · refine (settles_number v).map fun x => ?_
    cases x with
    | none => exact .ok _
    | some x =>
      simp only
      split
      · exact .ok _
      · exact .ok _

theorem settles_parseBody (known : Option (List String)) (name : YamlScalar) (body : YamlValue) :
    Settles (parseBody S known name body) (entryBreaks (name, body)) := by
  unfold parseBody entryBreaks
  refine (settles_keyText S name).bind fun text _ => ?_
  cases body with
  | scalar k => exact .ok _
  | list items => exact .ok _
  | other items => exact .ok _
  | dict body =>
    refine (settles_checkKeys S _ body).bind fun unknown _ => ?_
    simp only
    cases strategyOf (lookupD body "strategy" (.str "cost_aware")) with
    | none => exact (settles_reprOf S _).map fun given => .ok _
    | some strategy =>
      rw [Bool.or_assoc]
      exact (settles_checkWeights _ _).bind fun weights _ => (settles_checkPositive _ _ _).bind fun ceiling _ =>
        (settles_checkPositive _ _ _).map fun hedge => .ok _

theorem settles_parseEntries (known : Option (List String)) :
    ∀ l : YamlEntries, Settles (parseEntries S known l) (l.any entryBreaks)
  | [] => .ok _
  | e :: l => by
      rw [List.any_cons]
      exact (settles_parseBody S known e.1 e.2).bind fun first _ =>
        (settles_parseEntries known l).map fun rest => .ok _

/-- Validation raises something other than `PolicyError` on the documents that
break it. -/
theorem parsePolicies_other (known : Option (List String)) (data : YamlValue) :
    (∃ e, parsePolicies S known data = .error (.other e)) ↔ documentBreaks data = true := by
  unfold parsePolicies documentBreaks
  cases data with
  | scalar k => simp
  | list items => simp
  | other items => simp
  | dict document =>
    simp only
    cases lookupD document "policies" .null with
    | scalar k => simp
    | list items => simp
    | other items => simp
    | dict raw =>
      cases raw with
      | nil => simp
      | cons e raw =>
        have h := settles_parseEntries S known (e :: raw)
        cases hb : (e :: raw).any entryBreaks with
        | true =>
          rw [hb] at h
          obtain ⟨exc, hexc⟩ := h
          simp [hexc, hb, bind, Except.bind]
        | false =>
          rw [hb] at h
          obtain ⟨parsed, hparsed⟩ := h
          simp only [hparsed, hb, bind, Except.bind]
          split
          · simp [pure, Except.pure]
          · simp

theorem loadPolicies_other (known : Option (List String)) (content : FileContent) :
    (∃ e, loadPolicies S known content = .error (.other e)) ↔ content.breaks = true := by
  cases content with
  | unreadable strerror => simp [loadPolicies, FileContent.breaks]
  | invalid exc => simp [loadPolicies, FileContent.breaks]
  | raises exc => simp [loadPolicies, FileContent.breaks]
  | document data => exact parsePolicies_other S known data

/-! ## Accepted bodies -/

/-- Without the known providers the same value is found, with no more problems. -/
def Milder (x y : α × List String) : Prop := y.1 = x.1 ∧ (x.2 = [] → y.2 = [])

theorem milder_checkChain (known : Option (List String)) (place : String) (v : YamlValue) :
    Milder (checkChain S known place v) (checkChain S none place v) := by
  refine ⟨rfl, fun h => ?_⟩
  simp only [checkChain, checkProviders, List.append_eq_nil_iff] at h ⊢
  exact ⟨h.1, trivial⟩

theorem milder_checkSet (known : Option (List String)) (place : String) (v : YamlValue) :
    Milder (checkSet S known place v) (checkSet S none place v) := by
  refine ⟨rfl, fun h => ?_⟩
  simp only [checkSet, checkProviders, List.append_eq_nil_iff] at h ⊢
  exact ⟨h.1, trivial⟩

theorem milder_checkProvider (known : Option (List String)) (place : String) (v : YamlValue) :
    Milder (checkProvider S known place v) (checkProvider S none place v) := by
  unfold checkProvider
  split
  · exact ⟨rfl, id⟩
  · exact ⟨rfl, fun _ => rfl⟩
  · exact ⟨rfl, id⟩

theorem milder_checkNames (known : Option (List String)) (place name : String) (body : YamlEntries)
    (strategy : PolicyStrategy) (weights : Float × Float) (ceiling hedge : Option Float) :
    Milder (checkNames S known place name body strategy weights ceiling hedge)
      (checkNames S none place name body strategy weights ceiling hedge) := by
  have hchain := milder_checkChain S known place (lookupD body "fallback_chain" (.list []))
  have hdeny := milder_checkSet S known s!"{place}.deny" (lookupD body "deny" (.list []))
  have hprovider := milder_checkProvider S known place (lookupD body "provider" .null)
  have hallow : ∀ o : Option YamlValue,
      (o.map (checkSet S none s!"{place}.allow")).map Prod.fst =
          (o.map (checkSet S known s!"{place}.allow")).map Prod.fst ∧
        ((o.map (checkSet S known s!"{place}.allow")).elim [] Prod.snd = [] →
          (o.map (checkSet S none s!"{place}.allow")).elim [] Prod.snd = []) := by
    intro o
    cases o with
    | none => exact ⟨rfl, id⟩
    | some v => exact ⟨congrArg some (milder_checkSet S known _ v).1, (milder_checkSet S known _ v).2⟩
  have hallow := hallow (Dict.find (.str "allow") body)
  unfold checkNames
  constructor
  · simp only [hchain.1, hdeny.1, hprovider.1, hallow.1]
  · simp only [List.append_eq_nil_iff, hchain.1, hdeny.1, hprovider.1, hallow.1]
    rintro ⟨⟨⟨⟨⟨⟨⟨⟨h1, h2⟩, h3⟩, h4⟩, h5⟩, h6⟩, h7⟩, h8⟩, h9⟩
    exact ⟨⟨⟨⟨⟨⟨⟨⟨hchain.2 h1, hallow.2 h2⟩, hdeny.2 h3⟩, h4⟩, hprovider.2 h5⟩, h6⟩, h7⟩, h8⟩, h9⟩

/-- What it takes for a body to have no problem. -/
theorem parseBody_ok_iff {name : YamlScalar}
    :
    parseBody S known name body = .ok ([], policy) ↔
      ∃ text entries strategy weights ceiling hedge,
        keyText S name = .ok text ∧ body = .dict entries ∧ checkKeys S s!"policies.{text}" entries = .ok [] ∧
        strategyOf (lookupD entries "strategy" (.str "cost_aware")) = some strategy ∧
        checkWeights s!"policies.{text}" (lookupD entries "weights" .null) = .ok (weights, []) ∧
        checkPositive s!"policies.{text}" "latency_ceiling_ms" (lookupD entries "latency_ceiling_ms" .null) =
          .ok (ceiling, []) ∧
        checkPositive s!"policies.{text}" "hedge_after_ms" (lookupD entries "hedge_after_ms" .null) =
          .ok (hedge, []) ∧
        (checkNames S known s!"policies.{text}" text entries strategy weights ceiling hedge).2 = [] ∧
        policy = some (checkNames S known s!"policies.{text}" text entries strategy weights ceiling hedge).1 := by
  constructor
  · intro h
    unfold parseBody at h
    cases htext : keyText S name with
    | error e => simp [htext, bind, Except.bind] at h
    | ok text =>
    simp only [htext, bind, Except.bind] at h
    cases body with
    | scalar k => simp [pure, Except.pure] at h
    | list items => simp [pure, Except.pure] at h
    | other items => simp [pure, Except.pure] at h
    | dict body =>
    simp only at h
    cases hkeys : checkKeys S s!"policies.{text}" body with
    | error e => simp [hkeys] at h
    | ok unknown =>
    simp only [hkeys] at h
    cases hs : strategyOf (lookupD body "strategy" (.str "cost_aware")) with
    | none =>
      simp only [hs] at h
      cases hr : reprOf S (lookupD body "strategy" (.str "cost_aware")) with
      | error e => simp [hr] at h
      | ok given => simp [hr, pure, Except.pure] at h
    | some strategy =>
    simp only [hs] at h
    cases hw : checkWeights s!"policies.{text}" (lookupD body "weights" .null) with
    | error e => simp [hw] at h
    | ok weights =>
    simp only [hw] at h
    cases hc : checkPositive s!"policies.{text}" "latency_ceiling_ms" (lookupD body "latency_ceiling_ms" .null) with
    | error e => simp [hc] at h
    | ok ceiling =>
    simp only [hc] at h
    cases hh : checkPositive s!"policies.{text}" "hedge_after_ms" (lookupD body "hedge_after_ms" .null) with
    | error e => simp [hh] at h
    | ok hedge =>
    simp only [hh, pure, Except.pure, Except.ok.injEq, Prod.mk.injEq, List.append_eq_nil_iff] at h
    obtain ⟨⟨⟨⟨⟨rfl, h2⟩, h3⟩, h4⟩, h5⟩, h6⟩ := h
    exact ⟨text, body, strategy, weights.1, ceiling.1, hedge.1, htext ▸ rfl, rfl, hkeys, hs,
      hw.trans (by rw [← h2]), hc.trans (by rw [← h3]), hh.trans (by rw [← h4]), h5, h6.symm⟩
  · rintro ⟨text, entries, strategy, weights, ceiling, hedge, htext, rfl, hkeys, hs, hw, hc, hh, hp, rfl⟩
    simp [parseBody, htext, hkeys, hs, hw, hc, hh, hp, bind, Except.bind, pure, Except.pure]

theorem parseBody_known {name : YamlScalar}
    (h : parseBody S known name body = .ok ([], policy)) :
    parseBody S none name body = .ok ([], policy) := by
  obtain ⟨text, entries, strategy, weights, ceiling, hedge, htext, hbody, hkeys, hs, hw, hc, hh, hp, rfl⟩ :=
    (parseBody_ok_iff S).mp h
  have hmild := milder_checkNames S known s!"policies.{text}" text entries strategy weights ceiling hedge
  exact (parseBody_ok_iff S).mpr ⟨text, entries, strategy, weights, ceiling, hedge, htext, hbody, hkeys, hs, hw, hc, hh,
    hmild.2 hp, by rw [hmild.1]⟩

theorem parseBody_ok {name : String}
    (h : parseBody S known (.str name) body = .ok ([], policy)) :
    ∃ p, policy = some p ∧ p.name = name := by
  obtain ⟨text, entries, strategy, weights, ceiling, hedge, htext, -, -, -, -, -, -, -, rfl⟩ :=
    (parseBody_ok_iff S).mp h
  exact ⟨_, rfl, (Except.ok.inj htext).symm⟩

theorem parseEntries_ok (known : Option (List String)) (policy : String → ParsedPolicy) :
    ∀ {l : List (String × YamlValue)},
      (∀ e ∈ l, parseBody S known (.str e.1) e.2 = .ok ([], some (policy e.1))) →
      parseEntries S known (l.map fun e => (.str e.1, e.2)) = .ok ([], l.map fun e => policy e.1)
  | [], _ => rfl
  | e :: l, h => by
      have hl := parseEntries_ok known policy fun e' (he : e' ∈ l) => h e' (List.mem_cons_of_mem e he)
      simp only [List.map_cons, parseEntries, h e (by simp), hl]
      rfl

/-- The loop finds a problem if one of the bodies has one. -/
theorem of_parseEntries_ok {ps : List ParsedPolicy} :
    ∀ {l : YamlEntries}, parseEntries S known l = .ok ([], ps) →
      ∀ e ∈ l, ∃ policy, parseBody S known e.1 e.2 = .ok ([], policy)
  | [], _, _, he => by simp at he
  | e :: l, h, e', he => by
      rw [parseEntries] at h
      cases hb : parseBody S known e.1 e.2 with
      | error x => simp [hb, bind, Except.bind] at h
      | ok first =>
      simp only [hb, bind, Except.bind] at h
      cases hr : parseEntries S known l with
      | error x => simp [hr] at h
      | ok rest =>
      simp only [hr, pure, Except.pure, Except.ok.injEq, Prod.mk.injEq, List.append_eq_nil_iff] at h
      rcases List.mem_cons.mp he with rfl | he
      · exact ⟨first.2, hb.trans (by rw [← h.1.1])⟩
      · exact of_parseEntries_ok (hr.trans (by rw [← h.1.2])) e' he

end Caips.Coreai
