/-
Caips.Tools.ApprovalsTheorems — what an approval is good for.

`step_cases` says what one operation can do to the store; the other step lemmas
are read off it: an open approval goes only when it is expired, the store stays
within its bound, and the approvals still to be spent and those spent together
never exceed those given. `Origin` keeps, along a run, who asked for an entry
and who approved it.

The fingerprint joins caller, tool and arguments with bars. The arguments can be
told apart from the rest (`fingerprint_eq_iff`), caller and tool cannot: the
store spends the approval of another call whose `caller|tool` reads the same, and
that is the only way in which `consume` says yes to a call nobody approved.
-/
import Caips.Tools.Approvals

namespace Caips.Tools

open Caips.Logic

/-! ## Fingerprints -/

/-- `caller|tool`. -/
def callText (caller tool : String) : List Char := caller.toList ++ '|' :: tool.toList

/-- **What a fingerprint determines**: the arguments, and the text `caller|tool`. -/
theorem fingerprint_eq_iff {c t c' t' : String} {x y : Json} :
    fingerprint c t x = fingerprint c' t' y ↔ callText c t = callText c' t' ∧ x.Same y := by
  have hjoin : ∀ (c t : String) (x : Json), fingerprint c t x = callText c t ++ '|' :: dumps x := by
    intro c t x
    simp [fingerprint, callText]
  rw [hjoin, hjoin]
  constructor
  · intro h
    obtain ⟨htext, hargs⟩ := write_after_inj (by decide) h
    exact ⟨htext, dumps_inj hargs⟩
  · rintro ⟨htext, hargs⟩
    rw [htext, dumps, hargs, dumps]

/-- Where tool names have no bar, the text determines caller and tool. -/
theorem callText_inj {c t c' t' : String} (ht : '|' ∉ t.toList) (ht' : '|' ∉ t'.toList)
    (h : callText c t = callText c' t') : c = c' ∧ t = t' := by
  rcases List.append_eq_append_iff.mp h with ⟨m, hc, hrest⟩ | ⟨m, hc, hrest⟩
  · cases m with
    | nil =>
      have hcaller : c.toList = c'.toList := by simpa using hc.symm
      exact ⟨String.toList_inj.mp hcaller, String.toList_inj.mp (List.cons.inj hrest).2⟩
    | cons d m =>
      have hmem : '|' ∈ t.toList := by
        rw [(List.cons.inj hrest).2]
        exact List.mem_append_right _ List.mem_cons_self
      exact absurd hmem ht
  · cases m with
    | nil =>
      have hcaller : c.toList = c'.toList := by simpa using hc
      exact ⟨String.toList_inj.mp hcaller, (String.toList_inj.mp (List.cons.inj hrest).2).symm⟩
    | cons d m =>
      have hmem : '|' ∈ t'.toList := by
        rw [(List.cons.inj hrest).2]
        exact List.mem_append_right _ List.mem_cons_self
      exact absurd hmem ht'

namespace Approval

/-- The same call, asked for at the same time. -/
def SameCall (a b : Approval) : Prop :=
  a.caller = b.caller ∧ a.tool = b.tool ∧ a.arguments = b.arguments ∧ a.created = b.created

def isApproved (a : Approval) : Bool := a.status == .approved

theorem not_closed {a : Approval} (h : a.status.isOpen = true) : a.status.isClosed = false := by
  cases hs : a.status <;> rw [hs] at h <;> first | rfl | cases h

end Approval

namespace ApprovalStore

variable {s s' : ApprovalStore}

/-! ## The pieces of an operation -/

variable {a : Approval} {k : String} {i : Event} {items : Dict String Approval}

theorem findFirst_some {p : Approval → Bool}
    (h : s.findFirst p = some (k, a)) : s.items.get? k = some a ∧ p a = true := by
  have hp : (fun e : String × Approval => p e.2) (k, a) = true :=
    List.find?_some (p := fun e : String × Approval => p e.2) h
  exact ⟨Dict.mem_entries.mp (List.mem_of_find?_eq_some h), hp⟩

theorem findFirst_none {p : Approval → Bool} (h : s.findFirst p = none)
    (ha : s.items.get? k = some a) : p a = false := by
  have hnone := List.find?_eq_none.mp h (k, a) (Dict.mem_entries.mpr ha)
  simpa using hnone

theorem get?_sweep {now : ℚ} :
    (s.sweep now).items.get? k = some a ↔ s.items.get? k = some a ∧ a.expired s.ttl now = false := by
  unfold sweep
  rw [Dict.get?_filter, Option.filter_eq_some_iff, Bool.not_eq_true']

variable {n : Nat}

/-- Making room drops denied and used approvals only. -/
theorem get?_evict : ∀ {l : List (String × Approval)} {items : Dict String Approval},
    (∀ e ∈ l, items.get? e.1 = some e.2) → (l.map Prod.fst).Nodup → ∀ {k : String} {a : Approval},
    items.get? k = some a → a.status.isClosed = false → (evict n l items).get? k = some a
  | [], _, _, _, _, _, ha, _ => ha
  | (id, old) :: rest, items, hl, hn, k, a, ha, hopen => by
      obtain ⟨hnot, hrest⟩ := List.nodup_cons.mp hn
      unfold evict
      split_ifs with hclosed hroom
      · have hne : id ≠ k := by
          rintro rfl
          have hold : a = old := Option.some.inj (ha.symm.trans (hl _ List.mem_cons_self))
          rw [hold, hclosed] at hopen
          cases hopen
        rwa [Dict.get?_pop_ne _ hne]
      · have hne : id ≠ k := by
          rintro rfl
          have hold : a = old := Option.some.inj (ha.symm.trans (hl _ List.mem_cons_self))
          rw [hold, hclosed] at hopen
          cases hopen
        refine get?_evict (fun e he => ?_) hrest ((Dict.get?_pop_ne _ hne).trans ha) hopen
        have hid : id ≠ e.1 := fun h => hnot (List.mem_map.mpr ⟨e, he, h.symm⟩)
        rw [Dict.get?_pop_ne _ hid]
        exact hl e (List.mem_cons_of_mem _ he)
      · exact get?_evict (fun e he => hl e (List.mem_cons_of_mem _ he)) hrest ha hopen

/-- What is left after making room was there before. -/
theorem of_get?_evict : ∀ {l : List (String × Approval)} {items : Dict String Approval}
    {k : String} {a : Approval}, (evict n l items).get? k = some a → items.get? k = some a
  | [], _, _, _, h => h
  | (id, old) :: rest, items, k, a, h => by
      have hpop : (items.pop id).get? k = some a → items.get? k = some a := by
        intro h
        by_cases hid : id = k
        · subst hid
          simp at h
        · rwa [Dict.get?_pop_ne _ hid] at h
      unfold evict at h
      split_ifs at h with hclosed hroom
      · exact hpop h
      · exact hpop (of_get?_evict h)
      · exact of_get?_evict h

theorem count_evict_le (p : Approval → Bool) :
    ∀ (l : List (String × Approval)) (items : Dict String Approval),
      (evict n l items).count p ≤ items.count p
  | [], _ => le_refl _
  | (id, old) :: rest, items => by
      unfold evict
      split_ifs
      · exact Dict.count_pop_le _ _ _
      · exact (count_evict_le p rest _).trans (Dict.count_pop_le _ _ _)
      · exact count_evict_le p rest _

theorem size_evict_le : ∀ (l : List (String × Approval)) (items : Dict String Approval),
    (evict n l items).size ≤ items.size
  | [], _ => le_refl _
  | (id, old) :: rest, items => by
      unfold evict
      split_ifs
      · exact Dict.size_pop_le _ _
      · exact (size_evict_le rest _).trans (Dict.size_pop_le _ _)
      · exact size_evict_le rest _

theorem get?_makeRoom (ha : s.items.get? k = some a)
    (hopen : a.status.isClosed = false) : s.makeRoom.get? k = some a := by
  unfold makeRoom
  split_ifs
  · exact get?_evict (fun e he => Dict.mem_entries.mp he) s.items.nodup ha hopen
  · exact ha

theorem of_get?_makeRoom (h : s.makeRoom.get? k = some a) :
    s.items.get? k = some a := by
  unfold makeRoom at h
  split_ifs at h
  · exact of_get?_evict h
  · exact h

theorem count_makeRoom_le (p : Approval → Bool) : s.makeRoom.count p ≤ s.items.count p := by
  unfold makeRoom
  split_ifs
  · exact count_evict_le p _ _
  · exact le_refl _

theorem size_makeRoom_le : s.makeRoom.size ≤ s.items.size := by
  unfold makeRoom
  split_ifs
  · exact size_evict_le _ _
  · exact le_refl _

/-- An approval that can be spent at `now`. -/
def Live (s : ApprovalStore) (k : String) (a : Approval) (now : ℚ) : Prop :=
  s.items.get? k = some a ∧ a.status = .approved ∧ now - a.created < s.ttl

theorem get?_sweep_of_live {now : ℚ} (h : s.Live k a now) :
    (s.sweep now).items.get? k = some a := by
  refine get?_sweep.mpr ⟨h.1, ?_⟩
  simpa [Approval.expired] using h.2.2

/-- A `consume` spends an approval of the call, or there is none. -/
theorem consume_cases (s : ApprovalStore) (c t : String) (x : Json) (now : ℚ) :
    (∃ k a, s.Live k a now ∧ a.fingerprint = fingerprint c t x ∧
      s.consume c t x now = (true, { s.sweep now with
        items := (s.sweep now).items.set k { a with status := .used } })) ∨
    ((∀ k a, s.Live k a now → a.fingerprint ≠ fingerprint c t x) ∧
      s.consume c t x now = (false, s.sweep now)) := by
  cases hfirst : (s.sweep now).findFirst fun a =>
      a.status == .approved && a.fingerprint == fingerprint c t x with
  | none =>
    right
    refine ⟨fun k a hlive hprint => ?_, by simp [consume, hfirst]⟩
    have hnot := findFirst_none hfirst (get?_sweep_of_live hlive)
    simp [hlive.2.1, hprint] at hnot
  | some e =>
    left
    obtain ⟨k, a⟩ := e
    obtain ⟨ha, hp⟩ := findFirst_some hfirst
    obtain ⟨happroved, hprint⟩ : a.status = .approved ∧ a.fingerprint = fingerprint c t x := by
      simpa using hp
    obtain ⟨hheld, hfresh⟩ := get?_sweep.mp ha
    exact ⟨k, a, ⟨hheld, happroved, by simpa [Approval.expired] using hfresh⟩, hprint,
      by simp [consume, hfirst]⟩

/-! ## One operation -/

/-- The answer of a `consume`. -/
def grants (s : ApprovalStore) : Event → Bool
  | .consume caller tool arguments now => (s.consume caller tool arguments now).1
  | _ => false

/-- The operation approves an approval. -/
def approves (s : ApprovalStore) : Event → Bool
  | .decide id true decidedBy now => (s.decide id true decidedBy now).1.toBool
  | _ => false

/-- What one operation does to the store that is swept first. -/
inductive Change (s : ApprovalStore) : Event → Dict String Approval → Prop
  | nothing {i : Event} (hgrants : grants s i = false) (happroves : approves s i = false) :
      Change s i (s.sweep i.now).items
  | evicted {c t : String} {x : Json} {now created : ℚ} {id : String} :
      Change s (.request c t x now created id) (s.sweep now).makeRoom
  | opened {c t : String} {x : Json} {now created : ℚ} {id : String}
      (hnew : s.items.get? id = none) (hroom : (s.sweep now).makeRoom.size < s.maxItems) :
      Change s (.request c t x now created id) ((s.sweep now).makeRoom.set id
        { id := id, caller := c, tool := t, arguments := x, created := created })
  | decided {k u : String} {approve : Bool} {now : ℚ} {a : Approval}
      (ha : (s.sweep now).items.get? k = some a) (hpending : a.status = .pending)
      (happroves : approves s (.decide k approve u now) = approve) :
      Change s (.decide k approve u now) ((s.sweep now).items.set k
        { a with status := if approve then .approved else .denied, decidedBy := some u })
  | consumed {c t k : String} {x : Json} {now : ℚ} {a : Approval}
      (ha : (s.sweep now).items.get? k = some a) (happroved : a.status = .approved)
      (hprint : a.fingerprint = fingerprint c t x)
      (hgrants : grants s (.consume c t x now) = true) :
      Change s (.consume c t x now) ((s.sweep now).items.set k { a with status := .used })

/-- Every operation makes one of the changes and keeps the bounds. -/
theorem step_cases (h : s.step i = some s') :
    s'.ttl = s.ttl ∧ s'.maxItems = s.maxItems ∧ Change s i s'.items := by
  cases i with
  | request c t x now created id =>
    obtain ⟨hnew, h⟩ := Option.ite_none_right_eq_some.mp h
    obtain rfl := Option.some.inj h
    unfold request
    dsimp only
    split
    · exact ⟨rfl, rfl, .nothing rfl rfl⟩
    · split_ifs with hfull
      · exact ⟨rfl, rfl, .evicted⟩
      · exact ⟨rfl, rfl, .opened hnew (not_le.mp hfull)⟩
  | get id now =>
    obtain rfl := Option.some.inj h
    exact ⟨rfl, rfl, .nothing rfl rfl⟩
  | pending now =>
    obtain rfl := Option.some.inj h
    exact ⟨rfl, rfl, .nothing rfl rfl⟩
  | decide id approve u now =>
    obtain rfl := Option.some.inj h
    have happroves : ∀ {r : Except StoreError Approval × ApprovalStore},
        s.decide id approve u now = r → approves s (.decide id approve u now) =
          (approve && r.1.toBool) := by
      rintro r rfl
      cases approve <;> simp [approves]
    cases ha : (s.sweep now).items.get? id with
    | none =>
      have hdecide : s.decide id approve u now = (.error (.unknown id), s.sweep now) := by
        simp [decide, get, ha]
      rw [hdecide]
      refine ⟨rfl, rfl, .nothing rfl ?_⟩
      rw [happroves hdecide]
      exact Bool.and_false _
    | some a =>
      by_cases hpending : a.status = .pending
      · have hdecide : s.decide id approve u now =
            (let settled : Approval :=
              { a with status := if approve then .approved else .denied, decidedBy := some u }
            (.ok settled, { s.sweep now with items := (s.sweep now).items.set id settled })) := by
          simp [decide, get, ha, hpending]
        rw [hdecide]
        refine ⟨rfl, rfl, .decided ha hpending ?_⟩
        rw [happroves hdecide]
        exact Bool.and_true _
      · have hdecide : s.decide id approve u now = (.error (.already a.status), s.sweep now) := by
          simp [decide, get, ha, hpending]
        rw [hdecide]
        refine ⟨rfl, rfl, .nothing rfl ?_⟩
        rw [happroves hdecide]
        exact Bool.and_false _
  | consume c t x now =>
    obtain rfl := Option.some.inj h
    rcases consume_cases s c t x now with ⟨k, a, hlive, hprint, hconsume⟩ | ⟨-, hconsume⟩
    · rw [hconsume]
      exact ⟨rfl, rfl, .consumed (get?_sweep_of_live hlive) hlive.2.1 hprint (congrArg Prod.fst hconsume)⟩
    · rw [hconsume]
      exact ⟨rfl, rfl, .nothing (congrArg Prod.fst hconsume) rfl⟩

theorem consume_iff {c t : String} {x : Json} {now : ℚ} :
    (s.consume c t x now).1 = true ↔
      ∃ k a, s.Live k a now ∧ a.fingerprint = fingerprint c t x := by
  rcases consume_cases s c t x now with ⟨k, a, hlive, hprint, hconsume⟩ | ⟨hnone, hconsume⟩
  · rw [hconsume]
    exact ⟨fun _ => ⟨k, a, hlive, hprint⟩, fun _ => rfl⟩
  · rw [hconsume]
    exact ⟨fun h => (nomatch h), fun ⟨k, a, hlive, hprint⟩ => absurd hprint (hnone k a hlive)⟩

/-- A request keeps every open approval that is not expired as it is, and what it
adds is pending. -/
theorem get?_request {id : String} (hnew : s.items.get? id = none) (c t : String) (x : Json)
    (now created : ℚ) :
    (∀ k a, s.items.get? k = some a → a.status.isOpen = true → now - a.created < s.ttl →
      (s.request c t x now created id).2.items.get? k = some a) ∧
    (∀ k a, (s.request c t x now created id).2.items.get? k = some a →
      s.items.get? k = some a ∨ a.status = .pending) := by
  have hroom : ∀ k a, s.items.get? k = some a → a.status.isOpen = true → now - a.created < s.ttl →
      (s.sweep now).makeRoom.get? k = some a := fun k a ha hopen hfresh =>
    get?_makeRoom (get?_sweep.mpr ⟨ha, by simpa [Approval.expired] using hfresh⟩) (Approval.not_closed hopen)
  have hold : ∀ k a, (s.sweep now).makeRoom.get? k = some a → s.items.get? k = some a := fun k a ha =>
    (get?_sweep.mp (of_get?_makeRoom ha)).1
  unfold request
  dsimp only
  split
  · exact ⟨fun k a ha hopen hfresh => get?_sweep.mpr ⟨ha, by simpa [Approval.expired] using hfresh⟩,
      fun k a ha => .inl (get?_sweep.mp ha).1⟩
  · split_ifs
    · exact ⟨hroom, fun k a ha => .inl (hold k a ha)⟩
    · refine ⟨fun k a ha hopen hfresh => ?_, fun k a ha => ?_⟩
      · have hne : id ≠ k := by
          rintro rfl
          cases hnew.symm.trans ha
        exact (Dict.get?_set_ne _ _ hne).trans (hroom k a ha hopen hfresh)
      · by_cases hk : id = k
        · subst hk
          obtain rfl := Option.some.inj ((Dict.get?_set_self _ _ _).symm.trans ha)
          exact .inr rfl
        · exact .inl (hold k a ((Dict.get?_set_ne _ _ hk).symm.trans ha))

/-- An open approval goes only when it is expired. -/
theorem Change.keeps (h : Change s i items)
    (ha : s.items.get? k = some a) (hopen : a.status.isOpen = true) :
    s.ttl ≤ i.now - a.created ∨ ∃ a', items.get? k = some a' ∧ a'.SameCall a := by
  rcases le_or_gt s.ttl (i.now - a.created) with hexpired | hfresh
  · exact .inl hexpired
  · have hswept : (s.sweep i.now).items.get? k = some a :=
      get?_sweep.mpr ⟨ha, by simpa [Approval.expired] using hfresh⟩
    have hroom : (s.sweep i.now).makeRoom.get? k = some a := get?_makeRoom hswept (Approval.not_closed hopen)
    right
    cases h with
    | nothing => exact ⟨a, hswept, rfl, rfl, rfl, rfl⟩
    | evicted => exact ⟨a, hroom, rfl, rfl, rfl, rfl⟩
    | @opened _ _ _ _ _ id hnew _ =>
      have hne : id ≠ k := by
        rintro rfl
        cases hnew.symm.trans ha
      exact ⟨a, (Dict.get?_set_ne _ _ hne).trans hroom, rfl, rfl, rfl, rfl⟩
    | @decided k' _ _ _ b hb _ _ =>
      by_cases hk : k' = k
      · subst hk
        obtain rfl := Option.some.inj (hb.symm.trans hswept)
        exact ⟨_, Dict.get?_set_self _ _ _, rfl, rfl, rfl, rfl⟩
      · exact ⟨a, (Dict.get?_set_ne _ _ hk).trans hswept, rfl, rfl, rfl, rfl⟩
    | @consumed _ _ k' _ _ b hb _ _ _ =>
      by_cases hk : k' = k
      · subst hk
        obtain rfl := Option.some.inj (hb.symm.trans hswept)
        exact ⟨_, Dict.get?_set_self _ _ _, rfl, rfl, rfl, rfl⟩
      · exact ⟨a, (Dict.get?_set_ne _ _ hk).trans hswept, rfl, rfl, rfl, rfl⟩

theorem Change.size_le (h : Change s i items)
    (hsize : s.items.size ≤ s.maxItems) : items.size ≤ s.maxItems := by
  have hswept : ∀ now, (s.sweep now).items.size ≤ s.maxItems := fun now =>
    (Dict.size_filter_le _ _).trans hsize
  cases h with
  | nothing => exact hswept _
  | evicted => exact size_makeRoom_le.trans (hswept _)
  | opened _ hroom => exact (Dict.size_set_le _ _ _).trans hroom
  | decided ha => exact (Dict.size_set_of_some _ ha).le.trans (hswept _)
  | consumed ha => exact (Dict.size_set_of_some _ ha).le.trans (hswept _)

/-- Spent and still to be spent, against given. -/
theorem Change.count_le (h : Change s i items) :
    items.count Approval.isApproved + (grants s i).toNat ≤ s.items.count Approval.isApproved + (approves s i).toNat := by
  have hswept : ∀ now, (s.sweep now).items.count Approval.isApproved ≤ s.items.count Approval.isApproved := fun now =>
    Dict.count_filter_le _ _ _
  have hroom : ∀ now, (s.sweep now).makeRoom.count Approval.isApproved ≤ s.items.count Approval.isApproved := fun now =>
    (count_makeRoom_le _).trans (hswept now)
  cases h with
  | nothing hgrants happroves =>
    rw [hgrants, happroves]
    exact hswept _
  | evicted => exact hroom _
  | @opened _ _ _ now _ id hnew _ =>
    have hnone : (s.sweep now).makeRoom.get? id = none := by
      cases hget : (s.sweep now).makeRoom.get? id with
      | none => rfl
      | some a => exact nomatch hnew.symm.trans (get?_sweep.mp (of_get?_makeRoom hget)).1
    rw [Dict.count_set_of_none _ hnone]
    exact hroom _
  | @decided k u approve now a ha hpending happroves =>
    have hcount := Dict.count_set_of_some (v := { a with
      status := if approve then .approved else .denied, decidedBy := some u }) Approval.isApproved ha
    have hold : a.isApproved = false := by simp [Approval.isApproved, hpending]
    have hnew : Approval.isApproved { a with
        status := if approve then .approved else .denied, decidedBy := some u } = approve := by
      cases approve <;> rfl
    have hle := hswept now
    rw [hold, hnew] at hcount
    rw [happroves]
    simp only [grants, Bool.toNat_false] at hcount ⊢
    omega
  | @consumed _ _ k _ now a ha happroved _ hgrants =>
    have hcount := Dict.count_set_of_some (v := { a with status := .used }) Approval.isApproved ha
    have hold : a.isApproved = true := by simp [Approval.isApproved, happroved]
    have hnew : Approval.isApproved { a with status := .used } = false := rfl
    have hle := hswept now
    rw [hold, hnew] at hcount
    rw [hgrants]
    simp only [approves, Bool.toNat_false, Bool.toNat_true] at hcount ⊢
    omega

/-- Where an entry comes from: it was there, and approved, or this operation
asked for it, or approved it. -/
theorem Change.origin (h : Change s i items)
    (ha : items.get? k = some a) :
    (∃ b, s.items.get? k = some b ∧ a.SameCall b ∧
      (a.status = .approved → b.status = .approved ∨ ∃ u now, i = .decide k true u now)) ∨
    ((∃ now, i = .request a.caller a.tool a.arguments now a.created k) ∧ a.status = .pending) := by
  have hsame : ∀ {b}, s.items.get? k = some b → a = b →
      ∃ b, s.items.get? k = some b ∧ a.SameCall b ∧
        (a.status = .approved → b.status = .approved ∨ ∃ u now, i = .decide k true u now) := by
    rintro b hb rfl
    exact ⟨a, hb, ⟨rfl, rfl, rfl, rfl⟩, .inl⟩
  cases h with
  | nothing => exact .inl (hsame (get?_sweep.mp ha).1 rfl)
  | evicted => exact .inl (hsame (get?_sweep.mp (of_get?_makeRoom ha)).1 rfl)
  | @opened c t x now created id _ _ =>
    by_cases hk : id = k
    · subst hk
      obtain rfl := Option.some.inj ((Dict.get?_set_self _ _ _).symm.trans ha)
      exact .inr ⟨⟨now, rfl⟩, rfl⟩
    · rw [Dict.get?_set_ne _ _ hk] at ha
      exact .inl (hsame (get?_sweep.mp (of_get?_makeRoom ha)).1 rfl)
  | @decided k' u approve now b hb hpending _ =>
    left
    by_cases hk : k' = k
    · subst hk
      obtain rfl := Option.some.inj ((Dict.get?_set_self _ _ _).symm.trans ha)
      refine ⟨b, (get?_sweep.mp hb).1, ⟨rfl, rfl, rfl, rfl⟩, fun happroved => ?_⟩
      cases approve with
      | true => exact .inr ⟨u, now, rfl⟩
      | false => cases happroved
    · rw [Dict.get?_set_ne _ _ hk] at ha
      exact hsame (get?_sweep.mp ha).1 rfl
  | @consumed _ _ k' _ now b hb _ _ _ =>
    left
    by_cases hk : k' = k
    · subst hk
      obtain rfl := Option.some.inj ((Dict.get?_set_self _ _ _).symm.trans ha)
      exact ⟨b, (get?_sweep.mp hb).1, ⟨rfl, rfl, rfl, rfl⟩, fun happroved => nomatch happroved⟩
    · rw [Dict.get?_set_ne _ _ hk] at ha
      exact hsame (get?_sweep.mp ha).1 rfl

/-! ## Runs -/

abbrev Trace := List (Machine.Step ApprovalStore Event)

/-- The request for an entry is among the steps. -/
def Requested (l : Trace) (k : String) (a : Approval) : Prop :=
  ∃ e ∈ l, ∃ now, e.label = .request a.caller a.tool a.arguments now a.created k

/-- A decision to approve an entry is among the steps. -/
def ApprovedIn (l : Trace) (k : String) : Prop := ∃ e ∈ l, ∃ u now, e.label = .decide k true u now

theorem requested_mono {l l' : Trace} {a b : Approval} (h : Requested l k b)
    (hsame : a.SameCall b) : Requested (l ++ l') k a := by
  obtain ⟨e, he, now, hlabel⟩ := h
  obtain ⟨h₁, h₂, h₃, h₄⟩ := hsame
  exact ⟨e, List.mem_append_left _ he, now, by rw [h₁, h₂, h₃, h₄, hlabel]⟩

/-- Every entry was requested, and an approved one was approved. -/
theorem origin {s₀ s : ApprovalStore} {l : Trace} (h : machine.Run s₀ l s) (hs : machine.start s₀) :
    ∀ k a, s.items.get? k = some a → Requested l k a ∧ (a.status = .approved → ApprovedIn l k) := by
  induction h with
  | nil =>
    intro k a ha
    rw [show s₀.items = .empty from hs] at ha
    cases ha
  | @snoc t u l i _ hstep ih =>
    intro k a ha
    have hlast : (⟨t, i, u⟩ : Machine.Step ApprovalStore Event) ∈ l ++ [⟨t, i, u⟩] :=
      List.mem_append_right _ List.mem_cons_self
    rcases (step_cases hstep).2.2.origin ha with ⟨b, hb, hsame, happroved⟩ | ⟨⟨now, hi⟩, hpending⟩
    · obtain ⟨hrequested, hdecided⟩ := ih k b hb
      refine ⟨requested_mono hrequested hsame, fun ha => ?_⟩
      rcases happroved ha with hold | ⟨u', now, hi⟩
      · obtain ⟨e, he, hlabel⟩ := hdecided hold
        exact ⟨e, List.mem_append_left _ he, hlabel⟩
      · exact ⟨_, hlast, u', now, hi⟩
    · exact ⟨⟨_, hlast, now, hi⟩, fun ha => nomatch hpending.symm.trans ha⟩

/-- The answers yes of a trace. -/
def granted (l : Trace) : Nat := l.countP fun e => e.source.grants e.label

/-- The approvals given in a trace. -/
def approvedCount (l : Trace) : Nat := l.countP fun e => e.source.approves e.label

theorem countP_snoc {α : Type} (p : α → Bool) (l : List α) (x : α) :
    (l ++ [x]).countP p = l.countP p + (p x).toNat := by
  rw [List.countP_append]
  cases h : p x <;> simp [h]

/-- No approval is spent twice: spent and still to be spent, against given. -/
theorem granted_le {s₀ s : ApprovalStore} {l : Trace} (h : machine.Run s₀ l s) (hs : machine.start s₀) :
    granted l + s.items.count Approval.isApproved ≤ approvedCount l := by
  induction h with
  | nil =>
    rw [show s₀.items = .empty from hs]
    exact le_refl 0
  | @snoc t u l i _ hstep ih =>
    have hcount := (step_cases hstep).2.2.count_le
    unfold granted approvedCount at ih ⊢
    rw [countP_snoc, countP_snoc]
    dsimp only
    omega

theorem size_le {s : ApprovalStore} (h : machine.Reach Machine.free s) : s.items.size ≤ s.maxItems := by
  refine Machine.Reach.invariant (I := fun s => s.items.size ≤ s.maxItems) (fun s hs => ?_)
    (fun s i t hsize hstep _ => ?_) h
  · rw [show s.items = .empty from hs]
    exact Nat.zero_le _
  · obtain ⟨-, hmax, hchange⟩ := step_cases hstep
    rw [hmax]
    exact hchange.size_le hsize

/-! ## What an approval is good for -/

/-- `consume` says yes only to a call that was asked for, and approved, before. -/
def Binding (l : Trace) : Prop :=
  ∀ l₁ e l₂, l = l₁ ++ e :: l₂ → ∀ c t x now, e.label = .consume c t x now →
    (e.source.consume c t x now).1 = true →
      ∃ k a, e.source.Live k a now ∧ a.caller = c ∧ a.tool = t ∧ a.arguments.Same x ∧
        Requested l₁ k a ∧ ApprovedIn l₁ k

/-- No pending or approved entry goes before its time to live. -/
def Kept (l : Trace) : Prop :=
  ∀ e ∈ l, ∀ k a, e.source.items.get? k = some a → a.status.isOpen = true →
    e.source.ttl ≤ e.label.now - a.created ∨ ∃ a', e.target.items.get? k = some a' ∧ a'.SameCall a

/-- No step leaves more than `max_items` entries. -/
def Bounded (l : Trace) : Prop := ∀ e ∈ l, e.target.items.size ≤ e.target.maxItems

/-- If the text `caller|tool` and the arguments of a `consume` are those of some
approval that can be spent, they are those of one for exactly this call. -/
def Unambiguous (s : ApprovalStore) : Event → Prop
  | .consume c t x now =>
    (∃ k a, s.Live k a now ∧ callText a.caller a.tool = callText c t ∧ a.arguments.Same x) →
      ∃ k a, s.Live k a now ∧ a.caller = c ∧ a.tool = t ∧ a.arguments.Same x
  | _ => True

theorem binding_iff {s₀ s : ApprovalStore} {l : Trace} (h : machine.Run s₀ l s)
    (hs : machine.start s₀) : Binding l ↔ ∀ e ∈ l, e.source.Unambiguous e.label := by
  constructor
  · intro hbinding e he
    obtain ⟨l₁, l₂, hl⟩ := List.append_of_mem he
    cases hi : e.label with
    | consume c t x now =>
      rintro ⟨k, a, hlive, htext, hargs⟩
      have hyes := consume_iff.mpr ⟨k, a, hlive, fingerprint_eq_iff.mpr ⟨htext, hargs⟩⟩
      obtain ⟨k, a, hlive, hc, ht, hx, -⟩ := hbinding l₁ e l₂ hl c t x now hi hyes
      exact ⟨k, a, hlive, hc, ht, hx⟩
    | request => trivial
    | get => trivial
    | pending => trivial
    | decide => trivial
  · intro hall l₁ e l₂ hl c t x now hi hyes
    have hclear := hall e (hl ▸ List.mem_append_right _ List.mem_cons_self)
    rw [hi] at hclear
    obtain ⟨k, a, hlive, hprint⟩ := consume_iff.mp hyes
    obtain ⟨htext, hargs⟩ := fingerprint_eq_iff.mp hprint
    obtain ⟨k, a, hlive, hc, ht, hx⟩ := hclear ⟨k, a, hlive, htext, hargs⟩
    obtain ⟨hrequested, happroved⟩ := origin (h.before hl).1 hs k a hlive.1
    exact ⟨k, a, hlive, hc, ht, hx, hrequested, happroved hlive.2.1⟩

/-- **Approvals are bound to their calls** exactly in the runs in which no
`consume` can be taken for another call, by its text `caller|tool`. Counting, time to
live and the bound hold in every run. -/
theorem approvals_bound {s₀ s : ApprovalStore} {l : Trace} (h : machine.Run s₀ l s)
    (hs : machine.start s₀) :
    (Binding l ∧ granted l ≤ approvedCount l ∧ Kept l ∧ Bounded l) ↔
      ∀ e ∈ l, e.source.Unambiguous e.label := by
  have hcount : granted l ≤ approvedCount l := (Nat.le_add_right _ _).trans (granted_le h hs)
  have hkept : Kept l := fun e he k a ha hopen =>
    (step_cases (h.mem_step hs e he).2).2.2.keeps ha hopen
  have hbounded : Bounded l := fun e he =>
    size_le (h.mem_target (G := Machine.free) hs (fun _ _ => trivial) e he)
  rw [binding_iff h hs]
  exact ⟨fun h => h.1, fun h => ⟨h, hcount, hkept, hbounded⟩⟩

theorem unambiguous_of_tools (hs : ∀ k a, s.items.get? k = some a → '|' ∉ a.tool.toList)
    (hi : ∀ c t x now, i = .consume c t x now → '|' ∉ t.toList) : s.Unambiguous i := by
  cases i with
  | consume c t x now =>
    rintro ⟨k, a, hlive, htext, hargs⟩
    obtain ⟨hc, ht⟩ := callText_inj (hs k a hlive.1) (hi c t x now rfl) htext
    exact ⟨k, a, hlive, hc, ht, hargs⟩
  | request => trivial
  | get => trivial
  | pending => trivial
  | decide => trivial

/-! ## One approval, two calls -/

/-- A caller asks for `pay`, and the call is approved. -/
def asked (caller : String) : ApprovalStore := (request {} caller "pay" (.obj []) 0 0 "a").2

def allowed (caller : String) : ApprovalStore := ((asked caller).decide "a" true "admin" 1).2

/-- Then another call is made. -/
def spending (caller c t : String) : Trace :=
  [⟨{}, .request caller "pay" (.obj []) 0 0 "a", asked caller⟩,
    ⟨asked caller, .decide "a" true "admin" 1, allowed caller⟩,
    ⟨allowed caller, .consume c t (.obj []) 2, ((allowed caller).consume c t (.obj []) 2).2⟩]

theorem start_default : machine.start {} := show ({} : ApprovalStore).items = .empty from rfl

theorem run_spending (caller c t : String) :
    machine.Run {} (spending caller c t) ((allowed caller).consume c t (.obj []) 2).2 :=
  .snoc (l := spending caller c t |>.take 2) (.snoc (l := [_]) (.single rfl) rfl) rfl

/-- The bar is part of a subject such as `auth0|7`: the approval of its call of
`pay` lets `auth0` call `7|pay`. -/
theorem other_call_spends : machine.start {} ∧ (∃ s, machine.Run {} (spending "auth0|7" "auth0" "7|pay") s) ∧
    ¬Binding (spending "auth0|7" "auth0" "7|pay") := by
  refine ⟨start_default, ⟨_, run_spending _ _ _⟩, fun hbinding => ?_⟩
  have hyes : ((allowed "auth0|7").consume "auth0" "7|pay" (.obj []) 2).1 = true := by decide +kernel
  obtain ⟨k, a, hlive, hcaller, -⟩ :=
    hbinding ((spending "auth0|7" "auth0" "7|pay").take 2) _ [] rfl _ _ _ _ rfl hyes
  have hcallers : ∀ a ∈ (allowed "auth0|7").items.values, a.caller = "auth0|7" := by decide +kernel
  exact absurd (hcaller.symm.trans (hcallers a (Dict.mem_values hlive.1))) (by decide)

/-- The call that was approved is made: it is let through, once. -/
theorem approvals_bound_pay : granted (spending "u" "u" "pay") = 1 ∧ Binding (spending "u" "u" "pay") := by
  have htools : ∀ a ∈ (allowed "u").items.values, '|' ∉ a.tool.toList := by decide +kernel
  refine ⟨by decide +kernel, ((approvals_bound (run_spending "u" "u" "pay") start_default).mpr ?_).1⟩
  intro e he
  rcases List.mem_cons.mp he with rfl | he
  · trivial
  rcases List.mem_cons.mp he with rfl | he
  · trivial
  obtain rfl := List.mem_singleton.mp he
  refine unambiguous_of_tools (fun k a ha => htools a (Dict.mem_values ha)) fun c t x now hi => ?_
  obtain ⟨-, rfl, -⟩ := Event.consume.inj hi
  decide

end ApprovalStore

end Caips.Tools
