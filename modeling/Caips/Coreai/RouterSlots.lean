/-
Caips.Coreai.RouterSlots — concurrency slots while providers come and go.

A request gives its slot back to the limiter it finds under its provider's
name. That is the one it was admitted by as long as no provider is dropped
while one of its slots is taken, and no waiter is let in by a limiter that is
no longer in use (`CarefulRegistry`).
-/
import Caips.Coreai.RouterTheorems

namespace Caips.Coreai

open Caips.Logic Caips.Providers

namespace Router

open RouterState

variable {S : Setup}

/-- A provider is dropped only while none of its slots is taken, and a request
that waits for a slot gets one only from the limiter its provider still has. -/
def CarefulRegistry (p : Pool Γ) : Move Γ Op → Prop
  | .op (.dropProvider name) => ∀ l ∈ p.state.limiters.get? name,
      (p.state.limiterAt l).slots = (p.state.limiterAt l).config.concurrentRequests
  | .resume i a => p.AtResume i a fun me q r => Granted me p.state q r
  | _ => True

/-- Who the admissions still out belong to: every one to a call that has not
ended. -/
def HeldByCalls (p : Pool Γ) : Prop :=
  ∃ l : List (Task Γ × Multiset (Nat × Nat)), l.map Prod.fst = p.tasks ∧
    p.state.admitted.outstanding = (l.map Prod.snd).sum ∧
    ∀ x ∈ l, x.1.isDone = true → x.2 = 0

/-- The mode of a careful registry. -/
abbrev carefulMode : Mode := { careful := True }

theorem good_of_careful {p : Pool Γ} (hp : (system S).Reach CarefulRegistry p) :
    (contract S carefulMode).Good p := by
  refine (sound fun s hs => inv_fresh hs).good (hp.mono_step fun p m p' hstep hG => ?_)
  refine allows_of_step id hstep (fun _ _ _ => id) ?_ ?_
  · rintro name rfl
    exact ⟨id, fun _ => hG⟩
  · rintro i a rfl
    have hgranted : p.AtResume i a fun me q r => Granted me p.state q r := hG
    exact hgranted.imp fun me q r hr _ _ => hr

theorem active_le_holders (T : Multiset Tok) (l : Nat) :
    ((T.filterMap Tok.active?).map Prod.snd).count l ≤
      ((T.filterMap Tok.holder?).map Prod.snd).count l := by
  induction T using Multiset.induction with
  | empty => exact le_refl _
  | cons t T ih =>
    cases t with
    | probe t n => simpa using ih
    | slot n k => simpa [Multiset.count_cons] using Nat.le_add_right_of_le ih
    | active n k t => simpa [Multiset.count_cons] using ih

theorem active_of_slotless {h : Multiset Tok} (hh : ∀ x ∈ h, x.holder? = none) :
    h.filterMap Tok.active? = 0 := by
  refine Multiset.eq_zero_of_forall_notMem fun y hy => ?_
  obtain ⟨x, hx, hy⟩ := (Multiset.mem_filterMap _ _).mp hy
  have hnone := hh x hx
  cases x with
  | probe t n => cases hy
  | slot n k => cases hnone
  | active n k t => cases hnone

/-- A call that has ended holds no slot. -/
theorem done_slotless {i : Nat} {t : Task Γ} {own : Own carefulMode} {h : Multiset Tok}
    (hok : (contract S carefulMode).TaskOk i own t h) (hdone : t.isDone = true) :
    ∀ x ∈ h, x.holder? = none := by
  obtain ⟨c, status, hist⟩ := t
  obtain ⟨-, hpost⟩ := hok
  cases status with
  | ready => cases hdone
  | suspended q k => cases hdone
  | done o =>
    change (if c.isEmbed then _ else _) at hpost
    split at hpost
    · exact hpost.1 trivial
    · exact hpost.1.slotless trivial

/-- **Slots are exactly accounted for, while the registry is careful.** Every
admission was released at most once, and by the limiter that admitted it; the
admissions still out are those of the calls in flight, and each limiter counts
exactly its own and never more than it allows. Once every call has ended, all
admissions have been released. -/
theorem slots_exact {p : Pool Γ} (hp : (system S).Reach CarefulRegistry p) :
    p.state.admitted.Exact ∧ HeldByCalls p ∧
      (∀ l, (p.state.limiterAt l).activeRequests =
          (p.state.admitted.outstanding.map Prod.snd).count l ∧
        (p.state.limiterAt l).activeRequests ≤ (p.state.limiterAt l).config.concurrentRequests) ∧
      (p.unfinished = [] → ∀ e ∈ p.state.admitted.entries, e.returns = [e.resource]) := by
  obtain ⟨l, hl, hinv, hok⟩ := good_of_careful hp
  have hslots := hinv.slots trivial
  have hsum : ∀ z : List (Task Γ × Multiset Tok), (z.map Prod.snd).sum.filterMap Tok.active? =
      ((z.map fun x => (x.1, x.2.filterMap Tok.active?)).map Prod.snd).sum := by
    intro z
    induction z with
    | nil => rfl
    | cons x z ih =>
      simp only [List.map_cons, List.sum_cons, Multiset.filterMap_add, ih]
  have hheld : HeldByCalls p := by
    refine ⟨l.map fun x => (x.1, x.2.filterMap Tok.active?), ?_, ?_, ?_⟩
    · rw [← hl, List.map_map]
      rfl
    · exact hslots.outstanding.trans (hsum l)
    · intro x hx hdone
      obtain ⟨y, hy, rfl⟩ := List.mem_map.mp hx
      obtain ⟨i, hi⟩ := List.mem_iff_getElem?.mp hy
      exact active_of_slotless (done_slotless (hok i y hi) hdone)
  refine ⟨hslots.exact, hheld, fun k => ?_, fun hend => ?_⟩
  · have hactive := hslots.active k
    have hroom := hslots.room k
    have hle := active_le_holders (l.map Prod.snd).sum k
    refine ⟨by rw [hactive, hslots.outstanding], by omega⟩
  · refine hslots.exact.all_returned ?_
    obtain ⟨z, hz, hout, hzero⟩ := hheld
    rw [hout]
    refine List.sum_eq_zero fun a ha => ?_
    obtain ⟨x, hx, rfl⟩ := List.mem_map.mp ha
    refine hzero x hx ?_
    by_contra hdone
    have hmem : x.1 ∈ p.unfinished :=
      List.mem_filter.mpr ⟨hz ▸ List.mem_map_of_mem hx, by simpa using hdone⟩
    rw [hend] at hmem
    exact List.not_mem_nil hmem

instance (me : Γ.Handle) (s : RouterState) :
    (q : Ask Γ) → (r : Except Exc q.Reply) → Decidable (Granted me s q r)
  | .call (.slotLocked l), .ok (locked : Bool) => inferInstanceAs (Decidable (locked = false →
      s.limiters.get? ((candidates me.2 (s.focus me.1)).headD "") = some l))
  | .call (.slotLocked _), .error _ => inferInstanceAs (Decidable True)
  | .call (.slot l _), .ok _ => inferInstanceAs (Decidable
      (s.limiters.get? ((candidates me.2 (s.focus me.1)).headD "") = some l))
  | .call (.slot _ _), .error _ | .call (.sleep _), _ | .call (.complete _ _ _ _), _ | .call (.firstChunk _ _ _ _), _
  | .call (.nextChunk _), _ | .call .closeStream, _ | .call (.yieldChunk _), _ | .call (.embed _ _ _ _ _), _
  | .wait _ _, _ | .join _, _ => inferInstanceAs (Decidable True)

instance (p : Pool Γ) : (m : Move Γ Op) → Decidable (CarefulRegistry p m)
  | .op (.dropProvider name) => inferInstanceAs (Decidable (∀ l ∈ p.state.limiters.get? name,
      (p.state.limiterAt l).slots = (p.state.limiterAt l).config.concurrentRequests))
  | .resume i a =>
    inferInstanceAs (Decidable (p.AtResume i a fun me q r => Granted me p.state q r))
  | .op (.setProvider _ _) | .op (.tick _) | .op (.provider _ _) | .op (.report _ _ _ _) | .op (.policies _)
  | .op (.modelGate _) | .spawn _ | .start _ | .crash _ _ _ => inferInstanceAs (Decidable True)

def greeting : CompletionRequest where
  messages := [{ role := "user", content := "hello" }]

/-- The provider `a`. -/
def single : List (String × Provider) := [("a", { name := "a" })]

/-- A request to `a` is waiting for the provider's answer. -/
def routing : List (Move Γ Op) :=
  [.spawn (.route greeting none none), .start 0, .resume 0 (upstream none)]

/-- `a` is dropped and added again. -/
def swap : List (Move Γ Op) := [.op (.dropProvider "a"), .op (.setProvider "a" { name := "a" })]

/-- The provider is swapped after the request has ended, and another request
is on its way to the new one. -/
theorem slots_exact_swap :
    ∃ p : Pool Γ, p.tasks.length = 2 ∧ (p.state.limiterAt 1).activeRequests = 1 ∧
      p.state.admitted.Exact ∧ HeldByCalls p := by
  have hrun : ((program plainSetup).replay CarefulRegistry (plainPool single)
      (routing ++ [.resume 0 (upstream none)] ++ swap ++
        [.spawn (.route greeting none none), .start 1, .resume 1 (upstream none)])).any
      (fun p => decide (p.tasks.length = 2) &&
        decide ((p.state.limiterAt 1).activeRequests = 1)) = true := by decide +kernel
  obtain ⟨p, hp, htest⟩ := Machine.exists_of_any hrun
  simp only [Bool.and_eq_true, decide_eq_true_eq] at htest
  obtain ⟨hexact, hheld, -⟩ := slots_exact (Program.replay_reach (plainPool_reach single) hp)
  exact ⟨p, htest.1, htest.2, hexact, hheld⟩

/-- The provider is swapped while the request is on its way: the release goes to
the new limiter, and the old one counts a request for ever. -/
theorem slot_lost :
    ∃ p : Pool Γ, (system plainSetup).Reach Machine.free p ∧ p.unfinished = [] ∧
      (p.state.limiterAt 0).activeRequests = 1 ∧
      p.state.admitted.entries.map Entry.returns = [[1]] ∧ ¬ p.state.admitted.Exact := by
  have hrun : ((program plainSetup).replay Machine.free (plainPool single)
      (routing ++ swap ++ [.resume 0 (upstream none)])).any
      (fun p => p.unfinished.isEmpty && decide ((p.state.limiterAt 0).activeRequests = 1) &&
        decide (p.state.admitted.entries = [⟨0, 0, [1]⟩])) = true := by decide +kernel
  obtain ⟨p, hp, htest⟩ := Machine.exists_of_any hrun
  simp only [Bool.and_eq_true, decide_eq_true_eq, List.isEmpty_iff] at htest
  obtain ⟨⟨hend, hactive⟩, hentries⟩ := htest
  refine ⟨p, Program.replay_reach (plainPool_reach single) hp, hend, hactive, by rw [hentries]; rfl, ?_⟩
  intro hexact
  have hentry := hexact ⟨0, 0, [1]⟩ (by rw [hentries]; exact List.mem_singleton_self _)
  rcases hentry with h | h
  · cases h
  · cases h

end Router

end Caips.Coreai
