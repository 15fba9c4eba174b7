/-
Caips.Protocols.ExchangeTheorems — which messages sent exactly once arrive
exactly once.

The first send of a message marks it as delivered, so it flies at most once and
is returned at most once (`balance_run`). Nothing takes the mark away when
the send comes to nothing: a message is lost for good if its first send found no
recipient, if its recipient left while it was on its way, or if it was opened
after the replay window, which is shorter than its time to live
(`exactly_once`).
-/
import Caips.Protocols.ExchangeMoves

namespace Caips.Protocols

open Caips.Logic

namespace Exchange

open AgentMessageRouter

variable {x u : Exchange} {m a : String} {ev : ExchangeEvent}

/-! ## Counting one message -/

/-- A message to one agent, to be sent exactly once. -/
def Track (x : Exchange) (m a : String) : Prop :=
  ∀ e, x.envelopes.get? m = some e → e.deliveryMode = .exactlyOnce ∧ e.recipientId = a

/-- Whether the message is marked as delivered. -/
def marks (x : Exchange) (m : String) : ℕ := if m ∈ x.router.delivered then 1 else 0

theorem alive_none (h : x.router.agents.get? a = none) : x.alive a m = 0 := by
  simp [alive, h]

theorem alive_moves {new gone : List Sealed} (h : Moves x u new gone) (hagents : u.router.agents = x.router.agents)
    {q : ℕ} (hq : x.router.agents.get? a = some q) :
    u.alive a m + gone.countP (fun item => item.session = q && item.envelope.msgId = m) =
      x.alive a m + new.countP (fun item => item.session = q && item.envelope.msgId = m) := by
  have hc := h.count fun item => item.session = q && item.envelope.msgId = m
  simpa [alive, hagents, hq] using hc

theorem alive_same (h : Moves x u [] []) (hagents : u.router.agents = x.router.agents) : u.alive a m = x.alive a m := by
  cases hq : x.router.agents.get? a with
  | none => rw [alive_none hq, alive_none (hagents ▸ hq)]
  | some q => simpa using alive_moves (m := m) h hagents hq

theorem received_same (h : u.returned = x.returned) : u.received a m = x.received a m := by
  rw [received, received, h]

theorem marks_same (h : u.router.delivered = x.router.delivered) : u.marks m = x.marks m := by
  rw [marks, marks, h]

/-- What a step does to the items that fly, the returns and the mark of one
message: it keeps the balance, or loses the message. -/
structure Balance (x u : Exchange) (a m : String) (lost : Prop) : Prop where
  kept : ¬lost → u.alive a m + u.received a m + x.marks m = x.alive a m + x.received a m + u.marks m
  gone : lost → x.alive a m + x.received a m ≤ x.marks m → u.alive a m + u.received a m = 0 ∧ u.marks m = 1

theorem balance_same {lost : Prop} (halive : u.alive a m = x.alive a m) (hreceived : u.received a m = x.received a m)
    (hmarks : u.marks m = x.marks m) (hlost : ¬lost) : Balance x u a m lost where
  kept := fun _ => by omega
  gone := fun h => absurd h hlost

theorem balance_register (hx : x.Inv) (agent : String) :
    Balance x { x with router := x.router.registerAgent agent } a m False := by
  refine balance_same ?_ rfl ?_ id
  · unfold registerAgent
    split
    · rfl
    · next hnew =>
        by_cases ha : agent = a
        · subst ha
          have hnone : x.router.agents.get? agent = none := by simpa [Dict.contains] using hnew
          rw [alive_none hnone]
          simp only [alive, Dict.get?_set_self, flying, List.flatMap_append, List.flatMap_cons, List.flatMap_nil,
            List.append_nil]
          rw [List.countP_eq_zero]
          intro item hitem
          have hlt := hx.session item hitem
          simp [hlt.ne]
        · simp [alive, Dict.get?_set_ne _ _ ha, flying]
  · unfold registerAgent
    split <;> rfl

theorem balance_deregister (agent : String) :
    Balance x { x with router := x.router.deregisterAgent agent } a m (agent = a ∧ 0 < x.alive a m) := by
  by_cases ha : agent = a
  · subst ha
    have hnone : alive { x with router := x.router.deregisterAgent agent } agent m = 0 :=
      alive_none (by simp [deregisterAgent])
    have hmarks : marks { x with router := x.router.deregisterAgent agent } m = x.marks m := rfl
    have hreceived : received { x with router := x.router.deregisterAgent agent } agent m = x.received agent m := rfl
    have hone : x.marks m ≤ 1 := by
      unfold marks
      split <;> omega
    constructor
    · intro hlost
      have hzero : ¬0 < x.alive agent m := fun h => hlost ⟨rfl, h⟩
      omega
    · rintro ⟨-, hpos⟩ hle
      omega
  · refine balance_same ?_ rfl rfl fun h => ha h.1
    simp [alive, deregisterAgent, Dict.get?_pop_ne _ ha, flying]

theorem unsealable_hopCount (q : ℕ) (e : Envelope) (n : ℕ) :
    x.Unsealable q { e with hopCount := n } ↔ x.Unsealable q e := by
  have hseal : ∀ b, (sealIn q b x.now { e with hopCount := n }).2 = none ↔ (sealIn q b x.now e).2 = none := by
    intro b
    unfold sealIn
    simp only
    split <;> simp
  simp [Unsealable, hseal]

theorem balance_send {id : String} (hx : x.Inv) (ha : a ≠ "") (htrack : x.Track m a) (h : x.step (.send id) = some u) :
    Balance x u a m (x.Loses a m (.send id)) := by
  obtain ⟨e, he, new, hmoves, hagents, hreturned, hnew, hcases⟩ := moves_send hx h
  have hid := hx.ids id e he
  have hreceived : u.received a m = x.received a m := received_same hreturned
  by_cases hm : id = m
  · subst hm
    obtain ⟨hmode, rfl⟩ := htrack e he
    rcases hcases with ⟨hdeclines, rfl, hdelivered⟩ | ⟨hdeclines, hdelivered, hto⟩
    · refine balance_same (alive_same hmoves hagents) hreceived (marks_same hdelivered) ?_
      rintro ⟨-, hmark, e', ⟨he', hexpired, hhops⟩, -⟩
      obtain rfl := Option.some.inj (he.symm.trans he')
      rcases hdeclines with h | h | ⟨-, h⟩
      · exact hexpired h
      · omega
      · exact hmark (hid ▸ h)
    · simp only [Declines, hmode, hid, true_and, not_or, not_le] at hdeclines
      obtain ⟨hexpired, hhops, hmark⟩ := hdeclines
      have hbefore : x.marks id = 0 := if_neg hmark
      have hafter : u.marks id = 1 := by simp [marks, hdelivered, mark, hmode, hid]
      obtain ⟨n, hto⟩ := hto ha
      have hloses : x.Loses e.recipientId id (.send id) ↔
          ∀ q, x.router.agents.get? e.recipientId = some q → x.Unsealable q e := by
        constructor
        · rintro ⟨-, -, e', ⟨he', -⟩, hall⟩
          obtain rfl := Option.some.inj (he.symm.trans he')
          exact hall
        · intro hall
          exact ⟨rfl, hmark, e, ⟨he, hexpired, hhops⟩, hall⟩
      rw [hloses]
      simp only [SentTo] at hto
      cases hq : x.router.agents.get? e.recipientId with
      | none =>
        rw [hq] at hto
        subst hto
        have halive : u.alive e.recipientId id = x.alive e.recipientId id := alive_same hmoves hagents
        constructor
        · intro hlost
          exact absurd (fun q hq => by cases hq) hlost
        · intro _ hle
          omega
      | some q =>
        rw [hq] at hto
        rcases hto with ⟨hnone, rfl⟩ | ⟨hsome, item, rfl, hsession⟩
        · have hunsealable := (unsealable_hopCount q e n).mp hnone
          have halive : u.alive e.recipientId id = x.alive e.recipientId id := alive_same hmoves hagents
          constructor
          · intro hlost
            refine absurd (fun q' hq' => ?_) hlost
            obtain rfl := Option.some.inj hq'
            exact hunsealable
          · intro _ hle
            omega
        · have hsealable : ¬x.Unsealable q e := fun h => hsome ((unsealable_hopCount q e n).mpr h)
          have halive := alive_moves (m := id) hmoves hagents hq
          have hitem : item.envelope.msgId = id := hnew item (by simp)
          simp only [List.countP_nil, List.countP_singleton, hsession, hitem, decide_true, Bool.and_self, if_true] at halive
          constructor
          · intro _
            omega
          · intro hlost
            exact absurd (hlost q rfl) hsealable
  · have hlost : ¬x.Loses a m (.send id) := fun h => hm h.1
    have halive : u.alive a m = x.alive a m := by
      cases hq : x.router.agents.get? a with
      | none => rw [alive_none hq, alive_none (hagents ▸ hq)]
      | some q =>
        have hsum := alive_moves (m := m) hmoves hagents hq
        have hzero : new.countP (fun item => item.session = q && item.envelope.msgId = m) = 0 := by
          rw [List.countP_eq_zero]
          intro item hitem
          simp [hnew item hitem, hm]
        simpa [hzero] using hsum
    refine balance_same halive hreceived ?_ hlost
    rcases hcases with ⟨-, -, hdelivered⟩ | ⟨-, hdelivered, -⟩
    · exact marks_same hdelivered
    · have hne : ¬m = id := fun h => hm h.symm
      unfold marks
      rw [hdelivered]
      unfold mark
      split <;> simp [hid, hne]

theorem balance_unseal {i : ℕ} (hx : x.Inv) (h : x.step (.unsealItem i) = some u) :
    Balance x u a m (x.Loses a m (.unsealItem i)) := by
  obtain ⟨agent, item, hitem, hmoves, hagents, hdelivered, hreturned⟩ := moves_unseal hx h
  have hmarks : u.marks m = x.marks m := marks_same hdelivered
  have hloses : x.Loses a m (.unsealItem i) ↔ agent = a ∧ item.envelope.msgId = m ∧
      x.router.agents.get? a = some item.session ∧ |x.now - item.sealedAt| > replayWindowS := by
    constructor
    · rintro ⟨item', hitem', hlost⟩
      obtain ⟨rfl, rfl⟩ := Prod.mk.inj (Option.some.inj (hitem.symm.trans hitem'))
      exact ⟨rfl, hlost⟩
    · rintro ⟨rfl, hlost⟩
      exact ⟨item, hitem, hlost⟩
  rw [hloses]
  by_cases hours : agent = a ∧ item.envelope.msgId = m ∧ x.router.agents.get? a = some item.session
  · obtain ⟨rfl, hm, hq⟩ := hours
    have halive := alive_moves (m := m) hmoves hagents hq
    simp only [List.countP_nil, List.countP_singleton, hm, decide_true, Bool.and_self, if_true] at halive
    have hone : x.marks m ≤ 1 := by
      unfold marks
      split <;> omega
    by_cases hold : |x.now - item.sealedAt| > replayWindowS
    · have hreceived : u.received agent m = x.received agent m := by
        have hopens : ¬x.Opens agent item := fun h => absurd h.2 (not_le.mpr hold)
        exact received_same (by simp [hreturned, hopens])
      constructor
      · intro hlost
        exact absurd ⟨rfl, hm, hq, hold⟩ hlost
      · intro _ hle
        omega
    · have hreceived : u.received agent m = x.received agent m + 1 := by
        have hopens : x.Opens agent item := ⟨hq, not_lt.mp hold⟩
        simp [received, hreturned, hopens, hm]
      constructor
      · intro _
        omega
      · rintro ⟨-, -, -, hlost⟩
        exact absurd hlost hold
  · have hlost : ¬(agent = a ∧ item.envelope.msgId = m ∧
        x.router.agents.get? a = some item.session ∧ |x.now - item.sealedAt| > replayWindowS) :=
      fun h => hours ⟨h.1, h.2.1, h.2.2.1⟩
    have halive : u.alive a m = x.alive a m := by
      cases hq : x.router.agents.get? a with
      | none => rw [alive_none hq, alive_none (hagents ▸ hq)]
      | some q =>
        have hsum := alive_moves (m := m) hmoves hagents hq
        have hother : ¬(item.session = q ∧ item.envelope.msgId = m) := by
          rintro ⟨rfl, hm⟩
          -- the item was in the hands of the agent whose session sealed it
          obtain ⟨b, hb, hagent⟩ := hx.hand agent item (List.mem_of_getElem? hitem)
          obtain ⟨b', hb', hagent'⟩ := hx.box a _ hq
          obtain rfl := Option.some.inj (hb.symm.trans hb')
          exact hours ⟨hagent.symm.trans hagent', hm, hq⟩
        simpa [List.countP_cons, hother] using hsum
    refine balance_same halive ?_ hmarks hlost
    by_cases hopens : x.Opens agent item
    · have hother : ¬(agent = a ∧ item.envelope.msgId = m) := by
        rintro ⟨rfl, hm⟩
        exact hours ⟨rfl, hm, hopens.1⟩
      simp [received, hreturned, hopens, hother]
    · exact received_same (by simp [hreturned, hopens])

/-- **One step** keeps the balance of a message, or loses it. -/
theorem balance (hx : x.Inv) (ha : a ≠ "") (htrack : x.Track m a) (h : x.step ev = some u) :
    Balance x u a m (x.Loses a m ev) := by
  cases ev with
  | tick now =>
    simp only [step] at h
    split at h
    · cases h
    · obtain rfl := Option.some.inj h
      exact balance_same rfl rfl rfl id
  | create e =>
    simp only [step] at h
    split at h
    · cases h
    · obtain rfl := Option.some.inj h
      exact balance_same rfl rfl rfl id
  | register agent =>
    obtain rfl := Option.some.inj h
    exact balance_register hx agent
  | deregister agent =>
    obtain rfl := Option.some.inj h
    exact balance_deregister agent
  | send id => exact balance_send hx ha htrack h
  | resume i =>
    obtain ⟨hmoves, hagents, hdelivered, hreturned⟩ := moves_resume hx h
    exact balance_same (alive_same hmoves hagents) (received_same hreturned) (marks_same hdelivered) id
  | take q =>
    obtain ⟨hmoves, hagents, hdelivered, hreturned⟩ := moves_take hx h
    exact balance_same (alive_same hmoves hagents) (received_same hreturned) (marks_same hdelivered) id
  | unsealItem i => exact balance_unseal hx h

/-! ## Runs -/

/-- Sending counts hops; nothing else of a message changes, and no message
goes. -/
theorem envelope_step (h : x.step ev = some u) {e : Envelope} (he : x.envelopes.get? m = some e) :
    ∃ n, u.envelopes.get? m = some { e with hopCount := n } := by
  have hsame : u.envelopes = x.envelopes → ∃ n, u.envelopes.get? m = some { e with hopCount := n } :=
    fun heq => ⟨e.hopCount, heq ▸ he⟩
  cases ev with
  | tick now =>
    simp only [step] at h
    split at h
    · cases h
    · exact hsame (Option.some.inj h ▸ rfl)
  | create e' =>
    simp only [step] at h
    split at h
    · cases h
    · next hnew =>
        obtain rfl := Option.some.inj h
        have hne : e'.msgId ≠ m := by
          rintro rfl
          simp [Dict.contains, he] at hnew
        exact ⟨e.hopCount, by simp [Dict.get?_set_ne _ _ hne, he]⟩
  | register agent => exact hsame (Option.some.inj h ▸ rfl)
  | deregister agent => exact hsame (Option.some.inj h ▸ rfl)
  | send id =>
    obtain ⟨e', he', rfl⟩ := step_send h
    by_cases hm : id = m
    · subst hm
      obtain rfl := Option.some.inj (he.symm.trans he')
      simp only [Dict.get?_set_self, send]
      split
      · exact ⟨e.hopCount, rfl⟩
      · split
        · exact ⟨e.hopCount, rfl⟩
        · split <;> exact ⟨e.hopCount + 1, rfl⟩
    · exact ⟨e.hopCount, by simp [Dict.get?_set_ne _ _ hm, he]⟩
  | resume i =>
    obtain ⟨item, hitem, h⟩ := Option.bind_eq_some_iff.mp h
    obtain ⟨r, hr, h⟩ := Option.bind_eq_some_iff.mp h
    exact hsame (Option.some.inj h ▸ rfl)
  | take q =>
    obtain ⟨b, hb, h⟩ := Option.bind_eq_some_iff.mp h
    obtain ⟨⟨r, item⟩, hr, h⟩ := Option.bind_eq_some_iff.mp h
    exact hsame (Option.some.inj h ▸ rfl)
  | unsealItem i =>
    obtain ⟨⟨agent, item⟩, hitem, h⟩ := Option.bind_eq_some_iff.mp h
    simp only at h
    split at h <;> exact hsame (Option.some.inj h ▸ rfl)

theorem track_step (h : x.step ev = some u) (htrack : u.Track m a) : x.Track m a := by
  intro e he
  obtain ⟨n, hn⟩ := envelope_step h he
  have hu := htrack _ hn
  exact hu

variable {l : List (Machine.Step Exchange ExchangeEvent)}

theorem track_run (hrun : machine.Run x l u) (htrack : u.Track m a) :
    x.Track m a := by
  induction hrun with
  | nil => exact htrack
  | snoc _ hstep ih => exact ih (track_step hstep htrack)

theorem inv_run (hstart : machine.start x) (hrun : machine.Run x l u) :
    u.Inv := by
  induction hrun with
  | nil => exact inv_start hstart
  | snoc _ hstep ih => exact inv_step ih hstep

/-- What a run keeps: as long as the message was not lost, it flies or was
returned once for its mark; once it was lost, neither. -/
theorem balance_run (ha : a ≠ "") (hstart : machine.start x)
    (hrun : machine.Run x l u) (htrack : u.Track m a) :
    ((∀ s ∈ l, ¬s.source.Loses a m s.label) → u.alive a m + u.received a m = u.marks m) ∧
      ((∃ s ∈ l, s.source.Loses a m s.label) → u.alive a m + u.received a m = 0 ∧ u.marks m = 1) := by
  induction hrun with
  | nil =>
    obtain ⟨now, rfl⟩ := hstart
    simp [alive, received, marks]
  | @snoc t u l ev hrun hstep ih =>
    obtain ⟨hkept, hgone⟩ := ih (track_step hstep htrack)
    have hbalance := balance (inv_run hstart hrun) ha (track_step hstep htrack) hstep
    have hmark : u.marks m ≤ 1 := by
      unfold marks
      split <;> omega
    by_cases hearlier : ∃ s ∈ l, s.source.Loses a m s.label
    · obtain ⟨hnone, hone⟩ := hgone hearlier
      have hlater : u.alive a m + u.received a m = 0 ∧ u.marks m = 1 := by
        by_cases hlost : t.Loses a m ev
        · exact hbalance.gone hlost (by omega)
        · have hsum := hbalance.kept hlost
          omega
      constructor
      · intro hall
        obtain ⟨s, hs, hlost⟩ := hearlier
        exact absurd hlost (hall s (List.mem_append_left _ hs))
      · intro _
        exact hlater
    · have hbefore := hkept fun s hs hlost => hearlier ⟨s, hs, hlost⟩
      constructor
      · intro hall
        have hsum := hbalance.kept (hall ⟨t, ev, u⟩ (by simp))
        omega
      · rintro ⟨s, hs, hlost⟩
        rcases List.mem_append.mp hs with hs | hs
        · exact absurd ⟨s, hs, hlost⟩ hearlier
        · rw [List.mem_singleton.mp hs] at hlost
          exact hbalance.gone hlost (by omega)

/-- The mark stays. -/
theorem delivered_step (hx : x.Inv) (h : x.step ev = some u) (hm : m ∈ x.router.delivered) : m ∈ u.router.delivered := by
  cases ev with
  | tick now =>
    simp only [step] at h
    split at h
    · cases h
    · exact Option.some.inj h ▸ hm
  | create e =>
    simp only [step] at h
    split at h
    · cases h
    · exact Option.some.inj h ▸ hm
  | register agent =>
    obtain rfl := Option.some.inj h
    simp only [registerAgent]
    split <;> exact hm
  | deregister agent => exact Option.some.inj h ▸ hm
  | send id =>
    obtain ⟨e, he, new, -, -, -, -, ⟨-, -, hdelivered⟩ | ⟨-, hdelivered, -⟩⟩ := moves_send hx h
    · exact hdelivered ▸ hm
    · rw [hdelivered]
      unfold mark
      split <;> simp [hm]
  | resume i => exact (moves_resume hx h).2.2.1 ▸ hm
  | take q => exact (moves_take hx h).2.2.1 ▸ hm
  | unsealItem i =>
    obtain ⟨agent, item, -, -, -, hdelivered, -⟩ := moves_unseal hx h
    exact hdelivered ▸ hm

theorem delivered_run {t : Exchange} (ht : t.Inv)
    (hrun : machine.Run t l u) (hm : m ∈ t.router.delivered) : m ∈ u.router.delivered := by
  have hboth : u.Inv ∧ m ∈ u.router.delivered := by
    induction hrun with
    | nil => exact ⟨ht, hm⟩
    | snoc _ hstep ih => exact ⟨inv_step ih.1 hstep, delivered_step ih.1 hstep ih.2⟩
  exact hboth.2

/-- A send that is one marks the message. -/
theorem delivered_send (hx : x.Inv) (htrack : x.Track m a) (h : x.step (.send m) = some u) {e : Envelope}
    (hsends : x.Sends m e) : m ∈ u.router.delivered := by
  obtain ⟨e', he', new, -, -, -, -, hcases⟩ := moves_send hx h
  obtain ⟨he, hexpired, hhops⟩ := hsends
  obtain rfl := Option.some.inj (he.symm.trans he')
  have hid := hx.ids m e he
  rcases hcases with ⟨hdeclines, -, hdelivered⟩ | ⟨-, hdelivered, -⟩
  · rw [hdelivered]
    rcases hdeclines with h | h | ⟨-, h⟩
    · exact absurd h hexpired
    · omega
    · exact hid ▸ h
  · simp [hdelivered, mark, (htrack e he).1, hid]

theorem alive_drained (h : u.Drained a) : u.alive a m = 0 := by
  unfold alive
  split
  · rfl
  · next q hq =>
      rw [List.countP_eq_zero]
      intro item hitem
      simp [h q hq item hitem]

/-- **A message sent exactly once is returned at most once**, in every run. Once
it was sent and nothing is on its way any more, it has been returned exactly if
no step of the run lost it. -/
theorem exactly_once {l : List (Machine.Step Exchange ExchangeEvent)} (ha : a ≠ "") (hstart : machine.start x)
    (hrun : machine.Run x l u) (htrack : u.Track m a) :
    u.received a m ≤ 1 ∧
      ((∃ s ∈ l, s.label = .send m ∧ ∃ e, s.source.Sends m e) → u.Drained a →
        (u.received a m = 1 ↔ ∀ s ∈ l, ¬s.source.Loses a m s.label)) := by
  obtain ⟨hkept, hgone⟩ := balance_run ha hstart hrun htrack
  have hmark : u.marks m ≤ 1 := by
    unfold marks
    split <;> omega
  by_cases hlost : ∃ s ∈ l, s.source.Loses a m s.label
  · obtain ⟨hnone, -⟩ := hgone hlost
    refine ⟨by omega, fun _ _ => ⟨fun h => by omega, fun hall => ?_⟩⟩
    obtain ⟨s, hs, h⟩ := hlost
    exact absurd h (hall s hs)
  · have hall : ∀ s ∈ l, ¬s.source.Loses a m s.label := fun s hs h => hlost ⟨s, hs, h⟩
    have hsum := hkept hall
    refine ⟨by omega, ?_⟩
    rintro ⟨s, hs, hlabel, e, hsends⟩ hdrained
    obtain ⟨hstep, ⟨l₁, hbefore, -⟩, l₂, hafter, -⟩ := hrun.split hs
    rw [hlabel] at hstep
    have hx := inv_run hstart hbefore
    have htrack' := track_run hafter htrack
    have hdelivered : m ∈ u.router.delivered :=
      delivered_run (inv_step hx hstep) hafter (delivered_send hx (track_step hstep htrack') hstep hsends)
    have hone : u.marks m = 1 := if_pos hdelivered
    have halive : u.alive a m = 0 := alive_drained hdrained
    exact ⟨fun _ => hall, fun _ => by omega⟩

/-- A task for one agent, to be sent exactly once. -/
def task : Envelope :=
  { msgId := "m", senderId := "a", recipientId := "b", deliveryMode := .exactlyOnce, createdAt := 0 }

/-- What the runs below are looked at for. -/
def shows (x : Exchange) (hops returned : ℕ) : Bool :=
  x.envelopes.get? "m" = some { task with hopCount := hops } && x.now = 0 && x.flying = [] &&
    x.router.agents.get? "b" = some 0 && x.received "b" "m" = returned

theorem of_shows {hops n : ℕ} (h : x.shows hops n = true) :
    x.Track "m" "b" ∧ x.Drained "b" ∧ x.received "b" "m" = n ∧ (∀ e, x.envelopes.get? "m" = some e → ¬e.isExpired x.now) ∧
      x.router.agents.get? "b" = some 0 ∧ (hops < maxRoutingHops → ∃ e, x.Sends "m" e) := by
  simp only [shows, Bool.and_eq_true, decide_eq_true_eq] at h
  obtain ⟨⟨⟨⟨henvelope, hnow⟩, hflying⟩, hagent⟩, hreceived⟩ := h
  have hfresh : ∀ e, x.envelopes.get? "m" = some e → ¬e.isExpired x.now := by
    intro e he
    rw [henvelope] at he
    rw [← Option.some.inj he, hnow]
    exact (by decide +kernel : ¬((0 : ℚ) - 0 > 60))
  refine ⟨?_, ?_, hreceived, hfresh, hagent, fun hhops => ⟨_, henvelope, hfresh _ henvelope, hhops⟩⟩
  · intro e he
    rw [henvelope] at he
    rw [← Option.some.inj he]
    exact ⟨rfl, rfl⟩
  · intro q _ item hitem
    rw [hflying] at hitem
    cases hitem

/-- `exactly_once` where the task is sent, received, and sent again. -/
theorem exactly_once_again : ∃ x u l, machine.start x ∧ machine.Run x l u ∧ u.received "b" "m" = 1 ∧
    ∀ s ∈ l, ¬s.source.Loses "b" "m" s.label := by
  obtain ⟨t, ht, htest⟩ := Machine.exists_of_any
    (show (Machine.exec step {} [.register "b", .create task]).any (fun t => t.shows 0 0 && ((Machine.exec step t
      [.send "m", .take 0, .unsealItem 0, .send "m"]).any fun u => u.shows 2 1)) = true by decide +kernel)
  obtain ⟨hbefore, htest⟩ := (Bool.and_eq_true _ _).mp htest
  obtain ⟨u, hu, hafter⟩ := Machine.exists_of_any htest
  obtain ⟨v, hv, hrest⟩ := Option.bind_eq_some_iff.mp hu
  obtain ⟨l₁, hl₁⟩ := Machine.exec_run (P := fun x => ∃ now, x = { now := now }) ht
  obtain ⟨l₂, hl₂⟩ := Machine.exec_run (P := fun x => ∃ now, x = { now := now }) hrest
  obtain ⟨-, -, -, -, -, hsends⟩ := of_shows hbefore
  obtain ⟨htrack, hdrained, hreceived, -⟩ := of_shows hafter
  have hrun := (hl₁.append (Machine.Run.single (m := machine) hv)).append hl₂
  have hsent : ∃ s ∈ l₁ ++ [⟨t, .send "m", v⟩] ++ l₂, s.label = .send "m" ∧ ∃ e, s.source.Sends "m" e :=
    ⟨⟨t, .send "m", v⟩, by simp, rfl, hsends (by decide)⟩
  exact ⟨_, u, _, ⟨0, rfl⟩, hrun, hreceived,
    ((exactly_once (by decide) ⟨0, rfl⟩ hrun htrack).2 hsent hdrained).mp hreceived⟩

/-- The task was sent before its recipient was there. It is sent again to the
registered recipient, well within its time to live, and never arrives. -/
theorem sent_early : ∃ l u, machine.Run {} l u ∧
    l.map Machine.Step.label = [.create task, .send "m", .register "b", .send "m"] ∧ u.Track "m" "b" ∧
    (∃ s ∈ l, s.label = .send "m" ∧ (∃ e, s.source.Sends "m" e) ∧ ∃ q, s.source.router.agents.get? "b" = some q) ∧
    (∀ e, u.envelopes.get? "m" = some e → ¬e.isExpired u.now) ∧ u.Drained "b" ∧ u.received "b" "m" = 0 := by
  obtain ⟨t, ht, htest⟩ := Machine.exists_of_any
    (show (Machine.exec step {} [.create task, .send "m", .register "b"]).any (fun t => t.shows 1 0 && ((t.step
      (.send "m")).any fun u => u.shows 2 0)) = true by decide +kernel)
  obtain ⟨hbefore, htest⟩ := (Bool.and_eq_true _ _).mp htest
  obtain ⟨u, hu, hafter⟩ := Machine.exists_of_any htest
  obtain ⟨l, hl, hlabels⟩ := Machine.exec_run_labels (P := fun x => ∃ now, x = { now := now }) ht
  obtain ⟨-, -, -, -, hagent, hsends⟩ := of_shows hbefore
  obtain ⟨htrack, hdrained, hreceived, hfresh, -⟩ := of_shows hafter
  exact ⟨_, u, hl.append (Machine.Run.single (m := machine) hu), by simp [hlabels], htrack,
    ⟨⟨t, .send "m", u⟩, by simp, rfl, hsends (by decide), 0, hagent⟩, hfresh, hdrained, hreceived⟩

end Exchange

end Caips.Protocols
