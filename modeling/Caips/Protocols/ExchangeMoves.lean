/-
Caips.Protocols.ExchangeMoves — what one step of an exchange does to the items
that fly.

Every step adds some sealed items, lets some out and moves the others about
(`Moves`); a new item has a number its session never used. So the guard of a
session never takes an item for a replay (`Inv.unseen`), and whether an item
opens depends on the session and the clock alone (`unsealItem_eq`).
-/
import Caips.Protocols.Exchange

namespace Caips.Protocols

open Caips.Logic

/-! ## Counting in queues -/

theorem countP_flatMap_set {α β : Type} (p : β → Bool) (f : α → List β) {b c : α} :
    ∀ {l : List α} {q : ℕ}, l[q]? = some b →
      ((l.set q c).flatMap f).countP p + (f b).countP p = (l.flatMap f).countP p + (f c).countP p
  | [], q, h => by simp at h
  | a :: l, 0, h => by
      obtain rfl : a = b := by simpa using h
      simp only [List.set_cons_zero, List.flatMap_cons, List.countP_append]
      omega
  | a :: l, q + 1, h => by
      have ih := countP_flatMap_set p f (l := l) (q := q) (c := c) (by simpa using h)
      simp only [List.set_cons_succ, List.flatMap_cons, List.countP_append]
      omega

theorem countP_eraseIdx {α : Type} (p : α → Bool) : ∀ {l : List α} {i : ℕ} {a : α}, l[i]? = some a →
    (l.eraseIdx i).countP p + (if p a then 1 else 0) = l.countP p
  | [], i, a, h => by simp at h
  | b :: l, 0, a, h => by
      obtain rfl : b = a := by simpa using h
      simp [List.countP_cons]
  | b :: l, i + 1, a, h => by
      have ih := countP_eraseIdx p (l := l) (i := i) (a := a) (by simpa using h)
      simp only [List.eraseIdx_cons_succ, List.countP_cons]
      omega

namespace AgentMessageRouter

variable {r r' : AgentMessageRouter} {now : ℚ} {e : Envelope} {q : ℕ} {b : Mailbox}

/-- The items in all queues. -/
def queued (r : AgentMessageRouter) : List Sealed := r.boxes.flatMap Mailbox.queue

theorem queued_setBox (p : Sealed → Bool) {c : Mailbox} (h : r.boxes[q]? = some b) :
    (r.setBox q c).queued.countP p + b.queue.countP p = r.queued.countP p + c.queue.countP p :=
  countP_flatMap_set p Mailbox.queue h

theorem boxes_setBox {b' c : Mailbox} {q' : ℕ} (h : r.boxes[q']? = some c) :
    (r.setBox q b').boxes[q']? = if q = q' then some b' else some c := by
  have hlt := (List.getElem?_eq_some_iff.mp h).1
  by_cases hq : q = q'
  · subst hq
    simp [setBox, hlt]
  · simp [setBox, hq, h]

theorem setBox_self (h : r.boxes[q]? = some b) : r.setBox q b = r := by
  obtain ⟨hlt, rfl⟩ := List.getElem?_eq_some_iff.mp h
  simp [setBox]

@[simp] theorem agents_setBox (r : AgentMessageRouter) (q : ℕ) (b : Mailbox) :
    (r.setBox q b).agents = r.agents := rfl

@[simp] theorem delivered_setBox (r : AgentMessageRouter) (q : ℕ) (b : Mailbox) :
    (r.setBox q b).delivered = r.delivered := rfl

@[simp] theorem length_boxes_setBox (r : AgentMessageRouter) (q : ℕ) (b : Mailbox) :
    (r.setBox q b).boxes.length = r.boxes.length := by
  simp [setBox]

def waiting : SendOutcome → List Sealed
  | .waits item => [item]
  | _ => []

/-- What sending does: some new items fly, each under a number its session had
not used, and nothing else changes. -/
structure Sent (r r' : AgentMessageRouter) (e : Envelope) (new wait : List Sealed) : Prop where
  count : ∀ p, r'.queued.countP p + wait.countP p = r.queued.countP p + new.countP p
  length : r'.boxes.length = r.boxes.length
  agents : r'.agents = r.agents
  delivered : r'.delivered = r.delivered
  envelope : ∀ item ∈ new, item.envelope = e
  session : ∀ item ∈ new, item.session < r.boxes.length
  box : ∀ (q : ℕ) (b : Mailbox), r.boxes[q]? = some b → ∃ b' : Mailbox, r'.boxes[q]? = some b' ∧
    b'.agent = b.agent ∧ b'.guard = b.guard ∧ (∀ item ∈ b'.queue, item ∈ b.queue ∨ item.session = q) ∧
    b.sendSeq ≤ b'.sendSeq ∧ ∀ n, new.countP (fun item => item.session = q && item.seq = n) ≤
      if b.sendSeq < n ∧ n ≤ b'.sendSeq then 1 else 0

theorem Sent.refl (r : AgentMessageRouter) (e : Envelope) : Sent r r e [] [] where
  count := fun p => by simp
  length := rfl
  agents := rfl
  delivered := rfl
  envelope := by simp
  session := by simp
  box := fun q b hb => ⟨b, hb, rfl, rfl, fun item hitem => .inl hitem, le_rfl, by simp⟩

theorem Sent.trans {r'' : AgentMessageRouter} {new new' wait : List Sealed} (h : Sent r r' e new [])
    (h' : Sent r' r'' e new' wait) : Sent r r'' e (new ++ new') wait where
  count := fun p => by
    have hc := h.count p
    have hc' := h'.count p
    simp only [List.countP_append, List.countP_nil] at hc hc' ⊢
    omega
  length := h'.length.trans h.length
  agents := h'.agents.trans h.agents
  delivered := h'.delivered.trans h.delivered
  envelope := by
    intro item hitem
    rcases List.mem_append.mp hitem with hi | hi
    · exact h.envelope item hi
    · exact h'.envelope item hi
  session := by
    intro item hitem
    rcases List.mem_append.mp hitem with hi | hi
    · exact h.session item hi
    · exact h.length ▸ h'.session item hi
  box := by
    intro q b hb
    obtain ⟨b', hb', hagent, hguard, hqueue, hseq, hnew⟩ := h.box q b hb
    obtain ⟨b'', hb'', hagent', hguard', hqueue', hseq', hnew'⟩ := h'.box q b' hb'
    refine ⟨b'', hb'', hagent'.trans hagent, hguard'.trans hguard, ?_, hseq.trans hseq', fun n => ?_⟩
    · intro item hitem
      rcases hqueue' item hitem with hi | hi
      · exact hqueue item hi
      · exact .inr hi
    have hn := hnew n
    have hn' := hnew' n
    rw [List.countP_append]
    split at hn <;> split at hn' <;> split <;> omega

/-- A frame number is used up, and the item, if there is one, goes in, stays
with the sender or is dropped. -/
theorem sent_setBox (now : ℚ) (h : r.boxes[q]? = some b) (c : Mailbox) (hagent : c.agent = b.agent) (hguard : c.guard = b.guard)
    (hseq : c.sendSeq = b.sendSeq + 1) {items wait : List Sealed}
    (hmem : ∀ item ∈ c.queue, item ∈ b.queue ∨ item.session = q)
    (hqueue : ∀ p, c.queue.countP p + wait.countP p = b.queue.countP p + items.countP p)
    (hitems : items = [] ∨ items = [⟨q, c.sendSeq, now, e⟩]) : Sent r (r.setBox q c) e items wait where
  count := fun p => by
    have hset := queued_setBox (c := c) p h
    have hq := hqueue p
    omega
  length := by simp
  agents := rfl
  delivered := rfl
  envelope := by
    rcases hitems with rfl | rfl
    · simp
    · simp
  session := by
    have hlt := (List.getElem?_eq_some_iff.mp h).1
    rcases hitems with rfl | rfl
    · simp
    · simpa using hlt
  box := by
    intro q' b' hb'
    rw [boxes_setBox hb']
    by_cases hq : q = q'
    · subst hq
      obtain rfl := Option.some.inj (h.symm.trans hb')
      refine ⟨c, if_pos rfl, hagent, hguard, hmem, by omega, fun n => ?_⟩
      rcases hitems with rfl | rfl
      · simp
      · by_cases hn : c.sendSeq = n
        · subst hn
          simp [hseq]
        · simp [hn]
    · refine ⟨b', if_neg hq, rfl, rfl, fun item hitem => .inl hitem, le_rfl, fun n => ?_⟩
      rcases hitems with rfl | rfl
      · simp
      · simp [hq]

theorem sent_none (h : r.boxes[q]? = some b) (e : Envelope) :
    Sent r (r.setBox q { b with sendSeq := b.sendSeq + 1 }) e [] [] :=
  sent_setBox 0 h { b with sendSeq := b.sendSeq + 1 } rfl rfl rfl (fun item hitem => .inl hitem) (by simp) (.inl rfl)

theorem sent_queued (h : r.boxes[q]? = some b) (now : ℚ) (e : Envelope) :
    Sent r (r.setBox q { b with sendSeq := b.sendSeq + 1, queue := b.queue ++ [⟨q, b.sendSeq + 1, now, e⟩] }) e
      [⟨q, b.sendSeq + 1, now, e⟩] [] :=
  sent_setBox now h { b with sendSeq := b.sendSeq + 1, queue := b.queue ++ [⟨q, b.sendSeq + 1, now, e⟩] }
    rfl rfl rfl (by simp +contextual [or_imp]) (by simp) (.inr rfl)

theorem sent_waits (h : r.boxes[q]? = some b) (now : ℚ) (e : Envelope) :
    Sent r (r.setBox q { b with sendSeq := b.sendSeq + 1 }) e [⟨q, b.sendSeq + 1, now, e⟩]
      [⟨q, b.sendSeq + 1, now, e⟩] :=
  sent_setBox now h { b with sendSeq := b.sendSeq + 1 } rfl rfl rfl (fun item hitem => .inl hitem) (by simp) (.inr rfl)

theorem put_setBox {c : Mailbox} (h : r.boxes[q]? = some b) (item : Sealed) (hitem : item.session = q) :
    (r.setBox q c).put item =
      if c.queue.length < queueSize then some (r.setBox q { c with queue := c.queue ++ [item] }) else none := by
  have hlt := (List.getElem?_eq_some_iff.mp h).1
  subst hitem
  simp [put, setBox, hlt]

theorem sealIn_cases (q : ℕ) (b : Mailbox) (now : ℚ) (e : Envelope) :
    sealIn q b now e = ({ b with sendSeq := b.sendSeq + 1 }, none) ∨
      sealIn q b now e = ({ b with sendSeq := b.sendSeq + 1 }, some ⟨q, b.sendSeq + 1, now, e⟩) := by
  unfold sealIn
  simp only
  split
  · exact .inr rfl
  · exact .inl rfl

/-- The new items of a message to one agent: one item, or none if there is no
mailbox or no frame. -/
def SentTo (r : AgentMessageRouter) (now : ℚ) (e : Envelope) (new : List Sealed) : Prop :=
  match r.agents.get? e.recipientId with
  | none => new = []
  | some q => (∃ b, r.boxes[q]? = some b ∧ (sealIn q b now e).2 = none) ∧ new = [] ∨
      (¬∃ b, r.boxes[q]? = some b ∧ (sealIn q b now e).2 = none) ∧ ∃ item, new = [item] ∧ item.session = q

/-- `_unicast` has no mailbox, makes no frame, or sends one item. -/
theorem sent_unicast (now : ℚ) (e : Envelope) (hbox : ∀ a q, r.agents.get? a = some q → ∃ b, r.boxes[q]? = some b) :
    ∃ new, Sent r (r.unicast now e).1 e new (waiting (r.unicast now e).2) ∧ SentTo r now e new := by
  unfold unicast SentTo
  cases hq : r.agents.get? e.recipientId with
  | none => exact ⟨[], Sent.refl r e, rfl⟩
  | some q =>
    obtain ⟨b, hb⟩ := hbox _ _ hq
    simp only [hb]
    rcases sealIn_cases q b now e with hseal | hseal
    · simp only [hseal]
      exact ⟨[], sent_none hb e, .inl ⟨⟨b, rfl, by rw [hseal]⟩, rfl⟩⟩
    · have hsealed : ¬∃ b', some b = some b' ∧ (sealIn q b' now e).2 = none := by
        rintro ⟨b', heq, hnone⟩
        obtain rfl := Option.some.inj heq
        simp [hseal] at hnone
      simp only [hseal]
      rw [put_setBox hb _ rfl]
      by_cases hroom : b.queue.length < queueSize
      · simp only [if_pos hroom]
        exact ⟨_, sent_queued hb now e, .inr ⟨hsealed, _, rfl, rfl⟩⟩
      · simp only [if_neg hroom]
        exact ⟨_, sent_waits hb now e, .inr ⟨hsealed, _, rfl, rfl⟩⟩

theorem sent_broadcast (now : ℚ) (e : Envelope) :
    ∀ (l : List (String × ℕ)) (r : AgentMessageRouter), ∃ new,
      Sent r (broadcast now e l r).1 e new (waiting (broadcast now e l r).2)
  | [], r => ⟨[], Sent.refl r e⟩
  | (agentId, q) :: l, r => by
      rw [broadcast]
      split
      · exact sent_broadcast now e l r
      · cases hb : r.boxes[q]? with
        | none => exact sent_broadcast now e l r
        | some b =>
          simp only
          rcases sealIn_cases q b now e with hseal | hseal
          · simp only [hseal]
            exact ⟨[], sent_none hb e⟩
          · simp only [hseal]
            rw [put_setBox hb _ rfl]
            by_cases hroom : b.queue.length < queueSize
            · simp only [if_pos hroom, Option.getD_some]
              obtain ⟨new, hnew⟩ := sent_broadcast now e l (r.setBox q
                { b with sendSeq := b.sendSeq + 1, queue := b.queue ++ [⟨q, b.sendSeq + 1, now, e⟩] })
              exact ⟨_, (sent_queued hb now e).trans hnew⟩
            · simp only [if_neg hroom, Option.getD_none]
              obtain ⟨new, hnew⟩ := sent_broadcast now e l (r.setBox q { b with sendSeq := b.sendSeq + 1 })
              exact ⟨_, (sent_none hb e).trans hnew⟩

/-- `_delivered` after a send that was not declined. -/
def mark (r : AgentMessageRouter) (e : Envelope) : AgentMessageRouter :=
  if e.deliveryMode = .exactlyOnce then { r with delivered := r.delivered ++ [e.msgId] } else r

@[simp] theorem boxes_mark (r : AgentMessageRouter) (e : Envelope) : (r.mark e).boxes = r.boxes := by
  unfold mark
  split <;> rfl

@[simp] theorem agents_mark (r : AgentMessageRouter) (e : Envelope) : (r.mark e).agents = r.agents := by
  unfold mark
  split <;> rfl

/-- A send comes to nothing: the message is expired, has no hops left, or was
sent before. -/
def Declines (r : AgentMessageRouter) (now : ℚ) (e : Envelope) : Prop :=
  e.isExpired now ∨ maxRoutingHops ≤ e.hopCount ∨ e.deliveryMode = .exactlyOnce ∧ e.msgId ∈ r.delivered

/-- What `send` does: nothing but count a hop, or send new items of the message
and mark it. -/
theorem send_cases (r : AgentMessageRouter) (now : ℚ) (e : Envelope)
    (hbox : ∀ a q, r.agents.get? a = some q → ∃ b, r.boxes[q]? = some b) :
    ∃ n, (r.send now e).2.1 = { e with hopCount := n } ∧
      (r.Declines now e ∧ (r.send now e).1 = r ∧ waiting (r.send now e).2.2 = [] ∨
        ¬r.Declines now e ∧ ∃ new, Sent (r.mark e) (r.send now e).1 { e with hopCount := n } new (waiting (r.send now e).2.2) ∧
          (e.recipientId ≠ "" → SentTo r now { e with hopCount := n } new)) := by
  by_cases hexpired : e.isExpired now
  · exact ⟨e.hopCount, by simp [send, hexpired], .inl ⟨.inl hexpired, by simp [send, hexpired], by simp [send, hexpired, waiting]⟩⟩
  by_cases hhops : maxRoutingHops ≤ e.hopCount
  · exact ⟨e.hopCount, by simp [send, hexpired, hhops],
      .inl ⟨.inr (.inl hhops), by simp [send, hexpired, hhops], by simp [send, hexpired, hhops, waiting]⟩⟩
  by_cases hdup : e.deliveryMode = .exactlyOnce ∧ e.msgId ∈ r.delivered
  · exact ⟨e.hopCount + 1, by simp [send, hexpired, hhops, hdup],
      .inl ⟨.inr (.inr hdup), by simp [send, hexpired, hhops, hdup], by simp [send, hexpired, hhops, hdup, waiting]⟩⟩
  refine ⟨e.hopCount + 1, by simp [send, hexpired, hhops, hdup], .inr ⟨by simp [Declines, hexpired, hhops, hdup], ?_⟩⟩
  have hbox' : ∀ a q, (r.mark e).agents.get? a = some q → ∃ b, (r.mark e).boxes[q]? = some b := by simpa using hbox
  by_cases hempty : e.recipientId = ""
  · have hsend : r.send now e = ((broadcast now { e with hopCount := e.hopCount + 1 } r.agents.entries (r.mark e)).1,
        { e with hopCount := e.hopCount + 1 },
        (broadcast now { e with hopCount := e.hopCount + 1 } r.agents.entries (r.mark e)).2) := by
      simp only [send, if_neg hexpired, if_neg hhops, if_neg hdup, if_pos hempty, ge_iff_le]
      unfold mark
      split <;> rfl
    rw [hsend]
    obtain ⟨new, hnew⟩ := sent_broadcast now { e with hopCount := e.hopCount + 1 } r.agents.entries (r.mark e)
    exact ⟨new, hnew, fun hne => absurd hempty hne⟩
  · have hsend : r.send now e = (((r.mark e).unicast now { e with hopCount := e.hopCount + 1 }).1,
        { e with hopCount := e.hopCount + 1 }, ((r.mark e).unicast now { e with hopCount := e.hopCount + 1 }).2) := by
      simp only [send, if_neg hexpired, if_neg hhops, if_neg hdup, if_neg hempty, ge_iff_le]
      unfold mark
      split <;> rfl
    rw [hsend]
    obtain ⟨new, hnew, hto⟩ := sent_unicast now { e with hopCount := e.hopCount + 1 } hbox'
    refine ⟨new, hnew, fun _ => ?_⟩
    simpa [SentTo] using hto

theorem put_some {item : Sealed} (h : r.put item = some r') :
    ∃ b, r.boxes[item.session]? = some b ∧ r' = r.setBox item.session { b with queue := b.queue ++ [item] } := by
  obtain ⟨b, hb, h⟩ := Option.bind_eq_some_iff.mp h
  split at h
  · exact ⟨b, hb, (Option.some.inj h).symm⟩
  · exact nomatch h

theorem take_some {item : Sealed} (h : r.take q = some (r', item)) :
    ∃ b rest, r.boxes[q]? = some b ∧ b.queue = item :: rest ∧ r' = r.setBox q { b with queue := rest } := by
  obtain ⟨b, hb, h⟩ := Option.bind_eq_some_iff.mp h
  split at h
  · exact nomatch h
  · next first rest hqueue =>
      obtain ⟨rfl, rfl⟩ := Prod.mk.inj (Option.some.inj h)
      exact ⟨b, rest, hb, hqueue, rfl⟩

/-- Opening an item leaves everything as it was, or the guard of the present
session lets it in. -/
theorem unsealItem_cases (r : AgentMessageRouter) (now : ℚ) (agent : String) (item : Sealed) :
    r.unsealItem now agent item = (r, none) ∨
      ∃ q b g, r.agents.get? agent = some q ∧ r.boxes[q]? = some b ∧ item.session = q ∧
        b.guard.check now item.seq item.sealedAt = .ok g ∧
        r.unsealItem now agent item = (r.setBox q { b with guard := g }, some item.envelope) := by
  unfold unsealItem
  cases hq : r.agents.get? agent with
  | none => exact .inl rfl
  | some q =>
    cases hb : r.boxes[q]? with
    | none => exact .inl (by simp [hb])
    | some b =>
      by_cases hsession : item.session = q
      · cases hg : b.guard.check now item.seq item.sealedAt with
        | error err => exact .inl (by simp [hb, hsession, hg])
        | ok g => exact .inr ⟨q, b, g, rfl, hb, hsession, hg, by simp [hb, hsession, hg]⟩
      · exact .inl (by simp [hb, hsession])

end AgentMessageRouter

namespace Exchange

open AgentMessageRouter

variable {x u : Exchange} {m a : String} {ev : ExchangeEvent}

/-! ## What every exchange keeps -/

/-- Envelopes are filed under their identifiers, a registered agent has its
mailbox, an item is in the queue it was sealed for or in the hands of that
agent, and no number of a session is used twice. -/
structure Inv (x : Exchange) : Prop where
  ids : ∀ k e, x.envelopes.get? k = some e → e.msgId = k
  box : ∀ a q, x.router.agents.get? a = some q → ∃ b, x.router.boxes[q]? = some b ∧ b.agent = a
  session : ∀ item ∈ x.flying, item.session < x.router.boxes.length
  queue : ∀ (q : ℕ) (b : Mailbox), x.router.boxes[q]? = some b → ∀ item ∈ b.queue, item.session = q
  hand : ∀ agent item, (agent, item) ∈ x.hands → ∃ b, x.router.boxes[item.session]? = some b ∧ b.agent = agent
  window : ∀ (q : ℕ) (b : Mailbox), x.router.boxes[q]? = some b → b.guard.windowS = replayWindowS
  seqs : ∀ (q : ℕ) (b : Mailbox), x.router.boxes[q]? = some b → ∀ n,
    x.flying.countP (fun item => item.session = q && item.seq = n) + (if (b.guard.seen.get? n).isSome then 1 else 0) ≤
      if n ≤ b.sendSeq then 1 else 0

theorem countP_flying (p : Sealed → Bool) (x : Exchange) :
    x.flying.countP p = x.router.queued.countP p + x.blocked.countP p + (x.hands.map Prod.snd).countP p := by
  simp only [flying, List.countP_append]
  rfl

/-- What flies comes from what flew, and from new items. -/
theorem mem_of_countP {l k n : List Sealed} (h : ∀ p, k.countP p ≤ l.countP p + n.countP p) :
    ∀ item ∈ k, item ∈ l ∨ item ∈ n := by
  intro item hitem
  have hc := h (fun i => i = item)
  have hpos : 0 < k.countP fun i => i = item := List.countP_pos_iff.mpr ⟨item, hitem, by simp⟩
  by_cases hl : item ∈ l
  · exact .inl hl
  · right
    have hzero : l.countP (fun i => decide (i = item)) = 0 := by
      rw [List.countP_eq_zero]
      intro i hi
      have hne : i ≠ item := fun heq => hl (heq ▸ hi)
      simp [hne]
    obtain ⟨i, hi, heq⟩ := List.countP_pos_iff.mp (show 0 < n.countP (fun i => decide (i = item)) by omega)
    rwa [← of_decide_eq_true heq]

/-- A step that adds the items `new`, lets `gone` out and moves the others
about, between the mailboxes there were. -/
structure Moves (x u : Exchange) (new gone : List Sealed) : Prop where
  ids : ∀ k e, u.envelopes.get? k = some e → e.msgId = k
  agents : ∀ a q, u.router.agents.get? a = some q → x.router.agents.get? a = some q
  length : u.router.boxes.length = x.router.boxes.length
  count : ∀ p, u.flying.countP p + gone.countP p = x.flying.countP p + new.countP p
  session : ∀ item ∈ new, item.session < x.router.boxes.length
  hand : ∀ agent item, (agent, item) ∈ u.hands → (agent, item) ∈ x.hands ∨
    ∃ (q : ℕ) (b : Mailbox), x.router.boxes[q]? = some b ∧ b.agent = agent ∧ item ∈ b.queue
  box : ∀ (q : ℕ) (b : Mailbox), x.router.boxes[q]? = some b → ∃ b' : Mailbox, u.router.boxes[q]? = some b' ∧
    b'.agent = b.agent ∧ b'.guard.windowS = b.guard.windowS ∧ (∀ item ∈ b'.queue, item ∈ b.queue ∨ item.session = q) ∧
    b.sendSeq ≤ b'.sendSeq ∧ ∀ n,
      new.countP (fun item => item.session = q && item.seq = n) + (if (b'.guard.seen.get? n).isSome then 1 else 0) ≤
        gone.countP (fun item => item.session = q && item.seq = n) + (if (b.guard.seen.get? n).isSome then 1 else 0) +
          if b.sendSeq < n ∧ n ≤ b'.sendSeq then 1 else 0

theorem Moves.back {new gone : List Sealed} (h : Moves x u new gone) {q : ℕ} {b' : Mailbox} (hb' : u.router.boxes[q]? = some b') :
    ∃ b : Mailbox, x.router.boxes[q]? = some b := by
  have hlt := (List.getElem?_eq_some_iff.mp hb').1
  exact ⟨_, List.getElem?_eq_getElem (h.length ▸ hlt)⟩

theorem Inv.moved {new gone : List Sealed} (hx : x.Inv) (h : Moves x u new gone) : u.Inv where
  ids := h.ids
  box := by
    intro a q hq
    obtain ⟨b, hb, hagent⟩ := hx.box a q (h.agents a q hq)
    obtain ⟨b', hb', hagent', -⟩ := h.box q b hb
    exact ⟨b', hb', hagent'.trans hagent⟩
  session := by
    intro item hitem
    rw [h.length]
    have hmem := mem_of_countP (l := x.flying) (k := u.flying) (n := new) fun p => by have := h.count p; omega
    rcases hmem item hitem with hi | hi
    · exact hx.session item hi
    · exact h.session item hi
  queue := by
    intro q b' hb' item hitem
    obtain ⟨b, hb⟩ := h.back hb'
    obtain ⟨c, hc, -, -, hqueue, -⟩ := h.box q b hb
    obtain rfl := Option.some.inj (hb'.symm.trans hc)
    rcases hqueue item hitem with hi | hi
    · exact hx.queue q b hb item hi
    · exact hi
  hand := by
    intro agent item hitem
    have hold : ∃ b, x.router.boxes[item.session]? = some b ∧ b.agent = agent := by
      rcases h.hand agent item hitem with hi | ⟨q, b, hb, hagent, hi⟩
      · exact hx.hand agent item hi
      · exact ⟨b, hx.queue q b hb item hi ▸ hb, hagent⟩
    obtain ⟨b, hb, hagent⟩ := hold
    obtain ⟨b', hb', hagent', -⟩ := h.box _ b hb
    exact ⟨b', hb', hagent'.trans hagent⟩
  window := by
    intro q b' hb'
    obtain ⟨b, hb⟩ := h.back hb'
    obtain ⟨c, hc, -, hwindow, -⟩ := h.box q b hb
    obtain rfl := Option.some.inj (hb'.symm.trans hc)
    exact hwindow.trans (hx.window q b hb)
  seqs := by
    intro q b' hb' n
    obtain ⟨b, hb⟩ := h.back hb'
    obtain ⟨c, hc, -, -, -, hseq, hn⟩ := h.box q b hb
    obtain rfl := Option.some.inj (hb'.symm.trans hc)
    have hold := hx.seqs q b hb n
    have hc := h.count fun item => item.session = q && item.seq = n
    have hn := hn n
    split_ifs at hold hn ⊢ <;> omega

/-! ## Steps -/

theorem moves_still (hids : ∀ k e, u.envelopes.get? k = some e → e.msgId = k)
    (hagents : ∀ a q, u.router.agents.get? a = some q → x.router.agents.get? a = some q)
    (hboxes : u.router.boxes = x.router.boxes) (hblocked : u.blocked = x.blocked) (hhands : u.hands = x.hands) :
    Moves x u [] [] where
  ids := hids
  agents := hagents
  length := by rw [hboxes]
  count := fun p => by rw [flying, flying, hboxes, hblocked, hhands]
  session := by simp
  hand := fun agent item hitem => .inl (hhands ▸ hitem)
  box := fun q b hb => ⟨b, hboxes ▸ hb, rfl, rfl, fun item hitem => .inl hitem, le_rfl, fun n => by simp⟩

/-- A step that changes one mailbox and seals nothing. -/
theorem moves_setBox {q : ℕ} {b c : Mailbox} {gone : List Sealed} (hx : x.Inv) (hb : x.router.boxes[q]? = some b)
    (henvelopes : u.envelopes = x.envelopes) (hrouter : u.router = x.router.setBox q c) (hagent : c.agent = b.agent)
    (hwindow : c.guard.windowS = b.guard.windowS) (hsend : c.sendSeq = b.sendSeq)
    (hmem : ∀ item ∈ c.queue, item ∈ b.queue ∨ item.session = q)
    (hhand : ∀ agent item, (agent, item) ∈ u.hands → (agent, item) ∈ x.hands ∨
      ∃ (q : ℕ) (b : Mailbox), x.router.boxes[q]? = some b ∧ b.agent = agent ∧ item ∈ b.queue)
    (hcount : ∀ p, u.flying.countP p + gone.countP p = x.flying.countP p)
    (hseen : ∀ n, (if (c.guard.seen.get? n).isSome then 1 else 0) ≤
      gone.countP (fun item => item.session = q && item.seq = n) + if (b.guard.seen.get? n).isSome then 1 else 0) :
    Moves x u [] gone where
  ids := henvelopes ▸ hx.ids
  agents := by simp [hrouter]
  length := by simp [hrouter]
  count := fun p => by simpa using hcount p
  session := by simp
  hand := hhand
  box := by
    intro q' b' hb'
    rw [hrouter, boxes_setBox hb']
    by_cases hq : q = q'
    · subst hq
      obtain rfl := Option.some.inj (hb.symm.trans hb')
      refine ⟨c, if_pos rfl, hagent, hwindow, hmem, by omega, fun n => ?_⟩
      have hn := hseen n
      simp only [List.countP_nil]
      omega
    · refine ⟨b', if_neg hq, rfl, rfl, fun item hitem => .inl hitem, le_rfl, fun n => ?_⟩
      simp only [List.countP_nil]
      omega

theorem moves_resume {i : ℕ} (hx : x.Inv) (h : x.step (.resume i) = some u) :
    Moves x u [] [] ∧ u.router.agents = x.router.agents ∧ u.router.delivered = x.router.delivered ∧
      u.returned = x.returned := by
  obtain ⟨item, hitem, h⟩ := Option.bind_eq_some_iff.mp h
  obtain ⟨r, hr, h⟩ := Option.bind_eq_some_iff.mp h
  obtain ⟨b, hb, rfl⟩ := put_some hr
  obtain rfl := Option.some.inj h
  refine ⟨moves_setBox hx hb rfl rfl rfl rfl rfl ?_ (fun agent item hi => .inl hi) ?_ (by simp), rfl, rfl, rfl⟩
  · intro item' hmem
    rcases List.mem_append.mp hmem with hi | hi
    · exact .inl hi
    · exact .inr (by rw [List.mem_singleton.mp hi])
  · intro p
    have hset := queued_setBox (c := { b with queue := b.queue ++ [item] }) p hb
    have herase := countP_eraseIdx p hitem
    simp only [countP_flying, List.countP_append, List.countP_singleton, List.countP_nil] at hset ⊢
    omega

theorem moves_take {q : ℕ} (hx : x.Inv) (h : x.step (.take q) = some u) :
    Moves x u [] [] ∧ u.router.agents = x.router.agents ∧ u.router.delivered = x.router.delivered ∧
      u.returned = x.returned := by
  obtain ⟨b, hb, h⟩ := Option.bind_eq_some_iff.mp h
  obtain ⟨⟨r, item⟩, hr, h⟩ := Option.bind_eq_some_iff.mp h
  obtain ⟨b', rest, hb', hqueue, rfl⟩ := take_some hr
  obtain rfl := Option.some.inj (hb.symm.trans hb')
  obtain rfl := Option.some.inj h
  refine ⟨moves_setBox hx hb rfl rfl rfl rfl rfl ?_ ?_ ?_ (by simp), rfl, rfl, rfl⟩
  · intro item' hmem
    exact .inl (hqueue ▸ List.mem_cons_of_mem _ hmem)
  · intro agent item' hmem
    rcases List.mem_append.mp hmem with hi | hi
    · exact .inl hi
    · obtain ⟨rfl, rfl⟩ := Prod.mk.inj (List.mem_singleton.mp hi)
      exact .inr ⟨q, b, hb, rfl, by simp [hqueue]⟩
  · intro p
    have hset := queued_setBox (c := { b with queue := rest }) p hb
    simp only [countP_flying, List.map_append, List.map_cons, List.map_nil, List.countP_append,
      List.countP_nil, hqueue, List.countP_cons] at hset ⊢
    omega

theorem Inv.unseen (hx : x.Inv) {item : Sealed} {b : Mailbox} (hitem : item ∈ x.flying)
    (hb : x.router.boxes[item.session]? = some b) : b.guard.seen.get? item.seq = none := by
  have hn := hx.seqs _ b hb item.seq
  have hpos : 0 < x.flying.countP fun i => i.session = item.session && i.seq = item.seq :=
    List.countP_pos_iff.mpr ⟨item, hitem, by simp⟩
  cases hseen : b.guard.seen.get? item.seq with
  | none => rfl
  | some t =>
    simp only [hseen, Option.isSome_some, if_true] at hn
    split at hn <;> omega

/-- The item opens if its session is the present one and it is not too old. -/
def Opens (x : Exchange) (agent : String) (item : Sealed) : Prop :=
  x.router.agents.get? agent = some item.session ∧ |x.now - item.sealedAt| ≤ replayWindowS

instance (x : Exchange) (agent : String) (item : Sealed) : Decidable (x.Opens agent item) :=
  inferInstanceAs (Decidable (_ ∧ _))

theorem unsealItem_eq (hx : x.Inv) {agent : String} {item : Sealed} (hhand : (agent, item) ∈ x.hands) :
    (x.router.unsealItem x.now agent item = (x.router, none) ∧ ¬x.Opens agent item) ∨
      x.Opens agent item ∧ ∃ b g, x.router.boxes[item.session]? = some b ∧
        b.guard.check x.now item.seq item.sealedAt = .ok g ∧ x.router.unsealItem x.now agent item =
          (x.router.setBox item.session { b with guard := g }, some item.envelope) := by
  obtain ⟨b, hb, hagent⟩ := hx.hand agent item hhand
  have hflying : item ∈ x.flying := List.mem_append_right _ (List.mem_map.mpr ⟨_, hhand, rfl⟩)
  have hunseen := hx.unseen hflying hb
  have hwindow := hx.window _ b hb
  by_cases hopens : x.Opens agent item
  · right
    have hin : ¬|x.now - item.sealedAt| > b.guard.windowS := by
      rw [hwindow]
      exact not_lt.mpr hopens.2
    obtain ⟨g, hg⟩ := ReplayGuard.check_eq_ok hin hunseen
    exact ⟨hopens, b, g, hb, hg, by simp [unsealItem, hopens.1, hb, hg]⟩
  · left
    refine ⟨?_, hopens⟩
    rcases unsealItem_cases x.router x.now agent item with h | ⟨q, c, g, hq, hc, hsession, hg, -⟩
    · exact h
    · obtain ⟨hin, -⟩ := ReplayGuard.check_ok hg
      rw [hx.window q c hc] at hin
      exact absurd ⟨hsession ▸ hq, not_lt.mp hin⟩ hopens

theorem moves_unseal {i : ℕ} (hx : x.Inv) (h : x.step (.unsealItem i) = some u) :
    ∃ agent item, x.hands[i]? = some (agent, item) ∧ Moves x u [] [item] ∧
      u.router.agents = x.router.agents ∧ u.router.delivered = x.router.delivered ∧
      u.returned = x.returned ++ if x.Opens agent item then [(agent, item.envelope)] else [] := by
  obtain ⟨⟨agent, item⟩, hitem, h⟩ := Option.bind_eq_some_iff.mp h
  have hmem := List.mem_of_getElem? hitem
  have hhands : ∀ agent' item', (agent', item') ∈ x.hands.eraseIdx i → (agent', item') ∈ x.hands :=
    fun _ _ hi => List.mem_of_mem_eraseIdx hi
  have herase : ∀ p, ((x.hands.eraseIdx i).map Prod.snd).countP p + [item].countP p = (x.hands.map Prod.snd).countP p := by
    intro p
    have hc := countP_eraseIdx (p ∘ Prod.snd) hitem
    simpa [List.countP_map, List.countP_cons] using hc
  rcases unsealItem_eq hx hmem with ⟨heq, hopens⟩ | ⟨hopens, b, g, hb, hg, heq⟩
  · simp only [heq] at h
    obtain rfl := Option.some.inj h
    obtain ⟨b, hb, -⟩ := hx.hand agent item hmem
    have hsame := (setBox_self hb).symm
    refine ⟨agent, item, hitem, ?_, rfl, rfl, by simp [hopens]⟩
    refine moves_setBox hx hb rfl hsame rfl rfl rfl (fun item hi => .inl hi) (fun _ _ hi => .inl (hhands _ _ hi)) ?_ ?_
    · intro p
      have hc := herase p
      simp only [countP_flying]
      omega
    · intro n
      omega
  · simp only [heq] at h
    obtain rfl := Option.some.inj h
    obtain ⟨-, -, rfl⟩ := ReplayGuard.check_ok hg
    refine ⟨agent, item, hitem, ?_, rfl, rfl, by simp [hopens]⟩
    refine moves_setBox hx hb rfl rfl rfl rfl rfl (fun item hi => .inl hi) (fun _ _ hi => .inl (hhands _ _ hi)) ?_ ?_
    · intro p
      have hset := queued_setBox (c := { b with guard := { b.guard with seen := (b.guard.seen.filter fun v => x.now - b.guard.windowS < v).set item.seq item.sealedAt } }) p hb
      have hc := herase p
      simp only [countP_flying] at hset ⊢
      omega
    · intro n
      by_cases hn : item.seq = n
      · simp [hn]
      · simp only [Dict.get?_set_ne _ _ hn, Dict.get?_filter]
        cases b.guard.seen.get? n <;> simp
        split <;> simp

theorem step_send {id : String} (h : x.step (.send id) = some u) :
    ∃ e, x.envelopes.get? id = some e ∧ u = { x with
      router := (x.router.send x.now e).1
      envelopes := x.envelopes.set id (x.router.send x.now e).2.1
      blocked := x.blocked ++ waiting (x.router.send x.now e).2.2 } := by
  obtain ⟨e, he, h⟩ := Option.bind_eq_some_iff.mp h
  refine ⟨e, he, ?_⟩
  rcases hsend : x.router.send x.now e with ⟨r, e', outcome⟩
  rw [hsend] at h
  cases outcome <;> simpa [waiting] using h.symm

theorem moves_send {id : String} (hx : x.Inv) (h : x.step (.send id) = some u) :
    ∃ e, x.envelopes.get? id = some e ∧ ∃ new, Moves x u new [] ∧ u.router.agents = x.router.agents ∧
      u.returned = x.returned ∧ (∀ item ∈ new, item.envelope.msgId = id) ∧
      (x.router.Declines x.now e ∧ new = [] ∧ u.router.delivered = x.router.delivered ∨
        ¬x.router.Declines x.now e ∧ u.router.delivered = (x.router.mark e).delivered ∧
          (e.recipientId ≠ "" → ∃ n, SentTo x.router x.now { e with hopCount := n } new)) := by
  obtain ⟨e, he, rfl⟩ := step_send h
  have hid := hx.ids id e he
  obtain ⟨n, hsent, hcases⟩ := send_cases x.router x.now e fun a q hq => by
    obtain ⟨b, hb, -⟩ := hx.box a q hq
    exact ⟨b, hb⟩
  have hids : ∀ k e', (x.envelopes.set id (x.router.send x.now e).2.1).get? k = some e' → e'.msgId = k := by
    intro k e' hk
    by_cases hne : id = k
    · subst hne
      rw [Dict.get?_set_self, hsent] at hk
      rw [← Option.some.inj hk]
      exact hid
    · rw [Dict.get?_set_ne _ _ hne] at hk
      exact hx.ids k e' hk
  refine ⟨e, he, ?_⟩
  rcases hcases with ⟨hdeclines, hrouter, hwaits⟩ | ⟨hdeclines, new, hnew, hto⟩
  · refine ⟨[], moves_still hids ?_ ?_ ?_ rfl, ?_, rfl, by simp, .inl ⟨hdeclines, rfl, ?_⟩⟩
    · simp [hrouter]
    · simp [hrouter]
    · simp [hwaits]
    · simp [hrouter]
    · simp [hrouter]
  · refine ⟨new, ?_, ?_, rfl, ?_, .inr ⟨hdeclines, hnew.delivered, fun hne => ⟨n, hto hne⟩⟩⟩
    · refine ⟨hids, ?_, ?_, ?_, ?_, fun _ _ hi => .inl hi, ?_⟩
      · intro a q hq
        rw [hnew.agents, agents_mark] at hq
        exact hq
      · simpa using hnew.length
      · intro p
        have hc := hnew.count p
        have hmark : (x.router.mark e).queued = x.router.queued := by simp [queued]
        rw [hmark] at hc
        simp only [countP_flying, List.countP_append, List.countP_nil]
        omega
      · simpa using hnew.session
      · intro q b hb
        obtain ⟨b', hb', hagent, hguard, hqueue, hseq, hn⟩ := hnew.box q b (by simpa using hb)
        refine ⟨b', hb', hagent, by rw [hguard], hqueue, hseq, fun k => ?_⟩
        have hk := hn k
        rw [hguard, List.countP_nil]
        omega
    · rw [hnew.agents, agents_mark]
    · intro item hitem
      rw [hnew.envelope item hitem]
      exact hid

/-- A new mailbox is empty, and its session is one that no item was sealed
under. -/
theorem inv_register (hx : x.Inv) (agent : String) :
    Inv { x with router := x.router.registerAgent agent } := by
  unfold registerAgent
  split
  · exact hx
  · next hnew =>
      have hnone : x.router.agents.get? agent = none := by simpa [Dict.contains] using hnew
      have hflying : flying { x with router := { x.router with
          boxes := x.router.boxes ++ [{ agent := agent }]
          agents := x.router.agents.set agent x.router.boxes.length } } = x.flying := by
        simp [flying]
      have hbox : ∀ (q : ℕ) (b : Mailbox), (x.router.boxes ++ [{ agent := agent }])[q]? = some b →
          x.router.boxes[q]? = some b ∨ q = x.router.boxes.length ∧ b = { agent := agent } := by
        intro q b hb
        rcases Nat.lt_trichotomy q x.router.boxes.length with hlt | rfl | hgt
        · rw [List.getElem?_append_left hlt] at hb
          exact .inl hb
        · exact .inr ⟨rfl, by simpa using hb.symm⟩
        · have hge : (x.router.boxes ++ [({ agent := agent } : Mailbox)]).length ≤ q := by
            rw [List.length_append]
            exact hgt
          rw [List.getElem?_eq_none hge] at hb
          cases hb
      have hkeep : ∀ (q : ℕ) (b : Mailbox), x.router.boxes[q]? = some b →
          (x.router.boxes ++ [{ agent := agent }])[q]? = some b := by
        intro q b hb
        rw [List.getElem?_append_left (List.getElem?_eq_some_iff.mp hb).1]
        exact hb
      refine ⟨hx.ids, ?_, ?_, ?_, ?_, ?_, ?_⟩
      · intro a q hq
        by_cases ha : agent = a
        · subst ha
          rw [Dict.get?_set_self] at hq
          obtain rfl := Option.some.inj hq
          exact ⟨{ agent := agent }, by simp, rfl⟩
        · rw [Dict.get?_set_ne _ _ ha] at hq
          obtain ⟨b, hb, hagent⟩ := hx.box a q hq
          exact ⟨b, hkeep q b hb, hagent⟩
      · intro item hitem
        rw [hflying] at hitem
        have hlt := hx.session item hitem
        simp only [List.length_append, List.length_singleton]
        omega
      · intro q b hb item hitem
        rcases hbox q b hb with hold | ⟨rfl, rfl⟩
        · exact hx.queue q b hold item hitem
        · simp at hitem
      · intro a item hitem
        obtain ⟨b, hb, hagent⟩ := hx.hand a item hitem
        exact ⟨b, hkeep _ b hb, hagent⟩
      · intro q b hb
        rcases hbox q b hb with hold | ⟨rfl, rfl⟩
        · exact hx.window q b hold
        · rfl
      · intro q b hb n
        rw [hflying]
        rcases hbox q b hb with hold | ⟨rfl, rfl⟩
        · exact hx.seqs q b hold n
        · have hzero : x.flying.countP (fun item => item.session = x.router.boxes.length && item.seq = n) = 0 := by
            rw [List.countP_eq_zero]
            intro item hitem
            have hlt := hx.session item hitem
            simp [hlt.ne]
          simp [hzero]

theorem inv_step (hx : x.Inv) (h : x.step ev = some u) : u.Inv := by
  cases ev with
  | tick now =>
    simp only [step] at h
    split at h
    · exact nomatch h
    · obtain rfl := Option.some.inj h
      exact hx.moved (moves_still hx.ids (fun _ _ hq => hq) rfl rfl rfl)
  | create e =>
    simp only [step] at h
    split at h
    · exact nomatch h
    · obtain rfl := Option.some.inj h
      refine hx.moved (moves_still ?_ (fun _ _ hq => hq) rfl rfl rfl)
      intro k e' hk
      by_cases hne : e.msgId = k
      · subst hne
        rw [Dict.get?_set_self] at hk
        rw [← Option.some.inj hk]
      · rw [Dict.get?_set_ne _ _ hne] at hk
        exact hx.ids k e' hk
  | register agent =>
    obtain rfl := Option.some.inj h
    exact inv_register hx agent
  | deregister agent =>
    obtain rfl := Option.some.inj h
    refine hx.moved (moves_still hx.ids ?_ rfl rfl rfl)
    intro a q hq
    by_cases ha : agent = a
    · subst ha
      simp [deregisterAgent] at hq
    · simpa [deregisterAgent, Dict.get?_pop_ne _ ha] using hq
  | send id =>
    obtain ⟨e, he, new, hmoves, -⟩ := moves_send hx h
    exact hx.moved hmoves
  | resume i => exact hx.moved (moves_resume hx h).1
  | take q => exact hx.moved (moves_take hx h).1
  | unsealItem i =>
    obtain ⟨agent, item, hitem, hmoves, -⟩ := moves_unseal hx h
    exact hx.moved hmoves

theorem inv_start (hx : machine.start x) : x.Inv := by
  obtain ⟨now, rfl⟩ := hx
  refine ⟨?_, ?_, ?_, ?_, ?_, ?_, ?_⟩ <;> simp [flying]

end Exchange

end Caips.Protocols
