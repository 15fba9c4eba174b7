/-
Caips.Protocols.AcksTheorems — a request and its reply deadlock in every run.

Once the task is sent, its sender waits for an acknowledgement that the
recipient gives only after its own send has returned, and that send waits for an
acknowledgement the sender gives only after `send_task` has returned (`Held`).
So the conversation always comes to a halt, and a timeout fires
(`no_timeout_iff`).
-/
import Caips.Protocols.Acks

namespace Caips.Protocols

open Caips.Logic AgentMessageRouter

namespace Conversation

variable {p : Parties} {c u : Conversation} {r : AgentMessageRouter}

/-! ## Sending to one agent -/

variable {q : ℕ} {s : AgentStep} {ev : ConversationEvent}

/-- What `send` does with a fresh message to a registered agent. -/
theorem send_one {now : ℚ} {e : Envelope} {b : Mailbox} (hexpired : ¬e.isExpired now)
    (hhops : e.hopCount = 0) (hwaits : WaitsForAck e) (hq : r.agents.get? e.recipientId = some q)
    (hb : r.boxes[q]? = some b) :
    ¬(b.sendSeq + 1 < 2 ^ 32 ∧ e.length ≤ maxFrameBodyBytes) ∧
        r.send now e = (r.setBox q { b with sendSeq := b.sendSeq + 1 }, { e with hopCount := 1 }, .frameError) ∨
      (b.sendSeq + 1 < 2 ^ 32 ∧ e.length ≤ maxFrameBodyBytes) ∧
        (b.queue.length < queueSize ∧ r.send now e =
            (r.setBox q { b with
              sendSeq := b.sendSeq + 1
              queue := b.queue ++ [⟨q, b.sendSeq + 1, now, { e with hopCount := 1 }⟩] },
              { e with hopCount := 1 }, .queued) ∨
          ¬b.queue.length < queueSize ∧ r.send now e =
            (r.setBox q { b with sendSeq := b.sendSeq + 1 }, { e with hopCount := 1 },
              .waits ⟨q, b.sendSeq + 1, now, { e with hopCount := 1 }⟩)) := by
  obtain ⟨hmode, hne⟩ := hwaits
  have hunicast : r.send now e = ((r.unicast now { e with hopCount := 1 }).1, { e with hopCount := 1 },
      (r.unicast now { e with hopCount := 1 }).2) := by
    simp [send, hexpired, hhops, maxRoutingHops, hmode, hne]
  rw [hunicast]
  unfold unicast
  simp only [hq, hb, sealIn]
  by_cases hframe : b.sendSeq + 1 < 2 ^ 32 ∧ e.length ≤ maxFrameBodyBytes
  · right
    refine ⟨hframe, ?_⟩
    rw [if_pos hframe]
    simp only
    rw [put_setBox hb _ rfl]
    by_cases hroom : b.queue.length < queueSize
    · exact .inl ⟨hroom, by simp only [if_pos hroom]⟩
    · exact .inr ⟨hroom, by simp only [if_neg hroom]⟩
  · left
    rw [if_neg hframe]
    exact ⟨hframe, rfl⟩

/-! ## What holds once the task is sent -/

/-- An agent has its mailbox. -/
def Boxed (r : AgentMessageRouter) (a : String) : Prop :=
  ∃ (q : ℕ) (b : Mailbox), r.agents.get? a = some q ∧ r.boxes[q]? = some b

theorem Boxed.setBox {a : String} {c : Mailbox} (h : Boxed r a) : Boxed (r.setBox q c) a := by
  obtain ⟨q', b, hq, hb⟩ := h
  exact ⟨q', _, hq, by rw [boxes_setBox hb, ← apply_ite some]⟩

/-- A message the requester waits for. -/
def IsTask (p : Parties) (e : Envelope) : Prop := e.senderId = p.requester ∧ e.deliveryMode = .atLeastOnce

/-- What is in an agent's queue. -/
def Queued (r : AgentMessageRouter) (a : String) (P : Sealed → Prop) : Prop :=
  ∀ (q : ℕ) (b : Mailbox), r.agents.get? a = some q → r.boxes[q]? = some b → ∀ item ∈ b.queue, P item

theorem Queued.setBox {a : String} {P : Sealed → Prop} {b c : Mailbox} (h : Queued r a P)
    (hb : r.boxes[q]? = some b) (hsub : ∀ item ∈ c.queue, item ∈ b.queue) : Queued (r.setBox q c) a P := by
  intro q' d hq hd item hitem
  have hlt : q' < r.boxes.length := by
    have hlt := (List.getElem?_eq_some_iff.mp hd).1
    simpa using hlt
  rw [boxes_setBox (List.getElem?_eq_getElem hlt)] at hd
  split at hd
  · next heq =>
      subst heq
      obtain rfl := Option.some.inj hd
      exact h q b hq hb item (hsub item hitem)
  · obtain rfl := Option.some.inj hd
    exact h q' _ hq (List.getElem?_eq_getElem hlt) item hitem

/-- What the recipient waits for, at each place in its program. -/
def HeldAt (p : Parties) (r : AgentMessageRouter) : Recipient → Prop
  | .receiving => Queued r p.recipient fun item => IsTask p item.envelope
  | .opening item => IsTask p item.envelope ∧ Queued r p.recipient fun item => IsTask p item.envelope
  | .working e => IsTask p e
  | .putting _ item => item.envelope.msgId = p.replyId ∧ WaitsForAck item.envelope
  | .awaitsAck _ => p.replyId ∈ r.pendingAcks
  | .acking _ => False
  | .finished => False
  | .failed _ => True

/-- The task is sent, and neither send can return any more. -/
structure Held (p : Parties) (c : Conversation) : Prop where
  named : p.requester ≠ ""
  ids : p.taskId ≠ p.replyId
  requesterBox : Boxed c.router p.requester
  recipientBox : Boxed c.router p.recipient
  requester : c.requester = .awaitsAck ∧ p.taskId ∈ c.router.pendingAcks ∨ c.requester = .failed .ackTimeout
  recipient : HeldAt p c.router c.recipient

theorem Held.requester_none (h : c.Held p)
    (hs : s ∈ [AgentStep.sendTask, .putTask, .taskAcked, .takeReply, .openReply, .ackReply]) : agentStep p c s = none := by
  simp only [List.mem_cons, List.not_mem_nil, or_false] at hs
  rcases h.requester with ⟨hphase, hpending⟩ | hphase
  · rcases hs with rfl | rfl | rfl | rfl | rfl | rfl <;> simp [agentStep, hphase, hpending]
  · rcases hs with rfl | rfl | rfl | rfl | rfl | rfl <;> simp [agentStep, hphase]

/-- How many items an agent's queue has. -/
def load (r : AgentMessageRouter) (a : String) : ℕ :=
  match r.agents.get? a with
  | none => 0
  | some q => match r.boxes[q]? with
    | none => 0
    | some b => b.queue.length

theorem load_eq {a : String} {b : Mailbox} (hq : r.agents.get? a = some q) (hb : r.boxes[q]? = some b) :
    load r a = b.queue.length := by
  simp [load, hq, hb]

/-- How many steps the recipient can still take. -/
def weight (p : Parties) (c : Conversation) : ℕ :=
  match c.recipient with
  | .receiving => 2 + 2 * load c.router p.recipient
  | .opening _ => 3 + 2 * load c.router p.recipient
  | .working _ => 2
  | .putting _ _ => 1
  | _ => 0

theorem Held.recipientStep (h : c.Held p) {r : AgentMessageRouter} {s : Recipient} (hrequester : Boxed r p.requester)
    (hrecipient : Boxed r p.recipient) (hacks : p.taskId ∈ c.router.pendingAcks → p.taskId ∈ r.pendingAcks)
    (hs : HeldAt p r s) : Held p { c with router := r, recipient := s } where
  named := h.named
  ids := h.ids
  requesterBox := hrequester
  recipientBox := hrecipient
  requester := h.requester.imp (fun hr => ⟨hr.1, hacks hr.2⟩) id
  recipient := hs

theorem mem_awaitAck {id id' : String} (h : id ∈ r.pendingAcks) (hne : id ≠ id') : id ∈ (r.awaitAck id').pendingAcks := by
  simp [awaitAck, h, hne]

theorem mem_awaitAck_self (r : AgentMessageRouter) (id : String) : id ∈ (r.awaitAck id).pendingAcks := by
  simp [awaitAck]

theorem unsealItem_setBox (r : AgentMessageRouter) (now : ℚ) (agent : String) (item : Sealed) :
    r.unsealItem now agent item = (r, none) ∨ ∃ (q : ℕ) (b c : Mailbox), r.boxes[q]? = some b ∧ c.queue = b.queue ∧
      r.unsealItem now agent item = (r.setBox q c, some item.envelope) := by
  rcases unsealItem_cases r now agent item with h | ⟨q, b, g, -, hb, -, -, h⟩
  · exact .inl h
  · exact .inr ⟨q, b, { b with guard := g }, hb, rfl, h⟩

/-- **A step keeps the halt**: neither agent's send returns, and the recipient
has fewer steps left. -/
theorem Held.agentStep (h : c.Held p) (hstep : agentStep p c s = some u) :
    u.Held p ∧ u.weight p < c.weight p := by
  have hnot : s ∉ [AgentStep.sendTask, .putTask, .taskAcked, .takeReply, .openReply, .ackReply] := by
    intro hs
    rw [h.requester_none hs] at hstep
    exact nomatch hstep
  have hrecipient := h.recipient
  cases s with
  | sendTask => simp at hnot
  | putTask => simp at hnot
  | taskAcked => simp at hnot
  | takeReply => simp at hnot
  | openReply => simp at hnot
  | ackReply => simp at hnot
  | takeTask =>
    simp only [Conversation.agentStep] at hstep
    split at hstep
    · next hphase =>
        obtain ⟨⟨r, item⟩, htake, hu⟩ := Option.bind_eq_some_iff.mp hstep
        obtain rfl := Option.some.inj hu
        obtain ⟨q, hq, htake⟩ := Option.bind_eq_some_iff.mp htake
        obtain ⟨b, rest, hb, hqueue, rfl⟩ := take_some htake
        rw [hphase] at hrecipient
        have htask := hrecipient q b hq hb
        have hload : load c.router p.recipient = rest.length + 1 := by simp [load_eq hq hb, hqueue]
        have hload' : load (c.router.setBox q { b with queue := rest }) p.recipient = rest.length := by
          have hb' : (c.router.setBox q { b with queue := rest }).boxes[q]? = some { b with queue := rest } := by
            rw [boxes_setBox hb, if_pos rfl]
          exact load_eq (r := c.router.setBox q { b with queue := rest }) hq hb'
        constructor
        · refine h.recipientStep h.requesterBox.setBox h.recipientBox.setBox id ⟨?_, hrecipient.setBox hb ?_⟩
          · exact htask item (by simp [hqueue])
          · intro item' hitem
            simp only at hitem
            simp [hqueue, hitem]
        · simp only [weight, hphase, hload, hload']
          omega
    · exact nomatch hstep
  | openTask =>
    simp only [Conversation.agentStep] at hstep
    split at hstep
    · next item hphase =>
        rw [hphase] at hrecipient
        obtain ⟨htask, hqueued⟩ := hrecipient
        rcases unsealItem_setBox c.router c.now p.recipient item with heq | ⟨q, b, b', hb, hqueue, heq⟩
        · rw [heq] at hstep
          obtain rfl := Option.some.inj hstep
          exact ⟨h.recipientStep h.requesterBox h.recipientBox id hqueued, by simp [weight, hphase]⟩
        · rw [heq] at hstep
          obtain rfl := Option.some.inj hstep
          refine ⟨h.recipientStep h.requesterBox.setBox h.recipientBox.setBox id htask, ?_⟩
          simp only [weight, hphase]
          omega
    · exact nomatch hstep
  | sendResult =>
    simp only [Conversation.agentStep] at hstep
    split at hstep
    · next e hphase =>
        rw [hphase] at hrecipient
        obtain ⟨hsender, hmode⟩ := hrecipient
        obtain ⟨q, b, hq, hb⟩ := h.requesterBox
        have hwaits : WaitsForAck (e.makeReply p.replyId .taskResult c.now p.resultLength) :=
          ⟨hmode, by simpa [Envelope.makeReply, hsender] using h.named⟩
        have hfresh : ¬(e.makeReply p.replyId .taskResult c.now p.resultLength).isExpired c.now := by
          simp [Envelope.makeReply, Envelope.isExpired]
        rcases send_one hfresh rfl hwaits (by simpa [Envelope.makeReply, hsender] using hq) hb with
          ⟨-, hsend⟩ | ⟨-, ⟨-, hsend⟩ | ⟨-, hsend⟩⟩
        · rw [hsend] at hstep
          obtain rfl := Option.some.inj hstep
          exact ⟨h.recipientStep h.requesterBox.setBox h.recipientBox.setBox id trivial, by simp [weight, hphase]⟩
        · have hwaits' : WaitsForAck { e.makeReply p.replyId .taskResult c.now p.resultLength with hopCount := 1 } := hwaits
          rw [hsend] at hstep
          simp only [if_pos hwaits'] at hstep
          obtain rfl := Option.some.inj hstep
          refine ⟨h.recipientStep h.requesterBox.setBox h.recipientBox.setBox ?_ (mem_awaitAck_self _ _),
            by simp [weight, hphase]⟩
          intro hpending
          exact mem_awaitAck hpending h.ids
        · rw [hsend] at hstep
          obtain rfl := Option.some.inj hstep
          exact ⟨h.recipientStep h.requesterBox.setBox h.recipientBox.setBox id ⟨rfl, hwaits⟩,
            by simp [weight, hphase]⟩
    · exact nomatch hstep
  | putResult =>
    simp only [Conversation.agentStep] at hstep
    split at hstep
    · next e item hphase =>
        rw [hphase] at hrecipient
        obtain ⟨hid, hwaits⟩ := hrecipient
        obtain ⟨r, hput, hstep⟩ := Option.bind_eq_some_iff.mp hstep
        obtain ⟨b, hb, rfl⟩ := put_some hput
        rw [if_pos hwaits, hid] at hstep
        obtain rfl := Option.some.inj hstep
        refine ⟨h.recipientStep h.requesterBox.setBox h.recipientBox.setBox ?_ (mem_awaitAck_self _ _),
          by simp [weight, hphase]⟩
        intro hpending
        exact mem_awaitAck hpending h.ids
    · exact nomatch hstep
  | resultAcked =>
    simp only [Conversation.agentStep] at hstep
    split at hstep
    · next e hphase =>
        rw [hphase] at hrecipient
        split at hstep
        · next hacked => exact absurd hrecipient hacked
        · exact nomatch hstep
    · exact nomatch hstep
  | ackTask =>
    simp only [Conversation.agentStep] at hstep
    split at hstep
    · next e hphase =>
        rw [hphase] at hrecipient
        exact hrecipient.elim
    · exact nomatch hstep

theorem Held.step (h : c.Held p) (hstep : Step p c ev u) : u.Held p := by
  cases hstep with
  | tick _ => exact ⟨h.named, h.ids, h.requesterBox, h.recipientBox, h.requester, h.recipient⟩
  | agent hs => exact (h.agentStep hs).1
  | taskTimeout _ _ =>
    refine ⟨h.named, h.ids, h.requesterBox, h.recipientBox, .inr rfl, ?_⟩
    have hrecipient := h.recipient
    simp only
    generalize c.recipient = s at hrecipient ⊢
    cases s with
    | awaitsAck e => simpa [HeldAt, acknowledge, h.ids.symm] using hrecipient
    | _ => exact hrecipient
  | resultTimeout _ _ =>
    refine ⟨h.named, h.ids, h.requesterBox, h.recipientBox, ?_, trivial⟩
    exact h.requester.imp (fun hr => ⟨hr.1, by simpa [acknowledge, h.ids] using hr.2⟩) id

/-- From a halt the requester's timeout is reached. -/
theorem Held.raises : ∀ (n : ℕ) {c : Conversation}, c.Held p → c.weight p ≤ n → ∃ u l, (machine p).Run c l u ∧ u.Raised
  | n, c, h, hn => by
      rcases h.requester with ⟨hwaits, -⟩ | hfailed
      · by_cases hblocked : c.Blocked p
        · exact ⟨_, _, Machine.Run.single (m := machine p) (Step.taskTimeout hblocked hwaits), .inl rfl⟩
        · obtain ⟨s, hs⟩ := not_forall.mp hblocked
          obtain ⟨u, hu⟩ := Option.isSome_iff_exists.mp (show (Conversation.agentStep p c s).isSome by
            simpa [Option.isSome_iff_ne_none] using hs)
          obtain ⟨hheld, hlt⟩ := h.agentStep hu
          obtain ⟨m, rfl⟩ : ∃ m, n = m + 1 := ⟨n - 1, by omega⟩
          obtain ⟨v, l, hrun, hraised⟩ := Held.raises m hheld (by omega)
          exact ⟨v, _, (Machine.Run.single (m := machine p) (Step.agent hu)).append hrun, hraised⟩
      · exact ⟨c, [], .nil c, .inl hfailed⟩

/-! ## The first step -/

/-- Nothing was sent: the task has no frame. -/
structure Unsent (p : Parties) (c : Conversation) : Prop where
  requester : c.requester = .failed .frame
  recipient : c.recipient = .receiving
  queued : Queued c.router p.recipient fun _ => False

theorem Start.waits (h : Start p c) : WaitsForAck (taskEnvelope p c.now) := ⟨rfl, h.recipientNamed⟩

theorem Start.canSend (h : Start p c) : ∃ u, agentStep p c .sendTask = some u := by
  simp only [agentStep, h.requester]
  split
  · exact ⟨_, rfl⟩
  · exact ⟨_, rfl⟩
  · exact ⟨_, rfl⟩
  · split <;> exact ⟨_, rfl⟩
  · exact ⟨_, rfl⟩

theorem Start.only (h : Start p c) (hstep : agentStep p c s = some u) : s = .sendTask := by
  obtain ⟨q, b, hq, hb, hqueue⟩ := h.recipientBox
  cases s with
  | sendTask => rfl
  | takeTask => simp [agentStep, h.recipient, takeFor, take, hq, hb, hqueue] at hstep
  | _ => simp [agentStep, h.requester, h.recipient] at hstep

theorem Start.sendTask (h : Start p c) (hstep : agentStep p c .sendTask = some u) :
    c.Framable p ∧ u.Held p ∨ ¬c.Framable p ∧ u.Unsent p := by
  obtain ⟨q, b, hq, hb, hqueue⟩ := h.recipientBox
  obtain ⟨q', b', hq', hb', -⟩ := h.requesterBox
  have hframable : c.Framable p ↔ b.sendSeq + 1 < 2 ^ 32 ∧ p.taskLength ≤ maxFrameBodyBytes := by
    constructor
    · rintro ⟨q₁, b₁, hq₁, hb₁, hframe⟩
      obtain rfl := Option.some.inj (hq.symm.trans hq₁)
      obtain rfl := Option.some.inj (hb.symm.trans hb₁)
      exact hframe
    · intro hframe
      exact ⟨q, b, hq, hb, hframe⟩
  rw [hframable]
  have hboxed : Boxed c.router p.requester := ⟨q', b', hq', hb'⟩
  have hboxed' : Boxed c.router p.recipient := ⟨q, b, hq, hb⟩
  have hfresh : ¬(taskEnvelope p c.now).isExpired c.now := by simp [taskEnvelope, Envelope.isExpired]
  simp only [agentStep, h.requester] at hstep
  have hboxed₀ : ∀ {d : Mailbox} {P : Sealed → Prop}, (∀ item ∈ d.queue, P item) → Queued (c.router.setBox q d) p.recipient P := by
    intro d P hd q₁ b₁ hq₁ hb₁
    obtain rfl := Option.some.inj (hq.symm.trans hq₁)
    rw [boxes_setBox hb, if_pos rfl] at hb₁
    obtain rfl := Option.some.inj hb₁
    exact hd
  rcases send_one hfresh rfl h.waits hq hb with ⟨hframe, hsend⟩ | ⟨hframe, ⟨-, hsend⟩ | ⟨hroom, -⟩⟩
  · rw [hsend] at hstep
    obtain rfl := Option.some.inj hstep
    exact .inr ⟨hframe, rfl, h.recipient, hboxed₀ (by simp [hqueue])⟩
  · have hwaits : WaitsForAck { taskEnvelope p c.now with hopCount := 1 } := h.waits
    rw [hsend] at hstep
    simp only [if_pos hwaits] at hstep
    obtain rfl := Option.some.inj hstep
    refine .inl ⟨hframe, h.requesterNamed, h.ids, hboxed.setBox, hboxed'.setBox, .inl ⟨rfl, mem_awaitAck_self _ _⟩, ?_⟩
    simp only [h.recipient]
    exact hboxed₀ (by simp [hqueue, IsTask, taskEnvelope])
  · simp [hqueue, queueSize] at hroom

theorem Start.step (h : Start p c) (hstep : Step p c ev u) :
    Start p u ∧ (u.Framable p ↔ c.Framable p) ∨ c.Framable p ∧ u.Held p ∨ ¬c.Framable p ∧ u.Unsent p := by
  cases hstep with
  | tick _ =>
    exact .inl ⟨⟨h.requesterNamed, h.recipientNamed, h.ids, h.requester, h.recipient, h.requesterBox, h.recipientBox⟩, .rfl⟩
  | agent hs =>
    obtain rfl := h.only hs
    exact .inr (h.sendTask hs)
  | taskTimeout _ hwaits => exact nomatch h.requester.symm.trans hwaits
  | resultTimeout _ hwaits => exact nomatch h.recipient.symm.trans hwaits

theorem Unsent.step (h : c.Unsent p) (hstep : Step p c ev u) : u.Unsent p := by
  cases hstep with
  | tick _ => exact ⟨h.requester, h.recipient, h.queued⟩
  | @agent _ s hs =>
    cases s with
    | takeTask =>
      simp only [Conversation.agentStep, h.recipient] at hs
      obtain ⟨⟨r, item⟩, htake, -⟩ := Option.bind_eq_some_iff.mp hs
      obtain ⟨q, hq, htake⟩ := Option.bind_eq_some_iff.mp htake
      obtain ⟨b, rest, hb, hqueue, -⟩ := take_some htake
      exact (h.queued q b hq hb item (by simp [hqueue])).elim
    | _ => simp [Conversation.agentStep, h.requester, h.recipient] at hs
  | taskTimeout _ hwaits => exact nomatch h.requester.symm.trans hwaits
  | resultTimeout _ hwaits => exact nomatch h.recipient.symm.trans hwaits

/-! ## Runs -/

/-- **Neither send ever returns.** -/
theorem halted {l : List (Machine.Step Conversation ConversationEvent)} (hstart : Start p c) (hrun : (machine p).Run c l u) :
    Start p u ∧ (u.Framable p ↔ c.Framable p) ∨ c.Framable p ∧ u.Held p ∨ ¬c.Framable p ∧ u.Unsent p := by
  induction hrun with
  | nil => exact .inl ⟨hstart, .rfl⟩
  | snoc _ hstep ih =>
    rcases ih with ⟨hs, hframable⟩ | ⟨hframable, hheld⟩ | ⟨hframable, hunsent⟩
    · rw [← hframable]
      exact hs.step hstep
    · exact .inr (.inl ⟨hframable, hheld.step hstep⟩)
    · exact .inr (.inr ⟨hframable, hunsent.step hstep⟩)

theorem raises_of_framable (hstart : Start p c) (hframable : c.Framable p) : ∃ u l, (machine p).Run c l u ∧ u.Raised := by
  obtain ⟨u, hu⟩ := hstart.canSend
  rcases hstart.sendTask hu with ⟨-, hheld⟩ | ⟨hunframable, -⟩
  · obtain ⟨v, l, hrun, hraised⟩ := Held.raises _ hheld le_rfl
    exact ⟨v, _, (Machine.Run.single (m := machine p) (Step.agent hu)).append hrun, hraised⟩
  · exact absurd hframable hunframable

/-- As long as no timeout has fired, a step can be taken; and where none but the
clock's can be taken, a timeout has. -/
theorem raised_of_stuck {l : List (Machine.Step Conversation ConversationEvent)} (hstart : Start p c)
    (hframable : c.Framable p) (hrun : (machine p).Run c l u)
    (hstuck : ∀ ev v, Step p u ev v → ∃ now, ev = .tick now) : u.Raised := by
  rcases halted hstart hrun with ⟨hs, -⟩ | ⟨-, hheld⟩ | ⟨hunframable, -⟩
  · exfalso
    obtain ⟨v, hv⟩ := hs.canSend
    obtain ⟨now, h⟩ := hstuck _ v (.agent hv)
    exact nomatch h
  · rcases hheld.requester with ⟨hwaits, -⟩ | hfailed
    · have hblocked : u.Blocked p := by
        intro s
        cases hs : agentStep p u s with
        | none => rfl
        | some v =>
          obtain ⟨now, h⟩ := hstuck _ v (.agent hs)
          exact nomatch h
      obtain ⟨now, h⟩ := hstuck _ _ (.taskTimeout hblocked hwaits)
      exact nomatch h
    · exact .inl hfailed
  · exact absurd hframable hunframable

/-- **A request and its reply deadlock.** No send raises `AckTimeoutError`, in
any run, exactly if the task cannot be sent at all. -/
theorem no_timeout_iff (hstart : Start p c) :
    (∀ u l, (machine p).Run c l u → ¬u.Raised) ↔ ¬c.Framable p := by
  constructor
  · intro hall hframable
    obtain ⟨u, l, hrun, hraised⟩ := raises_of_framable hstart hframable
    exact hall u l hrun hraised
  · intro hunframable u l hrun hraised
    rcases halted hstart hrun with ⟨hs, -⟩ | ⟨hframable, -⟩ | ⟨-, hunsent⟩
    · rcases hraised with h | h
      · exact nomatch hs.requester.symm.trans h
      · exact nomatch hs.recipient.symm.trans h
    · exact absurd hframable hunframable
    · rcases hraised with h | h
      · exact nomatch hunsent.requester.symm.trans h
      · exact nomatch hunsent.recipient.symm.trans h

/-- A short task from one of two agents to the other. -/
def pair : Parties := ⟨"a", "b", "m", "r", 300, 200⟩

def registered : Conversation where
  router := (registerAgent (registerAgent {} "a") "b")
  now := 0

theorem registered_start : Start pair registered where
  requesterNamed := by decide
  recipientNamed := by decide
  ids := by decide
  requester := rfl
  recipient := rfl
  requesterBox := ⟨0, { agent := "a" }, rfl, rfl, rfl⟩
  recipientBox := ⟨1, { agent := "b" }, rfl, rfl, rfl⟩

theorem registered_framable : registered.Framable pair := ⟨1, { agent := "b" }, rfl, rfl, by decide⟩

/-- `no_timeout_iff` for a short task. -/
theorem no_timeout_pair : ¬∀ u l, (machine pair).Run registered l u → ¬u.Raised :=
  fun h => (no_timeout_iff registered_start).mp h registered_framable

/-- A task of 300 bytes and its result of 200 bytes, between two registered
agents: `send_task` raises `AckTimeoutError`. -/
theorem pair_raises : Start pair registered ∧ ∃ u l, (machine pair).Run registered l u ∧ u.Raised :=
  ⟨registered_start, raises_of_framable registered_start registered_framable⟩

end Conversation

end Caips.Protocols
