/-
Caips.Tools.McpClientTheorems — a tool is called at most once, if no drain fails.

`send_spec` says what one step of `send` does to the wire, and `rpc_spec` what one
step of a task does. What is on the wire or was received for a call is bounded by how
far the call is (`Doing.limit`): a call that is to be tried again has sent nothing.
Only a drain that fails breaks this.
-/
import Caips.Tools.McpClient
import Mathlib.Data.List.Count
import Mathlib.Data.List.Perm.Basic
import Mathlib.Order.Nat

namespace Caips.Tools.McpClient

open Caips.Logic

variable {x y u : Client} {i j id : ℕ} {m : Message} {t : Task} {expectReply sent : Bool} {s : Sending} {o : Outcome}
  {r : Reported} {attempt : Attempt} {ev : McpEvent}

/-! ## How far a call is -/

def Sending.written : Sending → Bool
  | called => false
  | waiting _ => false
  | _ => true

/-- The copies of its request a call may have made. -/
def Doing.limit : Doing → ℕ
  | request _ _ s => s.written.toNat
  | dropped sent => sent.toNat
  | closing sent => sent.toNat
  | starting sent => sent.toNat
  | initializing sent _ _ => sent.toNat
  | notifying sent _ => sent.toNat
  | finished => 1

/-- The copies of a message there may be when `send` reports this. -/
def Reported.limit : Reported → ℕ
  | pending s => s.written.toNat
  | dropped sent => sent.toNat
  | _ => 1

/-- The copies of a call's request, on the wire or received. -/
def Client.copies (x : Client) (i : ℕ) : ℕ :=
  x.wire.countP (fun p => decide (p.message.CallOf i)) + x.received.countP fun m => decide (m.CallOf i)

theorem copies_congr (hwire : y.wire = x.wire) (hreceived : y.received = x.received) : y.copies i = x.copies i := by
  unfold Client.copies
  rw [hwire, hreceived]

theorem copies_write (p : Option ℕ) (hwire : y.wire = x.wire ++ [⟨p, m⟩]) (hreceived : y.received = x.received) :
    y.copies i = x.copies i + (decide (m.CallOf i)).toNat := by
  unfold Client.copies
  rw [hwire, hreceived, List.countP_append, List.countP_singleton]
  cases decide (m.CallOf i) with
  | false => simp
  | true =>
    simp only [if_true, Bool.toNat_true]
    omega

theorem copies_withdraw (p : Option ℕ) (hmem : ⟨p, m⟩ ∈ x.wire) (hwire : y.wire = x.wire.erase ⟨p, m⟩)
    (hreceived : y.received = x.received) : y.copies i + (decide (m.CallOf i)).toNat = x.copies i := by
  have hperm := List.perm_cons_erase hmem
  have hcount := hperm.countP_eq fun q => decide (q.message.CallOf i)
  rw [List.countP_cons] at hcount
  unfold Client.copies
  rw [hwire, hreceived, hcount]
  cases decide (m.CallOf i) with
  | false => simp
  | true =>
    simp only [if_true, Bool.toNat_true]
    omega

/-! ## One step of a task -/

/-- What one step of `send` does to the wire: nothing, or it writes the message, or
it finds that it never left. -/
inductive Wires (x y : Client) (m : Message) (s : Sending) (o : Outcome) (r : Reported) : Prop
  | kept (hwire : y.wire = x.wire) (hlimit : s.written.toNat ≤ r.limit ∨ s = .draining ∧ o = .connection)
  | written (p : Option ℕ) (hwire : y.wire = x.wire ++ [⟨p, m⟩]) (hbefore : s.written = false) (hlimit : r.limit = 1)
  | withdrawn (hmem : ⟨none, m⟩ ∈ x.wire) (hwire : y.wire = x.wire.erase ⟨none, m⟩) (hbefore : s.written = true)
      (hlimit : r.limit = 0)

theorem kept_of_eq {z : Client} {r' : Reported} (h : some (z, r') = some (y, r))
    (hsame : z.tasks = x.tasks ∧ z.received = x.received) (hwire : z.wire = x.wire)
    (hlimit : s.written.toNat ≤ r'.limit) : (y.tasks = x.tasks ∧ y.received = x.received) ∧ Wires x y m s o r := by
  obtain ⟨rfl, rfl⟩ := Prod.mk.inj (Option.some.inj h)
  exact ⟨hsame, .kept hwire (.inl hlimit)⟩

theorem send_called (h : x.send i m expectReply .called o = some (y, r)) :
    (y.tasks = x.tasks ∧ y.received = x.received) ∧ Wires x y m .called o r := by
  cases o with
  | ok =>
    simp only [Client.send] at h
    split at h
    · exact kept_of_eq h ⟨rfl, rfl⟩ rfl (Nat.zero_le _)
    · exact kept_of_eq h ⟨rfl, rfl⟩ rfl (Nat.zero_le _)
    · obtain ⟨rfl, rfl⟩ := Prod.mk.inj (Option.some.inj h)
      exact ⟨⟨rfl, rfl⟩, .written none rfl rfl rfl⟩
    · exact kept_of_eq h ⟨rfl, rfl⟩ rfl (Nat.zero_le _)
  | raises => exact kept_of_eq h ⟨rfl, rfl⟩ rfl (Nat.zero_le _)
  | connection => exact nomatch h
  | lost => exact nomatch h

theorem send_waiting {p : ℕ} (h : x.send i m expectReply (.waiting p) o = some (y, r)) :
    (y.tasks = x.tasks ∧ y.received = x.received) ∧ Wires x y m (.waiting p) o r := by
  cases o with
  | ok =>
    simp only [Client.send] at h
    split at h
    · obtain ⟨rfl, rfl⟩ := Prod.mk.inj (Option.some.inj h)
      exact ⟨⟨rfl, rfl⟩, .written (some p) rfl rfl rfl⟩
    · exact nomatch h
  | connection =>
    simp only [Client.send] at h
    split at h
    · exact kept_of_eq h ⟨rfl, rfl⟩ rfl (Nat.zero_le _)
    · exact nomatch h
  | raises => exact kept_of_eq h ⟨rfl, rfl⟩ rfl (Nat.zero_le _)
  | lost => exact nomatch h

theorem send_draining (h : x.send i m expectReply .draining o = some (y, r)) :
    (y.tasks = x.tasks ∧ y.received = x.received) ∧ Wires x y m .draining o r := by
  cases o with
  | ok =>
    simp only [Client.send] at h
    split at h
    · exact kept_of_eq h ⟨rfl, rfl⟩ rfl le_rfl
    · exact kept_of_eq h ⟨rfl, rfl⟩ rfl le_rfl
  | connection =>
    obtain ⟨rfl, rfl⟩ := Prod.mk.inj (Option.some.inj h)
    exact ⟨⟨rfl, rfl⟩, .kept rfl (.inr ⟨rfl, rfl⟩)⟩
  | raises => exact kept_of_eq h ⟨rfl, rfl⟩ rfl le_rfl
  | lost => exact nomatch h

theorem send_reading (h : x.send i m expectReply .reading o = some (y, r)) :
    (y.tasks = x.tasks ∧ y.received = x.received) ∧ Wires x y m .reading o r := by
  cases o with
  | ok => exact kept_of_eq h ⟨rfl, rfl⟩ rfl le_rfl
  | connection => exact kept_of_eq h ⟨rfl, rfl⟩ rfl le_rfl
  | raises => exact kept_of_eq h ⟨rfl, rfl⟩ rfl le_rfl
  | lost => exact nomatch h

theorem send_posting (h : x.send i m expectReply .posting o = some (y, r)) :
    (y.tasks = x.tasks ∧ y.received = x.received) ∧ Wires x y m .posting o r := by
  cases o with
  | ok => exact kept_of_eq h ⟨rfl, rfl⟩ rfl le_rfl
  | connection =>
    simp only [Client.send] at h
    split at h
    · next hmem =>
        obtain ⟨rfl, rfl⟩ := Prod.mk.inj (Option.some.inj h)
        exact ⟨⟨rfl, rfl⟩, .withdrawn hmem rfl rfl rfl⟩
    · exact nomatch h
  | lost => exact kept_of_eq h ⟨rfl, rfl⟩ rfl le_rfl
  | raises => exact kept_of_eq h ⟨rfl, rfl⟩ rfl le_rfl

theorem send_spec (h : x.send i m expectReply s o = some (y, r)) :
    (y.tasks = x.tasks ∧ y.received = x.received) ∧ Wires x y m s o r := by
  cases s with
  | called => exact send_called h
  | waiting p => exact send_waiting h
  | draining => exact send_draining h
  | reading => exact send_reading h
  | posting => exact send_posting h

theorem Wires.copies_other (h : Wires x y m s o r) (hreceived : y.received = x.received) (hm : ¬m.CallOf j) :
    y.copies j ≤ x.copies j := by
  cases h with
  | kept hwire => exact (copies_congr hwire hreceived).le
  | written p hwire =>
    have hcopies := copies_write (i := j) p hwire hreceived
    simp only [hm, decide_false, Bool.toNat_false] at hcopies
    omega
  | withdrawn hmem hwire =>
    have hcopies := copies_withdraw (i := j) none hmem hwire hreceived
    omega

/-- The copies of a call's request stay within what is reported, unless a drain
fails. -/
theorem Wires.copies_own (h : Wires x y m s o r) (hreceived : y.received = x.received) (hm : m.CallOf j)
    (hdrain : ¬(s = .draining ∧ o = .connection)) (hbound : x.copies j ≤ s.written.toNat) : y.copies j ≤ r.limit := by
  cases h with
  | kept hwire hlimit =>
    have hcopies := copies_congr (i := j) hwire hreceived
    have hle := hlimit.resolve_right hdrain
    omega
  | written p hwire hbefore hlimit =>
    have hcopies := copies_write (i := j) p hwire hreceived
    simp only [hbefore, Bool.toNat_false] at hbound
    simp only [hm, decide_true, Bool.toNat_true] at hcopies
    omega
  | withdrawn hmem hwire hbefore hlimit =>
    have hcopies := copies_withdraw (i := j) none hmem hwire hreceived
    simp only [hbefore, Bool.toNat_true] at hbound
    simp only [hm, decide_true, Bool.toNat_true] at hcopies
    omega

/-- A task goes on, and nothing else changes that matters. -/
structure Moves (x u : Client) (i : ℕ) (t : Task) (d : Doing) : Prop where
  tasks : u.tasks = x.tasks.set i { t with doing := d }
  wire : u.wire = x.wire
  received : u.received = x.received

theorem requested_moves (y : Client) (i : ℕ) (t : Task) (attempt : Attempt) (id : ℕ) (r : Reported) :
    ∃ d, Moves y (y.requested i t attempt id r) i t d ∧ r.limit ≤ d.limit ∧
      (attempt = .again → r = .dropped false → d.limit = 1) := by
  cases r with
  | pending s => exact ⟨_, ⟨rfl, rfl, rfl⟩, le_rfl, nofun⟩
  | replied => exact ⟨_, ⟨rfl, rfl, rfl⟩, le_rfl, nofun⟩
  | raised => exact ⟨_, ⟨rfl, rfl, rfl⟩, le_rfl, nofun⟩
  | dropped sent =>
    cases attempt with
    | first => exact ⟨_, ⟨rfl, rfl, rfl⟩, le_rfl, nofun⟩
    | again => exact ⟨.finished, ⟨rfl, rfl, rfl⟩, Bool.toNat_le sent, fun _ _ => rfl⟩

theorem initialized_moves (y : Client) (i : ℕ) (t : Task) (sent : Bool) (id : ℕ) (r : Reported) :
    ∃ d, Moves y (y.initialized i t sent id r) i t d ∧ sent.toNat ≤ d.limit := by
  cases r with
  | pending s => exact ⟨_, ⟨rfl, rfl, rfl⟩, le_rfl⟩
  | replied => exact ⟨_, ⟨rfl, rfl, rfl⟩, le_rfl⟩
  | raised => exact ⟨.finished, ⟨rfl, rfl, rfl⟩, Bool.toNat_le sent⟩
  | dropped sent' => exact ⟨.finished, ⟨rfl, rfl, rfl⟩, Bool.toNat_le sent⟩

/-- A call is tried again only if nothing was sent. -/
theorem notified_moves (y : Client) (i : ℕ) (t : Task) (sent : Bool) (r : Reported) :
    ∃ d, Moves y (y.notified i t sent r) i t d ∧ (t.method = .toolsCall → sent.toNat ≤ d.limit) := by
  cases r with
  | pending s => exact ⟨_, ⟨rfl, rfl, rfl⟩, fun _ => le_rfl⟩
  | raised => exact ⟨.finished, ⟨rfl, rfl, rfl⟩, fun _ => Bool.toNat_le sent⟩
  | dropped sent' => exact ⟨.finished, ⟨rfl, rfl, rfl⟩, fun _ => Bool.toNat_le sent⟩
  | replied =>
    simp only [Client.notified]
    split
    · next hsafe =>
        refine ⟨.request .again y.nextId .called, ⟨rfl, rfl, rfl⟩, fun hcall => ?_⟩
        rcases hsafe with hsent | hlist
        · obtain rfl : sent = false := by simpa using hsent
          exact le_rfl
        · exact nomatch hcall.symm.trans hlist
    · exact ⟨.finished, ⟨rfl, rfl, rfl⟩, fun _ => Bool.toNat_le sent⟩

theorem close_frame (x : Client) : x.close.tasks = x.tasks ∧ x.close.wire = x.wire ∧ x.close.received = x.received := by
  unfold Client.close
  split
  · exact ⟨rfl, rfl, rfl⟩
  · exact ⟨rfl, rfl, rfl⟩

theorem start_frame (x : Client) : x.start.tasks = x.tasks ∧ x.start.wire = x.wire ∧ x.start.received = x.received := by
  unfold Client.start
  split
  · exact ⟨rfl, rfl, rfl⟩
  · exact ⟨rfl, rfl, rfl⟩

/-- What one step of a task does: it goes on, others' copies are not more, and its own
stay within the limit of where it is. -/
structure Goes (x u : Client) (i : ℕ) (t : Task) (d : Doing) : Prop where
  tasks : u.tasks = x.tasks.set i { t with doing := d }
  others : ∀ j, j ≠ i ∨ t.method ≠ .toolsCall → u.copies j ≤ x.copies j
  own : t.method = .toolsCall → x.copies i ≤ t.doing.limit → u.copies i ≤ d.limit

theorem Moves.goes {d : Doing} (h : Moves x u i t d) (hlimit : t.method = .toolsCall → t.doing.limit ≤ d.limit) :
    Goes x u i t d where
  tasks := h.tasks
  others j _ := (copies_congr h.wire h.received).le
  own hcall hbound := by
    have hcopies := copies_congr (i := i) h.wire h.received
    have hle := hlimit hcall
    omega

theorem Moves.goes_other {d : Doing} (h : Moves y u i t d) (hsend : (y.tasks = x.tasks ∧ y.received = x.received) ∧
    Wires x y m s o r) (hm : ∀ j, ¬m.CallOf j) (hlimit : t.method = .toolsCall → t.doing.limit ≤ d.limit) :
    Goes x u i t d where
  tasks := hsend.1.1 ▸ h.tasks
  others j _ := (copies_congr h.wire h.received).le.trans (hsend.2.copies_other hsend.1.2 (hm j))
  own hcall hbound := by
    have hcopies := copies_congr (i := i) h.wire h.received
    have hother := hsend.2.copies_other hsend.1.2 (hm i)
    have hle := hlimit hcall
    omega

/-- A step of the request itself, unless a drain fails in the first attempt. -/
theorem request_spec {method : Rpc} (h : x.rpc i ⟨method, .request attempt id s⟩ o = some u)
    (hdrained : method = .toolsCall → o = .connection → attempt = .first → s ≠ .draining) :
    ∃ d, Goes x u i ⟨method, .request attempt id s⟩ d := by
  obtain ⟨⟨y, r⟩, hsend, hu⟩ := Option.map_eq_some_iff.mp h
  obtain ⟨⟨htasks, hreceived⟩, hwires⟩ := send_spec hsend
  obtain ⟨d, hmoves, hlimit, hlast⟩ := requested_moves y i ⟨method, .request attempt id s⟩ attempt id r
  have hmoves : Moves y u i ⟨method, .request attempt id s⟩ d := hu ▸ hmoves
  refine ⟨d, htasks ▸ hmoves.tasks, fun j hj => ?_, fun hcall hbound => ?_⟩
  · have hcopies := copies_congr (i := j) hmoves.wire hmoves.received
    have hother : ¬Message.CallOf j ⟨some id, .rpc method, i⟩ := by
      rintro ⟨hmethod, rfl⟩
      rcases hj with hj | hj
      · exact hj rfl
      · exact hj (Method.rpc.inj hmethod)
    have hle := hwires.copies_other hreceived hother
    omega
  · have hcopies := copies_congr (i := i) hmoves.wire hmoves.received
    by_cases hdrain : s = .draining ∧ o = .connection
    · obtain ⟨rfl, rfl⟩ := hdrain
      obtain ⟨rfl, rfl⟩ := Prod.mk.inj (Option.some.inj hsend)
      have hsame : x.unlock.copies i = x.copies i := copies_congr rfl rfl
      cases attempt with
      | first => exact absurd rfl (hdrained hcall rfl rfl)
      | again =>
        have hone := hlast rfl rfl
        have hle : x.copies i ≤ 1 := hbound
        omega
    · have hown : Message.CallOf i ⟨some id, .rpc method, i⟩ := ⟨congrArg Method.rpc hcall, rfl⟩
      have hle := hwires.copies_own hreceived hown hdrain hbound
      omega

/-- **One step of a task**, unless a drain fails in the first attempt of a call. -/
theorem rpc_spec {method : Rpc} {doing : Doing} (h : x.rpc i ⟨method, doing⟩ o = some u)
    (hdrained : method = .toolsCall → o = .connection → ∀ id, doing ≠ .request .first id .draining) :
    ∃ d, Goes x u i ⟨method, doing⟩ d := by
  cases doing with
  | request attempt id s =>
    refine request_spec h fun hcall hconnection hfirst hdraining => ?_
    subst hfirst hdraining
    exact hdrained hcall hconnection id rfl
  | dropped sent =>
    cases o with
    | ok =>
      simp only [Client.rpc] at h
      split at h
      · obtain rfl := Option.some.inj h
        exact ⟨.closing sent, Moves.goes ⟨rfl, rfl, rfl⟩ fun _ => le_rfl⟩
      · exact nomatch h
    | raises =>
      obtain rfl := Option.some.inj h
      exact ⟨.finished, Moves.goes ⟨rfl, rfl, rfl⟩ fun _ => Bool.toNat_le sent⟩
    | connection => exact nomatch h
    | lost => exact nomatch h
  | closing sent =>
    cases o with
    | ok =>
      obtain rfl := Option.some.inj h
      obtain ⟨htasks, hwire, hreceived⟩ := close_frame x
      exact ⟨.starting sent, Moves.goes ⟨by simp [Client.put, htasks], hwire, hreceived⟩ fun _ => le_rfl⟩
    | raises =>
      obtain rfl := Option.some.inj h
      exact ⟨.finished, Moves.goes ⟨rfl, rfl, rfl⟩ fun _ => Bool.toNat_le sent⟩
    | connection => exact nomatch h
    | lost => exact nomatch h
  | starting sent =>
    cases o with
    | ok =>
      obtain rfl := Option.some.inj h
      obtain ⟨htasks, hwire, hreceived⟩ := start_frame x
      refine ⟨.initializing sent x.nextId .called, Moves.goes ⟨?_, hwire, hreceived⟩ fun _ => le_rfl⟩
      simp [Client.put, Client.fresh, htasks]
    | raises =>
      obtain rfl := Option.some.inj h
      exact ⟨.finished, Moves.goes ⟨rfl, rfl, rfl⟩ fun _ => Bool.toNat_le sent⟩
    | connection => exact nomatch h
    | lost => exact nomatch h
  | initializing sent id s =>
    obtain ⟨⟨y, r⟩, hsend, hu⟩ := Option.map_eq_some_iff.mp h
    obtain ⟨d, hmoves, hlimit⟩ := initialized_moves y i ⟨method, .initializing sent id s⟩ sent id r
    exact ⟨d, hu ▸ hmoves.goes_other (send_spec hsend) (fun j hm => nomatch hm.1) fun _ => hlimit⟩
  | notifying sent s =>
    obtain ⟨⟨y, r⟩, hsend, hu⟩ := Option.map_eq_some_iff.mp h
    obtain ⟨d, hmoves, hlimit⟩ := notified_moves y i ⟨method, .notifying sent s⟩ sent r
    exact ⟨d, hu ▸ hmoves.goes_other (send_spec hsend) (fun j hm => nomatch hm.1) hlimit⟩
  | finished => exact nomatch h

/-! ## Runs -/

/-- The copies of its request a call may have made by now. -/
def Client.limit (x : Client) (i : ℕ) : ℕ := match x.tasks[i]? with
  | some ⟨.toolsCall, doing⟩ => doing.limit
  | _ => 0

def Inv (x : Client) : Prop := ∀ i, x.copies i ≤ x.limit i

theorem limit_le_one (x : Client) (i : ℕ) : x.limit i ≤ 1 := by
  have hlimit : ∀ d : Doing, d.limit ≤ 1 := by
    intro d
    cases d with
    | finished => exact le_rfl
    | request attempt id s => exact Bool.toNat_le _
    | _ sent => exact Bool.toNat_le sent
  unfold Client.limit
  split
  · exact hlimit _
  · exact Nat.zero_le 1

theorem inv_go {d : Doing} (hx : Inv x) (ht : x.tasks[i]? = some t) (h : Goes x u i t d) : Inv u := by
  have hlt : i < x.tasks.length := (List.getElem?_eq_some_iff.mp ht).1
  intro j
  have hbound := hx j
  by_cases hji : j = i
  · subst hji
    have hafter : u.tasks[j]? = some ⟨t.method, d⟩ := by
      rw [h.tasks, List.getElem?_set_self hlt]
    obtain ⟨method, doing⟩ := t
    simp only [Client.limit, ht, hafter] at hbound ⊢
    cases method with
    | toolsCall => exact h.own rfl hbound
    | toolsList => exact (h.others j (.inr nofun)).trans hbound
  · have hsame : u.limit j = x.limit j := by
      unfold Client.limit
      rw [h.tasks, List.getElem?_set_ne (Ne.symm hji)]
    rw [hsame]
    exact (h.others j (.inl hji)).trans hbound

theorem inv_call (hx : Inv x) (method : Rpc) :
    Inv { x.fresh with tasks := x.tasks ++ [⟨method, .request .first x.nextId .called⟩] } := by
  intro j
  refine (hx j).trans ?_
  unfold Client.limit
  rcases Nat.lt_or_ge j x.tasks.length with hlt | hge
  · simp only [List.getElem?_append_left hlt]
    exact le_rfl
  · rw [List.getElem?_eq_none hge]
    exact Nat.zero_le _

theorem inv_receive {p : Packet} (hx : Inv x) (hp : x.wire[i]? = some p) :
    Inv { x with wire := x.wire.eraseIdx i, received := x.received ++ [p.message] } := by
  obtain ⟨hlt, rfl⟩ := List.getElem?_eq_some_iff.mp hp
  intro j
  have hperm := List.getElem_cons_eraseIdx_perm hlt
  have hcount := hperm.countP_eq fun q => decide (q.message.CallOf j)
  have hsame : Client.copies { x with wire := x.wire.eraseIdx i, received := x.received ++ [x.wire[i].message] } j =
      x.copies j := by
    simp only [Client.copies, List.countP_append, List.countP_singleton]
    rw [← hcount, List.countP_cons]
    omega
  exact hsame.trans_le (hx j)

theorem inv_step (hx : Inv x) (hdrained : Drained x ev = true) (h : x.step ev = some u) : Inv u := by
  cases ev with
  | call method =>
    obtain rfl := Option.some.inj h
    exact inv_call hx method
  | receive i =>
    obtain ⟨p, hp, h⟩ := Option.bind_eq_some_iff.mp h
    split at h
    · obtain rfl := Option.some.inj h
      exact inv_receive hx hp
    · exact nomatch h
  | exit process =>
    obtain rfl := Option.some.inj h
    exact hx
  | go i o =>
    obtain ⟨⟨method, doing⟩, ht, h⟩ := Option.bind_eq_some_iff.mp h
    have hsafe : method = .toolsCall → o = .connection → ∀ id, doing ≠ .request .first id .draining := by
      rintro rfl rfl id rfl
      simp [Drained, ht] at hdrained
    obtain ⟨d, hgoes⟩ := rpc_spec h hsafe
    exact inv_go hx ht hgoes

theorem inv_start (h : machine.start x) : Inv x := by
  obtain ⟨-, -, -, hwire, hreceived⟩ := h
  intro i
  simp [Client.copies, hwire, hreceived]

/-- **No server receives a call twice**, in every state reached without a failing
drain in the first attempt of a call. -/
theorem at_most_once (h : machine.Reach (fun x ev => Drained x ev = true) x) : AtMostOnce x := by
  have hinv : Inv x := h.invariant (fun _ hs => inv_start hs) fun _ _ _ hx hstep hdrained => inv_step hx hdrained hstep
  intro i
  have hcopies : x.received.countP (fun m => decide (m.CallOf i)) ≤ x.copies i := Nat.le_add_left _ _
  exact (hcopies.trans (hinv i)).trans (limit_le_one x i)

/-- A client that is connected to a child process. -/
def connected : Client := { transport := .stdio (some 0), processes := [true] }

theorem connected_start : machine.start connected := ⟨rfl, rfl, rfl, rfl, rfl⟩

/-- `at_most_once` for a call whose process exits while it waits for the reply. -/
theorem at_most_once_lost : ∃ x, machine.Reach (fun x ev => Drained x ev = true) x ∧
    x.tasks = [⟨.toolsCall, .dropped true⟩] ∧ AtMostOnce x := by
  obtain ⟨x, hx, htest⟩ := Machine.exists_of_any
    (show (Machine.exec (fun x ev => if Drained x ev = true then x.step ev else none) connected [.call .toolsCall, .go 0 .ok,
        .go 0 .ok, .receive 0, .go 0 .ok, .exit 0, .go 0 .connection]).any
          (fun x => decide (x.tasks = [⟨.toolsCall, .dropped true⟩])) = true by decide +kernel)
  have hreach := Machine.exec_reach_guarded (.start connected_start) hx
  exact ⟨x, hreach, of_decide_eq_true htest, at_most_once hreach⟩

/-- The process receives the request and exits, and draining fails: the request is
sent again. -/
theorem called_twice : ∃ x, machine.Reach Machine.free x ∧
    2 ≤ x.received.countP (fun m => decide (m.CallOf 0)) ∧ ¬AtMostOnce x := by
  obtain ⟨x, hx, htest⟩ := Machine.exists_of_any
    (show (Machine.exec Client.step connected [.call .toolsCall, .go 0 .ok, .go 0 .ok, .receive 0, .exit 0,
        .go 0 .connection, .go 0 .ok, .go 0 .ok, .go 0 .ok, .go 0 .ok, .go 0 .ok, .go 0 .ok, .receive 0, .go 0 .ok,
        .go 0 .ok, .go 0 .ok, .go 0 .ok, .go 0 .ok, .go 0 .ok, .receive 1]).any
          (fun x => decide (2 ≤ x.received.countP fun m => decide (m.CallOf 0))) = true by decide +kernel)
  have htwice := of_decide_eq_true htest
  refine ⟨x, Machine.exec_reach (.start connected_start) hx, htwice, fun honce => ?_⟩
  have hone := honce 0
  omega

end Caips.Tools.McpClient
