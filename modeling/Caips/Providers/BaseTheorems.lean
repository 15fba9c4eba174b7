/-
Caips.Providers.BaseTheorems — which conversations `validate_conversation` accepts.
-/
import Caips.Providers.Base

namespace Caips.Providers

/-- The messages that are no system messages. -/
def turnsOf (messages : List Message) : List Message := messages.filter fun m => m.role ≠ "system"

/-- What `validate_conversation` asks of a conversation. -/
structure Valid (messages : List Message) : Prop where
  roles : ∀ m ∈ messages, m.role ∈ validRoles
  first : ∃ m, (turnsOf messages).head? = some m ∧ m.role = "user"
  last : ∃ m, (turnsOf messages).getLast? = some m ∧ (m.role = "user" ∨ m.role = "tool")
  ids : ∀ m ∈ messages, m.role = "tool" → m.toolCallId.getD "" ≠ ""

theorem ids_of_any {messages : List Message}
    (h : ((turnsOf messages).any fun m => m.role == "tool" && (m.toolCallId.getD "").isEmpty) = false) :
    ∀ m ∈ messages, m.role = "tool" → m.toolCallId.getD "" ≠ "" := by
  intro m hm htool hempty
  have hmem : m ∈ turnsOf messages := List.mem_filter.mpr ⟨hm, by simp [htool]⟩
  have hany := List.any_eq_false.mp h m hmem
  simp [htool, hempty] at hany

theorem validateConversation_ok_iff {messages : List Message} : validateConversation messages = .ok () ↔ Valid messages := by
  unfold validateConversation
  simp only [bind, Except.bind, throw, throwThe, MonadExceptOf.throw, pure, Except.pure]
  constructor
  · intro h
    split at h
    · cases h
    · split at h
      · cases h
      · rename_i hroles
        have hroles' : ∀ m ∈ messages, m.role ∈ validRoles := by
          intro m hm
          simpa using List.find?_eq_none.mp hroles m hm
        split at h
        · rename_i first last hfirst hlast
          split_ifs at h with huser hend hids
          · refine ⟨hroles', ⟨first, hfirst, not_not.mp huser⟩, ⟨last, hlast, ?_⟩, ids_of_any (Bool.not_eq_true _ ▸ hids)⟩
            by_contra hneither
            exact hend (not_or.mp hneither)
        · cases h
  · intro h
    obtain ⟨first, hfirst, huser⟩ := h.first
    obtain ⟨last, hlast, hend⟩ := h.last
    have hne : messages.isEmpty = false := by
      cases messages with
      | nil => cases hfirst
      | cons m l => rfl
    have hroles : messages.find? (fun m => !validRoles.contains m.role) = none := by
      rw [List.find?_eq_none]
      intro m hm
      simpa using h.roles m hm
    have hids : ((turnsOf messages).any fun m => m.role == "tool" && (m.toolCallId.getD "").isEmpty) = false := by
      rw [List.any_eq_false]
      intro m hm
      have hid := h.ids m (List.mem_of_mem_filter hm)
      simp only [Bool.and_eq_true, beq_iff_eq, String.isEmpty_iff, not_and]
      exact hid
    unfold turnsOf at hfirst hlast hids
    rw [hne, hroles, hfirst, hlast]
    simp only [Bool.false_eq_true, if_false, huser, not_true, ne_eq, hids]
    rw [if_neg]
    rintro ⟨huser', htool'⟩
    exact hend.elim huser' htool'

end Caips.Providers
