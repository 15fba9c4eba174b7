/-
Caips.Logic.Numbered — a list read element by element, each with its number.

`walk i l` reads `l` from number `i` on and joins what its elements become; the
first one refused ends it. An element sees its own number only, so a list can
be read in two parts, and an element that is read the same at every number can
be exchanged for another such.
-/
import Caips.Logic.Sync

namespace Caips.Logic

variable {ε α β γ : Type}

/-- The equations of `walk`, for a join that can be regrouped. -/
structure Numbered (unit : β) (join : β → β → β) (step : ℕ → α → Except ε β) (walk : ℕ → List α → Except ε β) :
    Prop where
  nil (i : ℕ) : walk i [] = .ok unit
  cons (i : ℕ) (x : α) (l : List α) : walk i (x :: l) = (do
    let first ← step i x
    let others ← walk (i + 1) l
    .ok (join first others))
  unit_join (a : β) : join unit a = a
  join_assoc (a b c : β) : join (join a b) c = join a (join b c)

namespace Numbered

variable {unit : β} {join : β → β → β} {step : ℕ → α → Except ε β} {walk : ℕ → List α → Except ε β}

theorem cons_ok_iff (h : Numbered unit join step walk) {i : ℕ} {x : α} {l : List α} {out : β} :
    walk i (x :: l) = .ok out ↔ ∃ a b, step i x = .ok a ∧ walk (i + 1) l = .ok b ∧ join a b = out := by
  rw [h.cons, bind_ok_iff]
  constructor
  · rintro ⟨a, ha, hrest⟩
    obtain ⟨b, hb, hout⟩ := bind_ok_iff.mp hrest
    exact ⟨a, b, ha, hb, Except.ok.inj hout⟩
  · rintro ⟨a, b, ha, hb, rfl⟩
    exact ⟨a, ha, bind_ok_iff.mpr ⟨b, hb, rfl⟩⟩

/-- A list is read in two parts. -/
theorem append_ok_iff (h : Numbered unit join step walk) {l l' : List α} {i : ℕ} {out : β} :
    walk i (l ++ l') = .ok out ↔ ∃ a b, walk i l = .ok a ∧ walk (i + l.length) l' = .ok b ∧ join a b = out := by
  induction l generalizing i out with
  | nil =>
    rw [List.nil_append, List.length_nil, Nat.add_zero, h.nil]
    constructor
    · intro hout
      exact ⟨unit, out, rfl, hout, h.unit_join out⟩
    · rintro ⟨a, b, ha, hb, rfl⟩
      obtain rfl := Except.ok.inj ha
      rw [hb, h.unit_join]
  | cons x l ih =>
    have hindex : i + 1 + l.length = i + (x :: l).length := by
      rw [List.length_cons]
      omega
    rw [List.cons_append, h.cons_ok_iff]
    constructor
    · rintro ⟨a, both, ha, hboth, rfl⟩
      obtain ⟨b, c, hb, hc, rfl⟩ := ih.mp hboth
      exact ⟨join a b, c, h.cons_ok_iff.mpr ⟨a, b, ha, hb, rfl⟩, hindex ▸ hc, h.join_assoc a b c⟩
    · rintro ⟨both, c, hboth, hc, rfl⟩
      obtain ⟨a, b, ha, hb, rfl⟩ := h.cons_ok_iff.mp hboth
      exact ⟨a, join b c, ha, ih.mpr ⟨b, c, hb, hindex ▸ hc, rfl⟩, (h.join_assoc a b c).symm⟩

theorem insert_ok_iff (h : Numbered unit join step walk) {x : α} {y : β} (hx : ∀ i, step i x = .ok y)
    {before after : List α} {i : ℕ} {out : β} :
    walk i (before ++ x :: after) = .ok out ↔
      ∃ b a, walk i before = .ok b ∧ walk (i + before.length + 1) after = .ok a ∧ join b (join y a) = out := by
  rw [h.append_ok_iff]
  constructor
  · rintro ⟨b, rest, hb, hrest, rfl⟩
    obtain ⟨y', a, hy, ha, rfl⟩ := h.cons_ok_iff.mp hrest
    obtain rfl := Except.ok.inj ((hx _).symm.trans hy)
    exact ⟨b, a, hb, ha, rfl⟩
  · rintro ⟨b, a, hb, ha, rfl⟩
    exact ⟨b, _, hb, h.cons_ok_iff.mpr ⟨y, a, hx _, ha, rfl⟩, rfl⟩

/-- **Exchange.** Where a result is built from what the elements become, after checks that do not read them,
and two elements differ in one part of it only, the one is accepted where the other is. -/
theorem exchange_ok_iff (h : Numbered unit join step walk) (put : β → γ → γ) {run : List α → Except ε γ} {C : Prop}
    {build : β → Except ε γ}
    (hrun : ∀ l out, run l = .ok out ↔ C ∧ ∃ c, walk 0 l = .ok c ∧ build c = .ok out)
    {x x' : α} {y y' : β} (hx : ∀ i, step i x = .ok y) (hx' : ∀ i, step i x' = .ok y')
    (hbuild : ∀ b a, build (join b (join y a)) = (build (join b (join y' a))).map (put (join b (join y a))))
    {before after : List α} {out : γ} :
    run (before ++ x :: after) = .ok out ↔
      ∃ b a rest, walk 0 before = .ok b ∧ walk (before.length + 1) after = .ok a ∧
        out = put (join b (join y a)) rest ∧ run (before ++ x' :: after) = .ok rest := by
  rw [hrun]
  simp only [hrun, h.insert_ok_iff hx, h.insert_ok_iff hx', Nat.zero_add]
  constructor
  · rintro ⟨hchecks, c, ⟨b, a, hb, ha, rfl⟩, hout⟩
    rw [hbuild] at hout
    obtain ⟨rest, hrest, rfl⟩ := map_ok_iff.mp hout
    exact ⟨b, a, rest, hb, ha, rfl, hchecks, _, ⟨b, a, hb, ha, rfl⟩, hrest⟩
  · rintro ⟨b, a, rest, hb, ha, rfl, hchecks, c, ⟨b', a', hb', ha', rfl⟩, hrest⟩
    obtain rfl := Except.ok.inj (hb.symm.trans hb')
    obtain rfl := Except.ok.inj (ha.symm.trans ha')
    refine ⟨hchecks, _, ⟨b, a, hb, ha, rfl⟩, ?_⟩
    rw [hbuild]
    exact map_ok_iff.mpr ⟨rest, hrest, rfl⟩

end Numbered

end Caips.Logic
