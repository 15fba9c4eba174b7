/-
Caips.Localrt.HardwareTheorems — what a plan promises, and when it keeps it.

The layers that are offloaded are the most the budget takes (`offload_eq`), but the
budget is a whole number, is the RAM where there is no VRAM, and is not asked about
what stays on the CPU. `plan_keeps_iff` says for which machines a plan is as it should be.
-/
import Caips.Localrt.Hardware
import Mathlib.Data.Nat.Find

namespace Caips.Localrt

open Caips.Logic

namespace PlanArgs

variable (a : PlanArgs)

/-! ## What a plan should be -/

/-- The part of a memory a model may take. -/
def share (bytes : ℕ) : ℚ := bytes * a.headroom

/-- What is left on the CPU. -/
def rest (layers : ℕ) : ℚ := a.modelBytes - a.perLayer * layers

/-- So many layers are in the VRAM with the cache, and the others in the RAM, with the
cache where there are no layers in the VRAM. -/
structure InMemory (ctx layers : ℕ) : Prop where
  vram : 0 < layers → a.exactNeed ctx layers ≤ a.share a.hw.vramBytes
  ram : a.rest layers + (if layers = 0 then a.kvBytes ctx else 0 : ℕ) ≤ a.share a.hw.ramBytes

/-- A plan that keeps what it says. -/
structure Keeps (p : Plan) : Prop where
  inMemory : p.fits = true → a.InMemory p.ctx p.nGpuLayers
  largest : p.fits = true → ∀ layers ≤ a.nLayers, a.InMemory p.ctx layers → layers ≤ p.nGpuLayers
  ctx : min a.trainedCtx 2048 ≤ p.ctx

/-- The first of a context, its half and its quarter that is small enough, or that all
layers fit with. -/
def wantedCtx : ℕ :=
  if a.firstCtx ≤ 2048 ∨ a.need a.firstCtx a.nLayers ≤ a.budget then a.firstCtx
  else if a.firstCtx / 2 ≤ 2048 ∨ a.need (a.firstCtx / 2) a.nLayers ≤ a.budget then a.firstCtx / 2
  else a.firstCtx / 4

/-- The machines a model has an honest plan for.
`halves`: no context is halved to one below 2048.
`cpu`: where the budget takes the model without a GPU, so does the RAM, and the VRAM
takes no layer.
`none`: where the budget takes no layer but the RAM takes the model, it takes the
cache as well.
`all`, `some`: where the budget takes all or some layers, so does the VRAM, and the
RAM takes the others. -/
structure Honest : Prop where
  halves : a.firstCtx ≤ 2048 ∨ a.firstCtx ∈ [4096, 4097, 8192] ∨
    a.need (if a.firstCtx < 4096 then a.firstCtx else a.firstCtx / 2) a.nLayers ≤ a.budget
  cpu : a.hw.backend = .cpu → ((a.modelBytes + a.kvBytes a.wantedCtx : ℕ) : ℤ) ≤ a.budget →
    ((a.modelBytes + a.kvBytes a.wantedCtx : ℕ) : ℚ) ≤ a.share a.hw.ramBytes ∧
      (a.nLayers = 0 ∨ a.share a.hw.vramBytes < a.exactNeed a.wantedCtx 1)
  none : a.hw.backend ≠ .cpu → (a.nLayers = 0 ∨ a.budget < a.need a.wantedCtx 1) →
    (a.modelBytes : ℚ) ≤ a.share a.hw.ramBytes →
      ((a.modelBytes + a.kvBytes a.wantedCtx : ℕ) : ℚ) ≤ a.share a.hw.ramBytes
  all : a.hw.backend ≠ .cpu → 0 < a.nLayers → a.need a.wantedCtx a.nLayers ≤ a.budget →
    ((a.modelBytes + a.kvBytes a.wantedCtx : ℕ) : ℚ) ≤ a.share a.hw.vramBytes ∧ 0 ≤ a.share a.hw.ramBytes
  some : a.hw.backend ≠ .cpu → ∀ layers < a.nLayers, 0 < layers → a.need a.wantedCtx layers ≤ a.budget →
    a.budget < a.need a.wantedCtx (layers + 1) →
      a.exactNeed a.wantedCtx layers ≤ a.share a.hw.vramBytes ∧ a.rest layers ≤ a.share a.hw.ramBytes

variable {a : PlanArgs} {ctx ctx' layers layers' : ℕ} {b : ℤ}

/-! ## What is needed -/

theorem perLayer_nonneg : 0 ≤ a.perLayer := by
  unfold perLayer
  positivity

theorem exactNeed_nonneg : 0 ≤ a.exactNeed ctx layers :=
  add_nonneg (mul_nonneg perLayer_nonneg (Nat.cast_nonneg _)) (Nat.cast_nonneg _)

theorem kvBytes_mono (h : ctx ≤ ctx') : a.kvBytes ctx ≤ a.kvBytes ctx' := by
  unfold kvBytes kvCacheBytes
  gcongr

theorem exactNeed_mono (hctx : ctx ≤ ctx') (hlayers : layers ≤ layers') :
    a.exactNeed ctx layers ≤ a.exactNeed ctx' layers' := by
  have hkv : (a.kvBytes ctx : ℚ) ≤ a.kvBytes ctx' := Nat.cast_le.mpr (kvBytes_mono hctx)
  have hperLayer : a.perLayer * layers ≤ a.perLayer * layers' :=
    mul_le_mul_of_nonneg_left (Nat.cast_le.mpr hlayers) perLayer_nonneg
  exact add_le_add hperLayer hkv

theorem need_le_iff : a.need ctx layers ≤ b ↔ a.exactNeed ctx layers < b + 1 := by
  unfold need
  rw [truncate_of_nonneg exactNeed_nonneg, ← Int.lt_add_one_iff, Int.floor_lt]
  push_cast
  rfl

theorem need_mono (hctx : ctx ≤ ctx') (hlayers : layers ≤ layers') : a.need ctx layers ≤ a.need ctx' layers' := by
  rw [need_le_iff]
  exact lt_of_le_of_lt (exactNeed_mono hctx hlayers) (need_le_iff.mp le_rfl)

theorem lt_truncate_add_one (x : ℚ) : x < truncate x + 1 := by
  unfold truncate
  split
  · exact Int.lt_floor_add_one x
  · exact lt_of_le_of_lt (Int.le_ceil x) (lt_add_one _)

theorem perLayer_mul_nLayers (h : 0 < a.nLayers) : a.perLayer * a.nLayers = a.modelBytes := by
  have hmax : max a.nLayers 1 = a.nLayers := max_eq_left h
  have hne : (a.nLayers : ℚ) ≠ 0 := Nat.cast_ne_zero.mpr (by omega)
  unfold perLayer
  rw [hmax]
  field_simp

theorem exactNeed_nLayers (h : 0 < a.nLayers) : a.exactNeed ctx a.nLayers = (a.modelBytes + a.kvBytes ctx : ℕ) := by
  unfold exactNeed
  rw [perLayer_mul_nLayers h, Nat.cast_add]

theorem rest_nLayers (h : 0 < a.nLayers) : a.rest a.nLayers = 0 := by
  unfold rest
  rw [perLayer_mul_nLayers h, sub_self]

theorem rest_zero : a.rest 0 = a.modelBytes := by
  simp [rest]

theorem rest_nonneg (h : layers ≤ a.nLayers) : 0 ≤ a.rest layers := by
  rcases Nat.eq_zero_or_pos a.nLayers with hn | hn
  · obtain rfl : layers = 0 := by omega
    rw [rest_zero]
    exact Nat.cast_nonneg _
  · have hle : a.perLayer * layers ≤ a.perLayer * a.nLayers :=
      mul_le_mul_of_nonneg_left (Nat.cast_le.mpr h) perLayer_nonneg
    rw [perLayer_mul_nLayers hn] at hle
    exact sub_nonneg.mpr hle

theorem inMemory_zero_iff : a.InMemory ctx 0 ↔ ((a.modelBytes + a.kvBytes ctx : ℕ) : ℚ) ≤ a.share a.hw.ramBytes := by
  constructor
  · intro h
    simpa [rest_zero] using h.ram
  · intro h
    exact ⟨fun hlt => absurd hlt (Nat.lt_irrefl 0), by simpa [rest_zero] using h⟩

theorem inMemory_pos_iff (h : 0 < layers) :
    a.InMemory ctx layers ↔ a.exactNeed ctx layers ≤ a.share a.hw.vramBytes ∧ a.rest layers ≤ a.share a.hw.ramBytes := by
  have hne : layers ≠ 0 := by omega
  constructor
  · intro hin
    exact ⟨hin.vram h, by simpa [hne] using hin.ram⟩
  · intro hin
    exact ⟨fun _ => hin.1, by simpa [hne] using hin.2⟩

/-- What is over the budget is not in the VRAM either. -/
theorem not_inMemory (hpos : 0 < layers) (hle : layers ≤ a.nLayers) (h : a.budget < a.need ctx layers) :
    ¬a.InMemory ctx layers := by
  intro hin
  obtain ⟨hvram, hram⟩ := (inMemory_pos_iff hpos).mp hin
  have hover : (a.budget : ℚ) + 1 ≤ a.exactNeed ctx layers := not_lt.mp fun hlt => not_le.mpr h (need_le_iff.mpr hlt)
  by_cases hzero : a.hw.vramBytes = 0
  · have hbudget : a.budget = truncate (a.share a.hw.ramBytes) := by simp [budget, share, hzero]
    have hram0 : 0 ≤ a.share a.hw.ramBytes := (rest_nonneg hle).trans hram
    have hnonneg : (0 : ℚ) ≤ a.budget := by
      rw [hbudget, truncate_of_nonneg hram0]
      exact Int.cast_nonneg (Int.floor_nonneg.mpr hram0)
    have hshare : a.share a.hw.vramBytes = 0 := by simp [share, hzero]
    linarith
  · have hbudget : a.budget = truncate (a.share a.hw.vramBytes) := by simp [budget, share, hzero]
    have hlt := lt_truncate_add_one (a.share a.hw.vramBytes)
    rw [← hbudget] at hlt
    linarith

/-! ## The loops -/

theorem shrink_eq (ctx : ℕ) :
    a.shrink ctx = if 2048 < ctx ∧ a.budget < a.need ctx a.nLayers then a.shrink (ctx / 2) else ctx := by
  rw [shrink]

theorem shrink_of_le (h : ctx ≤ 2048 ∨ a.need ctx a.nLayers ≤ a.budget) : a.shrink ctx = ctx := by
  rw [shrink_eq, if_neg]
  omega

theorem shrink_of_lt (h : ¬(ctx ≤ 2048 ∨ a.need ctx a.nLayers ≤ a.budget)) : a.shrink ctx = a.shrink (ctx / 2) := by
  rw [shrink_eq, if_pos]
  omega

theorem firstCtx_le : a.firstCtx ≤ 8192 := min_le_right _ _

theorem firstCtx_cases (a : PlanArgs) :
    a.trainedCtx = 0 ∧ a.firstCtx = 4096 ∨ 0 < a.trainedCtx ∧ a.firstCtx = min a.trainedCtx 8192 := by
  unfold firstCtx
  rcases Nat.eq_zero_or_pos a.trainedCtx with h | h
  · left
    simp [h]
  · right
    simp [h, Nat.ne_of_gt h]

/-- The loop ends after two rounds at most. -/
theorem shrink_firstCtx : a.shrink a.firstCtx = a.wantedCtx := by
  have hfirst := a.firstCtx_le
  unfold wantedCtx
  split
  · next h => exact shrink_of_le h
  · next h =>
      rw [shrink_of_lt h]
      split
      · next h' => exact shrink_of_le h'
      · next h' =>
          rw [shrink_of_lt h', Nat.div_div_eq_div_mul]
          exact shrink_of_le (.inl (by omega))

theorem offload_eq (n : ℕ) : a.offload ctx n = Nat.findGreatest (fun layers => a.need ctx layers ≤ a.budget) n := by
  induction n with
  | zero => rfl
  | succ n ih =>
    rw [offload, Nat.findGreatest_succ, ih]
    by_cases h : a.need ctx (n + 1) ≤ a.budget
    · rw [if_pos h, if_neg (not_lt.mpr h)]
    · rw [if_neg h, if_pos (not_le.mp h)]

variable (ctx) in
theorem offload_le (n : ℕ) : a.offload ctx n ≤ n := by
  rw [offload_eq]
  exact Nat.findGreatest_le n

theorem need_offload {n : ℕ} (h : 0 < a.offload ctx n) : a.need ctx (a.offload ctx n) ≤ a.budget := by
  rw [offload_eq] at h ⊢
  exact Nat.findGreatest_of_ne_zero (P := fun layers => a.need ctx layers ≤ a.budget) rfl (by omega)

theorem budget_lt_need {n : ℕ} (hlt : a.offload ctx n < layers) (hle : layers ≤ n) : a.budget < a.need ctx layers := by
  rw [offload_eq] at hlt
  exact not_le.mp (Nat.findGreatest_is_greatest hlt hle)

/-- A number of layers the budget takes, with no room for one more, is what is
offloaded. -/
theorem eq_offload {n : ℕ} (hpos : 0 < layers) (hle : layers ≤ n) (hneed : a.need ctx layers ≤ a.budget)
    (hnext : layers < n → a.budget < a.need ctx (layers + 1)) : a.offload ctx n = layers := by
  apply le_antisymm
  · by_contra hlt
    have hpos' : 0 < a.offload ctx n := by omega
    have hmono : a.need ctx (layers + 1) ≤ a.need ctx (a.offload ctx n) := need_mono le_rfl (by omega)
    have := hnext (by have := a.offload_le ctx n; omega)
    have := need_offload hpos'
    omega
  · by_contra hlt
    have := budget_lt_need (not_le.mp hlt) hle
    omega

theorem offload_eq_zero_iff (n : ℕ) : a.offload ctx n = 0 ↔ n = 0 ∨ a.budget < a.need ctx 1 := by
  constructor
  · intro h
    rcases Nat.eq_zero_or_pos n with hn | hn
    · exact .inl hn
    · exact .inr (budget_lt_need (by omega) hn)
  · rintro (rfl | h)
    · rfl
    · by_contra hne
      have hneed := need_offload (Nat.pos_of_ne_zero hne)
      have hmono : a.need ctx 1 ≤ a.need ctx (a.offload ctx n) := need_mono le_rfl (Nat.pos_of_ne_zero hne)
      omega

/-! ## The context -/

theorem le_wantedCtx_iff : min a.trainedCtx 2048 ≤ a.wantedCtx ↔
    (a.firstCtx ≤ 2048 ∨ a.firstCtx ∈ [4096, 4097, 8192] ∨
      a.need (if a.firstCtx < 4096 then a.firstCtx else a.firstCtx / 2) a.nLayers ≤ a.budget) := by
  have hfirst := a.firstCtx_cases
  have hhalf : a.need (a.firstCtx / 2) a.nLayers ≤ a.need a.firstCtx a.nLayers :=
    need_mono (Nat.div_le_self _ _) le_rfl
  simp only [List.mem_cons, List.not_mem_nil, or_false]
  unfold wantedCtx
  split_ifs <;> omega

/-! ## The plan -/

theorem plan_cpu (h : a.hw.backend = .cpu) : plan a 0 none =
    ⟨a.wantedCtx, 0, decide (((a.modelBytes + a.kvBytes a.wantedCtx : ℕ) : ℤ) ≤ a.budget)⟩ := by
  unfold plan
  rw [if_pos h, if_pos rfl, shrink_firstCtx]
  rfl

theorem plan_gpu (h : a.hw.backend ≠ .cpu) : plan a 0 none =
    ⟨a.wantedCtx, a.offload a.wantedCtx a.nLayers,
      decide (0 < a.offload a.wantedCtx a.nLayers ∨ (a.modelBytes : ℚ) ≤ a.share a.hw.ramBytes)⟩ := by
  unfold plan
  rw [if_neg h, if_pos rfl, shrink_firstCtx]
  rfl

/-- Without a GPU. -/
theorem keeps_cpu_iff (h : a.hw.backend = .cpu) : a.Keeps (plan a 0 none) ↔ a.Honest := by
  rw [plan_cpu h]
  constructor
  · intro hkeeps
    refine ⟨le_wantedCtx_iff.mp hkeeps.ctx, fun _ hfits => ?_, absurd h, absurd h, absurd h⟩
    have hram := inMemory_zero_iff.mp (hkeeps.inMemory (decide_eq_true hfits))
    refine ⟨hram, ?_⟩
    by_contra hnot
    obtain ⟨hn, hvram⟩ := not_or.mp hnot
    have hmodel : (a.modelBytes : ℚ) ≤ (a.modelBytes + a.kvBytes a.wantedCtx : ℕ) :=
      Nat.cast_le.mpr (Nat.le_add_right _ _)
    have hrest : a.rest 1 ≤ a.modelBytes := by
      have := a.perLayer_nonneg
      unfold rest
      push_cast
      linarith
    have hone : a.InMemory a.wantedCtx 1 :=
      (inMemory_pos_iff Nat.one_pos).mpr ⟨not_lt.mp hvram, (hrest.trans hmodel).trans hram⟩
    exact absurd (hkeeps.largest (decide_eq_true hfits) 1 (Nat.pos_of_ne_zero hn) hone) (by simp)
  · intro hhonest
    refine ⟨fun hfits => ?_, fun hfits layers hle hin => ?_, le_wantedCtx_iff.mpr hhonest.halves⟩
    · exact inMemory_zero_iff.mpr (hhonest.cpu h (of_decide_eq_true hfits)).1
    · by_contra hlt
      have hpos : 0 < layers := not_le.mp hlt
      rcases (hhonest.cpu h (of_decide_eq_true hfits)).2 with hn | hvram
      · omega
      · have hneed := ((inMemory_pos_iff hpos).mp hin).1
        have hmono : a.exactNeed a.wantedCtx 1 ≤ a.exactNeed a.wantedCtx layers := exactNeed_mono le_rfl hpos
        linarith

/-- The layers that are offloaded are in the VRAM, and the others in the RAM. -/
theorem Honest.inMemory (hhonest : a.Honest) (h : a.hw.backend ≠ .cpu)
    (hfits : 0 < a.offload a.wantedCtx a.nLayers ∨ (a.modelBytes : ℚ) ≤ a.share a.hw.ramBytes) :
    a.InMemory a.wantedCtx (a.offload a.wantedCtx a.nLayers) := by
  rcases Nat.eq_zero_or_pos (a.offload a.wantedCtx a.nLayers) with hzero | hpos
  · rw [hzero]
    have hram := hfits.resolve_left (by omega)
    exact inMemory_zero_iff.mpr (hhonest.none h ((offload_eq_zero_iff _).mp hzero) hram)
  · have hneed := need_offload hpos
    rcases Nat.lt_or_ge (a.offload a.wantedCtx a.nLayers) a.nLayers with hlt | hge
    · have hover := budget_lt_need (Nat.lt_succ_self (a.offload a.wantedCtx a.nLayers)) hlt
      exact (inMemory_pos_iff hpos).mpr (hhonest.some h _ hlt hpos hneed hover)
    · have hall : a.offload a.wantedCtx a.nLayers = a.nLayers := le_antisymm (offload_le _ _) hge
      rw [hall] at hpos hneed ⊢
      obtain ⟨hvram, hram⟩ := hhonest.all h hpos hneed
      rw [inMemory_pos_iff hpos, exactNeed_nLayers hpos, rest_nLayers hpos]
      exact ⟨hvram, hram⟩

/-- With a GPU. -/
theorem keeps_gpu_iff (h : a.hw.backend ≠ .cpu) : a.Keeps (plan a 0 none) ↔ a.Honest := by
  rw [plan_gpu h]
  constructor
  · intro hkeeps
    have hin : ∀ {layers}, a.offload a.wantedCtx a.nLayers = layers →
        (0 < layers ∨ (a.modelBytes : ℚ) ≤ a.share a.hw.ramBytes) → a.InMemory a.wantedCtx layers := by
      intro layers heq hfits
      have := hkeeps.inMemory (decide_eq_true (heq.symm ▸ hfits))
      exact heq ▸ this
    refine ⟨le_wantedCtx_iff.mp hkeeps.ctx, fun hcpu => absurd hcpu h, ?_, ?_, ?_⟩
    · intro _ hnone hram
      exact inMemory_zero_iff.mp (hin ((offload_eq_zero_iff _).mpr hnone) (.inr hram))
    · intro _ hpos hneed
      have hall := eq_offload hpos le_rfl hneed fun hlt => absurd hlt (Nat.lt_irrefl _)
      have hvram := (inMemory_pos_iff hpos).mp (hin hall (.inl hpos))
      rwa [exactNeed_nLayers hpos, rest_nLayers hpos] at hvram
    · intro _ layers hlt hpos hneed hover
      exact (inMemory_pos_iff hpos).mp (hin (eq_offload hpos hlt.le hneed fun _ => hover) (.inl hpos))
  · intro hhonest
    refine ⟨fun hfits => ?_, fun _ layers hle hin => ?_, le_wantedCtx_iff.mpr hhonest.halves⟩
    · exact hhonest.inMemory h (of_decide_eq_true hfits)
    · by_contra hlt
      have hlt' : a.offload a.wantedCtx a.nLayers < layers := not_le.mp hlt
      exact not_inMemory (by omega) hle (budget_lt_need hlt' hle) hin

/-- **A plan keeps what it says exactly on the machines the condition is about.** -/
theorem plan_keeps_iff (a : PlanArgs) : a.Keeps (plan a 0 none) ↔ a.Honest := by
  by_cases h : a.hw.backend = .cpu
  · exact keeps_cpu_iff h
  · exact keeps_gpu_iff h

/-- 80 GiB of a model, on a machine with 8 GiB of VRAM and 16 GiB of RAM. -/
def large : PlanArgs := ⟨80 * 2 ^ 30, 2048, 40, ⟨.cuda, 16 * 2 ^ 30, 8 * 2 ^ 30⟩, 1, 17 / 20⟩

theorem large_fits : ¬large.Keeps (plan large 0 none) := by
  intro hkeeps
  have hctx : large.wantedCtx = 2048 := by decide +kernel
  have hlayers : large.offload 2048 40 = 2 := by decide +kernel
  have hplan := plan_gpu (a := large) (by decide)
  have hin := hkeeps.inMemory
  rw [hplan, hctx, show large.nLayers = 40 from rfl, hlayers] at hin
  have hrest := ((inMemory_pos_iff (by decide)).mp (hin (by decide))).2
  exact absurd hrest (by decide +kernel)

end PlanArgs

end Caips.Localrt
