/-
Caips.Harness.CronTheorems — the next match of a cron expression.

A field allows the values of its parts (`mem_field`), so a parsed expression
matches the minutes that its text says (`matches_iff`). Each jump of the search
skips no match (`jump_cases`), and the rounds are enough: for the way to a match
by `cost`, and where there is none for the way to the end of the calendar, by
`monthsLeft`. So the search finds the least match (`nextAfter_least`), unless the
timestamp is rounded up to one, and an expression that never matches ends in an
`OverflowError`.
-/
import Caips.Harness.Cron
import Caips.Logic.Sync
import Mathlib.Tactic.Linarith
import Mathlib.Tactic.Tauto

namespace Caips.Harness.Cron

open Caips.Logic

variable {L : CronLib} {c : Cron} {expr text : String} {lo hi : ℕ}

/-! ## What an expression allows -/

/-- A field allows a value that is in the range of one of its parts, and a number of steps from its start. -/
def Allows (L : CronLib) (lo hi : ℕ) (text : String) (v : ℕ) : Prop :=
  ∃ part ∈ parts text, ∃ a b step, bounds L lo hi part = .ok (a, b, step) ∧ a ≤ v ∧ v ≤ b ∧ step ∣ v - a

/-- The rule for days: where both fields restrict the days, either may allow one. -/
def AllowsDay (L : CronLib) (dom dow : String) (d : Date) : Prop :=
  let inDom := Allows L 1 31 dom d.day
  let inDow := ∃ v, Allows L 0 7 dow v ∧ v % 7 = d.isoweekday % 7
  if dom = "*" then inDow else if dow = "*" then inDom else inDom ∨ inDow

/-- The expression matches a minute. -/
def MatchesExpr (L : CronLib) (expr : String) (d : DateTime) : Prop :=
  ∃ minute hour dom month dow, words expr = [minute, hour, dom, month, dow] ∧ Allows L 0 59 minute d.minute ∧
    Allows L 0 23 hour d.hour ∧ Allows L 1 12 month d.date.month ∧ AllowsDay L dom dow d.date

theorem bounds_ok {part : String} {a b step : ℕ} (h : bounds L lo hi part = .ok (a, b, step)) :
    lo ≤ a ∧ a ≤ b ∧ b ≤ hi ∧ 1 ≤ step := by
  unfold bounds at h
  simp only [bind, Except.bind, pure, Except.pure, throw, throwThe, MonadExceptOf.throw] at h
  cases hstepOf : stepOf L (partition '/' part).2 with
  | error exc => simp [hstepOf] at h
  | ok stepN =>
    rw [hstepOf] at h
    dsimp only at h
    split_ifs at h with hstep
    cases hends : ends L lo hi (partition '/' part).1 (partition '/' part).2 with
    | error exc => simp [hends] at h
    | ok ends =>
      obtain ⟨x, y⟩ := ends
      rw [hends] at h
      dsimp only at h
      split_ifs at h with hrange
      simp only [Except.ok.injEq, Prod.mk.injEq] at h
      omega

theorem mem_range' {a b step v : ℕ} (hstep : 1 ≤ step) (hab : a ≤ b) :
    v ∈ List.range' a ((b - a) / step + 1) step ↔ a ≤ v ∧ v ≤ b ∧ step ∣ v - a := by
  rw [List.mem_range']
  constructor
  · rintro ⟨i, hi, rfl⟩
    have hle : step * i ≤ b - a := by
      have hi' : i ≤ (b - a) / step := Nat.le_of_lt_succ hi
      rw [Nat.mul_comm]
      exact (Nat.le_div_iff_mul_le hstep).mp hi'
    exact ⟨Nat.le_add_right _ _, by omega, by simp⟩
  · rintro ⟨hav, hvb, i, hi⟩
    refine ⟨i, ?_, by omega⟩
    have hle : i ≤ (b - a) / step := by
      rw [Nat.le_div_iff_mul_le hstep, Nat.mul_comm]
      omega
    omega

/-- A field has the values that its parts allow. -/
theorem mem_field {l : List ℕ} (h : field L text lo hi = .ok l) (v : ℕ) : v ∈ l ↔ Allows L lo hi text v := by
  obtain ⟨found, hfound, hl⟩ := ok_of_bind h
  obtain rfl := Except.ok.inj hl
  have hall := forall₂_of_mapM hfound
  unfold Allows
  generalize parts text = texts at hall
  clear hfound h hl
  induction hall with
  | nil => simp
  | @cons part bound texts found hpart _ ih =>
    obtain ⟨a, b, step⟩ := bound
    obtain ⟨-, hab, -, hstep⟩ := bounds_ok hpart
    have hhere := mem_range' (v := v) hstep hab
    simp [hpart, hhere, ih]

theorem Allows.range {v : ℕ} (h : Allows L lo hi text v) : lo ≤ v ∧ v ≤ hi := by
  obtain ⟨part, -, a, b, step, hbounds, hav, hvb, -⟩ := h
  obtain ⟨hlo, -, hhi, -⟩ := bounds_ok hbounds
  omega

theorem exists_mem_field {l : List ℕ} (h : field L text lo hi = .ok l) : ∃ v, v ∈ l := by
  have hne : parts text ≠ [] := by simp [parts]
  obtain ⟨part, rest, hparts⟩ := List.exists_cons_of_ne_nil hne
  obtain ⟨found, hfound, -⟩ := ok_of_bind h
  have hall := forall₂_of_mapM hfound
  rw [hparts] at hall
  cases hall with
  | @cons _ bound _ _ hpart _ =>
    obtain ⟨a, b, step⟩ := bound
    exact ⟨a, (mem_field h a).mpr ⟨part, by simp [hparts], a, b, step, hpart, le_refl a, (bounds_ok hpart).2.1, by simp⟩⟩

theorem allows_asterisk {v : ℕ} (hlo : lo ≤ v) (hhi : v ≤ hi) : Allows L lo hi "*" v := by
  have hparts : parts "*" = ["*"] := by decide
  have hpartition : partition '/' "*" = ("*", "") := by decide
  refine ⟨"*", by simp [hparts], lo, hi, 1, ?_, hlo, hhi, one_dvd _⟩
  simp [bounds, hpartition, stepOf, ends, bind, Except.bind, pure, Except.pure]
  omega

/-- What the constructor sees to. -/
structure Parsed (L : CronLib) (expr : String) (c : Cron) : Prop where
  fields : ∃ minute hour dom month dow, words expr = [minute, hour, dom, month, dow] ∧
    field L minute 0 59 = .ok c.minute ∧ field L hour 0 23 = .ok c.hour ∧ field L dom 1 31 = .ok c.dom ∧
    field L month 1 12 = .ok c.month ∧ (∃ l, field L dow 0 7 = .ok l ∧ c.dow = l.map (· % 7)) ∧
    c.domAny = decide (dom = "*") ∧ c.dowAny = decide (dow = "*")

theorem parsed_of_init (h : init L expr = .ok c) : Parsed L expr c := by
  unfold init at h
  split at h
  · rename_i minute hour dom month dow hwords
    split at h
    · rename_i minutes hours doms months dows hfields
      obtain ⟨_, hminute, hfields⟩ := ok_of_bind hfields
      obtain ⟨_, hhour, hfields⟩ := ok_of_bind hfields
      obtain ⟨_, hdom, hfields⟩ := ok_of_bind hfields
      obtain ⟨_, hmonth, hfields⟩ := ok_of_bind hfields
      obtain ⟨_, hdow, hfields⟩ := ok_of_bind hfields
      obtain ⟨rfl, rfl, rfl, rfl, rfl⟩ := by simpa only [pure, Except.pure, Except.ok.injEq, Prod.mk.injEq] using hfields
      obtain rfl := Except.ok.inj h
      exact ⟨minute, hour, dom, month, dow, hwords, hminute, hhour, hdom, hmonth, ⟨_, hdow, rfl⟩, rfl, rfl⟩
    · cases h
  · cases h

/-- A minute matches the parsed expression. -/
structure Matches (c : Cron) (d : DateTime) : Prop where
  month : d.date.month ∈ c.month
  day : c.dayOk d.date = true
  hour : d.hour ∈ c.hour
  minute : d.minute ∈ c.minute

/-- The day-of-month part of a parsed expression, and the weekday part. -/
theorem Parsed.days (h : Parsed L expr c) : (c.domAny = true → ∀ v, 1 ≤ v → v ≤ 31 → v ∈ c.dom) ∧
    (c.dowAny = true → ∀ w, w < 7 → w ∈ c.dow) := by
  obtain ⟨minute, hour, dom, month, dow, -, -, -, hdom, -, ⟨l, hdow, hl⟩, hdomAny, hdowAny⟩ := h.fields
  constructor
  · intro hany v hlo hhi
    have hstar : dom = "*" := by simpa [hany] using hdomAny.symm
    exact (mem_field hdom v).mpr (hstar ▸ allows_asterisk hlo hhi)
  · intro hany w hw
    have hstar : dow = "*" := by simpa [hany] using hdowAny.symm
    have hmem : w ∈ l := (mem_field hdow w).mpr (hstar ▸ allows_asterisk (Nat.zero_le w) (by omega))
    rw [hl]
    exact List.mem_map.mpr ⟨w, hmem, Nat.mod_eq_of_lt hw⟩

/-- A parsed expression matches the minutes that its text says. -/
theorem matches_iff (h : Parsed L expr c) (d : DateTime) : Matches c d ↔ MatchesExpr L expr d := by
  obtain ⟨hdomAll, hdowAll⟩ := h.days
  obtain ⟨minute, hour, dom, month, dow, hwords, hminute, hhour, hdom, hmonth, ⟨l, hdow, hl⟩, hdomAny, hdowAny⟩ := h.fields
  have hinDow : d.date.isoweekday % 7 ∈ c.dow ↔ ∃ v, Allows L 0 7 dow v ∧ v % 7 = d.date.isoweekday % 7 := by
    rw [hl, List.mem_map]
    simp only [mem_field hdow]
  have hday : c.dayOk d.date = true ↔ AllowsDay L dom dow d.date := by
    have hlast := daysInMonth_le d.date.year d.date.month
    have hinDom := mem_field hdom d.date.day
    simp only [dayOk, AllowsDay, ← hinDow, ← hinDom, hdomAny, hdowAny] at hdomAll hdowAll ⊢
    by_cases hd : dom = "*"
    · have hall := hdomAll (by simp [hd]) d.date.day d.date.day_pos (le_trans d.date.day_le hlast)
      simp [hd, hall]
    · by_cases hw : dow = "*"
      · have hall := hdowAll (by simp [hw]) (d.date.isoweekday % 7) (Nat.mod_lt _ (by decide))
        simp [hd, hw, hall]
      · simp [hd, hw]
  constructor
  · intro hm
    exact ⟨minute, hour, dom, month, dow, hwords, (mem_field hminute _).mp hm.minute, (mem_field hhour _).mp hm.hour,
      (mem_field hmonth _).mp hm.month, hday.mp hm.day⟩
  · rintro ⟨minute', hour', dom', month', dow', hwords', hmi, hho, hmo, hda⟩
    obtain ⟨rfl, rfl, rfl, rfl, rfl⟩ := by simpa only [List.cons.injEq, and_true] using hwords.symm.trans hwords'
    exact ⟨(mem_field hmonth _).mpr hmo, hday.mpr hda, (mem_field hhour _).mpr hho, (mem_field hminute _).mpr hmi⟩

/-! ## Jumps -/

/-- Where the search goes on, and why. -/
inductive Jump (c : Cron) (d e : DateTime) : Prop where
  | month : d.date.month ∉ c.month → e.date = d.date.nextMonth → e.ofDay = 0 → Jump c d e
  | day : d.date.month ∈ c.month → c.dayOk d.date = false → e.date = d.date.next → e.ofDay = 0 → Jump c d e
  | hour : d.date.month ∈ c.month → c.dayOk d.date = true → d.hour ∉ c.hour → e.number = d.onTheHour.number + 60 →
      Jump c d e
  | minute : d.date.month ∈ c.month → c.dayOk d.date = true → d.minute ∉ c.minute → e.number = d.number + 1 → Jump c d e

variable {d : DateTime} {ts : ℚ}

theorem matches_of_jump_none (h : c.jump d = none) : Matches c d := by
  unfold jump at h
  split_ifs at h with hmonth hday hhour hminute
  exact ⟨hmonth, hday, hhour, hminute⟩

/-- Every other minute leads to a jump, or to the end of the calendar. -/
theorem jump_cases {r : Except CronError DateTime} (h : c.jump d = some r) :
    ∃ e, Jump c d e ∧ (r = .ok e ∧ e.date.year ≤ 9999 ∨
      r = .error (.overflow "date value out of range") ∧ 9999 < e.date.year) := by
  have hadd : ∀ (d : DateTime) (n : ℕ), add d n = .ok (d.plus n) ∧ (d.plus n).date.year ≤ 9999 ∨
      add d n = .error (.overflow "date value out of range") ∧ 9999 < (d.plus n).date.year := by
    intro d n
    unfold add
    split
    · rename_i hle
      exact .inl ⟨rfl, hle⟩
    · rename_i hlt
      exact .inr ⟨rfl, Nat.not_le.mp hlt⟩
  unfold jump at h
  split_ifs at h with hmonth hday hhour hminute
  all_goals obtain rfl := Option.some.inj h
  · -- the minute for the hour and the day is right
    refine ⟨d.plus 1, .minute hmonth hday hminute (d.number_plus 1), hadd d 1⟩
  · exact ⟨_, .hour hmonth hday hhour (d.onTheHour.number_plus 60), hadd d.onTheHour 60⟩
  · have hplus := DateTime.plus_days d 1
    have hdate : (d.midnight.plus 1440).date = d.date.next := congrArg (·.date) hplus
    have hofDay : (d.midnight.plus 1440).ofDay = 0 := congrArg (·.ofDay) hplus
    exact ⟨_, .day hmonth (Bool.not_eq_true _ ▸ hday) hdate hofDay, hadd d.midnight 1440⟩
  · have hplus : d.startOfMonth.plus (32 * 1440) = { d.midnight with date := Date.next^[32] d.date.first } :=
      DateTime.plus_days d.startOfMonth 32
    have hofDay : (d.startOfMonth.plus (32 * 1440)).ofDay = 0 := congrArg (·.ofDay) hplus
    have hdate : (d.startOfMonth.plus (32 * 1440)).date.first = d.date.nextMonth := by
      rw [← Date.first_iterate_next d.date, hplus]
    refine ⟨{ d.startOfMonth.plus (32 * 1440) with date := (d.startOfMonth.plus (32 * 1440)).date.first },
      .month hmonth hdate hofDay, ?_⟩
    obtain ⟨hok, hyear⟩ | ⟨hover, hyear⟩ := hadd d.startOfMonth (32 * 1440)
    · exact .inl ⟨by rw [hok]; rfl, hyear⟩
    · exact .inr ⟨by rw [hover]; rfl, hyear⟩

/-- The search goes on later, and skips no match. -/
theorem Jump.skips {d e : DateTime} (h : Jump c d e) :
    d.number < e.number ∧ ∀ x, d.number ≤ x.number → x.number < e.number → ¬Matches c x := by
  have hd := d.ofDay_lt
  cases h with
  | month hmonth hdate hofDay =>
    have hlt := d.date.ordinal_lt_nextMonth
    have he : e.number = d.date.nextMonth.ordinal * 1440 := by rw [DateTime.number, hdate, hofDay, Nat.add_zero]
    refine ⟨?_, fun x hx hxe hm => ?_⟩
    · rw [he, DateTime.number]
      omega
    · have hfirst := d.date.ordinal_first
      have hpos := d.date.day_pos
      have hxday := x.ofDay_lt
      rw [he] at hxe
      simp only [DateTime.number] at hx hxe
      have hsame := Date.month_of_ordinal (d := d.date) (e := x.date) (by omega) (by omega)
      exact hmonth (hsame.2 ▸ hm.month)
  | day hmonth hday hdate hofDay =>
    have he : e.number = (d.date.ordinal + 1) * 1440 := by
      rw [DateTime.number, hdate, hofDay, Date.ordinal_next, Nat.add_zero]
    refine ⟨?_, fun x hx hxe hm => ?_⟩
    · rw [he, DateTime.number]
      omega
    · have hsame : x.date = d.date := by
        rw [he] at hxe
        rw [DateTime.number] at hx
        exact DateTime.date_of_number (le_trans (Nat.le_add_right _ _) hx) hxe
      have hok := hm.day
      rw [hsame, hday] at hok
      cases hok
  | hour hmonth hday hhour he =>
    have hnumber : d.onTheHour.number = d.date.ordinal * 1440 + d.hour * 60 := rfl
    have hlast := d.minute_lt
    have hlastHour := d.hour_lt
    refine ⟨?_, fun x hx hxe hm => ?_⟩
    · rw [he, hnumber, DateTime.number, DateTime.ofDay]
      omega
    · have hxday := x.ofDay_lt
      have hxlast := x.minute_lt
      rw [he, hnumber] at hxe
      simp only [DateTime.number, DateTime.ofDay] at hx hxe hd hxday
      have hsame : x.hour = d.hour := by omega
      exact hhour (hsame ▸ hm.hour)
  | minute hmonth hday hminute he =>
    refine ⟨by omega, fun x hx hxe hm => ?_⟩
    have hsame : x = d := DateTime.number_injective (by omega)
    exact hminute (hsame ▸ hm.minute)

/-! ## The search -/

theorem Parsed.time (h : Parsed L expr c) : (∃ v ∈ c.hour, v < 24) ∧ ∃ v ∈ c.minute, v < 60 := by
  obtain ⟨minute, hour, -, -, -, -, hminute, hhour, -⟩ := h.fields
  obtain ⟨v, hv⟩ := exists_mem_field hhour
  obtain ⟨w, hw⟩ := exists_mem_field hminute
  have hv' := ((mem_field hhour v).mp hv).range
  have hw' := ((mem_field hminute w).mp hw).range
  exact ⟨⟨v, hv, by omega⟩, w, hw, by omega⟩

theorem Parsed.range (h : Parsed L expr c) : (∀ v ∈ c.month, 1 ≤ v ∧ v ≤ 12) ∧ ∀ v ∈ c.dom, 1 ≤ v ∧ v ≤ 31 := by
  obtain ⟨-, -, dom, month, -, -, -, -, hdom, hmonth, -⟩ := h.fields
  exact ⟨fun v hv => ((mem_field hmonth v).mp hv).range, fun v hv => ((mem_field hdom v).mp hv).range⟩

theorem Parsed.date (h : Parsed L expr c) : (∃ v, v ∈ c.month) ∧ (∃ v, v ∈ c.dom) ∧ ∃ v ∈ c.dow, v < 7 := by
  obtain ⟨-, -, dom, month, dow, -, -, -, hdom, hmonth, ⟨l, hdow, hl⟩, -⟩ := h.fields
  obtain ⟨u, hu⟩ := exists_mem_field hdow
  refine ⟨exists_mem_field hmonth, exists_mem_field hdom, u % 7, ?_, Nat.mod_lt _ (by decide)⟩
  rw [hl]
  exact List.mem_map_of_mem hu

/-- The least match from a minute on. -/
structure Least (c : Cron) (d m : DateTime) : Prop where
  isMatch : Matches c m
  le : d.number ≤ m.number
  least : ∀ y, d.number ≤ y.number → Matches c y → m.number ≤ y.number

/-- The rounds to a match: the minutes of its day, the days before it, and what is left of the day the search starts on. -/
def cost (d m : DateTime) : ℕ :=
  if d.date.ordinal = m.date.ordinal then m.ofDay - d.ofDay
  else m.date.ordinal - d.date.ordinal + m.ofDay + if d.ofDay = 0 then 0 else 1440 - d.ofDay

theorem Least.of_jump {d e m : DateTime} (hm : Least c d m) (h : Jump c d e) : Least c e m := by
  obtain ⟨hlater, hskips⟩ := h.skips
  refine ⟨hm.isMatch, ?_, fun y hy => hm.least y (by omega)⟩
  by_contra hpast
  exact hskips m hm.le (Nat.not_le.mp hpast) hm.isMatch

/-- A day that matches has a match from its start on. -/
theorem Least.same_day {d m : DateTime} (hparsed : Parsed L expr c) (hm : Least c d m) (hmonth : d.date.month ∈ c.month)
    (hday : c.dayOk d.date = true) (hstart : d.ofDay = 0) : m.date.ordinal = d.date.ordinal := by
  obtain ⟨⟨hour, hhour, hhour'⟩, minute, hminute, hminute'⟩ := hparsed.time
  let x : DateTime := ⟨d.date, hour, minute, hhour', hminute'⟩
  have hx := x.ofDay_lt
  have hm' := m.ofDay_lt
  have hnumber : x.number = d.date.ordinal * 1440 + x.ofDay := rfl
  have hle := hm.le
  have hleast := hm.least x (by rw [hnumber, DateTime.number]; omega) ⟨hmonth, hday, hhour, hminute⟩
  rw [hnumber] at hleast
  simp only [DateTime.number] at hle hleast
  omega

theorem cost_jump {d e m : DateTime} (hparsed : Parsed L expr c) (hm : Least c d m) (h : Jump c d e) : cost e m < cost d m := by
  have hlater := h.skips.1
  have hle := (hm.of_jump h).le
  have hd := d.ofDay_lt
  have he := e.ofDay_lt
  have hm' := m.ofDay_lt
  have htime : d.date.month ∈ c.month → c.dayOk d.date = true → (e.ofDay = 0 ∨ e.date.ordinal = d.date.ordinal) →
      e.date.ordinal ≤ d.date.ordinal + 1 → cost e m < cost d m := by
    intro hmonth hday hend hnext
    have hstart := hm.same_day hparsed hmonth hday
    simp only [DateTime.number] at hlater hle
    simp only [cost]
    split_ifs <;> omega
  cases h with
  | month hmonth hdate hofDay =>
    have hlt := d.date.ordinal_lt_nextMonth
    rw [← hdate] at hlt
    simp only [DateTime.number] at hlater hle
    simp only [cost]
    split_ifs <;> omega
  | day hmonth hday hdate hofDay =>
    have hlt := d.date.ordinal_next
    rw [← hdate] at hlt
    simp only [DateTime.number] at hlater hle
    simp only [cost]
    split_ifs <;> omega
  | hour hmonth hday hhour hnumber =>
    have hhour' := d.hour_lt
    have hminute' := d.minute_lt
    have hon : d.onTheHour.number = d.date.ordinal * 1440 + d.hour * 60 := rfl
    rw [hon, DateTime.number] at hnumber
    refine htime hmonth hday ?_ ?_ <;> omega
  | minute hmonth hday hminute hnumber =>
    simp only [DateTime.number] at hnumber
    refine htime hmonth hday ?_ ?_ <;> omega

theorem year_le {d e : Date} (h : d.ordinal ≤ e.ordinal) : d.year ≤ e.year := by
  by_contra hlt
  have he := e.ordinal_le_daysBeforeYear
  have hd := d.daysBeforeYear_lt_ordinal
  have hmono := Date.daysBeforeYear_mono (Nat.le_add_left 1 e.year) (Nat.not_le.mp hlt)
  omega

theorem year_le_of_number {d e : DateTime} (h : d.number ≤ e.number) : d.date.year ≤ e.date.year := by
  have hd := d.ofDay_lt
  have he := e.ofDay_lt
  simp only [DateTime.number] at h
  exact year_le (by omega)

/-- The search finds the next match, in the rounds that it costs. -/
theorem search_of_least {n : ℕ} {d m : DateTime} (hparsed : Parsed L expr c) (hm : Least c d m) (hyear : m.date.year ≤ 9999)
    (hcost : cost d m < n) : c.search L n d = .ok m := by
  induction n generalizing d with
  | zero => exact absurd hcost (Nat.not_lt_zero _)
  | succ n ih =>
    unfold search
    cases hjump : c.jump d with
    | none =>
      have hle := hm.least d (le_refl _) (matches_of_jump_none hjump)
      exact congrArg Except.ok (DateTime.number_injective (Nat.le_antisymm hm.le hle))
    | some r =>
      obtain ⟨e, hj, ⟨rfl, -⟩ | ⟨rfl, hend⟩⟩ := jump_cases hjump
      · have hless := cost_jump hparsed hm hj
        exact ih (hm.of_jump hj) (by omega)
      · have hle := year_le_of_number (hm.of_jump hj).le
        omega

/-! ## Whether there is a match -/

/-- Some month that the expression names is long enough for a day that it names, or the weekday field names days as well. -/
def Possible (c : Cron) : Prop := c.dowAny = false ∨ ∃ month ∈ c.month, ∃ day ∈ c.dom, day ≤ daysInMonth 2000 month

theorem possible_of_matches (h : Matches c d) : Possible c := by
  cases hdow : c.dowAny with
  | false => exact .inl hdow
  | true =>
    have hday := h.day
    simp only [dayOk, hdow, Bool.or_true, if_true, Bool.and_eq_true, List.contains_iff_mem] at hday
    exact .inr ⟨_, h.month, _, hday.1, le_trans d.date.day_le (daysInMonth_le_of_leap (by decide) _ _)⟩

theorem exists_weekday {w : ℕ} (hw : w < 7) (d : Date) (hd : d.day = 1) :
    ∃ e : Date, e.year = d.year ∧ e.month = d.month ∧ e.isoweekday % 7 = w := by
  have hge := daysInMonth_ge d.year d.month
  let k := (w + 7 - d.ordinal % 7) % 7
  have hk : k < 7 := Nat.mod_lt _ (by decide)
  refine ⟨{ d with day := k + 1, day_pos := Nat.le_add_left _ _, day_le := by omega }, rfl, rfl, ?_⟩
  rw [Date.isoweekday_mod]
  have hordinal : d.ordinal = Date.daysBeforeYear d.year + Date.daysBeforeMonth d.year d.month + 1 := by
    rw [Date.ordinal, hd]
  simp only [Date.ordinal]
  omega

/-- If a match is possible, there is one in the years that follow. -/
theorem exists_match (hparsed : Parsed L expr c) (h : Possible c) (y : ℕ) :
    ∃ x, Matches c x ∧ y < x.date.year ∧ x.date.year ≤ y + 8 := by
  obtain ⟨⟨hour, hhour, hhour'⟩, minute, hminute, hminute'⟩ := hparsed.time
  obtain ⟨⟨month, hmonth⟩, -, dow, hdow, hdow'⟩ := hparsed.date
  have hdate : ∃ d : Date, d.month ∈ c.month ∧ c.dayOk d = true ∧ y < d.year ∧ d.year ≤ y + 8 := by
    cases hany : c.dowAny with
    | false =>
      -- the weekday field restricts the days: a day with such a weekday will do
      have hge := daysInMonth_ge (y + 1) month
      obtain ⟨hpos, hle⟩ := hparsed.range.1 month hmonth
      obtain ⟨d, hyear, hmonth', hweekday⟩ := exists_weekday hdow'
        ⟨y + 1, month, 1, Nat.le_add_left _ _, hpos, hle, le_refl 1, by omega⟩ rfl
      dsimp only at hyear hmonth'
      refine ⟨d, hmonth' ▸ hmonth, ?_, by omega, by omega⟩
      have hin : d.isoweekday % 7 ∈ c.dow := hweekday ▸ hdow
      have hlast := daysInMonth_le d.year d.month
      cases hdomAny : c.domAny with
      | true =>
        have hall := hparsed.days.1 hdomAny d.day d.day_pos (le_trans d.day_le hlast)
        simp [dayOk, hdomAny, hin, hall]
      | false => simp [dayOk, hdomAny, hany, hin]
    | true =>
      obtain hno | ⟨month, hmonth, day, hday, hlong⟩ := h
      · rw [hany] at hno
        cases hno
      · obtain ⟨l, hleap, hyl, hly⟩ := exists_leap y
        obtain ⟨hpos, hle⟩ := hparsed.range.1 month hmonth
        let d : Date := ⟨l, month, day, by omega, hpos, hle, (hparsed.range.2 day hday).1,
          le_trans hlong (daysInMonth_le_of_leap hleap 2000 month)⟩
        have hdow : d.isoweekday % 7 ∈ c.dow := hparsed.days.2 hany _ (Nat.mod_lt _ (by decide))
        have hdom : d.day ∈ c.dom := hday
        exact ⟨d, hmonth, by simp [dayOk, hany, hdow, hdom], hyl, hly⟩
  obtain ⟨d, hmonth, hday, hyear⟩ := hdate
  exact ⟨⟨d, hour, minute, hhour', hminute'⟩, ⟨hmonth, hday, hhour, hminute⟩, hyear⟩

/-- The least match from a minute on, if a match is possible. -/
theorem exists_least (hparsed : Parsed L expr c) (h : Possible c) (d : DateTime) :
    ∃ m, Least c d m ∧ m.date.year ≤ d.date.year + 8 := by
  obtain ⟨x, hx, hafter, hyear⟩ := exists_match hparsed h d.date.year
  have hdx : d.number ≤ x.number := by
    by_contra hlt
    have hle := year_le_of_number (Nat.le_of_lt (Nat.not_le.mp hlt))
    omega
  let p : ℕ → Prop := fun n => ∃ m, m.number = n ∧ d.number ≤ m.number ∧ Matches c m
  have hp : ∃ n, p n := ⟨_, x, rfl, hdx, hx⟩
  classical
  obtain ⟨m, hnumber, hle, hm⟩ := Nat.find_spec hp
  have hleast : ∀ y, d.number ≤ y.number → Matches c y → m.number ≤ y.number := by
    intro y hy hmy
    rw [hnumber]
    exact Nat.find_min' hp ⟨y, rfl, hy, hmy⟩
  exact ⟨m, ⟨hm, hle, hleast⟩, le_trans (year_le_of_number (hleast x hdx hx)) hyear⟩

/-- From a minute to one eight years later or less there are not too many rounds. -/
theorem cost_lt {d m : DateTime} (hyear : m.date.year ≤ d.date.year + 8) : cost d m < 366 * 24 * 60 * 5 := by
  have hd := d.ofDay_lt
  have hm := m.ofDay_lt
  have hfirst := d.date.daysBeforeYear_lt_ordinal
  have hlast := m.date.ordinal_le_daysBeforeYear
  have hmono : Date.daysBeforeYear (m.date.year + 1) ≤ Date.daysBeforeYear (d.date.year + 9) :=
    Date.daysBeforeYear_mono (Nat.le_add_left 1 m.date.year) (by omega)
  have hnine : Date.daysBeforeYear (d.date.year + 9) ≤ Date.daysBeforeYear d.date.year + 3294 := by
    simp only [Date.daysBeforeYear]
    omega
  unfold cost
  split_ifs <;> omega

/-! ## The end of the calendar -/

/-- The rounds for a month, where no day of it matches: a month of 31 days is then not one that the expression names. -/
def rounds (month : ℕ) : ℕ := if daysInMonth 2000 month = 31 then 1 else 31

/-- The rounds for the months after this one in a year. -/
def monthsLeft (month : ℕ) : ℕ := ((List.range' (month + 1) (12 - month)).map rounds).sum

/-- The rounds from a date to the end of the year 9999. -/
def roundsLeft (d : Date) : ℕ :=
  (9999 - d.year) * 162 + monthsLeft d.month + if rounds d.month = 1 then 0 else 31 - d.day

theorem monthsLeft_le {month : ℕ} (hpos : 1 ≤ month) (hle : month ≤ 12) : monthsLeft month ≤ 161 := by
  interval_cases month <;> decide

theorem monthsLeft_succ {month : ℕ} (hpos : 1 ≤ month) (hlt : month < 12) :
    monthsLeft month = rounds (month + 1) + monthsLeft (month + 1) := by
  interval_cases month <;> rfl

theorem roundsLeft_nextMonth {d : Date} (h : d.nextMonth.year ≤ 9999) : roundsLeft d.nextMonth < roundsLeft d := by
  unfold Date.nextMonth at h ⊢
  split_ifs at h ⊢ with hmonth
  · have hsucc := monthsLeft_succ d.month_pos hmonth
    simp only [roundsLeft, rounds] at hsucc ⊢
    split_ifs at hsucc ⊢ <;> omega
  · have hyear : monthsLeft 1 = 161 := rfl
    have hrounds : rounds 1 = 1 := rfl
    simp only [roundsLeft, hyear, hrounds, if_true]
    dsimp only at h
    omega

theorem roundsLeft_next {d : Date} (hrounds : rounds d.month ≠ 1) (h : d.next.year ≤ 9999) : roundsLeft d.next < roundsLeft d := by
  unfold Date.next at h ⊢
  split_ifs at h ⊢ with hday
  · have hle := daysInMonth_le d.year d.month
    simp only [roundsLeft, if_neg hrounds]
    omega
  · exact roundsLeft_nextMonth h

/-- Where no match is possible, no day of a named month matches, and a named month has less than 31 days. -/
theorem not_dayOk (hparsed : Parsed L expr c) (h : ¬Possible c) {d : Date} (hmonth : d.month ∈ c.month) :
    c.dayOk d = false ∧ rounds d.month ≠ 1 := by
  obtain ⟨hdow, hnone⟩ := not_or.mp h
  have hany : c.dowAny = true := by simpa using hdow
  constructor
  · by_contra hok
    simp only [dayOk, hany, Bool.or_true, if_true, Bool.not_eq_false, Bool.and_eq_true, List.contains_iff_mem] at hok
    exact hnone ⟨_, hmonth, _, hok.1, le_trans d.day_le (daysInMonth_le_of_leap (by decide) _ _)⟩
  · obtain ⟨-, ⟨day, hday⟩, -⟩ := hparsed.date
    intro hrounds
    have hlong : daysInMonth 2000 d.month = 31 := by
      by_contra hshort
      simp [rounds, hshort] at hrounds
    exact hnone ⟨_, hmonth, day, hday, hlong ▸ (hparsed.range.2 day hday).2⟩

/-- Where no match is possible, the search ends with the calendar. -/
theorem search_of_not_possible {n : ℕ} (hparsed : Parsed L expr c) (h : ¬Possible c)
    (hrounds : roundsLeft d.date < n) : c.search L n d = .error (.overflow "date value out of range") := by
  induction n generalizing d with
  | zero => exact absurd hrounds (Nat.not_lt_zero _)
  | succ n ih =>
    unfold search
    cases hjump : c.jump d with
    | none => exact absurd (possible_of_matches (matches_of_jump_none hjump)) h
    | some r =>
      obtain ⟨e, hj, ⟨rfl, hyear⟩ | ⟨rfl, hend⟩⟩ := jump_cases hjump
      · have hless : roundsLeft e.date < roundsLeft d.date := by
          cases hj with
          | month hmonth hdate _ =>
            rw [hdate] at hyear ⊢
            exact roundsLeft_nextMonth hyear
          | day hmonth _ hdate _ =>
            rw [hdate] at hyear ⊢
            exact roundsLeft_next (not_dayOk hparsed h hmonth).2 hyear
          | hour hmonth hday _ _ => exact absurd hday (by simp [(not_dayOk hparsed h hmonth).1])
          | minute hmonth hday _ _ => exact absurd hday (by simp [(not_dayOk hparsed h hmonth).1])
        exact ih (by omega)
      · rfl

theorem roundsLeft_lt (d : Date) : roundsLeft d < 366 * 24 * 60 * 5 := by
  have hmonths := monthsLeft_le d.month_pos d.month_le
  unfold roundsLeft
  split_ifs <;> omega

/-! ## The next match -/

/-- The result is the least minute after the timestamp that matches, or a `ValueError` where there is none. -/
def IsNext (L : CronLib) (expr : String) (ts : ℚ) : Except CronError ℚ → Prop
  | .ok s => ∃ d, s = timestamp d ∧ ts < timestamp d ∧ MatchesExpr L expr d ∧
      ∀ y, ts < timestamp y → MatchesExpr L expr y → timestamp d ≤ timestamp y
  | .error (.value _) => ¬∃ d, ts < timestamp d ∧ MatchesExpr L expr d
  | .error (.overflow _) => False

/-- The timestamp is rounded up to a minute that matches. -/
def RoundedUp (L : CronLib) (expr : String) (ts : ℚ) : Prop :=
  ∃ d, MatchesExpr L expr d ∧ timestamp d - 1 / 2000000 ≤ ts ∧ ts < timestamp d

theorem timestamp_le_iff {d e : DateTime} : timestamp d ≤ timestamp e ↔ d.number ≤ e.number := by
  simp only [timestamp]
  constructor
  · intro h
    have h' : ((d.number : ℤ) - epoch.number : ℤ) ≤ ((e.number : ℤ) - epoch.number : ℤ) := by
      exact_mod_cast (by linarith : (((d.number : ℤ) - epoch.number : ℤ) : ℚ) ≤ ((e.number : ℤ) - epoch.number : ℤ))
    omega
  · intro h
    have h' : (((d.number : ℤ) - epoch.number : ℤ) : ℚ) ≤ (((e.number : ℤ) - epoch.number : ℤ) : ℚ) := by
      exact_mod_cast (by omega : ((d.number : ℤ) - epoch.number : ℤ) ≤ ((e.number : ℤ) - epoch.number : ℤ))
    linarith

theorem halfEven_bounds (q : ℚ) : q - 1 / 2 ≤ halfEven q ∧ (halfEven q : ℚ) ≤ q + 1 / 2 := by
  have hle := Int.floor_le q
  have hlt := Int.lt_floor_add_one q
  unfold halfEven
  split_ifs with h
  · obtain h | h := h
    · constructor <;> linarith
    · constructor <;> linarith [h.1]
  · push_cast
    have hge : 1 / 2 ≤ q - ⌊q⌋ := not_lt.mp fun hl => h (.inl hl)
    constructor <;> linarith

/-- An even number is what is rounded to from half below it. -/
theorem halfEven_even {q : ℚ} {n : ℤ} (hn : n % 2 = 0) (hge : n - 1 / 2 ≤ q) (hlt : q < n) : halfEven q = n := by
  have hfloor : ⌊q⌋ = n - 1 := by
    rw [Int.floor_eq_iff]
    push_cast
    constructor <;> linarith
  have hcast : ((⌊q⌋ : ℤ) : ℚ) = n - 1 := by rw [hfloor]; push_cast; ring
  unfold halfEven
  rw [if_neg]
  · omega
  · rintro (h | ⟨-, hodd⟩)
    · linarith
    · omega

/-- The minute the search starts on. -/
def start (ts : ℚ) : DateTime := (minuteOf ts).plus 1

theorem number_start (hts : 0 ≤ ts) :
    ((start ts).number : ℤ) = epoch.number + halfEven (ts * 1000000) / 60000000 + 1 := by
  have hpos : 0 ≤ halfEven (ts * 1000000) / 60000000 := by
    have hbound := (halfEven_bounds (ts * 1000000)).1
    have hgt : (-1 : ℚ) < halfEven (ts * 1000000) := by linarith
    have hge : -1 < halfEven (ts * 1000000) := by exact_mod_cast hgt
    omega
  rw [start, minuteOf, DateTime.number_plus, DateTime.number_plus]
  push_cast
  omega

theorem lt_timestamp_of_start (hts : 0 ≤ ts) (h : (start ts).number ≤ d.number) : ts < timestamp d := by
  have hstart := number_start hts
  have hbound := (halfEven_bounds (ts * 1000000)).1
  have hlt : halfEven (ts * 1000000) ≤ 60000000 * ((d.number : ℤ) - epoch.number) - 1 := by omega
  have hcast : (halfEven (ts * 1000000) : ℚ) ≤ 60000000 * ((d.number : ℤ) - epoch.number : ℤ) - 1 := by exact_mod_cast hlt
  simp only [timestamp]
  linarith

/-- A minute after the timestamp is from the start of the search on, unless the timestamp is rounded up to it. -/
theorem start_le_iff (hts : 0 ≤ ts) (h : ts < timestamp d) :
    (start ts).number ≤ d.number ↔ ¬timestamp d - 1 / 2000000 ≤ ts := by
  have hstart := number_start hts
  have hd : timestamp d = 60 * ((d.number : ℤ) - epoch.number : ℤ) := rfl
  rw [hd] at h ⊢
  generalize hn : (d.number : ℤ) - epoch.number = n at h ⊢
  constructor
  · intro hle hnear
    have hround := halfEven_even (q := ts * 1000000) (n := 60000000 * n) (by omega) (by push_cast; linarith) (by push_cast; linarith)
    omega
  · intro hfar
    have hbound := (halfEven_bounds (ts * 1000000)).2
    have hlt : (halfEven (ts * 1000000) : ℚ) < 60000000 * n := by
      have hfar' := not_le.mp hfar
      linarith
    have hlt' : halfEven (ts * 1000000) < 60000000 * n := by exact_mod_cast hlt
    omega

/-- A search that starts in the years 1970 to 2999 starts long before the end of the calendar. -/
theorem year_start (hts : 0 ≤ ts) (hend : ts < 32503680000) : (start ts).date.year ≤ 3001 := by
  have hstart := number_start hts
  have hbound := (halfEven_bounds (ts * 1000000)).2
  have hlt : (halfEven (ts * 1000000) : ℚ) < 32503680000000001 := by linarith
  have hlt' : halfEven (ts * 1000000) < 32503680000000001 := by exact_mod_cast hlt
  have hepoch : epoch.number = 719163 * 1440 := by decide
  rw [DateTime.number] at hstart
  have hbefore := (start ts).date.daysBeforeYear_lt_ordinal
  by_contra hlate
  have hmono : Date.daysBeforeYear 3002 ≤ Date.daysBeforeYear (start ts).date.year :=
    Date.daysBeforeYear_mono (by decide) (Nat.not_le.mp hlate)
  have hyears : Date.daysBeforeYear 3002 = 1096092 := by decide
  omega

theorem add_start (hts : 0 ≤ ts) (hend : ts < 32503680000) : add (minuteOf ts) 1 = .ok (start ts) :=
  if_pos (le_trans (year_start hts hend) (by decide))

theorem nextAfter_of_not_possible (hparsed : Parsed L expr c) (h : ¬Possible c) (hts : 0 ≤ ts)
    (hend : ts < 32503680000) : c.nextAfter L ts = .error (.overflow "date value out of range") := by
  rw [nextAfter, add_start hts hend]
  simp only [bind, Except.bind, search_of_not_possible hparsed h (roundsLeft_lt (start ts).date)]

theorem nextAfter_of_possible (hparsed : Parsed L expr c) (h : Possible c) (hts : 0 ≤ ts) (hend : ts < 32503680000) :
    ∃ m, Least c (start ts) m ∧ c.nextAfter L ts = .ok (timestamp m) := by
  have hstart := year_start hts hend
  obtain ⟨m, hm, hyear⟩ := exists_least hparsed h (start ts)
  refine ⟨m, hm, ?_⟩
  rw [nextAfter, add_start hts hend]
  simp only [bind, Except.bind, search_of_least hparsed hm (by omega) (cost_lt hyear), pure, Except.pure]

/-- **`next_after` returns the least match** for every expression that can match, unless the timestamp
is less than a microsecond before a match and rounded up to it; an expression that cannot match
does not end in the declared error. -/
theorem nextAfter_least {ts : ℚ} (h : init L expr = .ok c) (hts : 0 ≤ ts) (hend : ts < 32503680000) :
    IsNext L expr ts (c.nextAfter L ts) ↔ Possible c ∧ ¬RoundedUp L expr ts := by
  have hparsed := parsed_of_init h
  by_cases hpossible : Possible c
  · obtain ⟨m, hm, hnext⟩ := nextAfter_of_possible hparsed hpossible hts hend
    rw [hnext]
    constructor
    · rintro ⟨d, hd, -, -, hleast⟩
      refine ⟨hpossible, fun ⟨x, hx, hnear, hafter⟩ => ?_⟩
      have hle := hleast x hafter hx
      rw [← hd, timestamp_le_iff] at hle
      exact (start_le_iff hts hafter).mp (le_trans hm.le hle) hnear
    · rintro ⟨-, hexact⟩
      refine ⟨m, rfl, lt_timestamp_of_start hts hm.le, (matches_iff hparsed m).mp hm.isMatch, fun y hafter hy => ?_⟩
      have hstart := (start_le_iff hts hafter).mpr fun hnear => hexact ⟨y, hy, hnear, hafter⟩
      exact timestamp_le_iff.mpr (hm.least y hstart ((matches_iff hparsed y).mpr hy))
  · rw [nextAfter_of_not_possible hparsed hpossible hts hend]
    exact ⟨False.elim, fun h => hpossible h.1⟩

def plainLib : CronLib where
  int text :=
    if text ≠ "" ∧ text.toList.all Char.isDigit then some (text.toList.foldl (fun n d => 10 * n + (d.toNat - 48 : ℕ)) 0) else none
  repr text := "'" ++ text ++ "'"

def february30 : Cron where
  minute := [0]
  hour := [0]
  dom := [30]
  month := [2]
  dow := [0, 1, 2, 3, 4, 5, 6, 0]
  domAny := false
  dowAny := true
  expr := "0 0 30 2 *"

theorem nextAfter_least_february30 :
    IsNext plainLib "0 0 30 2 *" 0 (february30.nextAfter plainLib 0) ↔ Possible february30 ∧ ¬RoundedUp plainLib "0 0 30 2 *" 0 :=
  nextAfter_least (by decide +kernel) (by decide +kernel) (by decide +kernel)

/-- The search for a 30 February does not end in a `ValueError`. -/
theorem february30_overflows : init plainLib "0 0 30 2 *" = .ok february30 ∧
    ¬IsNext plainLib "0 0 30 2 *" 0 (february30.nextAfter plainLib 0) := by
  have hinit : init plainLib "0 0 30 2 *" = .ok february30 := by decide +kernel
  have himpossible : ¬Possible february30 := by simp [Possible, february30, daysInMonth, isLeap]
  refine ⟨hinit, ?_⟩
  rw [nextAfter_of_not_possible (parsed_of_init hinit) himpossible (le_refl 0) (by norm_num)]
  exact id

end Caips.Harness.Cron
