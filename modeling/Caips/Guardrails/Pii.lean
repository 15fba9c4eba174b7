/-
Caips.Guardrails.Pii — what is taken out of a text, after `guardrails/pii.py`.

`detect` is a greedy choice (`Caips.Logic.Greedy`) over the matches of the
enabled rules, rule by rule in the order of the table: a match that overlaps an
earlier finding is dropped. `redactTrace` is `redact` with the place each
character comes from, so that what the output keeps of the text is a list of
places (`kept_redactTrace`).

The matches are the regular-expression engine's, and so is the value of a digit.
-/
import Caips.Logic.Greedy
import Mathlib.Data.List.Sort
import Mathlib.Tactic.IntervalCases

namespace Caips.Guardrails

open Caips.Logic

namespace Pii

/-! ## The code -/

/-- The kinds of `_RULES`, in the order of the table. -/
inductive Kind where
  | privateKey
  | apiKey
  | awsKey
  | githubToken
  | bearer
  | jwt
  | email
  | ssn
  | creditCard
  | phone
  | ipv4
  deriving DecidableEq, Repr

def Kind.name : Kind → String
  | .privateKey => "private_key"
  | .apiKey => "api_key"
  | .awsKey => "aws_key"
  | .githubToken => "github_token"
  | .bearer => "bearer"
  | .jwt => "jwt"
  | .email => "email"
  | .ssn => "ssn"
  | .creditCard => "credit_card"
  | .phone => "phone"
  | .ipv4 => "ipv4"

def rules : List Kind :=
  [.privateKey, .apiKey, .awsKey, .githubToken, .bearer, .jwt, .email, .ssn, .creditCard, .phone, .ipv4]

/-- `DEFAULT_KINDS`. -/
def defaultKinds (k : Kind) : Bool := k ≠ .ipv4

/-- Where a match starts, and where it ends. -/
structure Span where
  start : ℕ
  stop : ℕ
  deriving DecidableEq, Repr

structure Finding extends Span where
  kind : Kind
  deriving DecidableEq, Repr

/-- `finditer` of the rules' patterns, and the digits of `\d`. -/
structure Matcher where
  finditer : Kind → List Char → List Span
  digit : Char → Option ℕ

/-- `_luhn`: the sum, over the digits from the right. -/
def luhnSum : Bool → List ℕ → ℕ
  | _, [] => 0
  | alt, d :: digits => (if alt then if 4 < d then d * 2 - 9 else d * 2 else d) + luhnSum (!alt) digits

def luhn (digits : List ℕ) : Bool := luhnSum false digits.reverse % 10 = 0

variable (M : Matcher)

/-- The characters of a match. -/
def Span.group (m : Span) (text : List Char) : List Char := (text.take m.stop).drop m.start

/-- `_card`. -/
def card (group : List Char) : Bool :=
  let d := group.filterMap M.digit
  13 ≤ d.length && d.length ≤ 19 && luhn d

/-- The check of a rule. -/
def check (k : Kind) (group : List Char) : Bool := if k = .creditCard then card M group else true

/-- The validated matches of a rule. -/
def validated (text : List Char) (k : Kind) : List Span :=
  (M.finditer k text).filter fun m => check M k (m.group text)

/-- `m.start() < f.end and f.start < m.end()`. -/
def overlaps (f m : Finding) : Bool := m.start < f.stop && f.start < m.stop

/-- What the two loops look at. -/
def candidates (text : List Char) (enabled : Kind → Bool) : List Finding :=
  (rules.filter enabled).flatMap fun k => (validated M text k).map fun m => { m with kind := k }

/-- `detect`. -/
def detect (text : List Char) (enabled : Kind → Bool) : List Finding :=
  (Greedy.select overlaps (candidates M text enabled)).insertionSort fun f g => f.start ≤ g.start

/-- What stands for a finding. -/
def label (k : Kind) : List Char := ("[REDACTED:" ++ k.name ++ "]").toList

/-- The loop of `redact`, from that place on. -/
def redactFrom (text : List Char) (pos : ℕ) : List Finding → List Char
  | [] => text.drop pos
  | f :: found => (text.take f.start).drop pos ++ label f.kind ++ redactFrom text f.stop found

/-- `redact`. -/
def redact (text : List Char) (enabled : Kind → Bool) : List Char :=
  if text = [] then text else redactFrom text 0 (detect M text enabled)

/-! ## What is kept -/

/-- The characters between two places, with their places. -/
def placed (text : List Char) (pos stop : ℕ) : List (Char × Option ℕ) :=
  ((text.zipIdx.take stop).drop pos).map fun c => (c.1, some c.2)

/-- The output of the loop, with the place in the text that each character comes from. -/
def redactTrace (text : List Char) (pos : ℕ) : List Finding → List (Char × Option ℕ)
  | [] => placed text pos text.length
  | f :: found => placed text pos f.start ++ (label f.kind).map (·, none) ++ redactTrace text f.stop found

/-- The places of the text that are kept. -/
def keptPlaces (text : List Char) (found : List Finding) : List ℕ := (redactTrace text 0 found).filterMap Prod.snd

/-- The finding takes that place out. -/
def Finding.covers (f : Finding) (i : ℕ) : Bool := f.start ≤ i && i < f.stop

theorem placed_fst (text : List Char) (pos stop : ℕ) :
    (placed text pos stop).map Prod.fst = (text.take stop).drop pos := by
  simp [placed, List.map_drop, List.map_take, Function.comp_def]

theorem redactTrace_fst (text : List Char) (found : List Finding) (pos : ℕ) :
    (redactTrace text pos found).map Prod.fst = redactFrom text pos found := by
  induction found generalizing pos with
  | nil => simp [redactTrace, redactFrom, placed_fst]
  | cons f found ih => simp [redactTrace, redactFrom, placed_fst, ih, Function.comp_def]

variable {text : List Char} {found : List Finding}

variable {pos : ℕ}

/-- A character that comes from a place is the one there. -/
theorem getElem_of_mem_redactTrace {c : Char} {i : ℕ}
    (h : (c, some i) ∈ redactTrace text pos found) : text[i]? = some c := by
  have hplaced : ∀ {pos stop}, (c, some i) ∈ placed text pos stop → text[i]? = some c := by
    intro pos stop hmem
    obtain ⟨d, hd, heq⟩ := List.mem_map.mp hmem
    obtain ⟨rfl, rfl⟩ : d.1 = c ∧ d.2 = i := by simpa using heq
    exact List.mem_zipIdx_iff_getElem?.mp (List.mem_of_mem_take (List.mem_of_mem_drop hd))
  induction found generalizing pos with
  | nil => exact hplaced h
  | cons f found ih =>
    rcases List.mem_append.mp h with h | h
    · rcases List.mem_append.mp h with h | h
      · exact hplaced h
      · simp at h
    · exact ih h

theorem placed_snd {pos stop : ℕ} (hstop : stop ≤ text.length) :
    (placed text pos stop).filterMap Prod.snd = List.range' pos (stop - pos) := by
  have hsnd : (placed text pos stop).filterMap Prod.snd = ((text.zipIdx.take stop).drop pos).map Prod.snd := by
    rw [placed, List.filterMap_map]
    exact congrFun (@List.filterMap_eq_map _ _ Prod.snd) _
  rw [hsnd, List.map_drop, List.map_take, List.zipIdx_map_snd, List.take_range'_of_length_ge hstop,
    List.drop_range', Nat.mul_one, Nat.zero_add]

/-- Findings that lie in the text from that place on, each behind the one before it. -/
def Chained (text : List Char) : ℕ → List Finding → Prop
  | pos, [] => pos ≤ text.length
  | pos, f :: found => pos ≤ f.start ∧ f.start ≤ f.stop ∧ Chained text f.stop found

theorem Chained.le_length (h : Chained text pos found) :
    pos ≤ text.length := by
  induction found generalizing pos with
  | nil => exact h
  | cons f found ih => exact h.1.trans (h.2.1.trans (ih h.2.2))

theorem Chained.le_start (h : Chained text pos found) :
    ∀ f ∈ found, pos ≤ f.start := by
  induction found generalizing pos with
  | nil => simp
  | cons g found ih =>
    intro f hf
    rcases List.mem_cons.mp hf with rfl | hf
    · exact h.1
    · exact h.1.trans (h.2.1.trans (ih h.2.2 f hf))

theorem range'_split {a b c : ℕ} (hab : a ≤ b) (hbc : b ≤ c) :
    List.range' a (c - a) = List.range' a (b - a) ++ List.range' b (c - b) := by
  obtain ⟨m, rfl⟩ := Nat.exists_eq_add_of_le hab
  obtain ⟨n, rfl⟩ := Nat.exists_eq_add_of_le hbc
  have hlength : a + m + n - a = m + n := by omega
  rw [hlength, Nat.add_sub_cancel_left, Nat.add_sub_cancel_left, List.range'_append_1]

/-- **The places that are kept are those in no finding, in order.** -/
theorem kept_redactTrace (h : Chained text pos found) :
    (redactTrace text pos found).filterMap Prod.snd =
      (List.range' pos (text.length - pos)).filter fun i => !found.any (·.covers i) := by
  induction found generalizing pos with
  | nil =>
    rw [redactTrace, placed_snd le_rfl, List.filter_eq_self.mpr (by simp)]
  | cons f found ih =>
    obtain ⟨hpos, hspan, hrest⟩ := h
    have hstop := hrest.le_length
    have hlabel : ((label f.kind).map (·, (none : Option ℕ))).filterMap Prod.snd = [] := by simp
    have hsplit : List.range' pos (text.length - pos) = List.range' pos (f.start - pos) ++
        (List.range' f.start (f.stop - f.start) ++ List.range' f.stop (text.length - f.stop)) := by
      rw [range'_split (hpos.trans hspan) hstop, range'_split hpos hspan, List.append_assoc]
    have hbefore : (List.range' pos (f.start - pos)).filter (fun i => !(f :: found).any (·.covers i)) =
        List.range' pos (f.start - pos) := by
      rw [List.filter_eq_self]
      intro i hi
      have hlt : i < f.start := by
        have := List.mem_range'_1.mp hi
        omega
      have hnone : (f :: found).any (·.covers i) = false := by
        rw [List.any_eq_false]
        intro g hg
        have hstart : f.start ≤ g.start := by
          rcases List.mem_cons.mp hg with rfl | hg
          · exact le_rfl
          · exact hspan.trans (hrest.le_start g hg)
        simp only [Finding.covers, Bool.and_eq_true, decide_eq_true_eq]
        omega
      rw [hnone]
      rfl
    have hinside : (List.range' f.start (f.stop - f.start)).filter (fun i => !(f :: found).any (·.covers i)) = [] := by
      rw [List.filter_eq_nil_iff]
      intro i hi
      have hcovers : f.covers i = true := by
        have := List.mem_range'_1.mp hi
        simp only [Finding.covers, Bool.and_eq_true, decide_eq_true_eq]
        omega
      simp [hcovers]
    have hbehind : (List.range' f.stop (text.length - f.stop)).filter (fun i => !(f :: found).any (·.covers i)) =
        (List.range' f.stop (text.length - f.stop)).filter fun i => !found.any (·.covers i) := by
      apply List.filter_congr
      intro i hi
      have hcovers : f.covers i = false := by
        have := List.mem_range'_1.mp hi
        simp only [Finding.covers, Bool.and_eq_false_iff, decide_eq_false_iff_not]
        omega
      simp [hcovers]
    rw [redactTrace, List.filterMap_append, List.filterMap_append, hlabel, List.append_nil,
      placed_snd (hspan.trans hstop), ih hrest, hsplit, List.filter_append, List.filter_append, hbefore, hinside,
      hbehind, List.nil_append]

/-! ## What is found -/

/-- What an engine finds: matches that lie in the text, are not empty, and come one behind the other. -/
structure Matcher.Finds (M : Matcher) (text : List Char) : Prop where
  inside : ∀ k, ∀ m ∈ M.finditer k text, m.start < m.stop ∧ m.stop ≤ text.length
  ordered : ∀ k, (M.finditer k text).Pairwise fun m n => m.stop ≤ n.start

/-- The place of a kind in the table. -/
def Kind.rank (k : Kind) : ℕ := rules.idxOf k

section

variable {M : Matcher} {text : List Char} {enabled : Kind → Bool}

variable {f : Finding}

theorem mem_candidates :
    f ∈ candidates M text enabled ↔ enabled f.kind = true ∧ f.toSpan ∈ validated M text f.kind := by
  have hrules : ∀ k : Kind, k ∈ rules := by
    intro k
    cases k <;> decide
  unfold candidates
  simp only [List.mem_flatMap, List.mem_filter, List.mem_map]
  constructor
  · intro h
    obtain ⟨k, ⟨-, hk⟩, m, hm, rfl⟩ := h
    exact ⟨hk, hm⟩
  · intro h
    exact ⟨f.kind, ⟨hrules _, h.1⟩, f.toSpan, h.2, rfl⟩

/-- A candidate comes before those of later rules, and before later matches of its own. -/
theorem pairwise_candidates (hM : M.Finds text) : (candidates M text enabled).Pairwise fun f g =>
    f.kind.rank < g.kind.rank ∨ f.kind = g.kind ∧ f.stop ≤ g.start := by
  have hrules : (rules.filter enabled).Pairwise fun k l => k.rank < l.rank :=
    List.Pairwise.filter _ (by decide)
  unfold candidates
  rw [List.pairwise_flatMap]
  constructor
  · intro k hk
    rw [List.pairwise_map]
    exact ((hM.ordered k).filter _).imp fun h => .inr ⟨rfl, h⟩
  · refine hrules.imp ?_
    intro k l hlt f hf g hg
    obtain ⟨m, -, rfl⟩ := List.mem_map.mp hf
    obtain ⟨n, -, rfl⟩ := List.mem_map.mp hg
    exact .inl hlt

theorem mem_detect :
    f ∈ detect M text enabled ↔ f ∈ Greedy.select overlaps (candidates M text enabled) := by
  unfold detect
  exact List.mem_insertionSort _

theorem detect_sound (h : f ∈ detect M text enabled) :
    enabled f.kind = true ∧ f.toSpan ∈ validated M text f.kind :=
  mem_candidates.mp ((Greedy.select_sublist overlaps _).subset (mem_detect.mp h))

theorem inside_of_mem_detect (hM : M.Finds text) (h : f ∈ detect M text enabled) :
    f.start < f.stop ∧ f.stop ≤ text.length :=
  hM.inside f.kind f.toSpan (List.mem_filter.mp (detect_sound h).2).1

/-- **A validated match of an enabled rule is found, or overlaps a finding of an earlier rule.** -/
theorem mem_detect_or_overlaps (hM : M.Finds text) (henabled : enabled f.kind = true)
    (hmatch : f.toSpan ∈ validated M text f.kind) :
    f ∈ detect M text enabled ∨ ∃ g ∈ detect M text enabled, g.kind.rank < f.kind.rank ∧ overlaps g f = true := by
  obtain ⟨before, after, hsplit⟩ := List.append_of_mem (mem_candidates.mpr ⟨henabled, hmatch⟩)
  rcases Greedy.mem_select_or_clash overlaps before after f with hfound | ⟨g, hg, hclash⟩
  · exact .inl (mem_detect.mpr (hsplit ▸ hfound))
  · refine .inr ⟨g, ?_, ?_, hclash⟩
    · rw [mem_detect, hsplit]
      exact (Greedy.prefix_select overlaps before _).subset hg
    · have hpairs := @pairwise_candidates _ _ enabled hM
      rw [hsplit, List.pairwise_append] at hpairs
      have hmem := (Greedy.select_sublist overlaps before).subset hg
      rcases hpairs.2.2 g hmem f List.mem_cons_self with hlt | ⟨-, hapart⟩
      · exact hlt
      · -- two matches of one rule do not overlap
        simp only [overlaps, Bool.and_eq_true, decide_eq_true_eq] at hclash
        omega

theorem overlaps_comm (f g : Finding) : overlaps f g = overlaps g f := Bool.and_comm _ _

/-- The findings come one behind the other. -/
theorem detect_ordered (hM : M.Finds text) :
    (detect M text enabled).Pairwise fun f g => f.stop ≤ g.start := by
  have hsorted : (detect M text enabled).Pairwise fun f g => f.start ≤ g.start := by
    have : Std.Total fun f g : Finding => f.start ≤ g.start := ⟨fun f g => le_total f.start g.start⟩
    have : IsTrans Finding fun f g => f.start ≤ g.start := ⟨fun _ _ _ => le_trans⟩
    exact List.pairwise_insertionSort _ _
  have hapart : (detect M text enabled).Pairwise fun f g => overlaps f g = false := by
    refine (Greedy.select_pairwise overlaps (candidates M text enabled)).perm
      (List.perm_insertionSort _ _).symm ?_
    intro f g h
    rw [overlaps_comm, h]
  refine (hsorted.and hapart).imp_of_mem ?_
  intro f g hf hg h
  obtain ⟨hle, hfree⟩ := h
  have hspan := (inside_of_mem_detect hM hf).1
  have hspan' := (inside_of_mem_detect hM hg).1
  simp only [overlaps, Bool.and_eq_false_iff, decide_eq_false_iff_not] at hfree
  omega

theorem chained_of_pairwise {found : List Finding} {pos : ℕ} (hpos : pos ≤ text.length)
    (hstart : ∀ f ∈ found, pos ≤ f.start) (hinside : ∀ f ∈ found, f.start < f.stop ∧ f.stop ≤ text.length)
    (hordered : found.Pairwise fun f g => f.stop ≤ g.start) : Chained text pos found := by
  induction found generalizing pos with
  | nil => exact hpos
  | cons f found ih =>
    obtain ⟨hfirst, hrest⟩ := List.pairwise_cons.mp hordered
    obtain ⟨hspan, hstop⟩ := hinside f List.mem_cons_self
    exact ⟨hstart f List.mem_cons_self, hspan.le, ih hstop hfirst
      (fun g hg => hinside g (List.mem_cons_of_mem _ hg)) hrest⟩

theorem keptPlaces_detect (hM : M.Finds text) : keptPlaces text (detect M text enabled) =
    (List.range text.length).filter fun i => !(detect M text enabled).any (·.covers i) := by
  have hchained : Chained text 0 (detect M text enabled) :=
    chained_of_pairwise (Nat.zero_le _) (fun _ _ => Nat.zero_le _) (fun _ hf => inside_of_mem_detect hM hf)
      (detect_ordered hM)
  rw [keptPlaces, kept_redactTrace hchained, Nat.sub_zero, List.range_eq_range']

end

/-- The trace of the findings is the output of `redact`; an empty text has no findings. -/
theorem redactTrace_detect {M : Matcher} (hM : M.Finds text) (enabled : Kind → Bool) :
    (redactTrace text 0 (detect M text enabled)).map Prod.fst = redact M text enabled := by
  rw [redactTrace_fst]
  unfold redact
  split
  · next hempty =>
      subst hempty
      have hnone : detect M [] enabled = [] := by
        rw [List.eq_nil_iff_forall_not_mem]
        intro f hf
        have hinside := inside_of_mem_detect hM hf
        simp only [List.length_nil] at hinside
        omega
      rw [hnone]
      rfl
  · rfl

/-- **What is redacted.** A place in a validated match of an enabled rule is kept only where the match
overlaps a finding of an earlier rule; what lies in a finding is taken out, and all else is kept in order;
and the findings come one behind the other. -/
theorem redact_spec (M : Matcher) (text : List Char) (hM : M.Finds text) (enabled : Kind → Bool) :
    (redactTrace text 0 (detect M text enabled)).map Prod.fst = redact M text enabled ∧
    (∀ c i, (c, some i) ∈ redactTrace text 0 (detect M text enabled) → text[i]? = some c) ∧
    keptPlaces text (detect M text enabled) =
      (List.range text.length).filter (fun i => !(detect M text enabled).any (·.covers i)) ∧
    (∀ f : Finding, enabled f.kind = true → f.toSpan ∈ validated M text f.kind →
      ∀ i, f.covers i = true → i ∈ keptPlaces text (detect M text enabled) →
        ∃ g ∈ detect M text enabled, g.kind.rank < f.kind.rank ∧ overlaps g f = true ∧ g.covers i = false) ∧
    (∀ f ∈ detect M text enabled, enabled f.kind = true ∧ f.toSpan ∈ validated M text f.kind) ∧
    (detect M text enabled).Pairwise fun f g => f.stop ≤ g.start := by
  refine ⟨redactTrace_detect hM enabled, fun c i => getElem_of_mem_redactTrace, keptPlaces_detect hM, ?_,
    fun f => detect_sound, detect_ordered hM⟩
  intro f henabled hmatch i hcovers hkept
  rw [keptPlaces_detect hM, List.mem_filter, Bool.not_eq_true', List.any_eq_false] at hkept
  rcases mem_detect_or_overlaps hM henabled hmatch with hfound | ⟨g, hg, hlt, hoverlaps⟩
  · exact absurd hcovers (hkept.2 f hfound)
  · exact ⟨g, hg, hlt, hoverlaps, Bool.eq_false_of_not_eq_true (hkept.2 g hg)⟩

/-- The matches in a text with a key in front of an address. -/
def keyAddress : Matcher where
  finditer k _ := match k with
    | .apiKey => [⟨0, 23⟩]
    | .email => [⟨0, 35⟩]
    | _ => []
  digit c := if c.isDigit then some (c.toNat - 48) else none

theorem keyAddress_finds : keyAddress.Finds "sk-abcdefghijklmnop1234@example.com".toList where
  inside k := by cases k <;> decide
  ordered k := by cases k <;> decide

theorem redact_spec_key : (detect keyAddress "sk-abcdefghijklmnop1234@example.com".toList defaultKinds).Pairwise
    fun f g => f.stop ≤ g.start :=
  (redact_spec keyAddress _ keyAddress_finds defaultKinds).2.2.2.2.2

/-- The end of the address is in a match of an enabled rule, and is kept. -/
theorem redact_keeps_address :
    let text := "sk-abcdefghijklmnop1234@example.com".toList
    defaultKinds .email = true ∧ ⟨0, 35⟩ ∈ validated keyAddress text .email ∧
      (∀ i, 23 ≤ i → i < 35 → Finding.covers ⟨⟨0, 35⟩, .email⟩ i = true ∧
        i ∈ keptPlaces text (detect keyAddress text defaultKinds)) ∧
      String.ofList (redact keyAddress text defaultKinds) = "[REDACTED:api_key]@example.com" := by
  refine ⟨by decide, by decide, ?_, by decide⟩
  intro i hfrom hto
  interval_cases i <;> decide

end Pii

end Caips.Guardrails
