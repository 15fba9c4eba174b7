/-
Caips.Database.StatementsTheorems — when `split_statements` respects the
lexical structure of a script.
-/
import Caips.Database.Statements

namespace Caips.Database

open Caips.Logic
open Caips.Coreai.Keystore (isSpace)

/-! ## Steps of the readers -/

variable {blocks : Bool} {m : Place} {c : Char} {ahead : Option Char}

theorem next_drop_iff : (next blocks m c ahead).1 = .drop ↔
    m = .comment ∧ c ≠ '\n' ∨ m = .plain ∧ c = '-' ∧ ahead = some '-' := by
  cases m with
  | plain => simp only [next]; split_ifs <;> simp_all
  | comment => simp only [next]; split_ifs <;> simp_all
  | _ => simp [next]

theorem next_stop_iff : (next blocks m c ahead).1 = .stop ↔ m = .plain ∧ c = ';' := by
  cases m with
  | plain => simp only [next]; split_ifs <;> simp_all
  | comment => simp only [next]; split_ifs <;> simp_all
  | _ => simp [next]

theorem next_of_drop (h : (next blocks m c ahead).1 = .drop) : (next blocks m c ahead).2 = .comment := by
  rcases next_drop_iff.mp h with ⟨rfl, hc⟩ | ⟨rfl, hc⟩
  · simp [next, hc]
  · simp [next, hc]

theorem next_of_stop (h : (next blocks m c ahead).1 = .stop) : (next blocks m c ahead).2 = .plain := by
  obtain ⟨rfl, rfl⟩ := next_stop_iff.mp h
  simp [next]

theorem next_of_keep (h : (next blocks m c ahead).1 = .keep) : (next blocks m c ahead).2 ≠ .comment := by
  cases m with
  | plain => simp only [next] at h ⊢; split_ifs at h ⊢ <;> simp_all
  | comment => simp only [next] at h ⊢; split_ifs at h ⊢; simp_all
  | single => simp only [next]; split <;> decide
  | double => simp only [next]; split <;> decide
  | dollar => simp only [next]; split <;> decide
  | block => simp only [next]; split <;> decide
  | _ => simp [next]

theorem next_eq_keep (h : (next blocks m c ahead).1 = .keep) :
    next blocks m c ahead = (.keep, (next blocks m c ahead).2) :=
  Prod.ext h rfl

theorem next_eq_drop (h : (next blocks m c ahead).1 = .drop) : next blocks m c ahead = (.drop, .comment) :=
  Prod.ext h (next_of_drop h)

theorem next_eq_stop (h : (next blocks m c ahead).1 = .stop) : next blocks m c ahead = (.stop, .plain) :=
  Prod.ext h (next_of_stop h)

/-- Where a reader without block comments can be. -/
def Shared (m : Place) : Prop := m ∉ [.blockOpen, .block, .blockClose]

theorem shared_next (hm : Shared m) : Shared (next false m c ahead).2 := by
  unfold Shared at *
  cases m with
  | plain => simp only [next]; split_ifs <;> simp_all
  | comment => simp only [next]; split <;> simp
  | single => simp only [next]; split <;> simp
  | double => simp only [next]; split <;> simp
  | dollar => simp only [next]; split <;> simp
  | dollarOpen => simp [next]
  | dollarClose => simp [next]
  | _ => simp at hm

/-- Block comments are the only difference between the readers. -/
theorem next_shared (hm : Shared m) : next true m c ahead = next false m c ahead ∨
    c = '/' ∧ (next false m c ahead).1 = .keep ∧ (next true m c ahead).1 = .keep := by
  unfold Shared at hm
  cases m with
  | plain =>
    by_cases hblock : c = '/' ∧ ahead = some '*'
    · obtain ⟨rfl, rfl⟩ := hblock
      exact .inr ⟨rfl, by decide, by decide⟩
    · left
      simp only [next, hblock, and_false, if_false]
  | blockOpen => simp at hm
  | block => simp at hm
  | blockClose => simp at hm
  | _ => exact .inl rfl

section Cut

variable {buf l : List Char}

theorem cut_keep (h : (next blocks m c l.head?).1 = .keep) :
    cut blocks m buf (c :: l) = cut blocks (next blocks m c l.head?).2 (buf ++ [c]) l := by
  rw [cut, next_eq_keep h]

theorem cut_drop (h : (next blocks m c l.head?).1 = .drop) :
    cut blocks m buf (c :: l) = cut blocks .comment buf l := by
  rw [cut, next_eq_drop h]

theorem cut_stop (h : (next blocks m c l.head?).1 = .stop) :
    cut blocks m buf (c :: l) = strip buf :: cut blocks .plain [] l := by
  rw [cut, next_eq_stop h]

end Cut

/-! ## The loop is the reader that knows no block comments -/

def Mode.place : Mode → Place
  | .plain => .plain
  | .single => .single
  | .double => .double
  | .dollar => .dollar
  | .comment => .comment

theorem not_ahead {d : Char} {l : List Char} (h : ∀ l', c = d → l = d :: l' → False) :
    ¬ (c = d ∧ l.head? = some d) := by
  intro hboth
  obtain ⟨l', hl⟩ := List.head?_eq_some_iff.mp hboth.2
  exact h l' hboth.1 hl

theorem cut_eq_splitFrom (q : Mode) (buf l : List Char) : cut false q.place buf l = splitFrom q buf l := by
  induction q, buf, l using splitFrom.induct with
  | case1 q buf => cases q <;> rfl
  | case2 buf l ih => simpa [Mode.place, cut, next, splitFrom] using ih
  | case3 buf c l hc ih => simpa [Mode.place, cut, next, splitFrom, hc] using ih
  | case4 buf c l ih =>
    rw [splitFrom, ← ih]
    by_cases hc : c = '\'' <;> simp [Mode.place, cut, next, hc]
  | case5 buf c l ih =>
    rw [splitFrom, ← ih]
    by_cases hc : c = '"' <;> simp [Mode.place, cut, next, hc]
  | case6 buf l ih => simpa [Mode.place, cut, next, splitFrom] using ih
  | case7 buf c l hahead ih =>
    have hnext : next false .dollar c l.head? = (.keep, .dollar) := by
      rw [next, if_neg (not_ahead hahead)]
    have hsplit : splitFrom .dollar buf (c :: l) = splitFrom .dollar (buf ++ [c]) l := by
      rw [splitFrom]
      exact hahead
    rw [hsplit, ← ih]
    simp only [Mode.place, cut, hnext]
  | case8 buf l ih => simpa [Mode.place, cut, next, splitFrom] using ih
  | case9 buf l ih => simpa [Mode.place, cut, next, splitFrom] using ih
  | case10 buf l hline hdollar ih => simpa [Mode.place, cut, next, splitFrom] using ih
  | case11 buf c l hline hdollar hstop ih =>
    have hnext : next false .plain c l.head? =
        (.keep, if c = '\'' then .single else if c = '"' then .double else .plain) := by
      rw [next, if_neg (not_ahead hline), if_neg (not_ahead hdollar), if_neg (by simp), if_neg hstop]
    have hsplit : splitFrom .plain buf (c :: l) =
        splitFrom (if c = '\'' then .single else if c = '"' then .double else .plain) (buf ++ [c]) l := by
      rw [splitFrom, if_neg hstop]
      · exact hline
      · exact hdollar
    rw [hsplit, ← ih]
    change cut false .plain buf (c :: l) = _
    rw [cut, hnext]
    split_ifs <;> rfl

/-! ## Readers that part -/

/-- What a reader keeps up to the end of the statement. -/
def first (blocks : Bool) : Place → List Char → List Char
  | _, [] => []
  | m, c :: l =>
    match next blocks m c l.head? with
    | (.keep, m) => c :: first blocks m l
    | (.drop, m) => first blocks m l
    | (.stop, _) => []

section First

variable {buf l : List Char}

theorem first_keep (h : (next blocks m c l.head?).1 = .keep) :
    first blocks m (c :: l) = c :: first blocks (next blocks m c l.head?).2 l := by
  rw [first, next_eq_keep h]

theorem first_drop (h : (next blocks m c l.head?).1 = .drop) : first blocks m (c :: l) = first blocks .comment l := by
  rw [first, next_eq_drop h]

theorem first_stop (h : (next blocks m c l.head?).1 = .stop) : first blocks m (c :: l) = [] := by
  rw [first, next_eq_stop h]

theorem head_first_comment (l : List Char) : (first blocks .comment l).head? ≠ some '-' := by
  induction l with
  | nil => simp [first]
  | cons c l ih =>
    by_cases hc : c = '\n'
    · subst hc
      rw [first_keep (by simp [next])]
      simp
    · rw [first_drop (by simp [next, hc])]
      exact ih

theorem cut_eq_cons (blocks : Bool) (m : Place) (buf l : List Char) :
    ∃ more, cut blocks m buf l = strip (buf ++ first blocks m l) :: more := by
  induction l generalizing m buf with
  | nil => exact ⟨[], by simp [cut, first]⟩
  | cons c l ih =>
    cases h : (next blocks m c l.head?).1 with
    | keep =>
      rw [cut_keep h, first_keep h]
      obtain ⟨more, hmore⟩ := ih (next blocks m c l.head?).2 (buf ++ [c])
      exact ⟨more, by rw [hmore]; simp⟩
    | drop =>
      rw [cut_drop h, first_drop h]
      exact ih .comment buf
    | stop =>
      rw [cut_stop h, first_stop h, List.append_nil]
      exact ⟨_, rfl⟩

theorem isKept_of_slash {s : List Char} (h : '/' ∈ s) : isKept (strip s) = true := by
  have hmem : '/' ∈ strip s := Text.mem_trim h (by decide)
  have hupper : '/' ∈ (strip s).map foldUpper := List.mem_map.mpr ⟨'/', hmem, by decide⟩
  simp only [isKept, Bool.and_eq_true, decide_eq_true_eq, ne_eq]
  constructor
  · intro hnil
    rw [hnil] at hmem
    simp at hmem
  · intro hword
    rcases List.mem_pair.mp hword with hword | hword
    · exact absurd (hword ▸ hupper) (by decide)
    · exact absurd (hword ▸ hupper) (by decide)

theorem filter_cut_ne {b b' : Bool} {m m' : Place} (hslash : '/' ∈ buf) {r : List Char} (hc : isSpace c = false)
    (hfirst : first b m l = c :: r) (hother : (first b' m' l).head? ≠ some c) :
    (cut b m buf l).filter isKept ≠ (cut b' m' buf l).filter isKept := by
  obtain ⟨more, hmore⟩ := cut_eq_cons b m buf l
  obtain ⟨more', hmore'⟩ := cut_eq_cons b' m' buf l
  have hkept : ∀ x, isKept (strip (buf ++ x)) = true := fun x => isKept_of_slash (List.mem_append_left _ hslash)
  rw [hmore, hmore', List.filter_cons_of_pos (hkept _), List.filter_cons_of_pos (hkept _)]
  intro heq
  rw [hfirst] at heq
  exact Text.trim_append_ne ⟨'/', hslash, by decide⟩ hc hother (List.cons.inj heq).1

end First

/-- The readers are at the same place, or in the same statement after the slash of a block comment. -/
def InTouch (m m' : Place) (buf : List Char) : Prop :=
  m = m' ∧ Shared m ∨ '/' ∈ buf ∧ m ≠ .comment ∧ m' ≠ .comment

/-- What two readers in touch make of a character. -/
theorem InTouch.step {m m' : Place} {buf : List Char} (h : InTouch m m' buf) (c : Char) (ahead : Option Char) :
    (next false m c ahead).1 = (next true m' c ahead).1 ∧
        ((next false m c ahead).1 = .keep →
          InTouch (next false m c ahead).2 (next true m' c ahead).2 (buf ++ [c])) ∨
      '/' ∈ buf ∧ m ≠ .comment ∧ m' ≠ .comment ∧ (next false m c ahead).1 ≠ (next true m' c ahead).1 := by
  rcases h with ⟨rfl, hshared⟩ | ⟨hslash, hm, hm'⟩
  · left
    rcases @next_shared m c ahead hshared with heq | ⟨rfl, hkeep, hkeep'⟩
    · rw [heq]
      exact ⟨rfl, fun _ => .inl ⟨rfl, shared_next hshared⟩⟩
    · exact ⟨hkeep.trans hkeep'.symm, fun _ => .inr ⟨by simp, next_of_keep hkeep, next_of_keep hkeep'⟩⟩
  · by_cases heq : (next false m c ahead).1 = (next true m' c ahead).1
    · left
      refine ⟨heq, fun hkeep => .inr ⟨List.mem_append_left _ hslash, next_of_keep hkeep, next_of_keep ?_⟩⟩
      rw [← heq, hkeep]
    · exact .inr ⟨hslash, hm, hm', heq⟩

theorem filter_cons_inj {s : List Char} {x y : List (List Char)} :
    (s :: x).filter isKept = (s :: y).filter isKept ↔ x.filter isKept = y.filter isKept := by
  by_cases hs : isKept s = true
  · simp [hs]
  · simp [hs]

/-- Where the readers part, so do the statements. -/
theorem filter_cut_ne_of_roles {m m' : Place} {buf l : List Char} {c : Char} (hslash : '/' ∈ buf) (hm : m ≠ .comment)
    (hm' : m' ≠ .comment) (hne : (next false m c l.head?).1 ≠ (next true m' c l.head?).1) :
    (cut false m buf (c :: l)).filter isKept ≠ (cut true m' buf (c :: l)).filter isKept := by
  have hdash : ∀ {b : Bool} {k : Place}, k ≠ .comment → (next b k c l.head?).1 = .drop → c = '-' := by
    intro b k hk hdrop
    rcases next_drop_iff.mp hdrop with ⟨hcomment, -⟩ | ⟨-, hc, -⟩
    · exact absurd hcomment hk
    · exact hc
  have hsemicolon : ∀ {b : Bool} {k : Place}, (next b k c l.head?).1 = .stop → c = ';' :=
    fun hstop => (next_stop_iff.mp hstop).2
  cases h : (next false m c l.head?).1 with
  | keep =>
    cases h' : (next true m' c l.head?).1 with
    | keep => exact absurd (h.trans h'.symm) hne
    | drop =>
      have hc := hdash hm' h'
      refine filter_cut_ne hslash (by rw [hc]; decide) (first_keep h) ?_
      rw [first_drop h', hc]
      exact head_first_comment l
    | stop =>
      have hc := hsemicolon h'
      refine filter_cut_ne hslash (by rw [hc]; decide) (first_keep h) ?_
      rw [first_stop h']
      simp
  | drop =>
    have hc := hdash hm h
    cases h' : (next true m' c l.head?).1 with
    | keep =>
      refine (filter_cut_ne hslash (by rw [hc]; decide) (first_keep h') ?_).symm
      rw [first_drop h, hc]
      exact head_first_comment l
    | drop => exact absurd (h.trans h'.symm) hne
    | stop => exact absurd (hc.symm.trans (hsemicolon h')) (by decide)
  | stop =>
    have hc := hsemicolon h
    cases h' : (next true m' c l.head?).1 with
    | keep =>
      refine (filter_cut_ne hslash (by rw [hc]; decide) (first_keep h') ?_).symm
      rw [first_stop h]
      simp
    | drop => exact absurd (hc.symm.trans (hdash hm' h')) (by decide)
    | stop => exact absurd (h.trans h'.symm) hne

/-- **Readers in touch give the same statements exactly when they give every character the same role.** -/
theorem filter_cut_eq_iff {m m' : Place} {buf l : List Char} (h : InTouch m m' buf) :
    (cut false m buf l).filter isKept = (cut true m' buf l).filter isKept ↔ roles false m l = roles true m' l := by
  induction l generalizing m m' buf with
  | nil => simp [cut, roles]
  | cons c l ih =>
    rcases h.step c l.head? with ⟨heq, htouch⟩ | ⟨hslash, hm, hm', hne⟩
    · have hroles : roles false m (c :: l) = roles true m' (c :: l) ↔
          roles false (next false m c l.head?).2 l = roles true (next true m' c l.head?).2 l := by
        simp [roles, heq]
      rw [hroles]
      cases hrole : (next false m c l.head?).1 with
      | keep =>
        rw [cut_keep hrole, cut_keep (heq ▸ hrole)]
        exact ih (htouch hrole)
      | drop =>
        rw [cut_drop hrole, cut_drop (heq ▸ hrole), next_of_drop hrole, next_of_drop (heq ▸ hrole)]
        exact ih (.inl ⟨rfl, by simp [Shared]⟩)
      | stop =>
        rw [cut_stop hrole, cut_stop (heq ▸ hrole), next_of_stop hrole, next_of_stop (heq ▸ hrole),
          filter_cons_inj]
        exact ih (.inl ⟨rfl, by simp [Shared]⟩)
    · refine iff_of_false (filter_cut_ne_of_roles hslash hm hm' hne) ?_
      intro hroles
      exact hne (List.cons.inj hroles).1

/-! ## Scripts as they are written -/

/-- A block comment that reads the same as plain text. -/
def Token.Quiet : Token → Prop
  | .block body => ∀ c ∈ body, c ∉ [';', '\'', '"', '-', '$']
  | _ => True

section Written

variable {buf rest : List Char}

/-- Plain characters that begin nothing. -/
theorem cut_quiet {l : List Char} (h : ∀ c ∈ l, c ∉ [';', '\'', '"', '-', '$']) :
    cut false .plain buf (l ++ rest) = cut false .plain (buf ++ l) rest := by
  induction l generalizing buf with
  | nil => simp
  | cons c l ih =>
    have hnext : next false .plain c (l ++ rest).head? = (.keep, .plain) := by
      have hc := h c List.mem_cons_self
      simp only [List.mem_cons, List.not_mem_nil, or_false, not_or] at hc
      simp [next, hc]
    rw [List.cons_append, cut, hnext]
    dsimp only
    rw [ih fun d hd => h d (List.mem_cons_of_mem _ hd)]
    simp

/-- A quotation up to its closing mark. -/
theorem cut_quoted {m : Place} {q : Char} (hinside : ∀ c ahead, next blocks m c ahead = (.keep, if c = q then .plain else m))
    (hopen : ∀ ahead, next blocks .plain q ahead = (.keep, m)) {body : List Char} (h : doubled q body = true) :
    cut blocks m buf (body ++ q :: rest) = cut blocks .plain (buf ++ body ++ [q]) rest := by
  induction body using doubled.induct q generalizing buf with
  | case1 => simp [cut, hinside]
  | case2 c =>
    have hc : c ≠ q := by simpa [doubled] using h
    simp [cut, hinside, hc]
  | case3 d l ih =>
    obtain ⟨rfl, hl⟩ : d = q ∧ doubled q l = true := by simpa [doubled] using h
    have hrest := @ih (buf ++ [d] ++ [d]) hl
    simpa [cut, hinside, hopen] using hrest
  | case4 c d l hc ih =>
    have hl : doubled q (d :: l) = true := by simpa [doubled, hc] using h
    have hrest := @ih (buf ++ [c]) hl
    simpa [cut, hinside, hc] using hrest

theorem infix_of_head {body : List Char} {c d e : Char} {rest : List Char}
    (h : c = d ∧ (body ++ e :: rest).head? = some e) : [d, e] <:+: c :: (body ++ [e]) := by
  obtain ⟨rfl, hhead⟩ := h
  cases body with
  | nil => exact ⟨[], [], rfl⟩
  | cons b body =>
    obtain rfl : b = e := by simpa using hhead
    exact ⟨[], body ++ [b], by simp⟩

theorem cut_dollar {body : List Char} (h : ¬ ['$', '$'] <:+: body ++ ['$']) :
    cut blocks .dollar buf (body ++ '$' :: '$' :: rest) = cut blocks .plain (buf ++ body ++ ['$', '$']) rest := by
  induction body generalizing buf with
  | nil => simp [cut, next]
  | cons c body ih =>
    have hnext : next blocks .dollar c (body ++ '$' :: '$' :: rest).head? = (.keep, .dollar) := by
      rw [next, if_neg fun hboth => h (infix_of_head hboth)]
    rw [List.cons_append, cut, hnext]
    dsimp only
    rw [ih fun hin => h (hin.trans (List.suffix_cons _ _).isInfix)]
    simp

/-- A block comment up to its closing mark. -/
theorem cut_block {body : List Char} (h : ¬ ['*', '/'] <:+: body) :
    cut blocks .block buf (body ++ '*' :: '/' :: rest) = cut blocks .plain (buf ++ body ++ ['*', '/']) rest := by
  induction body generalizing buf with
  | nil => simp [cut, next]
  | cons c body ih =>
    have hnext : next blocks .block c (body ++ '*' :: '/' :: rest).head? = (.keep, .block) := by
      rw [next, if_neg]
      intro hboth
      obtain ⟨rfl, hhead⟩ := hboth
      cases body with
      | nil => simp at hhead
      | cons d body =>
        obtain rfl : d = '/' := by simpa using hhead
        exact h ⟨[], body, rfl⟩
    rw [List.cons_append, cut, hnext]
    dsimp only
    rw [ih fun hin => h (hin.trans (List.suffix_cons _ _).isInfix)]
    simp

/-- A line comment up to the end of its line. -/
theorem cut_line {body : List Char} (hbody : '\n' ∉ body) (hrest : ∀ c ∈ rest.head?, c = '\n') :
    cut blocks .comment buf (body ++ rest) = cut blocks .plain buf rest := by
  induction body with
  | nil =>
    cases rest with
    | nil => rfl
    | cons c rest =>
      obtain rfl : c = '\n' := hrest c rfl
      simp [cut, next]
  | cons c body ih =>
    rw [List.mem_cons, not_or] at hbody
    rw [List.cons_append, cut_drop (by simp [next, Ne.symm hbody.1])]
    exact ih hbody.2

/-- A part of a statement that fits is read as itself; a reader without block comments needs them quiet. -/
theorem cut_token {t : Token} (hfits : t.Fits rest) (hquiet : blocks = true ∨ t.Quiet) :
    cut blocks .plain buf (t.text ++ rest) = cut blocks .plain (buf ++ if t.isLine then [] else t.text) rest := by
  cases t with
  | plain c =>
    obtain ⟨hc, hpair, hslash⟩ := hfits
    simp only [List.mem_cons, List.not_mem_nil, or_false, not_or] at hc hpair
    have hnext : next blocks .plain c rest.head? = (.keep, .plain) := by
      have hdash : ¬ (c = '-' ∧ rest.head? = some '-') := fun h => hpair (.inl h.1) (h.1 ▸ h.2)
      have hdollar : ¬ (c = '$' ∧ rest.head? = some '$') := fun h => hpair (.inr h.1) (h.1 ▸ h.2)
      have hblock : ¬ (blocks = true ∧ c = '/' ∧ rest.head? = some '*') := fun h => hslash h.2.1 h.2.2
      rw [next, if_neg hdash, if_neg hdollar, if_neg hblock, if_neg hc.1, if_neg hc.2.1, if_neg hc.2.2]
    rw [Token.text, List.singleton_append, cut, hnext]
    rfl
  | single body =>
    have hquoted := @cut_quoted blocks (buf ++ ['\'']) rest .single '\'' (fun _ _ => rfl) (fun _ => by simp [next]) body hfits
    simpa [Token.text, Token.isLine, cut, next] using hquoted
  | double body =>
    have hquoted := @cut_quoted blocks (buf ++ ['"']) rest .double '"' (fun _ _ => rfl) (fun _ => by simp [next]) body hfits
    simpa [Token.text, Token.isLine, cut, next] using hquoted
  | dollar body =>
    have hdollar := @cut_dollar blocks (buf ++ ['$', '$']) rest body hfits
    simpa [Token.text, Token.isLine, cut, next] using hdollar
  | line body =>
    have hline := @cut_line blocks buf rest body hfits.1 hfits.2
    simpa [Token.text, Token.isLine, cut, next] using hline
  | block body =>
    cases blocks with
    | true =>
      have hblock := @cut_block true (buf ++ ['/', '*']) rest body hfits
      simpa [Token.text, Token.isLine, cut, next] using hblock
    | false =>
      have hbody : ∀ c ∈ body, c ∉ [';', '\'', '"', '-', '$'] := hquiet.resolve_left Bool.false_ne_true
      have hchars : ∀ c ∈ Token.text (.block body), c ∉ [';', '\'', '"', '-', '$'] := by
        intro c hc
        simp only [Token.text, List.mem_cons, List.mem_append, List.not_mem_nil, or_false] at hc
        rcases hc with rfl | rfl | hc | rfl | rfl
        · decide
        · decide
        · exact hbody c hc
        · decide
        · decide
      exact cut_quiet hchars

theorem cut_tokensText {s : Statement} (hfit : TokensFit s rest) (hquiet : blocks = true ∨ ∀ t ∈ s, t.Quiet) :
    cut blocks .plain buf (tokensText s ++ rest) = cut blocks .plain (buf ++ visible s) rest := by
  induction s generalizing buf with
  | nil => simp [tokensText, visible]
  | cons t s ih =>
    have ht : blocks = true ∨ t.Quiet := hquiet.imp_right fun h => h t List.mem_cons_self
    have hs : blocks = true ∨ ∀ u ∈ s, u.Quiet := hquiet.imp_right fun h u hu => h u (List.mem_cons_of_mem _ hu)
    have htext : tokensText (t :: s) ++ rest = t.text ++ (tokensText s ++ rest) := by simp [tokensText]
    have hvisible : visible (t :: s) = (if t.isLine then [] else t.text) ++ visible s := by
      cases hline : t.isLine <;> simp [visible, tokensText, hline]
    rw [htext, cut_token hfit.1 ht, ih hfit.2 hs, hvisible, List.append_assoc]

/-- A script is read as its statements. -/
theorem cut_scriptText {script : List Statement} (hne : script ≠ []) (hfits : ScriptFits script)
    (hquiet : blocks = true ∨ ∀ s ∈ script, ∀ t ∈ s, t.Quiet) :
    cut blocks .plain [] (scriptText script) = script.map fun s => strip (visible s) := by
  induction script using scriptText.induct with
  | case1 => exact absurd rfl hne
  | case2 s =>
    have hs : blocks = true ∨ ∀ t ∈ s, t.Quiet := hquiet.imp_right fun h => h s List.mem_cons_self
    have hread := @cut_tokensText blocks [] [] s hfits hs
    rw [List.append_nil, List.nil_append] at hread
    rw [scriptText, hread]
    rfl
  | case3 s rest hrest ih =>
    obtain ⟨s', rest, rfl⟩ := List.exists_cons_of_ne_nil (fun h => hrest h)
    have hs : blocks = true ∨ ∀ t ∈ s, t.Quiet := hquiet.imp_right fun h => h s List.mem_cons_self
    have hread := @cut_tokensText blocks [] (';' :: scriptText (s' :: rest)) s hfits.1 hs
    rw [List.nil_append] at hread
    rw [scriptText, hread, cut_stop (by simp [next]), ih (List.cons_ne_nil _ _) hfits.2
      (hquiet.imp_right fun h u hu => h u (List.mem_cons_of_mem _ hu))]
    · rfl
    · exact hrest

end Written

/-- **`split_statements` returns the statements of a script exactly when the script reads the same
whether `/*` begins a comment or not.** -/
theorem splitStatements_eq_iff {script : List Statement} (hfits : ScriptFits script) :
    splitStatements (scriptText script) = statementsOf script ↔ ReadsAlike (scriptText script) := by
  have hcode : splitStatements (scriptText script) = (cut false .plain [] (scriptText script)).filter isKept := by
    rw [splitStatements, ← cut_eq_splitFrom]
    rfl
  have hread : statementsOf script = (cut true .plain [] (scriptText script)).filter isKept := by
    by_cases hne : script = []
    · subst hne
      decide
    · rw [cut_scriptText hne hfits (.inl rfl)]
      rfl
  rw [hcode, hread, ReadsAlike]
  exact filter_cut_eq_iff (.inl ⟨rfl, by simp [Shared]⟩)

theorem splitStatements_of_quiet {script : List Statement} (hfits : ScriptFits script)
    (hquiet : ∀ s ∈ script, ∀ t ∈ s, t.Quiet) : splitStatements (scriptText script) = statementsOf script := by
  by_cases hne : script = []
  · subst hne
    decide
  · rw [splitStatements, statementsOf, ← cut_scriptText hne hfits (.inr hquiet), ← cut_eq_splitFrom]
    rfl

theorem splitStatements_eq_iff_quoted :
    splitStatements (scriptText [[.plain 'a', .single [';']], [.block ['-'], .plain 'b']]) =
        statementsOf [[.plain 'a', .single [';']], [.block ['-'], .plain 'b']] ↔
      ReadsAlike (scriptText [[.plain 'a', .single [';']], [.block ['-'], .plain 'b']]) :=
  splitStatements_eq_iff (by
    have hblock : ¬ ['*', '/'] <:+: ['-'] := by decide
    simp [ScriptFits, TokensFit, Token.Fits, hblock, doubled])

theorem tokensFit_plain {l rest : List Char} (h : ∀ c ∈ l, c ∉ [';', '\'', '"', '-', '$', '/']) :
    TokensFit (l.map .plain) rest := by
  induction l with
  | nil => trivial
  | cons c l ih =>
    have hc := h c List.mem_cons_self
    simp only [List.mem_cons, List.not_mem_nil, or_false, not_or] at hc
    refine ⟨?_, ih fun d hd => h d (List.mem_cons_of_mem _ hd)⟩
    simp [Token.Fits, hc]

/-- A statement with a semicolon in a block comment. -/
def commented : List Statement := [.block " one; two ".toList :: "SELECT 1".toList.map .plain]

/-- It is cut in the comment. -/
theorem splitStatements_cuts_comment : ScriptFits commented ∧
    statementsOf commented = ["/* one; two */SELECT 1".toList] ∧
    splitStatements (scriptText commented) = ["/* one".toList, "two */SELECT 1".toList] := by
  have hblock : ¬ ['*', '/'] <:+: " one; two ".toList := by
    intro h
    exact absurd (h.subset List.mem_cons_self) (by decide)
  exact ⟨⟨hblock, tokensFit_plain (by simp)⟩, by decide, by decide⟩

end Caips.Database
