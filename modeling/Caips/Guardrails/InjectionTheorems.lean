/-
Caips.Guardrails.InjectionTheorems — what the label around untrusted text
promises: its tags occur at its two ends only.

`mentions` finds the tags of one name in a text, with case ignored as
`_escape` ignores it. Around any body the tags stay at the ends exactly when
the body mentions none (`enclosed_around_iff`). `_escape` takes the tags of its
own three names out of every body (`mentions_wrapperBody`); recalled memories
are wrapped under a fourth name, and of those a body keeps what its text had
(`mentions_memory`).
-/
import Caips.Guardrails.Injection
import Mathlib.Data.List.Dedup

namespace Caips.Guardrails

/-! ## Tags -/

/-- What callers wrap: results of tools, retrieved passages, recalled memories. -/
inductive Wrapped where
  | toolOutput
  | retrievedDocument
  | memory
  deriving DecidableEq, Repr

def Wrapped.kind : Wrapped → String
  | .toolOutput => "tool_output"
  | .retrievedDocument => "retrieved_document"
  | .memory => "memory"

/-- After a `<`, an opening tag of that name goes on. -/
def opens (kind : String) (l : List Char) : Bool := kind.toList.isPrefixOf (l.map foldCase)

/-- After a `<`, a closing tag of that name goes on. -/
def closes (kind : String) (l : List Char) : Bool := l.head? == some '/' && opens kind l.tail

/-- A tag of that name starts somewhere in the text. -/
def mentions (kind : String) : List Char → Bool
  | [] => false
  | c :: l => (c == '<' && (opens kind l || closes kind l)) || mentions kind l

/-- A text that is wrapped in tags of that name, and has no others. -/
structure Enclosed (kind : String) (out : List Char) : Prop where
  opened : '<' :: kind.toList <+: out
  closed : '<' :: '/' :: (kind.toList ++ ['>']) <:+ out
  opensOnce : ∀ before after, out = before ++ '<' :: after → opens kind after = true → before = []
  closesOnce : ∀ before after, out = before ++ '<' :: after → closes kind after = true →
    after = '/' :: (kind.toList ++ ['>'])

/-- The kinds of the patterns of `scan`. -/
def patternKinds : List String :=
  ["override", "role_hijack", "fake_role", "exfiltrate", "tool_coercion", "permission"]

/-- The body in its tags: `attributes` ends the opening one. -/
def around (kind : String) (attributes body : List Char) : List Char :=
  '<' :: (kind.toList ++ attributes ++ '\n' :: (body ++ '\n' :: '<' :: '/' :: (kind.toList ++ ['>'])))

/-! ## Where tags are -/

variable {l : List Char}

variable {kind : String}

theorem mentions_iff : mentions kind l = true ↔
    ∃ before after, l = before ++ '<' :: after ∧ (opens kind after = true ∨ closes kind after = true) := by
  induction l with
  | nil => simp [mentions]
  | cons c l ih =>
    simp only [mentions, Bool.or_eq_true, Bool.and_eq_true, beq_iff_eq, ih]
    constructor
    · intro h
      rcases h with ⟨rfl, htag⟩ | ⟨before, after, rfl, htag⟩
      · exact ⟨[], l, rfl, htag⟩
      · exact ⟨c :: before, after, rfl, htag⟩
    · intro h
      obtain ⟨before, after, hsplit, htag⟩ := h
      cases before with
      | nil =>
        obtain ⟨rfl, rfl⟩ := List.cons.inj hsplit
        exact .inl ⟨rfl, htag⟩
      | cons b before =>
        obtain ⟨rfl, rfl⟩ := List.cons.inj hsplit
        exact .inr ⟨before, after, rfl, htag⟩

theorem split_after {head rest before after : List Char} (hhead : '<' ∉ head)
    (h : head ++ rest = before ++ '<' :: after) :
    ∃ mid, before = head ++ mid ∧ rest = mid ++ '<' :: after := by
  rcases List.append_eq_append_iff.mp h with ⟨mid, hbefore, hrest⟩ | ⟨mid, hsplit, hrest⟩
  · exact ⟨mid, hbefore, hrest⟩
  · cases mid with
    | nil => exact ⟨[], by simpa using hsplit.symm, by simpa using hrest.symm⟩
    | cons c mid =>
      obtain ⟨rfl, -⟩ := List.cons.inj hrest
      exact absurd (by simp [hsplit]) hhead

theorem Wrapped.kind_chars (k : Wrapped) :
    '<' ∉ k.kind.toList ∧ '&' ∉ k.kind.toList ∧ '/' ∉ k.kind.toList ∧ '\n' ∉ k.kind.toList := by
  cases k <;> decide

theorem Wrapped.not_closes (k : Wrapped) (l : List Char) : closes k.kind (k.kind.toList ++ l) = false := by
  cases k <;> rfl

section Around

variable {k : Wrapped} {attributes body : List Char}

theorem opens_newline (l rest : List Char) : opens k.kind (l ++ '\n' :: rest) = opens k.kind l :=
  isPrefixOf_newline k.kind_chars.2.2.2 l rest

theorem closes_newline (l rest : List Char) : closes k.kind (l ++ '\n' :: rest) = closes k.kind l := by
  unfold closes
  cases l with
  | nil => rfl
  | cons c l =>
    simp only [List.cons_append, List.head?_cons, List.tail_cons]
    rw [opens_newline]

theorem mentions_newline (l rest : List Char) :
    mentions k.kind (l ++ '\n' :: rest) = (mentions k.kind l || mentions k.kind rest) := by
  induction l with
  | nil => simp [mentions]
  | cons c l ih => simp [mentions, ih, opens_newline, closes_newline, Bool.or_assoc]

/-- The `<` of a wrapped text: the first character, those of the body, and the last but for the closing tag. -/
theorem around_split {before after : List Char} (hattributes : '<' ∉ attributes)
    (h : around k.kind attributes body = before ++ '<' :: after) :
    (before = [] ∧ ∃ rest, after = k.kind.toList ++ rest) ∨
    (∃ mid rest, body = mid ++ '<' :: rest ∧
      after = rest ++ '\n' :: '<' :: '/' :: (k.kind.toList ++ ['>'])) ∨
    after = '/' :: (k.kind.toList ++ ['>']) := by
  have hkind := k.kind_chars.1
  unfold around at h
  cases before with
  | nil =>
    have hafter := (List.cons.inj h).2
    rw [List.append_assoc] at hafter
    exact .inl ⟨rfl, _, hafter.symm⟩
  | cons b before =>
    have htail := (List.cons.inj h).2
    obtain ⟨mid, -, hrest⟩ := split_after (by simp [hkind, hattributes]) htail
    have hclose : '<' ∉ '/' :: (k.kind.toList ++ ['>']) := by simp [hkind]
    -- past the opening tag and its new line
    obtain ⟨mid, -, hrest⟩ := @split_after ['\n'] _ _ _ (by simp) hrest
    rcases List.append_eq_append_iff.mp hrest with ⟨last, hmid, hend⟩ | ⟨inner, hbody, hend⟩
    · obtain ⟨last, -, hend⟩ := @split_after ['\n'] _ _ _ (by simp) hend
      cases last with
      | nil => exact .inr (.inr (List.cons.inj hend).2.symm)
      | cons c last => exact absurd (by rw [(List.cons.inj hend).2]; simp) hclose
    · cases inner with
      | nil =>
        obtain ⟨last, -, hend⟩ := @split_after ['\n'] _ [] after (by simp) hend.symm
        cases last with
        | nil => exact .inr (.inr (List.cons.inj hend).2.symm)
        | cons c last => exact absurd (by rw [(List.cons.inj hend).2]; simp) hclose
      | cons c inner =>
        obtain ⟨rfl, rfl⟩ := List.cons.inj hend
        exact .inr (.inl ⟨mid, inner, hbody, rfl⟩)

/-- **A body that mentions no tag stays inside its own**, and no other body does. -/
theorem enclosed_around_iff (hattributes : '<' ∉ attributes) :
    Enclosed k.kind (around k.kind attributes body) ↔ mentions k.kind body = false := by
  have hclosing : ∀ rest, rest ++ '\n' :: '<' :: '/' :: (k.kind.toList ++ ['>']) ≠
      '/' :: (k.kind.toList ++ ['>']) := by
    intro rest h
    have := congrArg List.length h
    simp only [List.length_append, List.length_cons] at this
    omega
  constructor
  · intro h
    rw [← Bool.not_eq_true, mentions_iff]
    intro hmentions
    obtain ⟨before, after, hbody, htag⟩ := hmentions
    have hsplit : around k.kind attributes body =
        ('<' :: (k.kind.toList ++ attributes ++ '\n' :: before)) ++
          '<' :: (after ++ '\n' :: '<' :: '/' :: (k.kind.toList ++ ['>'])) := by
      simp [around, hbody]
    rcases htag with htag | htag
    · exact absurd (h.opensOnce _ _ hsplit (by rw [opens_newline, htag])) (List.cons_ne_nil _ _)
    · exact hclosing _ (h.closesOnce _ _ hsplit (by rw [closes_newline, htag]))
  · intro h
    have hnone : ∀ mid rest, body = mid ++ '<' :: rest →
        opens k.kind rest = false ∧ closes k.kind rest = false := by
      intro mid rest hbody
      rw [← Bool.not_eq_true, mentions_iff] at h
      simp only [← Bool.not_eq_true]
      exact ⟨fun htag => h ⟨mid, rest, hbody, .inl htag⟩, fun htag => h ⟨mid, rest, hbody, .inr htag⟩⟩
    constructor
    · exact ⟨attributes ++ '\n' :: (body ++ '\n' :: '<' :: '/' :: (k.kind.toList ++ ['>'])), by simp [around]⟩
    · exact ⟨'<' :: (k.kind.toList ++ attributes ++ '\n' :: (body ++ ['\n'])), by simp [around]⟩
    · intro before after hsplit htag
      rcases around_split hattributes hsplit with ⟨hbefore, -⟩ | ⟨mid, rest, hbody, rfl⟩ | rfl
      · exact hbefore
      · rw [opens_newline, (hnone mid rest hbody).1] at htag
        exact absurd htag Bool.false_ne_true
      · cases k <;> exact absurd htag (by decide)
    · intro before after hsplit htag
      rcases around_split hattributes hsplit with ⟨-, rest, rfl⟩ | ⟨mid, rest, hbody, rfl⟩ | hafter
      · rw [k.not_closes] at htag
        exact absurd htag Bool.false_ne_true
      · rw [closes_newline, (hnone mid rest hbody).2] at htag
        exact absurd htag Bool.false_ne_true
      · exact hafter

end Around

/-! ## Bodies -/

theorem tagAhead_of_tag (hkind : kind ∈ wrapperTags)
    (h : opens kind l = true ∨ closes kind l = true) : tagAhead l = true := by
  have hname : ∀ l, opens kind l = true → nameAhead l = true := fun l hl =>
    List.any_eq_true.mpr ⟨kind, hkind, hl⟩
  unfold tagAhead
  rw [Bool.or_eq_true]
  rcases h with h | h
  · exact .inl (hname l h)
  · unfold closes at h
    rw [Bool.and_eq_true] at h ⊢
    exact .inr ⟨h.1, hname l.tail h.2⟩

theorem mentions_wrapperBody (hkind : kind ∈ wrapperTags) (text : String) (maxChars : ℕ) :
    mentions kind (wrapperBody text maxChars) = false := by
  rw [← Bool.not_eq_true, mentions_iff]
  intro h
  obtain ⟨before, after, hsplit, htag⟩ := h
  have hclosed := wrapperBody_closed hsplit []
  rw [tagAhead_newline, tagAhead_of_tag hkind htag] at hclosed
  exact Bool.false_ne_true hclosed.symm

theorem nameAhead_slash (l : List Char) : nameAhead ('/' :: l) = false := rfl

theorem not_memory_of_nameAhead (h : nameAhead l = true) : opens "memory" l = false := by
  rw [← Bool.not_eq_true]
  intro hmemory
  obtain ⟨t, ht, hahead⟩ := List.any_eq_true.mp h
  have hapart : ∀ t ∈ wrapperTags, ¬ t.toList <+: "memory".toList ∧ ¬ "memory".toList <+: t.toList := by decide
  rcases List.prefix_or_prefix_of_prefix (List.isPrefixOf_iff_prefix.mp hahead)
      (List.isPrefixOf_iff_prefix.mp hmemory) with hle | hle
  · exact (hapart t ht).1 hle
  · exact (hapart t ht).2 hle

theorem not_memory_of_tagAhead (h : tagAhead l = true) :
    opens "memory" l = false ∧ closes "memory" l = false := by
  cases l with
  | nil => exact ⟨rfl, rfl⟩
  | cons c l =>
    by_cases hslash : c = '/'
    · subst hslash
      have hname : nameAhead l = true := by simpa [tagAhead, nameAhead_slash] using h
      exact ⟨rfl, not_memory_of_nameAhead hname⟩
    · have hname : nameAhead (c :: l) = true := by simpa [tagAhead, hslash] using h
      exact ⟨not_memory_of_nameAhead hname, by simp [closes, hslash]⟩

theorem opens_memory_escape (l : List Char) : opens "memory" (escape l) = opens "memory" l :=
  isPrefixOf_escape (by decide) (by decide) l

theorem closes_memory_escape (l : List Char) : closes "memory" (escape l) = closes "memory" l := by
  cases l with
  | nil => rfl
  | cons c l =>
    unfold escape
    by_cases htag : c = '<' ∧ tagAhead l = true
    · rw [if_pos htag, htag.1]
      rfl
    · rw [if_neg htag]
      simp [closes, opens_memory_escape]

theorem mentions_memory_escape (l : List Char) : mentions "memory" (escape l) = mentions "memory" l := by
  induction l with
  | nil => rfl
  | cons c l ih =>
    unfold escape
    by_cases htag : c = '<' ∧ tagAhead l = true
    · obtain ⟨hopens, hcloses⟩ := not_memory_of_tagAhead htag.2
      rw [if_pos htag]
      simp [mentions, ih, hopens, hcloses]
    · rw [if_neg htag]
      simp [mentions, ih, opens_memory_escape, closes_memory_escape]

theorem mentions_memory (text : String) (maxChars : ℕ) :
    mentions "memory" (wrapperBody text maxChars) = mentions "memory" (text.toList.take maxChars) := by
  unfold wrapperBody
  split
  · have hmark : "\n[truncated]".toList = '\n' :: "[truncated]".toList := rfl
    have hnone : mentions "memory" "[truncated]".toList = false := by decide
    have hcut := @mentions_newline .memory (escape (text.toList.take maxChars)) "[truncated]".toList
    change mentions "memory" _ = (mentions "memory" _ || mentions "memory" _) at hcut
    rw [hmark, hcut, hnone, Bool.or_false, mentions_memory_escape]
  · rw [List.append_nil, mentions_memory_escape]

/-! ## The wrapper -/

/-- A character of texts that are joined is one of a text, or of the separator. -/
theorem mem_intercalate {sep : String} {texts : List String} {c : Char}
    (h : c ∈ (sep.intercalate texts).toList) : c ∈ sep.toList ∨ ∃ t ∈ texts, c ∈ t.toList := by
  rw [String.toList_intercalate] at h
  induction texts with
  | nil => simp at h
  | cons t rest ih =>
    cases rest with
    | nil => exact .inr ⟨t, by simp, by simpa using h⟩
    | cons u rest =>
      rw [List.map_cons, List.map_cons, List.intercalate_cons_cons, List.mem_append, List.mem_append] at h
      rcases h with (h | h) | h
      · exact .inr ⟨t, by simp, h⟩
      · exact .inl h
      · rcases ih h with hsep | ⟨v, hv, hc⟩
        · exact .inl hsep
        · exact .inr ⟨v, List.mem_cons_of_mem _ hv, hc⟩

/-- A warning names patterns only, so it has no `<`. -/
theorem lt_notMem_warning {kinds : List String} (h : ∀ kind ∈ kinds, kind ∈ patternKinds) :
    '<' ∉ (warning kinds).toList := by
  have hchars : ∀ kind ∈ patternKinds, '<' ∉ kind.toList := by decide
  have hnames : '<' ∉ (", ".intercalate (kinds.dedup.insertionSort (· ≤ ·))).toList := by
    intro hmem
    rcases mem_intercalate hmem with hsep | ⟨kind, hkind, hc⟩
    · exact absurd hsep (by decide)
    · rw [List.mem_insertionSort, List.mem_dedup] at hkind
      exact hchars kind (h kind hkind) hc
  unfold warning
  split
  · simp
  · simp only [String.toList_append, List.mem_append, not_or]
    exact ⟨⟨by decide, hnames⟩, by decide⟩

/-- What stands in the opening tag after its name. -/
def attributes (g : Engine) (text source : String) : List Char :=
  " source=\"".toList ++ (source.toList.filter (sourceChar g)).take 80 ++ "\" trust=\"untrusted\"".toList ++
    (warning (g.scan text)).toList ++ ['>']

theorem wrapUntrusted_toList (g : Engine) (text source kind : String) (maxChars : ℕ) :
    (wrapUntrusted g text source kind maxChars).toList =
      around kind (attributes g text source) (wrapperBody text maxChars) := by
  have hopen : "<".toList = ['<'] := rfl
  have hbody : ">\n".toList = ['>', '\n'] := rfl
  have hclose : "\n</".toList = ['\n', '<', '/'] := rfl
  have hend : ">".toList = ['>'] := rfl
  unfold wrapUntrusted around attributes
  generalize " source=\"" = before
  generalize "\" trust=\"untrusted\"" = after
  simp only [String.toList_append, String.toList_ofList, hopen, hbody, hclose, hend, List.append_assoc,
    List.cons_append, List.nil_append]

theorem lt_notMem_attributes {g : Engine} (hword : g.wordChar '<' = false)
    (hscan : ∀ text, ∀ kind ∈ g.scan text, kind ∈ patternKinds) (text source : String) :
    '<' ∉ attributes g text source := by
  have hsource : '<' ∉ (source.toList.filter (sourceChar g)).take 80 := by
    intro hmem
    have hchar := (List.mem_filter.mp (List.mem_of_mem_take hmem)).2
    simp [sourceChar, hword] at hchar
  have hbefore : '<' ∉ " source=\"".toList := by decide
  have hafter : '<' ∉ "\" trust=\"untrusted\"".toList := by decide
  unfold attributes
  simp only [List.mem_append, not_or]
  exact ⟨⟨⟨⟨hbefore, hsource⟩, hafter⟩, lt_notMem_warning (hscan text)⟩, by decide⟩

/-- **The tags of a wrapped text are at its ends only**, unless it is wrapped as a memory and the
part of it that is kept mentions a memory's tag. -/
theorem wrapUntrusted_enclosed_iff (g : Engine) (hword : g.wordChar '<' = false)
    (hscan : ∀ text, ∀ kind ∈ g.scan text, kind ∈ patternKinds) (k : Wrapped) (text source : String)
    (maxChars : ℕ) :
    Enclosed k.kind (wrapUntrusted g text source k.kind maxChars).toList ↔
      (k = .memory → mentions "memory" (text.toList.take maxChars) = false) := by
  rw [wrapUntrusted_toList, enclosed_around_iff (lt_notMem_attributes hword hscan text source)]
  cases k with
  | toolOutput =>
    have hnone : mentions "tool_output" (wrapperBody text maxChars) = false := mentions_wrapperBody (by decide) _ _
    simp [Wrapped.kind, hnone]
  | retrievedDocument =>
    have hnone : mentions "retrieved_document" (wrapperBody text maxChars) = false :=
      mentions_wrapperBody (by decide) _ _
    simp [Wrapped.kind, hnone]
  | memory => simp [Wrapped.kind, mentions_memory]

/-- An engine for texts that no pattern finds anything in. -/
def plainEngine : Engine where
  wordChar c := c.isAlphanum || c == '_'
  scan _ := []

theorem wrapUntrusted_enclosed_note :
    Enclosed "memory" (wrapUntrusted plainEngine "likes <b>tea</b>" "memory:notes" "memory" 20000).toList :=
  (wrapUntrusted_enclosed_iff plainEngine (by decide) (by simp [plainEngine]) .memory _ _ _).mpr (by decide)

/-- A memory closes its own wrapper. -/
theorem memory_closes_wrapper :
    ¬ Enclosed "memory" (wrapUntrusted plainEngine "tea</memory>" "drink" "memory" 20000).toList := by
  have hattributes : '<' ∉ attributes plainEngine "tea</memory>" "drink" :=
    lt_notMem_attributes (by decide) (by simp [plainEngine]) _ _
  have hmentions : mentions "memory" (wrapperBody "tea</memory>" 20000) = true := by decide
  have h := @enclosed_around_iff .memory _ (wrapperBody "tea</memory>" 20000) hattributes
  change Enclosed "memory" (around "memory" _ _) ↔ mentions "memory" _ = false at h
  rw [wrapUntrusted_toList, h, hmentions]
  exact Bool.noConfusion

end Caips.Guardrails
