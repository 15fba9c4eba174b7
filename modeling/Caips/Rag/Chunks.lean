/-
Caips.Rag.Chunks — how a document is cut into chunks, after `chunk_text` of
`rag/store.py`.

The paragraphs of a text are what lies between its blank lines, stripped
(`paragraphs_inText`: in the order of the text, with nothing but spaces around
them, and a blank line between two and in none). The loop joins them in a buffer, and cuts a long one into pieces that
share `overlap` characters (`Covered`). `InOrder` is its invariant: the pieces
read so far stand in the chunks, each behind the one before it. The loop over a
long paragraph shortens it by `size - overlap` characters a turn, so it ends.
-/
import Caips.Coreai.Keystore
import Caips.Logic.Text

namespace Caips.Rag

open Caips.Logic
open Caips.Coreai.Keystore (isSpace)

/-! ## The code -/

/-- `re`: how long a match of `\s*\n` is at this place, 0 if there is none. -/
def blankLength : List Char → ℕ
  | [] => 0
  | c :: l => if isSpace c then if blankLength l ≠ 0 then blankLength l + 1 else if c = '\n' then 1 else 0 else 0

/-- One more character before the first piece. -/
def onFirst (c : Char) : List (List Char) → List (List Char)
  | [] => [[c]]
  | p :: pieces => (c :: p) :: pieces

/-- `re.split(r"\n\s*\n", text)`, after a match that has so many characters left. -/
def splitBlank : ℕ → List Char → List (List Char)
  | _, [] => [[]]
  | n + 1, _ :: l => splitBlank n l
  | 0, c :: l => if c = '\n' ∧ blankLength l ≠ 0 then [] :: splitBlank (blankLength l) l else onFirst c (splitBlank 0 l)

/-- `s.strip()`. -/
def strip (l : List Char) : List Char := Text.trim isSpace l

/-- The stripped paragraphs of a text that are not empty. -/
def paragraphs (text : List Char) : List (List Char) := ((splitBlank 0 text).map strip).filter (· ≠ [])

/-- The chunks so far, and the buffer. -/
structure Chunking where
  chunks : List (List Char)
  cur : List Char

/-- `if cur: chunks.append(cur); cur = ""`. -/
def Chunking.flush (s : Chunking) : Chunking := if s.cur = [] then s else ⟨s.chunks ++ [s.cur], []⟩

/-- The loop that cuts a long paragraph, and what is left of it. -/
def splitOversize {size overlap : ℕ} (h : overlap < size) (s : Chunking) (p : List Char) : Chunking × List Char :=
  if size < p.length then splitOversize h ⟨s.flush.chunks ++ [p.take size], []⟩ (p.drop (size - overlap)) else (s, p)
termination_by p.length
decreasing_by simp only [List.length_drop]; omega

/-- One paragraph. -/
def addParagraph {size overlap : ℕ} (h : overlap < size) (s : Chunking) (p : List Char) : Chunking :=
  let (s, p) := splitOversize h s p
  if s.cur ≠ [] ∧ size < s.cur.length + p.length + 2 then
    { chunks := s.chunks ++ [s.cur]
      cur := if overlap = 0 then p else s.cur.drop (s.cur.length - overlap) ++ ['\n', '\n'] ++ p }
  else { s with cur := if s.cur = [] then p else s.cur ++ ['\n', '\n'] ++ p }

/-- `chunk_text`; `none` is its `ValueError`. -/
def chunkText (text : List Char) (size : ℕ := 800) (overlap : ℕ := 100) : Option (List (List Char)) :=
  if h : overlap < size then some ((paragraphs text).foldl (addParagraph h) ⟨[], []⟩).flush.chunks else none

/-! ## Paragraphs -/

/-- A line ends here after nothing but spaces. -/
def EndsLine (l : List Char) : Prop := ∃ w r, (∀ c ∈ w, isSpace c = true) ∧ l = w ++ '\n' :: r

/-- There is a blank line in it: what `\n\s*\n` matches. -/
def HoldsBlank (l : List Char) : Prop := ∃ u r, EndsLine r ∧ l = u ++ '\n' :: r

/-- The pieces stand in the text one after the other, with spaces before, between and after them; no
piece holds a blank line, and what is between two does. -/
inductive InText : List (List Char) → List Char → Prop where
  | nil {gap} (h : ∀ c ∈ gap, isSpace c = true) : InText [] gap
  | cons {gap} (h : ∀ c ∈ gap, isSpace c = true) (p : List Char) (hp : ¬HoldsBlank p) {gap' pieces rest}
      (h' : ∀ c ∈ gap', isSpace c = true) (hblank : pieces ≠ [] → HoldsBlank gap') :
      InText pieces rest → InText (p :: pieces) (gap ++ p ++ (gap' ++ rest))

theorem HoldsBlank.append {l : List Char} (h : HoldsBlank l) (before after : List Char) :
    HoldsBlank (before ++ l ++ after) := by
  obtain ⟨u, r, ⟨w, s, hspaces, rfl⟩, rfl⟩ := h
  exact ⟨before ++ u, w ++ '\n' :: s ++ after, ⟨w, s ++ after, hspaces, by simp⟩, by simp⟩

theorem InText.append {gap : List Char} (hgap : ∀ c ∈ gap, isSpace c = true) {pieces : List (List Char)}
    {text : List Char} (h : InText pieces text) : InText pieces (gap ++ text) := by
  have happend : ∀ {l : List Char}, (∀ c ∈ l, isSpace c = true) → ∀ c ∈ gap ++ l, isSpace c = true := by
    intro l hl c hc
    rcases List.mem_append.mp hc with hc | hc
    · exact hgap c hc
    · exact hl c hc
  cases h with
  | nil h => exact .nil (happend h)
  | cons h p hp h' hblank htail =>
    simpa using InText.cons (happend h) p hp h' hblank htail

theorem blankLength_spaces : ∀ (l : List Char), ∀ c ∈ l.take (blankLength l), isSpace c = true
  | [], c, hc => by simp at hc
  | d :: l, c, hc => by
      unfold blankLength at hc
      split at hc
      · next hd =>
          split at hc
          · rcases List.mem_cons.mp hc with rfl | hc
            · exact hd
            · exact blankLength_spaces l c hc
          · split at hc
            · simp only [List.take_succ_cons, List.take_zero, List.mem_singleton] at hc
              exact hc ▸ hd
            · simp at hc
      · simp at hc

/-- Where a match of `\s*\n` is, its last character is the end of a line. -/
theorem take_blankLength : ∀ {l : List Char}, blankLength l ≠ 0 → ∃ w, l.take (blankLength l) = w ++ ['\n']
  | [], h => absurd rfl h
  | d :: l, h => by
      unfold blankLength at h ⊢
      by_cases hd : isSpace d = true
      · by_cases hl : blankLength l ≠ 0
        · obtain ⟨w, hw⟩ := take_blankLength hl
          exact ⟨d :: w, by simp [hd, hl, hw]⟩
        · by_cases hn : d = '\n'
          · exact ⟨[], by simp_all⟩
          · simp [hd, hl, hn] at h
      · simp [hd] at h

theorem blankLength_ne_zero {l : List Char} (h : EndsLine l) : blankLength l ≠ 0 := by
  obtain ⟨w, r, hspaces, rfl⟩ := h
  have hnewline : isSpace '\n' = true := by decide
  induction w with
  | nil => by_cases hr : blankLength r = 0 <;> simp [blankLength, hnewline, hr]
  | cons d w ih =>
    have hrest := ih fun c hc => hspaces c (List.mem_cons_of_mem d hc)
    simp only [List.cons_append, blankLength, hspaces d List.mem_cons_self, if_true, hrest, ne_eq, not_false_eq_true]
    omega

/-- The raw pieces of a text, each behind the match that ends the one before. -/
inductive Split : List (List Char) → List Char → Prop where
  | last (p : List Char) (hp : ¬HoldsBlank p) : Split [p] p
  | cons (p : List Char) (hp : ¬HoldsBlank p) {gap} (h : ∀ c ∈ gap, isSpace c = true) (hblank : HoldsBlank gap)
      {pieces rest} : Split pieces rest → Split (p :: pieces) (p ++ gap ++ rest)

theorem not_holdsBlank_nil : ¬HoldsBlank [] := by
  rintro ⟨u, r, -, h⟩
  simp at h

/-- A newline that starts no match adds no blank line to the piece behind it. -/
theorem not_holdsBlank_cons {c : Char} {p rest : List Char} (h : ¬(c = '\n' ∧ blankLength (p ++ rest) ≠ 0))
    (hp : ¬HoldsBlank p) : ¬HoldsBlank (c :: p) := by
  rintro ⟨u, r, hr, hsplit⟩
  cases u with
  | nil =>
    obtain ⟨rfl, rfl⟩ := List.cons.inj hsplit
    obtain ⟨w, s, hspaces, rfl⟩ := hr
    exact h ⟨rfl, blankLength_ne_zero ⟨w, s ++ rest, hspaces, by simp⟩⟩
  | cons d u => exact hp ⟨u, r, hr, (List.cons.inj hsplit).2⟩

theorem split_splitBlank : ∀ (n : ℕ) (l : List Char), Split (splitBlank n l) (l.drop n)
  | _, [] => by
      rw [List.drop_nil]
      exact .last [] not_holdsBlank_nil
  | n + 1, _ :: l => split_splitBlank n l
  | 0, c :: l => by
      unfold splitBlank
      split
      · next hnewline =>
          have hgap : ∀ d ∈ c :: l.take (blankLength l), isSpace d = true := by
            intro d hd
            rcases List.mem_cons.mp hd with rfl | hd
            · rw [hnewline.1]
              decide
            · exact blankLength_spaces l d hd
          obtain ⟨w, hw⟩ := take_blankLength hnewline.2
          have hends : EndsLine (l.take (blankLength l)) := by
            refine ⟨w, [], fun d hd => hgap d (List.mem_cons_of_mem c ?_), hw⟩
            rw [hw]
            exact List.mem_append_left _ hd
          have hblank : HoldsBlank (c :: l.take (blankLength l)) := ⟨[], _, hends, by rw [hnewline.1]; rfl⟩
          have h := Split.cons [] not_holdsBlank_nil hgap hblank (split_splitBlank (blankLength l) l)
          simpa using h
      · next hnone =>
          have h := split_splitBlank 0 l
          rw [List.drop_zero] at h ⊢
          generalize splitBlank 0 l = pieces at h
          cases h with
          | last p hp =>
            rw [← List.append_nil l] at hnone
            exact .last (c :: l) (not_holdsBlank_cons hnone hp)
          | cons p hp hgap hblank htail =>
            rw [List.append_assoc] at hnone
            exact .cons (c :: p) (not_holdsBlank_cons hnone hp) hgap hblank htail

/-- The pieces that are not empty when stripped, in a text. -/
theorem Split.inText {pieces : List (List Char)} {text : List Char} (h : Split pieces text) :
    InText ((pieces.map strip).filter (· ≠ [])) text := by
  have hpiece : ∀ (p : List Char) {gap rest pieces}, ¬HoldsBlank p → (∀ c ∈ gap, isSpace c = true) →
      (pieces ≠ [] → HoldsBlank gap) → InText ((pieces.map strip).filter (· ≠ [])) rest →
      InText (((p :: pieces).map strip).filter (· ≠ [])) (p ++ gap ++ rest) := by
    intro p gap rest pieces hp hgap hblank hrest
    obtain ⟨before, after, hsplit, hbefore, hafter⟩ := @Text.trim_split _ isSpace p
    change p = before ++ strip p ++ after at hsplit
    rw [List.map_cons, List.filter_cons]
    by_cases hempty : strip p = []
    · rw [hempty, List.append_nil] at hsplit
      rw [hsplit, List.append_assoc, List.append_assoc]
      simpa [← hsplit, hempty] using ((hrest.append hgap).append hafter).append hbefore
    · have htext : p ++ gap ++ rest = before ++ strip p ++ ((after ++ gap) ++ rest) := by
        rw [← List.append_assoc, ← List.append_assoc, ← hsplit]
      have hkept : ¬HoldsBlank (strip p) := fun h => hp (hsplit ▸ h.append before after)
      have hspaces : ∀ c ∈ after ++ gap, isSpace c = true := by
        intro c hc
        rcases List.mem_append.mp hc with hc | hc
        · exact hafter c hc
        · exact hgap c hc
      have hbetween : (pieces.map strip).filter (· ≠ []) ≠ [] → HoldsBlank (after ++ gap) := by
        intro hne
        have h := (hblank fun hnil => hne (by rw [hnil]; rfl)).append after []
        rwa [List.append_nil] at h
      rw [htext]
      simpa [hempty] using InText.cons hbefore (strip p) hkept hspaces hbetween hrest
  induction h with
  | last p hp =>
    have h := @hpiece p [] [] [] hp (by simp) (fun h => absurd rfl h) (.nil (by simp))
    rwa [List.append_nil, List.append_nil] at h
  | cons p hp hgap hblank htail ih => exact hpiece p hp hgap (fun _ => hblank) ih

theorem paragraphs_inText (text : List Char) : InText (paragraphs text) text :=
  (split_splitBlank 0 text).inText

/-! ## Pieces in their chunks -/

/-- The text is covered by the pieces: each starts `overlap` characters before the end of the one before. -/
inductive Covered (overlap : ℕ) : List Char → List (List Char) → Prop where
  | last (p : List Char) : Covered overlap p [p]
  | more (front shared : List Char) {rest pieces} (h : shared.length = overlap) :
      Covered overlap (shared ++ rest) pieces → Covered overlap (front ++ shared ++ rest) ((front ++ shared) :: pieces)

/-- A piece stands in the chunk of that number, from that character on. -/
def Stands (chunks : List (List Char)) (piece : List Char) (place : ℕ × ℕ) : Prop :=
  ∃ c, chunks[place.1]? = some c ∧ piece <+: c.drop place.2

/-- One place is before another. -/
def Precedes (a b : ℕ × ℕ) : Prop := a.1 < b.1 ∨ a.1 = b.1 ∧ a.2 < b.2

/-- The pieces stand in the chunks, each behind the one before it. -/
def InOrder (chunks pieces : List (List Char)) : Prop :=
  ∃ places, List.Forall₂ (Stands chunks) pieces places ∧ places.Pairwise Precedes

namespace Chunking

/-- The chunks with the buffer behind them. -/
def all (s : Chunking) : List (List Char) := s.chunks ++ [s.cur]

/-- Where the next character of the buffer comes. -/
def place (s : Chunking) : ℕ × ℕ := (s.chunks.length, s.cur.length)

/-- The pieces stand in order in the chunks and the buffer. -/
def Holds (s : Chunking) (pieces : List (List Char)) : Prop :=
  ∃ places, List.Forall₂ (Stands s.all) pieces places ∧ places.Pairwise Precedes ∧ ∀ a ∈ places, Precedes a s.place

/-- Nothing is taken out of the chunks and the buffer. -/
structure Grows (s t : Chunking) : Prop where
  kept : ∀ (i : ℕ) (c : List Char), s.all[i]? = some c → ∃ d, t.all[i]? = some d ∧ c <+: d
  place : ∀ a, Precedes a s.place → Precedes a t.place

theorem Grows.stands {s t : Chunking} (h : s.Grows t) {piece : List Char} {a : ℕ × ℕ}
    (hstands : Stands s.all piece a) : Stands t.all piece a := by
  obtain ⟨c, hc, hin⟩ := hstands
  obtain ⟨d, hd, rest, rfl⟩ := h.kept a.1 c hc
  refine ⟨c ++ rest, hd, hin.trans ?_⟩
  rw [List.drop_append]
  exact List.prefix_append _ _

theorem Holds.grows {s t : Chunking} {pieces : List (List Char)} (h : s.Holds pieces) (hgrows : s.Grows t) :
    t.Holds pieces := by
  obtain ⟨places, hstands, horder, hbefore⟩ := h
  exact ⟨places, hstands.imp fun _ _ => hgrows.stands, horder, fun a ha => hgrows.place a (hbefore a ha)⟩

/-- A piece put behind all others. -/
theorem Holds.add {s t : Chunking} {pieces : List (List Char)} (h : s.Holds pieces) (hgrows : s.Grows t)
    {piece : List Char} {a : ℕ × ℕ} (hstands : Stands t.all piece a) (hfrom : ∀ b, Precedes b s.place → Precedes b a)
    (hto : Precedes a t.place) : t.Holds (pieces ++ [piece]) := by
  obtain ⟨places, hall, horder, hbefore⟩ := h
  refine ⟨places ++ [a], ?_, ?_, ?_⟩
  · exact List.rel_append (hall.imp fun _ _ => hgrows.stands) (.cons hstands .nil)
  · rw [List.pairwise_append]
    refine ⟨horder, List.pairwise_singleton _ _, ?_⟩
    intro b hb c hc
    rw [List.mem_singleton.mp hc]
    exact hfrom b (hbefore b hb)
  · intro b hb
    rcases List.mem_append.mp hb with hb | hb
    · exact hgrows.place b (hbefore b hb)
    · rw [List.mem_singleton.mp hb]
      exact hto

/-! What the loop does to the buffer. -/

theorem grows_of {s t : Chunking} (x : List Char) (more : List (List Char))
    (hall : t.all = s.chunks ++ (s.cur ++ x) :: more) (hplace : ∀ a, Precedes a s.place → Precedes a t.place) :
    s.Grows t := by
  refine ⟨?_, hplace⟩
  intro i c hc
  rw [hall]
  by_cases hi : i < s.chunks.length
  · refine ⟨c, ?_, List.prefix_rfl⟩
    rw [all, List.getElem?_append_left hi] at hc
    rw [List.getElem?_append_left hi, hc]
  · have hlast : i = s.chunks.length := by
      have hlt : i < s.all.length := (List.getElem?_eq_some_iff.mp hc).1
      simp only [all, List.length_append, List.length_singleton] at hlt
      omega
    subst hlast
    have hcur : s.cur = c := by simpa [all] using hc
    exact ⟨s.cur ++ x, by simp, hcur ▸ List.prefix_append _ _⟩

theorem precedes_next {s : Chunking} {a b : ℕ × ℕ} (hb : b.1 = s.chunks.length + 1) (ha : Precedes a s.place) :
    Precedes a b := by
  left
  simp only [place, Precedes] at ha
  omega

theorem grows_flush (s : Chunking) : s.Grows s.flush := by
  unfold flush
  split
  · exact ⟨fun i c hc => ⟨c, hc, List.prefix_rfl⟩, fun _ ha => ha⟩
  · exact grows_of [] [[]] (by simp [all]) fun a => precedes_next (by simp [place])

theorem flush_cur (s : Chunking) : s.flush.cur = [] := by
  unfold flush
  split
  · assumption
  · rfl

theorem Holds.emit {s : Chunking} {pieces : List (List Char)} (h : s.Holds pieces) (hcur : s.cur = [])
    (piece : List Char) : Holds ⟨s.chunks ++ [piece], []⟩ (pieces ++ [piece]) := by
  have hplace : s.place = (s.chunks.length, 0) := by simp [place, hcur]
  have hgrows : s.Grows ⟨s.chunks ++ [piece], []⟩ :=
    grows_of piece [[]] (by simp [all, hcur]) fun a => precedes_next (by simp [place])
  refine @Holds.add s _ _ h hgrows piece s.place ?_ (fun _ hb => hb) ?_
  · exact ⟨piece, by simp [all, hplace], by simp [hplace]⟩
  · left
    simp [place]

/-- The buffer grows by a piece. -/
theorem Holds.grow {s : Chunking} {pieces : List (List Char)} (h : s.Holds pieces) (gap : List Char)
    {piece : List Char} (hne : piece ≠ []) : Holds ⟨s.chunks, s.cur ++ gap ++ piece⟩ (pieces ++ [piece]) := by
  have hpos := List.length_pos_iff.mpr hne
  have hgrows : s.Grows ⟨s.chunks, s.cur ++ gap ++ piece⟩ := by
    apply grows_of (gap ++ piece) [] (by simp [all])
    intro a ha
    simp only [place, Precedes, List.length_append] at ha ⊢
    omega
  refine @Holds.add s _ _ h hgrows piece (s.chunks.length, s.cur.length + gap.length) ?_ ?_ ?_
  · have hdrop : (s.cur ++ gap ++ piece).drop (s.cur.length + gap.length) = piece := by
      rw [← List.length_append, List.drop_left]
    exact ⟨s.cur ++ gap ++ piece, by simp [all], by simp only [hdrop, List.prefix_rfl]⟩
  · intro b hb
    simp only [place, Precedes] at hb ⊢
    omega
  · right
    simp [place, hpos]

theorem Holds.next {s : Chunking} {pieces : List (List Char)} (h : s.Holds pieces) (tail : List Char)
    {piece : List Char} (hne : piece ≠ []) : Holds ⟨s.chunks ++ [s.cur], tail ++ piece⟩ (pieces ++ [piece]) := by
  have hpos := List.length_pos_iff.mpr hne
  have hgrows : s.Grows ⟨s.chunks ++ [s.cur], tail ++ piece⟩ :=
    grows_of [] [tail ++ piece] (by simp [all]) fun a => precedes_next (by simp [place])
  refine @Holds.add s _ _ h hgrows piece (s.chunks.length + 1, tail.length) ?_ ?_ ?_
  · exact ⟨tail ++ piece, by simp [all], by simp⟩
  · exact fun b => precedes_next rfl
  · right
    simp [place, hpos]

end Chunking

/-! ## The loop -/

/-- The chunks and the buffer are not too long. -/
structure Bounded (bound : ℕ) (s : Chunking) : Prop where
  chunks : ∀ c ∈ s.chunks, c.length ≤ bound
  cur : s.cur.length ≤ bound

theorem Bounded.flush {bound : ℕ} {s : Chunking} (h : Bounded bound s) : Bounded bound s.flush := by
  unfold Chunking.flush
  split
  · exact h
  · constructor
    · intro c hc
      rcases List.mem_append.mp hc with hc | hc
      · exact h.chunks c hc
      · exact List.mem_singleton.mp hc ▸ h.cur
    · simp

section

variable {size overlap : ℕ}

/-- A long text is its first piece, and what is left from `overlap` characters before the end of it. -/
theorem Covered.cut (h : overlap < size) {p : List Char} (hlong : size < p.length) {pieces : List (List Char)}
    (hrest : Covered overlap (p.drop (size - overlap)) pieces) : Covered overlap p (p.take size :: pieces) := by
  have hshared : ((p.drop (size - overlap)).take overlap).length = overlap := by
    rw [List.length_take, List.length_drop]
    omega
  have hfirst : p.take (size - overlap) ++ (p.drop (size - overlap)).take overlap = p.take size := by
    rw [← List.take_add]
    congr 1
    omega
  have hdrop : (p.drop (size - overlap)).take overlap ++ p.drop size = p.drop (size - overlap) := by
    conv_rhs => rw [← List.take_append_drop overlap (p.drop (size - overlap))]
    rw [List.drop_drop]
    congr 2
    omega
  rw [← hdrop] at hrest
  have hcovered := Covered.more (p.take (size - overlap)) _ hshared hrest
  rwa [hfirst, List.take_append_drop] at hcovered

variable (h : overlap < size)

/-- A long paragraph is cut into pieces that are chunks, and a last one that is not too long. -/
theorem splitOversize_spec {s : Chunking} {p : List Char} {pieces : List (List Char)} (hs : s.Holds pieces)
    (hbound : Bounded (size + overlap + 2) s) (hne : p ≠ []) :
    ∃ cut, Covered overlap p (cut ++ [(splitOversize h s p).2]) ∧ (p.length ≤ size → cut = []) ∧
      (splitOversize h s p).1.Holds (pieces ++ cut) ∧ Bounded (size + overlap + 2) (splitOversize h s p).1 ∧
      (splitOversize h s p).2 ≠ [] ∧ (splitOversize h s p).2.length ≤ size := by
  induction s, p using splitOversize.induct h generalizing pieces with
  | case1 s p hlong ih =>
    have hholds := (hs.grows (Chunking.grows_flush s)).emit (Chunking.flush_cur s) (p.take size)
    have hbound' : Bounded (size + overlap + 2) ⟨s.flush.chunks ++ [p.take size], []⟩ := by
      constructor
      · intro c hc
        rcases List.mem_append.mp hc with hc | hc
        · exact hbound.flush.chunks c hc
        · rw [List.mem_singleton.mp hc, List.length_take]
          omega
      · simp
    have hne' : p.drop (size - overlap) ≠ [] := by
      rw [ne_eq, List.drop_eq_nil_iff]
      omega
    obtain ⟨cut, hcovered, -, hholds, hbound, hrest⟩ := ih hholds hbound' hne'
    rw [splitOversize, if_pos hlong]
    refine ⟨p.take size :: cut, hcovered.cut h hlong, fun hshort => absurd hlong (by omega), ?_, hbound, hrest⟩
    simpa using hholds
  | case2 s p hshort =>
    rw [splitOversize, if_neg hshort]
    exact ⟨[], .last p, fun _ => rfl, by simpa using hs, hbound, hne, Nat.le_of_not_lt hshort⟩

/-- One paragraph puts its pieces behind all others. -/
theorem addParagraph_spec {s : Chunking} {p : List Char} {pieces : List (List Char)} (hs : s.Holds pieces)
    (hbound : Bounded (size + overlap + 2) s) (hne : p ≠ []) :
    ∃ cut, Covered overlap p cut ∧ (p.length ≤ size → cut = [p]) ∧ (addParagraph h s p).Holds (pieces ++ cut) ∧
      Bounded (size + overlap + 2) (addParagraph h s p) := by
  obtain ⟨cut, hcovered, hshort, hholds, hbound, hrest, hlength⟩ := splitOversize_spec h hs hbound hne
  refine ⟨cut ++ [(splitOversize h s p).2], hcovered, ?_, ?_⟩
  · intro hle
    rw [splitOversize, if_neg (Nat.not_lt.mpr hle), hshort hle]
    rfl
  · rw [← List.append_assoc]
    unfold addParagraph
    generalize splitOversize h s p = r at *
    obtain ⟨t, q⟩ := r
    dsimp only at *
    by_cases hflush : t.cur ≠ [] ∧ size < t.cur.length + q.length + 2
    · rw [if_pos hflush]
      have hchunks : ∀ c ∈ t.chunks ++ [t.cur], c.length ≤ size + overlap + 2 := by
        intro c hc
        rcases List.mem_append.mp hc with hc | hc
        · exact hbound.chunks c hc
        · exact List.mem_singleton.mp hc ▸ hbound.cur
      by_cases hzero : overlap = 0
      · rw [if_pos hzero]
        exact ⟨hholds.next [] hrest, hchunks, by dsimp only; omega⟩
      · rw [if_neg hzero]
        refine ⟨hholds.next _ hrest, hchunks, ?_⟩
        simp only [List.length_append, List.length_drop, List.length_cons, List.length_nil]
        omega
    · rw [if_neg hflush]
      by_cases hempty : t.cur = []
      · rw [if_pos hempty]
        have hgrow := hholds.grow [] hrest
        rw [hempty] at hgrow
        exact ⟨hgrow, hbound.chunks, by dsimp only; omega⟩
      · rw [if_neg hempty]
        have hfit : t.cur.length + q.length + 2 ≤ size := by
          by_contra hlong
          exact hflush ⟨hempty, by omega⟩
        refine ⟨hholds.grow _ hrest, hbound.chunks, ?_⟩
        simp only [List.length_append, List.length_cons, List.length_nil]
        omega

/-- The paragraphs' pieces, in order. -/
theorem foldl_addParagraph_spec {ps : List (List Char)} (hne : ∀ p ∈ ps, p ≠ []) {s : Chunking}
    {pieces : List (List Char)} (hs : s.Holds pieces) (hbound : Bounded (size + overlap + 2) s) :
    ∃ cuts, List.Forall₂ (fun p cut => Covered overlap p cut ∧ (p.length ≤ size → cut = [p])) ps cuts ∧
      (ps.foldl (addParagraph h) s).Holds (pieces ++ cuts.flatten) ∧
      Bounded (size + overlap + 2) (ps.foldl (addParagraph h) s) := by
  induction ps generalizing s pieces with
  | nil => exact ⟨[], .nil, by simpa using hs, hbound⟩
  | cons p ps ih =>
    obtain ⟨cut, hcovered, hshort, hholds, hbound⟩ := addParagraph_spec h hs hbound (hne p List.mem_cons_self)
    obtain ⟨cuts, hall, hholds, hbound⟩ :=
      ih (fun q hq => hne q (List.mem_cons_of_mem _ hq)) hholds hbound
    refine ⟨cut :: cuts, .cons ⟨hcovered, hshort⟩ hall, ?_, hbound⟩
    rw [List.flatten_cons, ← List.append_assoc]
    exact hholds

/-- With an empty buffer all pieces stand in the chunks. -/
theorem Chunking.Holds.inOrder {s : Chunking} {pieces : List (List Char)} (hs : s.Holds pieces) (hcur : s.cur = []) :
    InOrder s.chunks pieces := by
  obtain ⟨places, hstands, horder, hbefore⟩ := hs
  refine ⟨places, ?_, horder⟩
  have hfirst : ∀ a ∈ places, a.1 < s.chunks.length := by
    intro a ha
    have hlt := hbefore a ha
    simp only [Chunking.place, Precedes, hcur, List.length_nil] at hlt
    omega
  clear horder hbefore
  induction hstands with
  | nil => exact .nil
  | cons hpiece hrest ih =>
    refine .cons ?_ (ih fun a ha => hfirst a (List.mem_cons_of_mem _ ha))
    obtain ⟨c, hc, hin⟩ := hpiece
    rw [Chunking.all, List.getElem?_append_left (hfirst _ List.mem_cons_self)] at hc
    exact ⟨c, hc, hin⟩

end

/-- **The chunks lose nothing of a text.** Its paragraphs, which hold no blank line, stand in it with
spaces around them and a blank line between two; each is a piece, or is covered by pieces when it is
long; the pieces stand in the chunks in this order; and no chunk is too long. -/
theorem chunkText_complete {size overlap : ℕ} (h : overlap < size) (text : List Char) :
    InText (paragraphs text) text ∧ ∃ chunks, chunkText text size overlap = some chunks ∧
      (∀ c ∈ chunks, c.length ≤ size + overlap + 2) ∧
      ∃ cuts, List.Forall₂ (fun p cut => Covered overlap p cut ∧ (p.length ≤ size → cut = [p])) (paragraphs text) cuts ∧
        InOrder chunks cuts.flatten := by
  have hne : ∀ p ∈ paragraphs text, p ≠ [] := by
    intro p hp
    simpa using (List.mem_filter.mp hp).2
  have hstart : Chunking.Holds ⟨[], []⟩ [] := ⟨[], .nil, .nil, by simp⟩
  obtain ⟨cuts, hall, hholds, hbound⟩ := foldl_addParagraph_spec h hne hstart ⟨by simp, by simp⟩
  refine ⟨paragraphs_inText text, _, dif_pos h, hbound.flush.chunks, cuts, hall, ?_⟩
  exact (hholds.grows (Chunking.grows_flush _)).inOrder (Chunking.flush_cur _)

theorem chunkText_complete_short : InText (paragraphs "ab\n\ncdefghij".toList) "ab\n\ncdefghij".toList ∧
    ∃ chunks, chunkText "ab\n\ncdefghij".toList 5 2 = some chunks ∧ (∀ c ∈ chunks, c.length ≤ 5 + 2 + 2) ∧
      ∃ cuts, List.Forall₂ (fun p cut => Covered 2 p cut ∧ (p.length ≤ 5 → cut = [p]))
        (paragraphs "ab\n\ncdefghij".toList) cuts ∧ InOrder chunks cuts.flatten :=
  chunkText_complete (by decide) _

end Caips.Rag
