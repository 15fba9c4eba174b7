/-
Caips.Tools.ExtraTheorems — what a rendered table shows.

A table is a row of pieces, cells and what stands between them, and `clip` writes
pieces on a page until one does not fit, which is what the nested loops of
`_format_rows` do (`written_page`). A cell that is too long ends the page as well
as one that is out of room. So the text is never too long and shows a beginning of
the table (`formatRows_length`, `formatRows_shows`), but a table that fits is shown
only if no cell before its last is cut (`rows_kept_iff`).
-/
import Caips.Tools.Extra
import Mathlib.Data.List.Infix
import Mathlib.Data.List.TakeWhile

namespace Caips.Tools.Extra

/-- What a rendered table is made of. -/
inductive Piece where
  | separator (c : Char)
  | cell (text : Text)

namespace Piece

def kept : Piece → Text
  | separator c => [c]
  | cell text => text.take maxCellChars

def long : Piece → Bool
  | separator _ => false
  | cell text => maxCellChars < text.length

@[simp] theorem kept_separator (c : Char) : (separator c).kept = [c] := rfl

@[simp] theorem kept_cell (text : Text) : (cell text).kept = text.take maxCellChars := rfl

@[simp] theorem long_separator (c : Char) : (separator c).long = false := rfl

@[simp] theorem long_cell (text : Text) : (cell text).long = decide (maxCellChars < text.length) := rfl

end Piece

/-- The cells of a row behind its first. -/
def tailPieces (cells : List Text) : List Piece := cells.flatMap fun cell => [.separator '\t', .cell cell]

def rowPieces : List Text → List Piece
  | [] => []
  | cell :: rest => .cell cell :: tailPieces rest

def linePieces (row : List Text) : List Piece := .separator '\n' :: rowPieces row

/-- The rows up to the limit, below their header. -/
def tablePieces (cols : List Text) (rows : List (List Text)) : List Piece :=
  rowPieces cols ++ (rows.take maxRows).flatMap linePieces

/-- The last row, when there are more rows. -/
def lastPieces (rows : List (List Text)) : List Piece := if maxRows < rows.length then linePieces [moreRows] else []

def render (pieces : List Piece) : Text := pieces.flatMap Piece.kept

/-- The table with each cell cut. -/
def cutTable (cols : List Text) (rows : List (List Text)) : Text :=
  ['\n'].intercalate ((cols :: rows.take maxRows).map fun row => ['\t'].intercalate (row.map (·.take maxCellChars)))

/-- The text behind the first cell of the table that is too long. -/
def behindLong (cols : List Text) (rows : List (List Text)) : Text :=
  render ((tablePieces cols rows).dropWhile fun piece => !piece.long).tail

@[simp] theorem render_nil : render [] = [] := rfl

@[simp] theorem render_cons (piece : Piece) (pieces : List Piece) :
    render (piece :: pieces) = piece.kept ++ render pieces := rfl

@[simp] theorem render_append (pieces more : List Piece) : render (pieces ++ more) = render pieces ++ render more := by
  simp [render]

theorem render_tailPieces (cells : List Text) :
    render (tailPieces cells) = cells.flatMap fun cell => '\t' :: cell.take maxCellChars := by
  induction cells with
  | nil => rfl
  | cons cell rest ih =>
    have hcons : tailPieces (cell :: rest) = .separator '\t' :: .cell cell :: tailPieces rest := rfl
    simp [hcons, ih]

theorem intercalate_cons (c : Char) (t : Text) (rest : List Text) :
    [c].intercalate (t :: rest) = t ++ rest.flatMap fun t => c :: t := by
  induction rest generalizing t with
  | nil => simp [List.intercalate]
  | cons u rest ih =>
    have hcons : [c].intercalate (t :: u :: rest) = t ++ ([c] ++ [c].intercalate (u :: rest)) := by
      simp [List.intercalate]
    simp [hcons, ih]

theorem render_rowPieces (row : List Text) : render (rowPieces row) = ['\t'].intercalate (row.map (·.take maxCellChars)) := by
  cases row with
  | nil => rfl
  | cons cell rest => simp [rowPieces, render_tailPieces, intercalate_cons, List.flatMap_map]

theorem render_tablePieces (cols : List Text) (rows : List (List Text)) : render (tablePieces cols rows) = cutTable cols rows := by
  have hlines (lines : List (List Text)) : render (lines.flatMap linePieces) =
      lines.flatMap fun row => '\n' :: ['\t'].intercalate (row.map (·.take maxCellChars)) := by
    induction lines with
    | nil => rfl
    | cons row rest ih => simp [linePieces, ih, render_rowPieces]
  simp only [tablePieces, cutTable, render_append, hlines, render_rowPieces, List.map_cons, intercalate_cons, List.flatMap_map]

/-! ## Pieces on a page -/

/-- The pieces on a page with so much room, up to the first that does not fit, and
whether there is such a piece. -/
def clip : ℕ → List Piece → Text × Bool
  | _, [] => ([], false)
  | room, .separator c :: rest => if room ≤ 1 then ([], true) else (c :: (clip (room - 1) rest).1, (clip (room - 1) rest).2)
  | room, .cell text :: rest =>
    if min maxCellChars room < text.length then (text.take (min maxCellChars room), true)
    else (text ++ (clip (room - text.length) rest).1, (clip (room - text.length) rest).2)

theorem clip_length (room : ℕ) (pieces : List Piece) : (clip room pieces).1.length ≤ room := by
  induction pieces generalizing room with
  | nil => simp [clip]
  | cons piece rest ih =>
    cases piece with
    | separator c =>
      have hrest := ih (room - 1)
      rw [clip]
      split
      · simp
      · simp only [List.length_cons]
        omega
    | cell text =>
      have hrest := ih (room - text.length)
      rw [clip]
      split
      · simp only [List.length_take]
        omega
      · simp only [List.length_append]
        omega

/-- A page shows a beginning of its pieces, and all of them if each fits. -/
theorem clip_shows (room : ℕ) (pieces : List Piece) :
    (clip room pieces).1 <+: render pieces ∧ ((clip room pieces).2 = false → (clip room pieces).1 = render pieces) := by
  induction pieces generalizing room with
  | nil => simp [clip]
  | cons piece rest ih =>
    cases piece with
    | separator c =>
      obtain ⟨hbegin, hall⟩ := ih (room - 1)
      rw [clip]
      split
      · simp
      · simp only [render_cons, Piece.kept_separator, List.singleton_append]
        exact ⟨List.cons_prefix_cons.mpr ⟨rfl, hbegin⟩, fun h => by rw [hall h]⟩
    | cell text =>
      obtain ⟨hbegin, hall⟩ := ih (room - text.length)
      rw [clip]
      split
      · have hcut : text.take (min maxCellChars room) <+: text.take maxCellChars := by
          rw [Nat.min_comm, ← List.take_take]
          exact List.take_prefix _ _
        exact ⟨hcut.trans (List.prefix_append _ _), nofun⟩
      · next hfits =>
          have hkept : text.take maxCellChars = text := List.take_of_length_le (by omega)
          simp only [render_cons, Piece.kept_cell, hkept]
          exact ⟨(List.prefix_append_right_inj text).mpr hbegin, fun h => by rw [hall h]⟩

/-- A page that is full stays as it is, and one that is not is written on. -/
theorem clip_append (room : ℕ) (pieces more : List Piece) :
    clip room (pieces ++ more) = if (clip room pieces).2 then clip room pieces else
      ((clip room pieces).1 ++ (clip (room - (clip room pieces).1.length) more).1,
        (clip (room - (clip room pieces).1.length) more).2) := by
  induction pieces generalizing room with
  | nil => simp [clip]
  | cons piece rest ih =>
    cases piece with
    | separator c =>
      simp only [List.cons_append, clip]
      split
      · rfl
      · rw [ih]
        cases hfull : (clip (room - 1) rest).2 with
        | true => simpa using hfull
        | false => simp [Nat.sub_sub, Nat.add_comm]
    | cell text =>
      simp only [List.cons_append, clip]
      split
      · rfl
      · rw [ih]
        cases hfull : (clip (room - text.length) rest).2 with
        | true => simpa using hfull
        | false => simp [Nat.sub_sub]

/-- With room for all pieces the page ends with the first cell that is too long. -/
theorem clip_of_room (room : ℕ) (pieces : List Piece) (h : (render pieces).length < room) :
    (clip room pieces).1 ++ render (pieces.dropWhile fun piece => !piece.long).tail = render pieces ∧
      (clip room pieces).2 = pieces.any Piece.long := by
  induction pieces generalizing room with
  | nil => simp [clip]
  | cons piece rest ih =>
    simp only [render_cons, List.length_append] at h
    cases piece with
    | separator c =>
      have hroom : (render rest).length < room - 1 := by
        simp only [Piece.kept_separator, List.length_singleton] at h
        omega
      obtain ⟨htext, hfull⟩ := ih (room - 1) hroom
      have hmore : ¬room ≤ 1 := by omega
      simp [clip, hmore, htext, hfull]
    | cell text =>
      simp only [Piece.kept_cell, List.length_take] at h
      by_cases hlong : maxCellChars < text.length
      · have hmin : min maxCellChars room = maxCellChars := by omega
        simp [clip, hmin, hlong]
      · have hfits : ¬min maxCellChars room < text.length := by omega
        obtain ⟨htext, hfull⟩ := ih (room - text.length) (by omega)
        have hkept : text.take maxCellChars = text := List.take_of_length_le (by omega)
        simp [clip, hfits, hlong, hkept, htext, hfull]

/-! ## The page of the source -/

theorem dataLimit_pos : 0 < dataLimit := by decide

/-- The loop over cells that are not the first. -/
theorem appendCells_tail (available index rowUsed : ℕ) (cells : List Text) :
    (appendCells available (index + 1) rowUsed cells).1.flatten = (clip (available - rowUsed) (tailPieces cells)).1 ∧
      (appendCells available (index + 1) rowUsed cells).2.1 =
        rowUsed + (clip (available - rowUsed) (tailPieces cells)).1.length ∧
      (appendCells available (index + 1) rowUsed cells).2.2 = (clip (available - rowUsed) (tailPieces cells)).2 := by
  induction cells generalizing index rowUsed with
  | nil => simp [appendCells, tailPieces, clip]
  | cons cell rest ih =>
    have hcons : tailPieces (cell :: rest) = .separator '\t' :: .cell cell :: tailPieces rest := rfl
    have hroom : available - rowUsed ≤ 1 ↔ available ≤ rowUsed + 1 := by omega
    rw [hcons, appendCells, clip]
    simp only [Nat.add_eq_zero_iff, Nat.one_ne_zero, and_false, if_false, List.length_singleton, hroom, clip, ← Nat.sub_sub]
    by_cases hfull : available ≤ rowUsed + 1
    · simp [hfull]
    · simp only [if_neg hfull]
      split
      · next hlong => simp [Nat.min_eq_right hlong.le]; omega
      · next hshort =>
          have hlen : cell.length ≤ min maxCellChars (available - rowUsed - 1) := by omega
          obtain ⟨htext, hused, hbroken⟩ := ih (index + 1) (rowUsed + 1 + cell.length)
          simp only [← Nat.sub_sub] at htext hused hbroken
          simp [Nat.min_eq_left hlen, List.take_of_length_le hlen, htext, hused, hbroken]
          omega

/-- The loop over the cells of a row. -/
theorem appendCells_row {available : ℕ} (h : 0 < available) (cells : List Text) :
    (appendCells available 0 0 cells).1.flatten = (clip available (rowPieces cells)).1 ∧
      (appendCells available 0 0 cells).2.1 = (clip available (rowPieces cells)).1.length ∧
      (appendCells available 0 0 cells).2.2 = (clip available (rowPieces cells)).2 := by
  cases cells with
  | nil => simp [appendCells, rowPieces, clip]
  | cons cell rest =>
    have hroom : ¬available ≤ 0 := by omega
    rw [rowPieces, appendCells, clip]
    simp only [if_true, List.length_nil, Nat.add_zero, if_neg hroom, Nat.sub_zero, Nat.zero_add]
    split
    · next hlong => simp [Nat.min_eq_right hlong.le]; omega
    · next hshort =>
        have hlen : cell.length ≤ min maxCellChars available := by omega
        obtain ⟨htext, hused, hbroken⟩ := appendCells_tail available 0 cell.length rest
        simp only [Nat.zero_add] at htext hused hbroken
        simp [Nat.min_eq_left hlen, List.take_of_length_le hlen, htext, hused, hbroken]

/-- The page shows the pieces so far. -/
structure Written (p : Page) (pieces : List Piece) : Prop where
  begun : p.out ≠ []
  used : p.used = p.out.flatten.length
  shown : p.out.flatten = (clip dataLimit pieces).1
  truncated : p.truncated = (clip dataLimit pieces).2

namespace Written

variable {p : Page} {pieces : List Piece}

theorem full (h : Written p pieces) (hfull : p.truncated = true) (more : List Piece) : Written p (pieces ++ more) := by
  have hclip : clip dataLimit (pieces ++ more) = clip dataLimit pieces := by
    rw [clip_append, if_pos (h.truncated.symm.trans hfull)]
  exact ⟨h.begun, h.used, by rw [hclip, h.shown], by rw [hclip, h.truncated]⟩

/-- One more row. -/
theorem appendRow (h : Written p pieces) (hroom : p.truncated = false) (row : List Text) :
    Written (p.appendRow row) (pieces ++ linePieces row) := by
  have hclip : clip dataLimit (pieces ++ linePieces row) =
      (p.out.flatten ++ (clip (dataLimit - p.used) (linePieces row)).1, (clip (dataLimit - p.used) (linePieces row)).2) := by
    rw [clip_append, ← h.truncated, hroom, ← h.shown, ← h.used]
    rfl
  have hpiece : clip (dataLimit - p.used) (linePieces row) = if dataLimit - p.used - 1 = 0 then ([], true) else
      ('\n' :: (clip (dataLimit - p.used - 1) (rowPieces row)).1, (clip (dataLimit - p.used - 1) (rowPieces row)).2) := by
    have hline : dataLimit - p.used ≤ 1 ↔ dataLimit - p.used - 1 = 0 := by omega
    rw [linePieces, clip]
    simp only [hline]
  have hbreak : p.lineBreak = ['\n'] := if_neg h.begun
  unfold Page.appendRow
  simp only [hbreak, List.length_singleton]
  split
  · next hfull =>
      rw [hpiece, if_pos hfull] at hclip
      exact ⟨h.begun, h.used, by simp [hclip], by simp [hclip]⟩
  · next hspace =>
      rw [hpiece, if_neg hspace] at hclip
      obtain ⟨htext, hused, hbroken⟩ := appendCells_row (Nat.pos_of_ne_zero hspace) row
      constructor
      · simp
      · simp only [hused, List.flatten_append, List.flatten_singleton, List.length_append, htext, List.length_singleton, ← h.used]
      · simp only [hclip, List.flatten_append, List.flatten_singleton, htext, List.singleton_append]
      · simp only [hclip, hroom, hbroken, Bool.false_or]

theorem appendRows (h : Written p pieces) (hroom : p.truncated = false) (rows : List (List Text)) :
    Written (p.appendRows rows) (pieces ++ rows.flatMap linePieces) := by
  induction rows generalizing p pieces with
  | nil => simpa [Page.appendRows] using h
  | cons row rest ih =>
    have hrow := h.appendRow hroom row
    rw [List.flatMap_cons, ← List.append_assoc, Page.appendRows]
    cases hfull : (p.appendRow row).truncated with
    | true => exact hrow.full hfull _
    | false => exact ih hrow hfull

end Written

theorem written_header (cols : List Text) : Written (Page.appendRow {} cols) (rowPieces cols) := by
  obtain ⟨htext, hused, hbroken⟩ := appendCells_row dataLimit_pos cols
  have hpage : Page.appendRow {} cols = ⟨[(appendCells dataLimit 0 0 cols).1.flatten],
      (appendCells dataLimit 0 0 cols).2.1, (appendCells dataLimit 0 0 cols).2.2⟩ := by
    simp [Page.appendRow, Page.lineBreak, dataLimit_pos.ne']
  rw [hpage]
  constructor
  · simp
  · simp [htext, hused]
  · simp [htext]
  · exact hbroken

/-- The page of a table shows its pieces, one behind the other. -/
theorem written_page (cols : List Text) (rows : List (List Text)) :
    Written (page cols rows) (tablePieces cols rows ++ lastPieces rows) := by
  have htable : Written (if (Page.appendRow {} cols).truncated then Page.appendRow {} cols
      else (Page.appendRow {} cols).appendRows (rows.take maxRows)) (tablePieces cols rows) := by
    cases hfull : (Page.appendRow {} cols).truncated with
    | true => exact (written_header cols).full hfull _
    | false => exact (written_header cols).appendRows hfull _
  unfold page lastPieces
  simp only
  generalize (if (Page.appendRow {} cols).truncated then Page.appendRow {} cols
      else (Page.appendRow {} cols).appendRows (rows.take maxRows)) = p at htable ⊢
  by_cases hmore : maxRows < rows.length
  · cases hfull : p.truncated with
    | true => simpa [hmore] using htable.full hfull _
    | false => simpa [hmore] using htable.appendRow hfull [moreRows]
  · simpa [hmore] using htable

theorem formatRows_eq (cols : List Text) (rows : List (List Text)) :
    formatRows cols rows = (clip dataLimit (tablePieces cols rows ++ lastPieces rows)).1 ++
      if (clip dataLimit (tablePieces cols rows ++ lastPieces rows)).2 then '\n' :: marker else [] := by
  have h := written_page cols rows
  have hbreak : (page cols rows).lineBreak = ['\n'] := if_neg h.begun
  unfold formatRows Page.text
  rw [h.shown, h.truncated, hbreak]
  split
  · rfl
  · simp

/-! ## What is shown -/

theorem formatRows_length (cols : List Text) (rows : List (List Text)) : (formatRows cols rows).length ≤ maxResultChars := by
  have hclip := clip_length dataLimit (tablePieces cols rows ++ lastPieces rows)
  have hmarker : dataLimit + (marker.length + 1) = maxResultChars := by decide
  rw [formatRows_eq, List.length_append]
  split
  · simp only [List.length_cons]
    omega
  · simp only [List.length_nil]
    omega

/-- The text behind the table, if there are more rows. -/
def lastLine (rows : List (List Text)) : Text := if maxRows < rows.length then '\n' :: moreRows else []

theorem render_lastPieces (rows : List (List Text)) : render (lastPieces rows) = lastLine rows := by
  unfold lastPieces lastLine
  split
  · decide
  · rfl

theorem formatRows_shows (cols : List Text) (rows : List (List Text)) :
    ∃ shown, shown <+: cutTable cols rows ++ lastLine rows ∧
      (formatRows cols rows = shown ∨ formatRows cols rows = shown ++ '\n' :: marker) := by
  obtain ⟨hbegin, -⟩ := clip_shows dataLimit (tablePieces cols rows ++ lastPieces rows)
  rw [render_append, render_tablePieces, render_lastPieces] at hbegin
  refine ⟨_, hbegin, ?_⟩
  rw [formatRows_eq]
  split
  · exact .inr rfl
  · exact .inl (List.append_nil _)

/-- A table that fits is shown up to its first cell that is too long. -/
theorem formatRows_of_fits {cols : List Text} {rows : List (List Text)} (h : (cutTable cols rows).length < dataLimit) :
    cutTable cols rows <+: formatRows cols rows ↔ behindLong cols rows <+: '\n' :: marker := by
  have hfits : (render (tablePieces cols rows)).length < dataLimit := by rwa [render_tablePieces]
  obtain ⟨htext, hfull⟩ := clip_of_room dataLimit (tablePieces cols rows) hfits
  rw [formatRows_eq, clip_append, hfull]
  rw [render_tablePieces] at htext
  cases hlong : (tablePieces cols rows).any Piece.long with
  | true =>
    simp only [if_true, hfull, hlong]
    conv_lhs => rw [← htext]
    rw [List.prefix_append_right_inj]
    rfl
  | false =>
    have hnone : (tablePieces cols rows).dropWhile (fun piece => !piece.long) = [] := by
      rw [List.dropWhile_eq_nil_iff]
      intro piece hpiece
      simpa using List.any_eq_false.mp hlong piece hpiece
    have hbehind : behindLong cols rows = [] := by simp [behindLong, hnone]
    rw [hnone] at htext
    simp only [List.tail_nil, render_nil, List.append_nil] at htext
    rw [hbehind, htext, if_neg (by simp), List.append_assoc]
    simp

/-- The text is bounded and shows the rows in order, and a table that fits is all
there exactly if what stands behind its first cell that is too long, if there is
one, reads as the marker does. -/
theorem rows_kept_iff (cols : List Text) (rows : List (List Text)) :
    ((formatRows cols rows).length ≤ maxResultChars ∧
      (∃ shown, shown <+: cutTable cols rows ++ lastLine rows ∧
        (formatRows cols rows = shown ∨ formatRows cols rows = shown ++ '\n' :: marker)) ∧
      ((cutTable cols rows).length < dataLimit → cutTable cols rows <+: formatRows cols rows)) ↔
    ((cutTable cols rows).length < dataLimit → behindLong cols rows <+: '\n' :: marker) := by
  constructor
  · intro h hfits
    obtain ⟨-, -, hkept⟩ := h
    exact (formatRows_of_fits hfits).mp (hkept hfits)
  · intro h
    exact ⟨formatRows_length cols rows, formatRows_shows cols rows, fun hfits => (formatRows_of_fits hfits).mpr (h hfits)⟩

/-- Behind a cell that is too long a row is lost. -/
theorem row_lost : (cutTable ["a".toList] [[List.replicate 501 'x'], ["b".toList]]).length < dataLimit ∧
    ¬cutTable ["a".toList] [[List.replicate 501 'x'], ["b".toList]] <+:
      formatRows ["a".toList] [[List.replicate 501 'x'], ["b".toList]] := by
  have hfits : (cutTable ["a".toList] [[List.replicate 501 'x'], ["b".toList]]).length < dataLimit := by decide +kernel
  have hbehind : ¬behindLong ["a".toList] [[List.replicate 501 'x'], ["b".toList]] <+: '\n' :: marker := by decide +kernel
  exact ⟨hfits, fun hkept => hbehind ((formatRows_of_fits hfits).mp hkept)⟩

end Caips.Tools.Extra
