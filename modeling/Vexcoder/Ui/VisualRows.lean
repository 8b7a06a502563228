import Vexcoder.Ui.InputMetrics

/-!
# Wrapping and layout agree

`Wrapped` is what both loops compute: the rows that are closed, each with the characters it shows and
whether a newline ends it, and the characters of the row that is open.  `wrapInputLines` gives the
texts of these rows (`wrap_refines`) and `visualLayout` their byte ranges and the place of the cursor
among them (`layout_refines`).
-/

namespace Vexcoder.Ui

open Base Lib.Offsets LayoutState

/-! ### Rows -/

structure Row where
  text : List Char
  /-- A newline ends the row. -/
  newline : Bool

def Row.chars (r : Row) : List Char := r.text ++ if r.newline then ['\n'] else []

def rowChars (rows : List Row) : List Char := rows.flatMap Row.chars

@[simp] theorem rowChars_nil : rowChars [] = [] := rfl

@[simp] theorem rowChars_append (rows rows' : List Row) :
    rowChars (rows ++ rows') = rowChars rows ++ rowChars rows' := List.flatMap_append

variable {ls : LayoutState} {cursor : ℕ} {l : VisualLayout} (r : Row) (width : ℕ)
  (input : List Char) (s : Wrapped) (start : ℕ)

@[simp] theorem rowChars_cons (rows : List Row) :
    rowChars (r :: rows) = r.text ++ ((if r.newline then ['\n'] else []) ++ rowChars rows) := by
  show r.chars ++ rowChars rows = _
  rw [Row.chars, List.append_assoc]

/-- The byte ranges of the rows, of which the first starts at `start`. -/
def spansFrom : ℕ → List Row → List (ℕ × ℕ)
  | _, [] => []
  | start, r :: rows =>
    (start, start + byteLen r.text) :: spansFrom (start + byteLen r.chars) rows

theorem spansFrom_append (rows rows' : List Row) :
    spansFrom start (rows ++ rows') =
      spansFrom start rows ++ spansFrom (start + byteLen (rowChars rows)) rows' := by
  induction rows generalizing start with
  | nil => rfl
  | cons r rows ih =>
    show _ :: spansFrom _ (rows ++ rows') = _ :: (spansFrom _ rows ++ _)
    rw [ih, show rowChars (r :: rows) = r.chars ++ rowChars rows from rfl, byteLen_append, Nat.add_assoc]

theorem spansFrom_length (rows : List Row) : (spansFrom start rows).length = rows.length := by
  induction rows generalizing start with
  | nil => rfl
  | cons r rows ih => exact congrArg (· + 1) (ih _)

def withoutReturns (s : List Char) : List Char := s.filter (· ≠ '\r')

/-- A place among the rows: in row `row`, behind the columns `col`, at the byte `byte`. -/
def At (w : CharWidths) (rows : List Row) (byte row col : ℕ) : Prop :=
  ∃ before x y newline after, rows = before ++ ⟨x ++ y, newline⟩ :: after ∧ before.length = row ∧
    byteLen (rowChars before) + byteLen x = byte ∧ extent w.charDisplayWidth x = col

variable (w : CharWidths)

theorem At.grow {w : CharWidths} {closed : List Row} {cur : List Char} {newline : Bool}
    {byte row col : ℕ} (h : At w (closed ++ [⟨cur, newline⟩]) byte row col) (more : List Char)
    (newline' : Bool) (later : List Row) :
    At w (closed ++ ⟨cur ++ more, newline'⟩ :: later) byte row col := by
  obtain ⟨before, x, y, n, after, hrows, hrow, hbyte, hcol⟩ := h
  rcases List.eq_nil_or_concat after with rfl | ⟨after', last, rfl⟩
  · obtain ⟨rfl, heq⟩ := List.append_inj' hrows rfl
    obtain ⟨rfl, -⟩ := Row.mk.inj (List.cons.inj heq).1
    exact ⟨closed, x, y ++ more, newline', later, by rw [List.append_assoc], hrow, hbyte, hcol⟩
  · rw [List.concat_eq_append, ← List.cons_append, ← List.append_assoc] at hrows
    obtain ⟨rfl, -⟩ := List.append_inj' hrows rfl
    refine ⟨before, x, y, n, after' ++ ⟨cur ++ more, newline'⟩ :: later, ?_, hrow, hbyte, hcol⟩
    rw [List.append_assoc, List.cons_append]

/-! ### Wrapping a text into rows -/

structure Wrapped where
  closed : List Row := []
  cur : List Char := []

def Wrapped.wraps (width : ℕ) (s : Wrapped) (ch : Char) : Prop :=
  extent w.charDisplayWidth s.cur + w.charDisplayWidth ch > width ∧
    extent w.charDisplayWidth s.cur > 0

instance (width : ℕ) (s : Wrapped) (ch : Char) : Decidable (s.wraps w width ch) :=
  inferInstanceAs (Decidable (_ ∧ _))

/-- A character is added: it ends the row, it starts a row, or it goes to the row that is open. -/
def Wrapped.push (width : ℕ) (s : Wrapped) (ch : Char) : Wrapped :=
  if ch = '\n' then { closed := s.closed ++ [⟨s.cur, true⟩] }
  else if ch ≠ '\r' ∧ s.wraps w width ch then
    { closed := s.closed ++ [⟨s.cur, false⟩], cur := [ch] }
  else { s with cur := s.cur ++ [ch] }

def wrapped (width : ℕ) (input : List Char) : Wrapped := input.foldl (Wrapped.push w width) {}

def Wrapped.chars (s : Wrapped) : List Char := rowChars s.closed ++ s.cur

theorem Wrapped.push_chars (ch : Char) : (s.push w width ch).chars = s.chars ++ [ch] := by
  unfold Wrapped.push Wrapped.chars
  split
  · rename_i h
    simp [h]
  · split <;> simp

/-- No newline is among the characters that are shown. -/
def Wrapped.Plain (s : Wrapped) : Prop := (∀ r ∈ s.closed, '\n' ∉ r.text) ∧ '\n' ∉ s.cur

theorem Wrapped.Plain.push {s : Wrapped} (h : s.Plain) (width : ℕ) (ch : Char) :
    (s.push w width ch).Plain := by
  obtain ⟨hclosed, hcur⟩ := h
  have hsnoc : ∀ newline, ∀ r ∈ s.closed ++ [Row.mk s.cur newline], '\n' ∉ r.text := by
    intro newline r hr
    rcases List.mem_append.mp hr with hold | hnew
    · exact hclosed r hold
    · rw [List.mem_singleton.mp hnew]
      exact hcur
  unfold Wrapped.push
  split
  · exact ⟨hsnoc true, List.not_mem_nil⟩
  rename_i hne
  split
  · exact ⟨hsnoc false, fun hmem => hne (List.mem_singleton.mp hmem).symm⟩
  · refine ⟨hclosed, fun hmem => ?_⟩
    rcases List.mem_append.mp hmem with hold | hnew
    · exact hcur hold
    · exact hne (List.mem_singleton.mp hnew).symm

theorem wrapped_chars : (wrapped w width input).chars = input := by
  have hrun : ∀ (s : Wrapped), (input.foldl (Wrapped.push w width) s).chars = s.chars ++ input := by
    induction input with
    | nil => intro s; exact (List.append_nil _).symm
    | cons ch input ih =>
      intro s
      rw [List.foldl_cons, ih, Wrapped.push_chars, List.append_assoc]
      rfl
  exact hrun {}

variable (width : ℕ) (input : List Char)

theorem wrapped_plain : (wrapped w width input).Plain := by
  have hrun : ∀ (s : Wrapped), s.Plain → (input.foldl (Wrapped.push w width) s).Plain := by
    induction input with
    | nil => exact fun _ h => h
    | cons ch input ih => exact fun s h => ih _ (h.push w width ch)
  exact hrun {} ⟨nofun, List.not_mem_nil⟩

/-! ### `wrapInputLines` gives the texts of the rows -/

/-- The state of `wrap_input_lines` for the rows so far. -/
def Wrapped.toWrapState (s : Wrapped) : WrapState where
  done := s.closed.map fun r => withoutReturns r.text
  line := withoutReturns s.cur
  lineWidth := extent w.charDisplayWidth s.cur

theorem charDisplayWidth_return : w.charDisplayWidth '\r' = 0 := by
  rw [CharWidths.charDisplayWidth, w.carriageReturn]
  rfl

theorem withoutReturns_snoc (s : List Char) (ch : Char) :
    withoutReturns (s ++ [ch]) = withoutReturns s ++ if ch = '\r' then [] else [ch] := by
  by_cases h : ch = '\r' <;> simp [h, withoutReturns]

theorem wrapStep_push (ch : Char) :
    wrapStep w width (s.toWrapState w) ch = (s.push w width ch).toWrapState w := by
  unfold wrapStep Wrapped.push
  by_cases hreturn : ch = '\r'
  · subst hreturn
    simp [Wrapped.toWrapState, withoutReturns_snoc, charDisplayWidth_return]
  · rw [if_neg hreturn]
    by_cases hnewline : ch = '\n'
    · rw [if_pos hnewline, if_pos hnewline]
      simp [Wrapped.toWrapState, WrapState.newLine, withoutReturns]
    rw [if_neg hnewline, if_neg hnewline]
    by_cases hwraps : s.wraps w width ch
    · have hwraps' : (s.toWrapState w).lineWidth + w.charDisplayWidth ch > width ∧
          (s.toWrapState w).lineWidth > 0 := hwraps
      rw [if_pos ⟨hreturn, hwraps⟩]
      dsimp only
      rw [if_pos hwraps']
      simp [Wrapped.toWrapState, WrapState.newLine, withoutReturns, hreturn]
    · have hwraps' : ¬ ((s.toWrapState w).lineWidth + w.charDisplayWidth ch > width ∧
          (s.toWrapState w).lineWidth > 0) := hwraps
      rw [if_neg fun h => hwraps h.2]
      dsimp only
      rw [if_neg hwraps']
      simp [Wrapped.toWrapState, withoutReturns_snoc, hreturn]

/-- **`wrap_input_lines` shows the rows.** -/
theorem wrap_refines :
    wrapInputLines w input width =
      (wrapped w (max width 1) input).closed.map (fun r => withoutReturns r.text) ++
        [withoutReturns (wrapped w (max width 1) input).cur] := by
  have hrun : ∀ (s : Wrapped), input.foldl (wrapStep w (max width 1)) (s.toWrapState w) =
      (input.foldl (Wrapped.push w (max width 1)) s).toWrapState w := by
    induction input with
    | nil => exact fun _ => rfl
    | cons ch input ih =>
      intro s
      rw [List.foldl_cons, List.foldl_cons, wrapStep_push, ih]
  unfold wrapInputLines
  rw [show ({} : WrapState) = Wrapped.toWrapState w {} from rfl, hrun]
  rfl

/-! ### `visualLayout` gives their byte ranges -/

def Wrapped.rows (s : Wrapped) : List Row := s.closed ++ [⟨s.cur, false⟩]

theorem At.push {w : CharWidths} {s : Wrapped} {byte row col : ℕ} (h : At w s.rows byte row col)
    (width : ℕ) (ch : Char) : At w (s.push w width ch).rows byte row col := by
  unfold Wrapped.push
  split
  · have := h.grow [] true [⟨[], false⟩]
    rw [List.append_nil] at this
    rw [Wrapped.rows, List.append_assoc]
    exact this
  · split
    · have := h.grow [] false [⟨[ch], false⟩]
      rw [List.append_nil] at this
      rw [Wrapped.rows, List.append_assoc]
      exact this
    · exact h.grow [ch] false []

theorem At.here (s : Wrapped) :
    At w s.rows (byteLen s.chars) s.closed.length (extent w.charDisplayWidth s.cur) :=
  ⟨s.closed, s.cur, [], false, [], by rw [List.append_nil]; rfl, rfl, (byteLen_append _ _).symm, rfl⟩

theorem At.wrapped {s : Wrapped} {width : ℕ} {ch : Char} (hch : ch ≠ '\n' ∧ ch ≠ '\r')
    (h : s.wraps w width ch) :
    At w (s.push w width ch).rows (byteLen s.chars) (s.closed.length + 1) 0 := by
  refine ⟨s.closed ++ [⟨s.cur, false⟩], [], [ch], false, [], ?_, List.length_append, ?_, rfl⟩
  · rw [Wrapped.push, if_neg hch.1, if_pos ⟨hch.2, h⟩]
    rfl
  · simp [Wrapped.chars]

/-- The variables of the loop for the rows so far, with `rest` still to come. -/
structure Scanned (cursor : ℕ) (rest : List Char) (s : Wrapped) (ls : LayoutState) : Prop where
  spans : ls.spans = spansFrom 0 s.closed
  rowStart : ls.rowStart = byteLen (rowChars s.closed)
  row : ls.row = s.closed.length
  col : ls.col = extent w.charDisplayWidth s.cur
  placed : ls.cursorSet = true → cursor < byteLen s.chars ∧ At w s.rows cursor ls.cursorRow ls.cursorCol
  ahead : ls.cursorSet = false → ∃ z q, rest = z ++ q ∧ byteLen s.chars + byteLen z = cursor

theorem placeCursor_set (h : ls.cursorSet = true) (cursor idx row col : ℕ) :
    ls.placeCursor cursor idx row col = ls := by
  rw [placeCursor, if_neg]
  rw [h]
  exact fun hc => Bool.noConfusion hc.1

theorem placeCursor_ahead (ls : LayoutState) {idx : ℕ} (h : idx < cursor) (row col : ℕ) :
    ls.placeCursor cursor idx row col = ls := by
  rw [placeCursor, if_neg]
  omega

theorem placeCursor_here (h : ls.cursorSet = false) (cursor row col : ℕ) :
    ls.placeCursor cursor cursor row col =
      { ls with cursorRow := row, cursorCol := col, cursorSet := true } := by
  rw [placeCursor, if_pos ⟨h, Nat.le_refl _⟩]

/-- What the step does to the row that is open, once the cursor is dealt with. -/
def advanceRow (width idx : ℕ) (ch : Char) (ls : LayoutState) : LayoutState :=
  if ch = '\r' then ls
  else if ch = '\n' then ls.endRow idx (idx + ch.utf8Size)
  else
    let col := ls.col
    let ls := if col + w.charDisplayWidth ch > width ∧ col > 0 then ls.endRow idx idx else ls
    { ls with col := ls.col + w.charDisplayWidth ch }

def placeFor (width : ℕ) (ch : Char) (ls : LayoutState) : ℕ × ℕ :=
  if ch ≠ '\r' ∧ ch ≠ '\n' ∧ ls.col + w.charDisplayWidth ch > width ∧ ls.col > 0 then (ls.row + 1, 0)
  else (ls.row, ls.col)

theorem layoutStep_set (h : ls.cursorSet = true) (width cursor idx : ℕ) (ch : Char) :
    layoutStep w width cursor ls idx ch = advanceRow w width idx ch ls := by
  simp only [layoutStep, advanceRow, placeCursor_set h, ite_self, decide_eq_true_eq]

theorem layoutStep_ahead (ls : LayoutState) {idx : ℕ} (h : idx < cursor) (width : ℕ) (ch : Char) :
    layoutStep w width cursor ls idx ch = advanceRow w width idx ch ls := by
  simp only [layoutStep, advanceRow, placeCursor_ahead ls h, ite_self, decide_eq_true_eq]

theorem layoutStep_here (h : ls.cursorSet = false) (width cursor : ℕ) (ch : Char) :
    layoutStep w width cursor ls cursor ch =
      { advanceRow w width cursor ch ls with
        cursorRow := (placeFor w width ch ls).1, cursorCol := (placeFor w width ch ls).2,
        cursorSet := true } := by
  simp only [layoutStep, advanceRow, placeFor, placeCursor_here h, decide_eq_true_eq, true_and]
  by_cases hreturn : ch = '\r'
  · simp [hreturn]
  by_cases hnewline : ch = '\n'
  · simp [hnewline, endRow]
  · by_cases hwraps : ls.col + w.charDisplayWidth ch > width ∧ ls.col > 0
    · simp [hreturn, hnewline, hwraps, endRow]
    · simp [hreturn, hnewline, hwraps]

theorem advanceRow_cursor (width idx : ℕ) (ch : Char) (ls : LayoutState) :
    (advanceRow w width idx ch ls).cursorSet = ls.cursorSet ∧
      (advanceRow w width idx ch ls).cursorRow = ls.cursorRow ∧
      (advanceRow w width idx ch ls).cursorCol = ls.cursorCol := by
  unfold advanceRow
  split
  · exact ⟨rfl, rfl, rfl⟩
  · split
    · exact ⟨rfl, rfl, rfl⟩
    · dsimp only
      split <;> exact ⟨rfl, rfl, rfl⟩

theorem advanceRow_rows {rest : List Char} {s : Wrapped} (h : Scanned w cursor rest s ls)
    (width : ℕ) (ch : Char) :
    (advanceRow w width (byteLen s.chars) ch ls).spans = spansFrom 0 (s.push w width ch).closed ∧
      (advanceRow w width (byteLen s.chars) ch ls).rowStart = byteLen (rowChars (s.push w width ch).closed) ∧
      (advanceRow w width (byteLen s.chars) ch ls).row = (s.push w width ch).closed.length ∧
      (advanceRow w width (byteLen s.chars) ch ls).col =
        extent w.charDisplayWidth (s.push w width ch).cur := by
  have hspan : ∀ newline, spansFrom 0 (s.closed ++ [⟨s.cur, newline⟩]) =
      ls.spans ++ [(ls.rowStart, byteLen s.chars)] := by
    intro newline
    rw [spansFrom_append, h.spans, h.rowStart, Wrapped.chars, byteLen_append, Nat.zero_add]
    rfl
  unfold advanceRow Wrapped.push
  by_cases hreturn : ch = '\r'
  · subst hreturn
    rw [if_pos rfl, if_neg (by decide), if_neg (by simp)]
    refine ⟨h.spans, h.rowStart, h.row, ?_⟩
    rw [extent_append, extent_cons, extent_nil, charDisplayWidth_return, Nat.add_zero, h.col]
  · rw [if_neg hreturn]
    by_cases hnewline : ch = '\n'
    · rw [if_pos hnewline, if_pos hnewline]
      refine ⟨(hspan true).symm, ?_, ?_, rfl⟩
      · simp [endRow, Wrapped.chars, hnewline, Nat.add_assoc]
      · simp [endRow, h.row]
    · rw [if_neg hnewline, if_neg hnewline]
      dsimp only
      by_cases hwraps : s.wraps w width ch
      · have hwraps' : ls.col + w.charDisplayWidth ch > width ∧ ls.col > 0 := by
          rw [h.col]
          exact hwraps
        rw [if_pos hwraps', if_pos ⟨hreturn, hwraps⟩]
        refine ⟨(hspan false).symm, ?_, ?_, ?_⟩
        · simp [endRow, Wrapped.chars]
        · simp [endRow, h.row]
        · simp [endRow]
      · have hwraps' : ¬ (ls.col + w.charDisplayWidth ch > width ∧ ls.col > 0) := by
          rw [h.col]
          exact hwraps
        rw [if_neg hwraps', if_neg fun hc => hwraps hc.2]
        refine ⟨h.spans, h.rowStart, h.row, ?_⟩
        rw [extent_append, extent_cons, extent_nil, h.col, Nat.add_zero]

theorem placeFor_at {cursor : ℕ} {rest : List Char} {s : Wrapped} {ls : LayoutState}
    (h : Scanned w cursor rest s ls) (width : ℕ) (ch : Char) :
    At w (s.push w width ch).rows (byteLen s.chars) (placeFor w width ch ls).1
      (placeFor w width ch ls).2 := by
  unfold placeFor
  split
  · rename_i hplace
    obtain ⟨hreturn, hnewline, hwraps⟩ := hplace
    rw [h.col] at hwraps
    rw [h.row]
    exact At.wrapped w ⟨hnewline, hreturn⟩ hwraps
  · rw [h.row, h.col]
    exact (At.here w s).push width ch

/-- **One character.** -/
theorem Scanned.step {cursor : ℕ} {rest : List Char} {ch : Char} {s : Wrapped} {ls : LayoutState}
    (h : Scanned w cursor (ch :: rest) s ls) (width : ℕ) :
    Scanned w cursor rest (s.push w width ch) (layoutStep w width cursor ls (byteLen s.chars) ch) := by
  obtain ⟨hspans, hstart, hrow, hcol⟩ := advanceRow_rows w h width ch
  obtain ⟨hset, hcursorRow, hcursorCol⟩ := advanceRow_cursor w width (byteLen s.chars) ch ls
  have hpos := utf8Size_pos ch
  have hchars : byteLen (s.push w width ch).chars = byteLen s.chars + ch.utf8Size := by
    rw [Wrapped.push_chars, byteLen_append, byteLen_cons, byteLen_nil, Nat.add_zero]
  cases hplaced : ls.cursorSet with
  | true =>
    rw [layoutStep_set w hplaced]
    refine ⟨hspans, hstart, hrow, hcol, fun _ => ⟨?_, ?_⟩, fun hnot => ?_⟩
    · have := (h.placed hplaced).1
      omega
    · rw [hcursorRow, hcursorCol]
      exact (h.placed hplaced).2.push width ch
    · rw [hset, hplaced] at hnot
      cases hnot
  | false =>
    obtain ⟨z, q, hrest, hcursor⟩ := h.ahead hplaced
    cases z with
    | nil =>
      -- the cursor is in front of this character
      obtain rfl : byteLen s.chars = cursor := by simpa using hcursor
      rw [layoutStep_here w hplaced]
      exact ⟨hspans, hstart, hrow, hcol, fun _ => ⟨by omega, placeFor_at w h width ch⟩,
        fun hnot => by cases hnot⟩
    | cons c z =>
      obtain ⟨rfl, rfl⟩ := List.cons.inj hrest
      rw [byteLen_cons] at hcursor
      rw [layoutStep_ahead w ls (by omega)]
      refine ⟨hspans, hstart, hrow, hcol, fun hyes => ?_, fun _ => ⟨z, q, rfl, by omega⟩⟩
      rw [hset, hplaced] at hyes
      cases hyes

theorem Scanned.run {rest : List Char} {s : Wrapped} (h : Scanned w cursor rest s ls) (width : ℕ) :
    Scanned w cursor [] (rest.foldl (Wrapped.push w width) s)
      (layoutScan w width cursor (byteLen s.chars) rest ls) := by
  induction rest generalizing s ls with
  | nil => exact h
  | cons ch rest ih =>
    have hstep := ih (h.step w width)
    rw [Wrapped.push_chars, byteLen_append, byteLen_cons, byteLen_nil] at hstep
    exact hstep

/-- The rows that are laid out: a full last row is followed by an empty one. -/
def laidOut (width : ℕ) (input : List Char) : List Row :=
  (wrapped w width input).rows ++
    if extent w.charDisplayWidth (wrapped w width input).cur ≥ width then [⟨[], false⟩] else []

theorem Wrapped.rows_chars : rowChars s.rows = s.chars := by
  simp [Wrapped.rows, Wrapped.chars]

theorem laidOut_chars : rowChars (laidOut w width input) = input := by
  rw [laidOut, rowChars_append, Wrapped.rows_chars, wrapped_chars]
  split <;> simp

theorem laidOut_plain : ∀ r ∈ laidOut w width input, '\n' ∉ r.text := by
  obtain ⟨hclosed, hcur⟩ := wrapped_plain w width input
  intro r hr
  rcases List.mem_append.mp hr with hrows | hextra
  · rcases List.mem_append.mp hrows with hold | hnew
    · exact hclosed r hold
    · rw [List.mem_singleton.mp hnew]
      exact hcur
  · split at hextra
    · rw [List.mem_singleton.mp hextra]
      exact List.not_mem_nil
    · cases hextra

theorem Scanned.finish {cursor : ℕ} {s : Wrapped} {ls : LayoutState} (h : Scanned w cursor [] s ls)
    (width : ℕ) :
    (ls.finish width cursor (byteLen s.chars)).spans =
        spansFrom 0 (s.rows ++ if extent w.charDisplayWidth s.cur ≥ width then [⟨[], false⟩] else []) ∧
      At w (s.rows ++ if extent w.charDisplayWidth s.cur ≥ width then [⟨[], false⟩] else []) cursor
        (ls.finish width cursor (byteLen s.chars)).cursorRow
        (ls.finish width cursor (byteLen s.chars)).cursorCol := by
  have hspans : spansFrom 0 s.rows = ls.spans ++ [(min ls.rowStart (byteLen s.chars), byteLen s.chars)] := by
    have hlen : byteLen s.chars = byteLen (rowChars s.closed) + byteLen s.cur := byteLen_append _ _
    rw [Wrapped.rows, spansFrom_append, h.spans, h.rowStart, Nat.zero_add, Nat.min_eq_left (by omega), hlen]
    rfl
  have hgrow : ∀ {byte row col : ℕ}, At w s.rows byte row col →
      At w (s.rows ++ [⟨[], false⟩]) byte row col := by
    intro byte row col hat
    have := hat.grow [] false [⟨[], false⟩]
    rw [List.append_nil] at this
    rw [Wrapped.rows, List.append_assoc]
    exact this
  -- a cursor that no character placed is behind the last one
  have hend : ls.cursorSet = false → cursor = byteLen s.chars := by
    intro hnot
    obtain ⟨z, q, hrest, hz⟩ := h.ahead hnot
    obtain ⟨rfl, -⟩ := List.append_eq_nil_iff.mp hrest.symm
    exact hz.symm
  have hbehind : At w (s.rows ++ [⟨[], false⟩]) (byteLen s.chars) (ls.row + 1) 0 := by
    refine ⟨s.rows, [], [], false, [], rfl, ?_, ?_, rfl⟩
    · rw [h.row, Wrapped.rows, List.length_append]
      rfl
    · rw [Wrapped.rows_chars, byteLen_nil, Nat.add_zero]
  have hextra : spansFrom 0 (s.rows ++ [⟨[], false⟩]) =
      ls.spans ++ [(min ls.rowStart (byteLen s.chars), byteLen s.chars)] ++
        [(byteLen s.chars, byteLen s.chars)] := by
    rw [spansFrom_append, hspans, Wrapped.rows_chars, Nat.zero_add]
    rfl
  have hhere := At.here w s
  rw [← h.row, ← h.col] at hhere
  unfold LayoutState.finish
  rw [← h.col]
  cases hset : ls.cursorSet with
  | true =>
    obtain ⟨hlt, hat⟩ := h.placed hset
    have hne : cursor ≠ byteLen s.chars := Nat.ne_of_lt hlt
    by_cases hfull : ls.col ≥ width
    · simp only [if_pos hfull, if_neg hne, if_true]
      exact ⟨hextra.symm, hgrow hat⟩
    · simp only [if_neg hfull, if_true, List.append_nil]
      exact ⟨hspans.symm, hat⟩
  | false =>
    obtain rfl := hend hset
    by_cases hfull : ls.col ≥ width
    · simp only [if_pos hfull, if_true, Bool.false_eq_true, if_false]
      exact ⟨hextra.symm, hbehind⟩
    · simp only [if_neg hfull, Bool.false_eq_true, if_false, List.append_nil]
      exact ⟨hspans.symm, hhere⟩

/-- **`visual_layout` gives the byte ranges of the rows and places the cursor among them.** -/
theorem layout_refines (width : ℕ) {cursor : ℕ} (h : isCharBoundary cursor input = true) :
    (visualLayout w input cursor width).spans = spansFrom 0 (laidOut w (max width 1) input) ∧
      At w (laidOut w (max width 1) input) cursor (visualLayout w input cursor width).cursorRow
        (visualLayout w input cursor width).cursorCol := by
  obtain ⟨before, behind, hinput, hcursor⟩ := (isCharBoundary_iff _ _).mp h
  have hfloor : clampToCharBoundaryLeft input cursor = cursor := floorCharBoundary_of_boundary h
  have hstart : Scanned w cursor input {} {} :=
    ⟨rfl, rfl, rfl, rfl, fun hset => Bool.noConfusion hset,
      fun _ => ⟨before, behind, hinput, (Nat.zero_add _).trans hcursor⟩⟩
  have hfinish := (hstart.run w (max width 1)).finish w (max width 1)
  rw [show input.foldl (Wrapped.push w (max width 1)) {} = wrapped w (max width 1) input from rfl,
    wrapped_chars] at hfinish
  rw [visualLayout, hfloor]
  exact hfinish

/-! ### The spans cover the input -/

theorem byteLen_row (rows : List Row) :
    byteLen (rowChars (r :: rows)) = byteLen r.chars + byteLen (rowChars rows) :=
  byteLen_append r.chars (rowChars rows)

theorem text_le_chars : byteLen r.text ≤ byteLen r.chars := by
  rw [Row.chars, byteLen_append]
  exact Nat.le_add_right _ _

theorem spansFrom_bounds {start : ℕ} {rows : List Row} {span : ℕ × ℕ} (h : span ∈ spansFrom start rows) :
    start ≤ span.1 ∧ span.1 ≤ span.2 ∧ span.2 ≤ start + byteLen (rowChars rows) := by
  induction rows generalizing start with
  | nil => cases h
  | cons r rows ih =>
    have htext := text_le_chars r
    rw [byteLen_row]
    rcases List.mem_cons.mp h with rfl | h
    · omega
    · have := ih h
      omega

theorem spansFrom_ordered (rows : List Row) : (spansFrom start rows).Pairwise fun a b => a.2 ≤ b.1 := by
  induction rows generalizing start with
  | nil => exact List.Pairwise.nil
  | cons r rows ih =>
    refine List.Pairwise.cons (fun span hspan => ?_) (ih _)
    have hbound := (spansFrom_bounds hspan).1
    have htext := text_le_chars r
    omega

theorem spansFrom_slices (before : List Char) (rows : List Row) :
    (spansFrom (byteLen before) rows).mapM (fun span => sliceBytes span.1 span.2 (before ++ rowChars rows)) =
      some (rows.map Row.text) := by
  induction rows generalizing before with
  | nil => rfl
  | cons r rows ih =>
    have hfirst : sliceBytes (byteLen before) (byteLen before + byteLen r.text)
        (before ++ rowChars (r :: rows)) = some r.text := by
      rw [rowChars_cons]
      exact sliceBytes_append before r.text _
    have hrest := ih (before ++ r.chars)
    rw [byteLen_append, List.append_assoc] at hrest
    rw [spansFrom, List.mapM_cons, hfirst,
      show rowChars (r :: rows) = r.chars ++ rowChars rows from rfl, hrest]
    rfl

theorem split_item {α : Type*} {t u p q : List α} {a : α} (h : t ++ u = p ++ a :: q) :
    (∃ m, t = p ++ a :: m) ∨ ∃ p', p = t ++ p' ∧ u = p' ++ a :: q := by
  rcases List.append_eq_append_iff.mp h with hbehind | ⟨m, ht, hrest⟩
  · exact .inr hbehind
  cases m with
  | nil =>
    rw [List.append_nil] at ht
    exact .inr ⟨[], by rw [ht, List.append_nil], hrest.symm⟩
  | cons b m =>
    obtain ⟨rfl, -⟩ := List.cons.inj hrest
    exact .inl ⟨m, ht⟩

/-- A character is in a span unless it is a newline. -/
theorem spansFrom_cover {rows : List Row} (hplain : ∀ r ∈ rows, '\n' ∉ r.text) (start : ℕ)
    {p q : List Char} {ch : Char} (h : rowChars rows = p ++ ch :: q) :
    (∃ span ∈ spansFrom start rows,
      span.1 ≤ start + byteLen p ∧ start + byteLen p + ch.utf8Size ≤ span.2) ↔ ch ≠ '\n' := by
  induction rows generalizing start p with
  | nil => exact absurd (congrArg List.length h) (by simp)
  | cons r rows ih =>
    have hpos := utf8Size_pos ch
    -- the character is behind what this row takes up
    have hlater : ∀ p', r.chars ++ p' = p → rowChars rows = p' ++ ch :: q →
        ((∃ span ∈ spansFrom start (r :: rows),
          span.1 ≤ start + byteLen p ∧ start + byteLen p + ch.utf8Size ≤ span.2) ↔ ch ≠ '\n') := by
      rintro p' rfl hrest
      rw [← ih (fun r' hr' => hplain r' (List.mem_cons_of_mem r hr')) (start + byteLen r.chars) hrest,
        byteLen_append]
      have htext := text_le_chars r
      constructor
      · rintro ⟨span, hspan, hlow, hhigh⟩
        rcases List.mem_cons.mp hspan with rfl | hspan
        · omega
        · exact ⟨span, hspan, by omega, by omega⟩
      · rintro ⟨span, hspan, hlow, hhigh⟩
        exact ⟨span, List.mem_cons_of_mem _ hspan, by omega, by omega⟩
    rw [rowChars_cons] at h
    rcases split_item h with ⟨m, htext⟩ | ⟨p', rfl, hrest⟩
    · have hne : ch ≠ '\n' := by
        rintro rfl
        exact hplain r List.mem_cons_self (htext ▸ List.mem_append_right p List.mem_cons_self)
      refine ⟨fun _ => hne, fun _ => ⟨_, List.mem_cons_self, Nat.le_add_right _ _, ?_⟩⟩
      rw [htext, byteLen_append, byteLen_cons]
      omega
    · by_cases hnewline : r.newline = true
      · rw [if_pos hnewline] at hrest
        cases p' with
        | nil =>
          obtain ⟨rfl, -⟩ := List.cons.inj hrest
          refine ⟨?_, fun hne => absurd rfl hne⟩
          rintro ⟨span, hspan, hlow, hhigh⟩
          rw [List.append_nil] at hlow hhigh
          rcases List.mem_cons.mp hspan with rfl | hspan
          · omega
          · have hbound := (spansFrom_bounds hspan).1
            rw [Row.chars, if_pos hnewline, byteLen_append, byteLen_cons] at hbound
            omega
        | cons c p' =>
          obtain ⟨rfl, htail⟩ := List.cons.inj hrest
          refine hlater p' ?_ htail
          rw [Row.chars, if_pos hnewline, List.append_assoc, List.singleton_append]
      · rw [if_neg hnewline] at hrest
        refine hlater p' ?_ hrest
        rw [Row.chars, if_neg hnewline, List.append_nil]

/-! ### From the place of the cursor to its byte -/

/-- The search for the column behind `x` stops there, or in front of characters without a width. -/
theorem seekColumn_behind (x y : List Char) (idx col : ℕ) :
    ∃ x' z, x = x' ++ z ∧ extent w.charDisplayWidth z = 0 ∧
      seekColumn w (col + extent w.charDisplayWidth x) (idx + byteLen (x ++ y)) idx col (x ++ y) =
        idx + byteLen x' := by
  induction x generalizing idx col with
  | nil =>
    refine ⟨[], [], rfl, rfl, ?_⟩
    cases y with
    | nil => rfl
    | cons c y => exact if_pos (Nat.le_refl _)
  | cons c x ih =>
    rw [extent_cons, List.cons_append, seekColumn, byteLen_cons]
    by_cases hstop : col + (w.charDisplayWidth c + extent w.charDisplayWidth x) ≤ col
    · refine ⟨[], c :: x, rfl, ?_, if_pos hstop⟩
      rw [extent_cons]
      omega
    · obtain ⟨x', z, rfl, hz, hseek⟩ := ih (idx + c.utf8Size) (col + w.charDisplayWidth c)
      refine ⟨c :: x', z, rfl, hz, ?_⟩
      rw [if_neg hstop, if_neg (by omega), ← Nat.add_assoc, ← Nat.add_assoc, hseek, byteLen_cons]
      omega

theorem rowBounds_at {before after : List Row} {r : Row} (h : l.spans = spansFrom 0 (before ++ r :: after)) :
    l.rowBounds before.length = (byteLen (rowChars before), byteLen (rowChars before) + byteLen r.text) := by
  have hget : l.spans[before.length]? =
      some (byteLen (rowChars before), byteLen (rowChars before) + byteLen r.text) := by
    rw [h, spansFrom_append, List.getElem?_append_right (by rw [spansFrom_length]), spansFrom_length,
      Nat.sub_self, Nat.zero_add]
    rfl
  rw [VisualLayout.rowBounds, hget]
  rfl

/-- The place of a cursor leads back to it, up to characters without a width. -/
theorem byteForRowCol_at {rows : List Row} {byte row col : ℕ} (hspans : l.spans = spansFrom 0 rows)
    (h : At w rows byte row col) :
    ∃ b z, l.byteForRowCol w (rowChars rows) row col = some b ∧
      sliceBytes b byte (rowChars rows) = some z ∧ extent w.charDisplayWidth z = 0 := by
  obtain ⟨before, x, y, newline, after, rfl, rfl, rfl, rfl⟩ := h
  have hchars : rowChars (before ++ ⟨x ++ y, newline⟩ :: after) =
      rowChars before ++ ((x ++ y) ++ ((if newline then ['\n'] else []) ++ rowChars after)) := by
    rw [rowChars_append, rowChars_cons]
  obtain ⟨x', z, rfl, hz, hseek⟩ := seekColumn_behind w x y (byteLen (rowChars before)) 0
  refine ⟨byteLen (rowChars before) + byteLen x', z, ?_, ?_, hz⟩
  · rw [VisualLayout.byteForRowCol, rowBounds_at hspans, hchars]
    unfold byteForRowColInSpan
    split
    · -- an empty row
      rename_i hempty
      have hnil : byteLen (x' ++ z ++ y) = 0 := by
        dsimp only at hempty
        omega
      rw [byteLen_append, byteLen_append] at hnil
      have hle : byteLen (rowChars before) ≤ byteLen (rowChars before ++ (x' ++ z ++ y ++
          ((if newline then ['\n'] else []) ++ rowChars after))) := by
        rw [byteLen_append (rowChars before)]
        exact Nat.le_add_right _ _
      refine congrArg some ((Nat.min_eq_left hle).trans ?_)
      omega
    · rw [sliceBytes_append]
      rw [Nat.zero_add] at hseek
      exact congrArg some hseek
  · rw [hchars, List.append_assoc, List.append_assoc, ← List.append_assoc (rowChars before),
      byteLen_append, ← Nat.add_assoc, ← byteLen_append]
    exact sliceBytes_append _ z _

theorem rowBounds_row {rows : List Row} (h : l.spans = spansFrom 0 rows) (hne : rows ≠ []) (target : ℕ) :
    ∃ before r after, rows = before ++ r :: after ∧ l.rowBounds target =
      (byteLen (rowChars before), byteLen (rowChars before) + byteLen r.text) := by
  by_cases htarget : target < rows.length
  · refine ⟨rows.take target, rows[target], rows.drop (target + 1), ?_, ?_⟩
    · rw [List.getElem_cons_drop, List.take_append_drop]
    · have hrows : rows = rows.take target ++ rows[target] :: rows.drop (target + 1) := by
        rw [List.getElem_cons_drop, List.take_append_drop]
      rw [hrows] at h
      have := rowBounds_at h
      rwa [List.length_take, Nat.min_eq_left (Nat.le_of_lt htarget)] at this
  · obtain ⟨before, r, rfl⟩ := (List.eq_nil_or_concat' rows).resolve_left hne
    refine ⟨before, r, [], rfl, ?_⟩
    have hnone : l.spans[target]? = none := by
      rw [List.getElem?_eq_none_iff, h, spansFrom_length]
      omega
    rw [VisualLayout.rowBounds, hnone, h, spansFrom_append]
    show List.getLastD (_ ++ [_]) _ = _
    rw [List.getLastD_concat, Nat.zero_add]

theorem seekColumn_boundary (target : ℕ) (text : List Char) (idx col : ℕ) :
    ∃ x y, text = x ++ y ∧ seekColumn w target (idx + byteLen text) idx col text = idx + byteLen x := by
  induction text generalizing idx col with
  | nil => exact ⟨[], [], rfl, rfl⟩
  | cons c text ih =>
    rw [seekColumn]
    split
    · exact ⟨[], c :: text, rfl, rfl⟩
    dsimp only
    split
    · exact ⟨[], c :: text, rfl, rfl⟩
    · obtain ⟨x, y, rfl, hseek⟩ := ih (idx + c.utf8Size) (col + w.charDisplayWidth c)
      refine ⟨c :: x, y, rfl, ?_⟩
      rw [byteLen_cons, ← Nat.add_assoc, hseek, byteLen_cons, Nat.add_assoc]

theorem byteForRowCol_boundary {rows : List Row} (h : l.spans = spansFrom 0 rows) (hne : rows ≠ [])
    (row col : ℕ) :
    ∃ b, l.byteForRowCol w (rowChars rows) row col = some b ∧ isCharBoundary b (rowChars rows) = true := by
  obtain ⟨before, r, after, rfl, hbounds⟩ := rowBounds_row h hne row
  rw [VisualLayout.byteForRowCol, hbounds, rowChars_append, rowChars_cons]
  unfold byteForRowColInSpan
  split
  · have hle : byteLen (rowChars before) ≤ byteLen (rowChars before ++ (r.text ++
        ((if r.newline then ['\n'] else []) ++ rowChars after))) := by
      rw [byteLen_append (rowChars before)]
      exact Nat.le_add_right _ _
    refine ⟨_, rfl, ?_⟩
    rw [Nat.min_eq_left hle]
    exact isCharBoundary_append _ _
  · rw [sliceBytes_append]
    obtain ⟨x, y, hxy, hseek⟩ := seekColumn_boundary w col r.text (byteLen (rowChars before)) 0
    refine ⟨_, rfl, ?_⟩
    rw [hseek, ← byteLen_append, hxy, List.append_assoc, ← List.append_assoc]
    exact isCharBoundary_append _ _

theorem laidOut_ne_nil : laidOut w width input ≠ [] := by
  intro h
  obtain ⟨hrows, -⟩ := List.append_eq_nil_iff.mp h
  exact List.cons_ne_nil _ _ (List.append_eq_nil_iff.mp hrows).2

/-! ### Agreement -/

/-- The layout of an input against its wrapped lines. -/
structure LayoutAgrees (input : List Char) (width cursor : ℕ) (layout : VisualLayout) : Prop where
  /-- The rows are the texts of the spans without carriage returns; behind a full last row there is one
  more span, which is empty. -/
  rows : ∃ texts, layout.spans.mapM (fun span => sliceBytes span.1 span.2 input) = some texts ∧
    ∃ last, (wrapInputLines w input width).getLast? = some last ∧
      texts.map withoutReturns = wrapInputLines w input width ++
        if extent w.charDisplayWidth last ≥ max width 1 then [[]] else []
  ordered : layout.spans.Pairwise fun a b => a.2 ≤ b.1
  inside : ∀ span ∈ layout.spans, span.1 ≤ span.2 ∧ span.2 ≤ byteLen input
  /-- The spans cover every character that is not a newline, and no newline. -/
  cover : ∀ p ch q, input = p ++ ch :: q →
    ((∃ span ∈ layout.spans, span.1 ≤ byteLen p ∧ byteLen p + ch.utf8Size ≤ span.2) ↔ ch ≠ '\n')
  cursorRow : layout.cursorRow < layout.rowCount
  /-- The place of the cursor leads back to its byte, or to one in front of it with only characters
  without a width in between. -/
  cursorByte : ∃ b z, layout.byteForRowCol w input layout.cursorRow layout.cursorCol = some b ∧
    sliceBytes b cursor input = some z ∧ ∀ ch ∈ z, w.charDisplayWidth ch = 0

theorem extent_withoutReturns (s : List Char) :
    extent w.charDisplayWidth (withoutReturns s) = extent w.charDisplayWidth s := by
  induction s with
  | nil => rfl
  | cons c s ih =>
    by_cases h : c = '\r'
    · subst h
      rw [extent_cons, charDisplayWidth_return, Nat.zero_add, ← ih]
      rfl
    · rw [withoutReturns, List.filter_cons_of_pos (by simpa using h), extent_cons, extent_cons, ← ih]
      rfl

theorem width_of_extent_eq_zero {z : List Char} (h : extent w.charDisplayWidth z = 0) :
    ∀ ch ∈ z, w.charDisplayWidth ch = 0 := by
  induction z with
  | nil => exact nofun
  | cons c z ih =>
    rw [extent_cons] at h
    intro ch hch
    rcases List.mem_cons.mp hch with rfl | hch
    · omega
    · exact ih (by omega) ch hch

/-- **Layout and wrapping agree**, for every input, width and cursor on a character boundary. -/
theorem layout_agrees (input : List Char) (width cursor : ℕ)
    (h : isCharBoundary cursor input = true) :
    LayoutAgrees w input width cursor (visualLayout w input cursor width) := by
  obtain ⟨hspans, hat⟩ := layout_refines w input width h
  have hchars := laidOut_chars w (max width 1) input
  refine ⟨?_, ?_, ?_, ?_, ?_, ?_⟩
  · refine ⟨(laidOut w (max width 1) input).map Row.text, ?_,
      withoutReturns (wrapped w (max width 1) input).cur, ?_, ?_⟩
    · have := spansFrom_slices [] (laidOut w (max width 1) input)
      rwa [List.nil_append, hchars, byteLen_nil, ← hspans] at this
    · rw [wrap_refines, List.getLast?_concat]
    · rw [wrap_refines, extent_withoutReturns, laidOut, Wrapped.rows]
      split <;> simp [withoutReturns]
  · rw [hspans]
    exact spansFrom_ordered 0 _
  · intro span hspan
    rw [hspans] at hspan
    have hbound := spansFrom_bounds hspan
    rw [hchars, Nat.zero_add] at hbound
    exact hbound.2
  · intro p ch q hinput
    have hcover := spansFrom_cover (laidOut_plain w (max width 1) input) 0 (hchars.trans hinput)
    rw [Nat.zero_add, ← hspans] at hcover
    exact hcover
  · obtain ⟨before, x, y, newline, after, hrows, hrow, -, -⟩ := hat
    rw [VisualLayout.rowCount, hspans, spansFrom_length, hrows, ← hrow, List.length_append,
      List.length_cons]
    omega
  · obtain ⟨b, z, hbyte, hslice, hz⟩ := byteForRowCol_at w hspans hat
    rw [hchars] at hbyte hslice
    exact ⟨b, z, hbyte, hslice, width_of_extent_eq_zero w hz⟩

def sampleWidths : CharWidths where
  width ch := if ch.toNat < 32 then none else some 1
  carriageReturn := rfl

theorem layout_agrees_sample :
    LayoutAgrees sampleWidths "ab\rcd\ne".toList 2 3
      (visualLayout sampleWidths "ab\rcd\ne".toList 3 2) :=
  layout_agrees sampleWidths "ab\rcd\ne".toList 2 3 (by decide)

/-- A full last row, with the cursor behind it. -/
example : visualLayout sampleWidths "ab".toList 2 2 = ⟨[(0, 2), (2, 2)], 1, 0⟩ := rfl

end Vexcoder.Ui
