import Vexcoder.Base.Lines
import Vexcoder.Tools.Evidence

/-!
# Windows of a file

`read_file_range` shows the lines from an offset on, at most as many as the limit says, each with its
number, under a header when it is not the whole file.  The end of the window is the sum of two values of
the caller: where that is no `usize`, the call panics in both kinds of build.  Below that, windows of one
size lie side by side (`range_tiles_iff`).
-/

namespace Vexcoder.Tools

open Base
open Lib.Files
open Lib.Files.FileSystem (Plain)

/-! ### The text of a window -/

/-- `{:>5}` -/
def padStart (n : ℕ) : List Char :=
  List.replicate (5 - (toString n).toList.length) ' ' ++ (toString n).toList

def numberedLine (n : ℕ) (line : String) : String :=
  String.ofList (padStart n ++ '\t' :: line.toList)

/-- The sum of two values of `usize`: without checks it wraps, with checks it panics. -/
def addUsize (overflowChecks : Bool) (a b : UInt64) : Option ℕ :=
  if a.toNat + b.toNat < 2 ^ 64 then some (a.toNat + b.toNat)
  else if overflowChecks then none
  else some ((a.toNat + b.toNat) % 2 ^ 64)

/-- The end of the window of `lines[start..end]`. -/
def rangeEnd (overflowChecks : Bool) (start : UInt64) (total : ℕ) : Option UInt64 → Option ℕ
  | none => some total
  | some value => (addUsize overflowChecks start value).map (min · total)

def rangeHeader (start stop total : ℕ) : String :=
  if 0 < start || stop < total then
    "(showing lines " ++ toString (start + 1) ++ "-" ++ toString stop ++ " of " ++ toString total ++
      ")\n"
  else ""

def pastEnd (total offset : ℕ) : String :=
  "(file has " ++ toString total ++ " lines, offset " ++ toString offset ++ " is past end)"

/-- The text for a file with this content; `none` is a panic. -/
def renderRange (overflowChecks : Bool) (content : String) (offset limit : Option UInt64) :
    Option String :=
  let userOffset := offset.getD 1
  -- `saturating_sub`
  let start : UInt64 := if userOffset = 0 then 0 else userOffset - 1
  let lines := Text.lines content
  let total := lines.length
  if total ≤ start.toNat then some (pastEnd total userOffset.toNat)
  else
    match rangeEnd overflowChecks start total limit with
    | none => none
    | some stop =>
      if stop < start.toNat then none
      else
        let selected := ((lines.drop start.toNat).take (stop - start.toNat)).mapIdx fun index line =>
          numberedLine (start.toNat + index + 1) line
        some (rangeHeader start.toNat stop total ++ Text.join "\n" selected)

namespace ToolOperator

def readFileRange (op : ToolOperator) (fs : FileSystem) (overflowChecks : Bool) (path : String)
    (offset limit : Option UInt64) : Option (Except ToolError String) :=
  match op.resolvePath fs path with
  | .error e => some (.error e)
  | .ok resolved =>
    if fs.isDir resolved then some (.error (directoryError "read_file" path))
    else
      match readToString fs resolved with
      | .error e => some (.error (.context "Failed to read file" e))
      | .ok content => (renderRange overflowChecks content offset limit).map .ok

end ToolOperator

/-! ### What is read off a window -/

def hasHeader (text : String) : Bool := Text.startsWith text "(showing lines "

def shownRows (text : String) : List String :=
  if Text.startsWith text "(file has " then []
  else
    let rows := Text.pieces text
    (if hasHeader text then rows.tail else rows).filter (· ≠ "")

def numberedLines (content : String) : List String :=
  (Text.lines content).mapIdx fun index line => numberedLine (index + 1) line

/-! ### Numbered lines -/

variable {c : Char} {rows : List String} (content : String) (overflowChecks : Bool) (n : ℕ)

theorem toList_toString : (toString n).toList = Nat.toDigits 10 n := by
  rw [Nat.toString_eq_repr, Nat.toList_repr]

theorem digit_of_mem {n : ℕ} (h : c ∈ (toString n).toList) : c.isDigit = true := by
  rw [toList_toString] at h
  exact Nat.isDigit_of_mem_toDigits (by decide) (by decide) h

theorem mem_padStart {n : ℕ} (h : c ∈ padStart n) : c = ' ' ∨ c.isDigit = true := by
  rcases List.mem_append.mp h with hspace | hdigit
  · exact .inl (List.eq_of_mem_replicate hspace)
  · exact .inr (digit_of_mem hdigit)

theorem padStart_ne_nil : padStart n ≠ [] := by
  intro h
  have hdigits := (List.append_eq_nil_iff.mp h).2
  rw [toList_toString] at hdigits
  exact Nat.toDigits_ne_nil hdigits

theorem newline_not_mem_numberedLine {n : ℕ} {line : String} (h : '\n' ∉ line.toList) :
    '\n' ∉ (numberedLine n line).toList := by
  rw [numberedLine, String.toList_ofList, List.mem_append, List.mem_cons]
  intro hmem
  rcases hmem with hpad | htab | hline
  · rcases mem_padStart hpad with hspace | hdigit
    · cases hspace
    · exact absurd hdigit (by decide)
  · cases htab
  · exact h hline

theorem numberedLine_ne_empty (line : String) : numberedLine n line ≠ "" := by
  intro h
  have hlist := congrArg String.toList h
  rw [numberedLine, String.toList_ofList] at hlist
  cases (List.append_eq_nil_iff.mp hlist).2

theorem numberedLine_head {n : ℕ} {line : String} {rest : List Char}
    (h : (numberedLine n line).toList = c :: rest) : c ≠ '(' := by
  rw [numberedLine, String.toList_ofList] at h
  cases hpad : padStart n with
  | nil => exact absurd hpad (padStart_ne_nil n)
  | cons first pad =>
    rw [hpad] at h
    obtain ⟨rfl, -⟩ := List.cons.inj h
    rcases mem_padStart (hpad ▸ List.mem_cons_self) with rfl | hdigit
    · decide
    · rintro rfl
      exact absurd hdigit (by decide)

theorem mem_numberedLines {content row : String} (h : row ∈ numberedLines content) :
    ∃ n line, row = numberedLine n line ∧ '\n' ∉ line.toList := by
  obtain ⟨index, hindex, rfl⟩ := List.mem_mapIdx.mp h
  exact ⟨index + 1, _, rfl, Text.newline_not_mem_of_mem_lines (List.getElem_mem hindex)⟩

/-! ### Reading a window back -/

def NumberedRows (rows : List String) : Prop :=
  ∀ row ∈ rows, ∃ n line, row = numberedLine n line ∧ '\n' ∉ line.toList

theorem numberedRows_filter (h : NumberedRows rows) : rows.filter (· ≠ "") = rows := by
  rw [List.filter_eq_self]
  intro row hrow
  obtain ⟨n, line, rfl, -⟩ := h row hrow
  exact decide_eq_true (numberedLine_ne_empty n line)

theorem numberedRows_newline (h : NumberedRows rows) : ∀ row ∈ rows, '\n' ∉ row.toList := by
  intro row hrow
  obtain ⟨n, line, rfl, hline⟩ := h row hrow
  exact newline_not_mem_numberedLine hline

theorem shownRows_join (hrows : NumberedRows rows) (hne : rows ≠ []) :
    hasHeader (Text.join "\n" rows) = false ∧ shownRows (Text.join "\n" rows) = rows := by
  have hstart : ∀ pat : String, pat.toList.head? = some '(' →
      Text.startsWith (Text.join "\n" rows) pat = false := by
    intro pat hpat
    rw [Text.startsWith, Bool.eq_false_iff, ne_eq, List.isPrefixOf_iff_prefix]
    intro hprefix
    cases rows with
    | nil => exact hne rfl
    | cons row rows =>
      obtain ⟨n, line, rfl, -⟩ := hrows row List.mem_cons_self
      obtain ⟨c, rest, hc⟩ := List.exists_cons_of_ne_nil (l := (numberedLine n line).toList) (by
        intro h
        exact numberedLine_ne_empty n line (String.toList_inj.mp h))
      have hjoin : ∃ more, (Text.join "\n" (numberedLine n line :: rows)).toList = c :: more := by
        cases rows with
        | nil => exact ⟨rest, hc⟩
        | cons next rows =>
          rw [Text.join_cons (List.cons_ne_nil _ _), String.toList_append, String.toList_append, hc]
          exact ⟨_, rfl⟩
      obtain ⟨more, hmore⟩ := hjoin
      rw [hmore] at hprefix
      obtain ⟨tail, htail⟩ := hprefix
      cases hpatList : pat.toList with
      | nil =>
        rw [hpatList] at hpat
        cases hpat
      | cons first pat =>
        rw [hpatList] at hpat htail
        cases hpat
        exact numberedLine_head hc (List.cons.inj htail).1.symm
  have hheader : hasHeader (Text.join "\n" rows) = false := hstart "(showing lines " rfl
  refine ⟨hheader, ?_⟩
  rw [shownRows, hstart "(file has " rfl, if_neg Bool.false_ne_true]
  dsimp only
  rw [hheader, if_neg Bool.false_ne_true, Text.pieces_join hne (numberedRows_newline hrows),
    numberedRows_filter hrows]

theorem shownRows_header {middle : String} (hrows : NumberedRows rows) (hmiddle : '\n' ∉ middle.toList) :
    hasHeader ("(showing lines " ++ middle ++ "\n" ++ Text.join "\n" rows) = true ∧
      shownRows ("(showing lines " ++ middle ++ "\n" ++ Text.join "\n" rows) = rows := by
  have hfile : Text.startsWith ("(showing lines " ++ middle ++ "\n" ++ Text.join "\n" rows)
      "(file has " = false := by
    rw [Text.startsWith]
    simp only [String.toList_append]
    rfl
  have hheader : hasHeader ("(showing lines " ++ middle ++ "\n" ++ Text.join "\n" rows) = true := by
    rw [hasHeader, Text.startsWith, List.isPrefixOf_iff_prefix]
    simp only [String.toList_append, List.append_assoc]
    exact List.prefix_append _ _
  refine ⟨hheader, ?_⟩
  rw [shownRows, hfile]
  dsimp only
  rw [hheader]
  have hline : '\n' ∉ ("(showing lines " ++ middle).toList := by
    rw [String.toList_append, List.mem_append]
    intro h
    rcases h with hword | hmem
    · exact absurd hword (by decide)
    · exact hmiddle hmem
  by_cases hne : rows = []
  · subst hne
    have hjoin : "(showing lines " ++ middle ++ "\n" ++ Text.join "\n" [] =
        Text.join "\n" ["(showing lines " ++ middle, ""] := rfl
    rw [hjoin, Text.pieces_join (List.cons_ne_nil _ _)]
    · rfl
    · intro line hmem
      rcases List.mem_pair.mp hmem with rfl | rfl
      · exact hline
      · exact List.not_mem_nil
  · rw [← Text.join_cons hne, Text.pieces_join (List.cons_ne_nil _ _)]
    · exact numberedRows_filter hrows
    · exact List.forall_mem_cons.mpr ⟨hline, numberedRows_newline hrows⟩

/-! ### One window -/

def rangeStart (offset : Option UInt64) : ℕ := (offset.getD 1).toNat - 1

theorem toNat_start (offset : UInt64) :
    (if offset = 0 then 0 else offset - 1 : UInt64).toNat = offset.toNat - 1 := by
  by_cases hzero : offset = 0
  · rw [hzero]
    rfl
  have hpos : offset.toNat ≠ 0 := fun h => hzero (UInt64.toNat_inj.mp h)
  rw [if_neg hzero, UInt64.toNat_sub_of_le _ _ (UInt64.le_iff_toNat_le.mpr (by
    show 1 ≤ offset.toNat
    omega))]
  rfl

def windowRows (content : String) (offset limit : Option UInt64) : List String :=
  let rows := (numberedLines content).drop (rangeStart offset)
  match limit with
  | none => rows
  | some value => rows.take value.toNat

/-- The end of the window is a `usize`, where the window starts in the file. -/
def EndFits (content : String) (offset limit : Option UInt64) : Prop :=
  rangeStart offset < (Text.lines content).length →
    ∀ value, limit = some value → rangeStart offset + value.toNat < 2 ^ 64

theorem length_numberedLines :
    (numberedLines content).length = (Text.lines content).length := List.length_mapIdx

/-- The lines of a window are numbered from its start. -/
theorem selected_eq (start count : ℕ) :
    (((Text.lines content).drop start).take count).mapIdx
        (fun index line => numberedLine (start + index + 1) line) =
      ((numberedLines content).drop start).take count := by
  apply List.ext_getElem
  · simp [numberedLines]
  · intro index h h'
    simp [numberedLines, Nat.add_assoc]

theorem numberedRows_window (start count : ℕ) :
    NumberedRows (((numberedLines content).drop start).take count) := by
  intro row hrow
  exact mem_numberedLines (List.mem_of_mem_drop (List.mem_of_mem_take hrow))

/-- The window is the whole file exactly when it starts and ends with it. -/
theorem window_eq_iff {content : String} {start stop : ℕ} (hstart : start < (Text.lines content).length)
    (hstop : stop ≤ (Text.lines content).length) (hle : start ≤ stop) :
    ((numberedLines content).drop start).take (stop - start) = numberedLines content ↔
      start = 0 ∧ stop = (Text.lines content).length := by
  have hlength := length_numberedLines content
  constructor
  · intro h
    have hcount := congrArg List.length h
    rw [List.length_take] at hcount
    omega
  · intro h
    obtain ⟨rfl, rfl⟩ := h
    rw [List.drop_zero, Nat.sub_zero, ← hlength, List.take_length]

theorem rangeEnd_cases {start : UInt64} {total : ℕ} (limit : Option UInt64) (hstart : start.toNat < total) :
    (∃ value, limit = some value ∧ 2 ^ 64 ≤ start.toNat + value.toNat ∧
      ∀ stop, rangeEnd overflowChecks start total limit = some stop → stop < start.toNat) ∨
    ∃ stop, rangeEnd overflowChecks start total limit = some stop ∧ start.toNat ≤ stop ∧
      stop ≤ total ∧ (limit = none ∧ stop = total ∨
        ∃ value, limit = some value ∧ start.toNat + value.toNat < 2 ^ 64 ∧
          stop = min (start.toNat + value.toNat) total) := by
  cases limit with
  | none => exact .inr ⟨total, rfl, by omega, by omega, .inl ⟨rfl, rfl⟩⟩
  | some value =>
    rw [rangeEnd, addUsize]
    by_cases hfits : start.toNat + value.toNat < 2 ^ 64
    · right
      rw [if_pos hfits]
      refine ⟨min (start.toNat + value.toNat) total, rfl, ?_, ?_, .inr ⟨value, rfl, hfits, rfl⟩⟩
      all_goals omega
    · left
      rw [if_neg hfits]
      refine ⟨value, rfl, by omega, ?_⟩
      intro stop hstop
      cases overflowChecks with
      | true => cases hstop
      | false =>
        have hstop' : min ((start.toNat + value.toNat) % 2 ^ 64) total = stop := Option.some.inj hstop
        -- The wrapped sum is less than either of its parts.
        have hvalue := value.toNat_lt
        omega

theorem renderRange_eq (content : String) (offset limit : Option UInt64) :
    ∃ start : UInt64, start.toNat = rangeStart offset ∧
      renderRange overflowChecks content offset limit =
        if (Text.lines content).length ≤ rangeStart offset then
          some (pastEnd (Text.lines content).length (offset.getD 1).toNat)
        else
          match rangeEnd overflowChecks start (Text.lines content).length limit with
          | none => none
          | some stop =>
            if stop < rangeStart offset then none
            else
              some (rangeHeader (rangeStart offset) stop (Text.lines content).length ++
                Text.join "\n"
                  (((numberedLines content).drop (rangeStart offset)).take (stop - rangeStart offset))) := by
  refine ⟨_, toNat_start (offset.getD 1), ?_⟩
  rw [renderRange]
  simp only [toNat_start, selected_eq]
  rfl

theorem shownRows_pastEnd (total offset : ℕ) : shownRows (pastEnd total offset) = [] := by
  have hstart : Text.startsWith (pastEnd total offset) "(file has " = true := by
    rw [Text.startsWith, List.isPrefixOf_iff_prefix, pastEnd]
    simp only [String.toList_append, List.append_assoc]
    exact List.prefix_append _ _
  rw [shownRows, hstart, if_pos rfl]

/-- The text of a window that ends in the file. -/
theorem shownRows_window {content : String} {start stop : ℕ} (hstart : start < (Text.lines content).length)
    (hle : start ≤ stop) (hstop : stop ≤ (Text.lines content).length) :
    let rows := ((numberedLines content).drop start).take (stop - start)
    let text := rangeHeader start stop (Text.lines content).length ++ Text.join "\n" rows
    shownRows text = rows ∧ (hasHeader text = true ↔ rows ≠ numberedLines content) := by
  dsimp only
  have hrows := numberedRows_window content start (stop - start)
  rw [ne_eq, window_eq_iff hstart hstop hle, rangeHeader]
  by_cases hwhole : start = 0 ∧ stop = (Text.lines content).length
  · have hnoheader : ¬ (decide (0 < start) || decide (stop < (Text.lines content).length)) = true := by
      simp [hwhole.1, hwhole.2]
    have hne : ((numberedLines content).drop start).take (stop - start) ≠ [] := by
      rw [(window_eq_iff hstart hstop hle).mpr hwhole, ne_eq, ← List.length_eq_zero_iff, length_numberedLines]
      omega
    obtain ⟨hheader, hshown⟩ := shownRows_join hrows hne
    rw [if_neg hnoheader, String.empty_append, hheader]
    exact ⟨hshown, iff_of_false Bool.false_ne_true (not_not.mpr hwhole)⟩
  · have hheaded : (decide (0 < start) || decide (stop < (Text.lines content).length)) = true := by
      rw [Bool.or_eq_true, decide_eq_true_eq, decide_eq_true_eq]
      omega
    have hmiddle : '\n' ∉ (toString (start + 1) ++ "-" ++ toString stop ++ " of " ++
        toString (Text.lines content).length ++ ")").toList := by
      simp only [String.toList_append, List.mem_append]
      intro h
      have hdigit : ∀ n, '\n' ∉ (toString n).toList := fun n hmem => absurd (digit_of_mem hmem) (by decide)
      simp only [hdigit, false_or, or_false] at h
      rcases h with (h | h) | h <;> exact absurd h (by decide)
    rw [if_pos hheaded]
    obtain ⟨hheader, hshown⟩ := shownRows_header hrows hmiddle
    have htext : ∀ body, "(showing lines " ++ toString (start + 1) ++ "-" ++ toString stop ++ " of " ++
        toString (Text.lines content).length ++ ")\n" ++ body =
      "(showing lines " ++ (toString (start + 1) ++ "-" ++ toString stop ++ " of " ++
        toString (Text.lines content).length ++ ")") ++ "\n" ++ body := by
      intro body
      apply String.toList_inj.mp
      simp
    rw [htext]
    exact ⟨hshown, iff_of_true hheader hwhole⟩

/-- **A window** shows its rows and is headed unless it is the whole file, and it panics when its end is
no `usize`. -/
theorem renderRange_cases (content : String) (offset limit : Option UInt64) :
    (¬ EndFits content offset limit ∧ renderRange overflowChecks content offset limit = none) ∨
      EndFits content offset limit ∧ ∃ text,
        renderRange overflowChecks content offset limit = some text ∧
        shownRows text = windowRows content offset limit ∧
        (rangeStart offset < (Text.lines content).length →
          (hasHeader text = true ↔ windowRows content offset limit ≠ numberedLines content)) := by
  have hlength := length_numberedLines content
  obtain ⟨start, hstart, heq⟩ := renderRange_eq overflowChecks content offset limit
  rw [heq]
  by_cases hpast : (Text.lines content).length ≤ rangeStart offset
  · right
    rw [if_pos hpast]
    have hnone : (numberedLines content).drop (rangeStart offset) = [] :=
      List.drop_eq_nil_of_le (by omega)
    refine ⟨fun h => absurd h (by omega), _, rfl, ?_, fun h => absurd h (by omega)⟩
    rw [shownRows_pastEnd]
    cases limit with
    | none => exact hnone.symm
    | some value =>
      show [] = ((numberedLines content).drop (rangeStart offset)).take value.toNat
      rw [hnone, List.take_nil]
  rw [if_neg hpast]
  have hin : start.toNat < (Text.lines content).length := by omega
  rcases rangeEnd_cases overflowChecks limit hin with
    ⟨value, rfl, hover, hstop⟩ | ⟨stop, hend, hle, htotal, hvalue⟩
  · left
    refine ⟨fun h => absurd (h (by omega) value rfl) (by omega), ?_⟩
    cases hend : rangeEnd overflowChecks start (Text.lines content).length (some value) with
    | none => rfl
    | some stop =>
      dsimp only
      rw [if_pos (hstart ▸ hstop stop hend)]
  · right
    rw [hend]
    dsimp only
    rw [if_neg (by omega)]
    obtain ⟨hshown, hheader⟩ :=
      @shownRows_window content (rangeStart offset) stop (by omega) (by omega) htotal
    have hwindow : ((numberedLines content).drop (rangeStart offset)).take (stop - rangeStart offset) =
        windowRows content offset limit := by
      rcases hvalue with ⟨rfl, rfl⟩ | ⟨value, rfl, -, rfl⟩
      · exact List.take_of_length_le (by rw [List.length_drop, hlength])
      · show _ = ((numberedLines content).drop (rangeStart offset)).take value.toNat
        rw [List.take_eq_take_iff, List.length_drop]
        omega
    rw [hwindow] at hshown hheader ⊢
    refine ⟨?_, _, rfl, hshown, fun _ => hheader⟩
    intro _ value hlimit
    rcases hvalue with ⟨rfl, -⟩ | ⟨value', rfl, hfits, -⟩
    · cases hlimit
    · cases hlimit
      omega

/-! ### Windows side by side -/

/-- How many windows of a size it takes to come to the end. -/
def windowCount (total size : ℕ) : ℕ := (total + size - 1) / size

theorem lt_windowCount_iff {total size k : ℕ} (hsize : 0 < size) :
    k < windowCount total size ↔ k * size < total := by
  rw [windowCount, ← Nat.succ_le_iff, Nat.le_div_iff_mul_le hsize, Nat.succ_mul]
  omega

theorem flatMap_windows {α : Type} (xs : List α) (size count : ℕ) :
    ((List.range count).flatMap fun k => (xs.drop (k * size)).take size) = xs.take (count * size) := by
  induction count with
  | zero => rw [Nat.zero_mul, List.take_zero, List.range_zero, List.flatMap_nil]
  | succ count ih =>
    rw [List.range_succ, List.flatMap_append, ih, List.flatMap_singleton, Nat.succ_mul, List.take_add]

/-- The text of a file whose lines fit in a `String`. -/
structure ToolOperator.Reads (op : ToolOperator) (fs : FileSystem) (path content : String) : Prop where
  resolved : op.resolvePath fs path = .ok (op.named path)
  file : fs.isDir (op.named path) = false
  read : readToString fs (op.named path) = .ok content
  fits : content.toList.length < 2 ^ 63

theorem length_lines_le : (Text.lines content).length ≤ content.toList.length + 1 := by
  have hrelined := Text.relined_length_le (Text.pieces content)
  have hpieces : (Text.pieces content).length ≤ content.toList.length + 1 := by
    rw [Text.pieces, List.length_map]
    induction content.toList with
    | nil => exact Nat.le_refl 1
    | cons c chars ih =>
      by_cases hc : c = '\n'
      · rw [splitOn, if_pos hc, List.length_cons, List.length_cons]
        omega
      · rw [splitOn_cons_of_ne hc, List.length_modifyHead, List.length_cons]
        omega
  rw [Text.lines_eq_relined]
  omega

namespace ToolOperator

variable {op : ToolOperator} {fs : FileSystem} {overflowChecks : Bool} {path content : String}

theorem Reads.run (h : op.Reads fs path content) (offset limit : Option UInt64) :
    op.readFileRange fs overflowChecks path offset limit =
      (renderRange overflowChecks content offset limit).map .ok := by
  rw [readFileRange, h.resolved]
  dsimp only
  rw [if_neg (Bool.eq_false_iff.mp h.file), h.read]

def rowsRead : Option (Except ToolError String) → List String
  | some (.ok text) => shownRows text
  | _ => []

/-- The windows of a size, from the first line to the end of the file, show every line once. -/
def Tiles (op : ToolOperator) (fs : FileSystem) (overflowChecks : Bool) (path content : String)
    (size : UInt64) : Prop :=
  ((List.range (windowCount (Text.lines content).length size.toNat)).flatMap fun k =>
      rowsRead (op.readFileRange fs overflowChecks path (some (.ofNat (1 + k * size.toNat)))
        (some size))) = numberedLines content

/-- **Windows of one size tile a file**: their ends never come near the top of a `usize`. -/
theorem Reads.tiles (h : op.Reads fs path content) {size : UInt64} (hsize : 0 < size.toNat) :
    op.Tiles fs overflowChecks path content size := by
  have hlines := length_lines_le content
  have hfits := h.fits
  have hwindow : ∀ k ∈ List.range (windowCount (Text.lines content).length size.toNat),
      rowsRead (op.readFileRange fs overflowChecks path (some (.ofNat (1 + k * size.toNat)))
        (some size)) = ((numberedLines content).drop (k * size.toNat)).take size.toNat := by
    intro k hk
    have hin := (lt_windowCount_iff hsize).mp (List.mem_range.mp hk)
    have hstart : rangeStart (some (.ofNat (1 + k * size.toNat))) = k * size.toNat := by
      show (UInt64.ofNat (1 + k * size.toNat)).toNat - 1 = _
      rw [UInt64.toNat_ofNat_of_lt' (by show _ < 2 ^ 64; omega)]
      omega
    have hend : EndFits content (some (.ofNat (1 + k * size.toNat))) (some size) := by
      intro _ value hvalue
      obtain rfl := Option.some.inj hvalue
      rw [hstart]
      cases k with
      | zero =>
        have hbound := size.toNat_lt
        omega
      | succ k =>
        have hle : size.toNat ≤ (k + 1) * size.toNat := Nat.le_mul_of_pos_left _ (Nat.succ_pos k)
        omega
    rw [h.run]
    rcases renderRange_cases overflowChecks content (some (.ofNat (1 + k * size.toNat))) (some size) with
      ⟨hover, -⟩ | ⟨-, text, htext, hrows, -⟩
    · exact absurd hend hover
    · rw [htext]
      show shownRows text = _
      rw [hrows]
      show ((numberedLines content).drop (rangeStart _)).take size.toNat = _
      rw [hstart]
  rw [Tiles, List.flatMap_congr hwindow, flatMap_windows, List.take_of_length_le]
  rw [length_numberedLines]
  have hlast := mt (@lt_windowCount_iff (Text.lines content).length size.toNat
    (windowCount (Text.lines content).length size.toNat) hsize).mpr (Nat.lt_irrefl _)
  omega

/-- What `read_file_range` promises: no panic, the lines of the window under their numbers, a header
unless that is the whole file, and windows that tile the file. -/
def RangeHolds (op : ToolOperator) (fs : FileSystem) (overflowChecks : Bool) (path : String)
    (offset limit : Option UInt64) : Prop :=
  ∀ content, op.Reads fs path content →
    (∃ text, op.readFileRange fs overflowChecks path offset limit = some (.ok text) ∧
      shownRows text = windowRows content offset limit ∧
      (rangeStart offset < (Text.lines content).length →
        (hasHeader text = true ↔ shownRows text ≠ numberedLines content))) ∧
    ∀ size, limit = some size → 0 < size.toNat → op.Tiles fs overflowChecks path content size

/-- **`read_file_range` tiles the file** exactly when the end of its window is a `usize`. -/
theorem range_holds_iff (op : ToolOperator) (fs : FileSystem) (overflowChecks : Bool) (path : String)
    (offset limit : Option UInt64) :
    op.RangeHolds fs overflowChecks path offset limit ↔
      ∀ content, op.Reads fs path content → EndFits content offset limit := by
  constructor
  · intro hholds content hreads
    obtain ⟨⟨text, htext, -⟩, -⟩ := hholds content hreads
    rw [hreads.run] at htext
    rcases renderRange_cases overflowChecks content offset limit with ⟨-, hnone⟩ | ⟨hend, -⟩
    · rw [hnone] at htext
      cases htext
    · exact hend
  · intro hends content hreads
    refine ⟨?_, fun size _ hsize => hreads.tiles hsize⟩
    rcases renderRange_cases overflowChecks content offset limit with
      ⟨hover, -⟩ | ⟨-, text, htext, hrows, hheader⟩
    · exact absurd (hends content hreads) hover
    · refine ⟨text, ?_, hrows, ?_⟩
      · rw [hreads.run, htext]
        rfl
      · rw [hrows]
        exact hheader

/-! ### A limit at the top of the range -/

def rangeFiles : FileSystem where
  entries := [(["ws"], .directory), (["ws", "a"], .file "x\ny\n")]
  current := ["ws"]
  tree := by decide +kernel

/-- From the second line on, at most `usize::MAX` lines. -/
theorem huge_limit_panics : ¬ ∃ overflowChecks,
    sampleOperator.RangeHolds rangeFiles overflowChecks "a" (some 2) (some (.ofNat (2 ^ 64 - 1))) := by
  rintro ⟨overflowChecks, h⟩
  have hreads : sampleOperator.Reads rangeFiles "a" "x\ny\n" :=
    ⟨by decide +kernel, by decide +kernel, by decide +kernel, by decide +kernel⟩
  obtain ⟨⟨text, htext, -⟩, -⟩ := h "x\ny\n" hreads
  rw [hreads.run] at htext
  have hnone : renderRange overflowChecks "x\ny\n" (some 2) (some (.ofNat (2 ^ 64 - 1))) = none := by
    cases overflowChecks with
    | true | false => decide +kernel
  rw [hnone] at htext
  cases htext

end ToolOperator

end Vexcoder.Tools
