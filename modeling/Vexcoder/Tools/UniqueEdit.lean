import Vexcoder.Lib.Occurrences
import Vexcoder.Tools.Evidence

/-!
# Edits of one occurrence

`edit_file` counts the occurrences of `old_str` with a search that does not look inside a match, and an
anchored edit counts those of the lines around a read the same way.  An occurrence that starts inside a
match is not counted, so that the one that is replaced need not be the only one
(`edit_replaces_only_iff`).  The write empties the file before it fills it: `editFileWith` is the edit
with a write that may fail on the way.
-/

namespace Vexcoder.Tools

open Base
open Lib.Files
open Lib.Files.FileSystem (Plain)
open Lib.Occurrences

/-! ### The search -/

theorem mem_matchIndicesFrom_iff {text pat s : List Char} {skip position offset : ℕ} (hpat : pat ≠ [])
    (hs : text.drop position = s) (hskip : ∀ i, position ≤ i → Kept text pat i → position + skip ≤ i)
    (hfree : ∀ i, i < position → Kept text pat i → i + pat.length ≤ position + skip) :
    offset ∈ matchIndicesFrom pat skip position s ↔ position ≤ offset ∧ Kept text pat offset := by
  induction s generalizing skip position with
  | nil =>
    refine iff_of_false (List.not_mem_nil) ?_
    intro h
    exact not_occursAt_of_drop_nil hpat hs h.1 h.2.occursAt
  | cons c s ih =>
    have hnext : text.drop (position + 1) = s := by
      rw [← List.drop_drop, hs]
      rfl
    cases skip with
    | succ skip =>
      rw [matchIndicesFrom, ih hnext]
      · constructor
        · intro h
          exact ⟨by omega, h.2⟩
        · intro h
          have hpast := hskip offset h.1 h.2
          exact ⟨by omega, h.2⟩
      · intro i hle hkept
        have hpast := hskip i (by omega) hkept
        omega
      · intro i hlt hkept
        by_cases hi : i = position
        · have hpast := hskip i (by omega) hkept
          omega
        · have hend := hfree i (by omega) hkept
          omega
    | zero =>
      rw [matchIndicesFrom]
      split
      · rename_i hprefix
        -- The match is kept: nothing kept before it reaches this far.
        have hkept : Kept text pat position := by
          refine kept_iff.mpr ⟨?_, fun j hlt hj => hfree j hlt hj⟩
          rw [OccursAt, hs]
          exact List.isPrefixOf_iff_prefix.mp hprefix
        rw [List.mem_cons, ih hnext]
        · constructor
          · intro h
            rcases h with rfl | h
            · exact ⟨Nat.le_refl _, hkept⟩
            · exact ⟨by omega, h.2⟩
          · intro h
            by_cases hoffset : offset = position
            · exact .inl hoffset
            · exact .inr ⟨by omega, h.2⟩
        · intro i hle hi
          have hapart := hi.apart hkept (by omega)
          omega
        · intro i hlt hi
          by_cases hposition : i = position
          · omega
          · omega
      · rename_i hprefix
        have hnot : ¬ Kept text pat position := by
          intro hkept
          have hoccurs := hkept.occursAt
          rw [OccursAt, hs] at hoccurs
          exact hprefix (List.isPrefixOf_iff_prefix.mpr hoccurs)
        rw [ih hnext]
        · constructor
          · intro h
            exact ⟨by omega, h.2⟩
          · intro h
            by_cases hoffset : offset = position
            · exact absurd (hoffset ▸ h.2) hnot
            · exact ⟨by omega, h.2⟩
        · intro i hle _
          omega
        · intro i hlt hi
          by_cases hposition : i = position
          · exact absurd (hposition ▸ hi) hnot
          · have hend := hfree i (by omega) hi
            omega

/-- **`str::match_indices` keeps the occurrences of a search from the left.** -/
theorem mem_matchIndices_iff {content oldStr : String} {offset : ℕ} (hold : oldStr.toList ≠ []) :
    offset ∈ matchIndices content oldStr ↔ Kept content.toList oldStr.toList offset := by
  have hmem := @mem_matchIndicesFrom_iff content.toList oldStr.toList content.toList 0 0 offset hold
    rfl (fun i _ _ => by omega) (fun i hlt _ => by omega)
  exact hmem.trans (and_iff_right (Nat.zero_le offset))

theorem matchIndicesFrom_sorted (pat s : List Char) (skip position : ℕ) :
    (matchIndicesFrom pat skip position s).Pairwise (· < ·) := by
  induction s generalizing skip position with
  | nil => exact .nil
  | cons c s ih =>
    cases skip with
    | succ skip => exact ih skip (position + 1)
    | zero =>
      rw [matchIndicesFrom]
      split
      · refine List.pairwise_cons.mpr ⟨?_, ih _ _⟩
        intro offset hmem
        obtain ⟨hle, -⟩ := matchIndicesFrom_prefix hmem
        omega
      · exact ih 0 (position + 1)

/-! ### The lines around a read -/

def lineAt (content : List Char) (offset : ℕ) : ℕ := 1 + (content.take offset).count '\n'

theorem lineAt_add (content : List Char) (scannedTo more : ℕ) :
    lineAt content (scannedTo + more) =
      lineAt content scannedTo + ((content.drop scannedTo).take more).count '\n' := by
  rw [lineAt, lineAt, List.take_add, List.count_append, Nat.add_assoc]

/-- The offset lies in the lines that an anchored edit looks at. -/
def LocatedRead.Covers (anchor : LocatedRead) (content : List Char) (offset : ℕ) : Prop :=
  anchor.startLine - editAnchorLinePad ≤ lineAt content offset ∧
    lineAt content offset ≤ anchor.endLine + editAnchorLinePad

instance (anchor : LocatedRead) (content : List Char) (offset : ℕ) :
    Decidable (anchor.Covers content offset) :=
  inferInstanceAs (Decidable (_ ∧ _))

def single {α : Type} : List α → Option α
  | [x] => some x
  | _ => none

theorem single_eq_some_iff {xs : List ℕ} {x : ℕ} (hsorted : xs.Pairwise (· < ·)) :
    single xs = some x ↔ ∀ y, y ∈ xs ↔ y = x := by
  match xs, hsorted with
  | [], _ =>
    refine iff_of_false (fun h => nomatch h) ?_
    intro h
    exact List.not_mem_nil ((h x).mpr rfl)
  | [y], _ =>
    constructor
    · intro h z
      rw [List.mem_singleton, Option.some.inj h]
    · intro h
      rw [single, (h y).mp (List.mem_singleton_self y)]
  | y :: z :: rest, hsorted =>
    refine iff_of_false (fun h => nomatch h) ?_
    intro h
    have hlt := List.rel_of_pairwise_cons hsorted (List.mem_cons_self (a := z))
    have hy : y = x := (h y).mp List.mem_cons_self
    have hz : z = x := (h z).mp (List.mem_cons_of_mem y List.mem_cons_self)
    omega

/-- **The loop of the anchored edit** finds the one offset of the window. -/
theorem anchoredOffset_eq {content : List Char} {anchor : LocatedRead} {scannedTo : ℕ}
    {candidate : Option ℕ} {offsets : List ℕ} (hsorted : (scannedTo :: offsets).Pairwise (· ≤ ·)) :
    anchoredOffset content (anchor.startLine - editAnchorLinePad)
        (anchor.endLine + editAnchorLinePad) scannedTo (lineAt content scannedTo) candidate offsets =
      single (candidate.toList ++ offsets.filter fun offset => anchor.Covers content offset) := by
  induction offsets generalizing scannedTo candidate with
  | nil => cases candidate <;> rfl
  | cons offset offsets ih =>
    have hle := List.rel_of_pairwise_cons hsorted List.mem_cons_self
    have hline : lineAt content scannedTo +
        ((content.drop scannedTo).take (offset - scannedTo)).count '\n' = lineAt content offset := by
      rw [← lineAt_add, Nat.add_sub_cancel' hle]
    rw [anchoredOffset, hline, List.filter_cons]
    by_cases hcovers : anchor.Covers content offset
    · rw [if_pos (by simpa [LocatedRead.Covers] using hcovers), if_pos (decide_eq_true hcovers)]
      cases candidate with
      | none => exact ih hsorted.of_cons
      | some found => rfl
    · rw [if_neg (by simpa [LocatedRead.Covers] using hcovers), if_neg (by simpa using hcovers)]
      exact ih hsorted.of_cons

/-! ### What is replaced -/

/-- Where an occurrence counts: everywhere, or in the lines of an anchored edit. -/
def InRange (host : EditHost) (fs : FileSystem) (resolved : Plain) (content oldStr : String)
    (offset : ℕ) : Prop :=
  (matchIndices content oldStr).length ≤ 1 ∨
    ∃ anchor, host.findPulseRead fs resolved = some anchor ∧ anchor.Covers content.toList offset

/-- The offset that `edit_file` replaces. -/
def editTarget (host : EditHost) (fs : FileSystem) (resolved : Plain) (content oldStr : String) :
    Option ℕ :=
  match matchIndices content oldStr with
  | [] => none
  | [offset] => some offset
  | offsets =>
    match host.findPulseRead fs resolved with
    | none => none
    | some anchor =>
      anchoredOffset content.toList (anchor.startLine - editAnchorLinePad)
        (anchor.endLine + editAnchorLinePad) 0 1 none offsets

variable {host : EditHost} {fs : FileSystem} {resolved : Plain} {content oldStr newStr : String}

/-- **The target** is the one occurrence in range that the search keeps. -/
theorem editTarget_eq_some_iff {offset : ℕ} (hold : oldStr.toList ≠ []) :
    editTarget host fs resolved content oldStr = some offset ↔
      ∀ other, Kept content.toList oldStr.toList other ∧
        InRange host fs resolved content oldStr other ↔ other = offset := by
  have hmem : ∀ other, other ∈ matchIndices content oldStr ↔
      Kept content.toList oldStr.toList other := fun other => mem_matchIndices_iff hold
  have hsorted : (matchIndices content oldStr).Pairwise (· < ·) := matchIndicesFrom_sorted _ _ 0 0
  simp only [← hmem, InRange]
  rw [editTarget]
  match matchIndices content oldStr, hsorted with
  | [], _ =>
    refine iff_of_false (fun h => nomatch h) ?_
    intro h
    exact List.not_mem_nil ((h offset).mpr rfl).1
  | [found], hsorted =>
    have hone : ([found] : List ℕ).length ≤ 1 := Nat.le_refl 1
    simp only [hone, true_or, and_true]
    exact single_eq_some_iff hsorted
  | found :: next :: rest, hsorted =>
    have hmany : ¬ (found :: next :: rest).length ≤ 1 := by
      simp
    simp only [hmany, false_or]
    cases hread : host.findPulseRead fs resolved with
    | none => simp
    | some anchor =>
      have hloop := @anchoredOffset_eq content.toList anchor 0 none (found :: next :: rest)
        (List.pairwise_cons.mpr ⟨fun _ _ => Nat.zero_le _, hsorted.imp Nat.le_of_lt⟩)
      have hstart : lineAt content.toList 0 = 1 := rfl
      rw [hstart, Option.toList_none, List.nil_append] at hloop
      simp only [hloop, Option.some.injEq, exists_eq_left']
      rw [single_eq_some_iff (hsorted.filter _)]
      simp only [List.mem_filter, decide_eq_true_eq]

/-- A snippet that `edit_file` takes. -/
def Focused (content oldStr newStr : String) : Prop :=
  Text.isEmpty (Text.trim oldStr) = false ∧
    ToolOperator.editSnippetsTooLarge oldStr newStr = false ∧ oldStr ≠ content

theorem Focused.nonempty (h : Focused content oldStr newStr) : oldStr.toList ≠ [] := by
  intro hempty
  have htrim := h.1
  rw [Text.trim, hempty] at htrim
  cases htrim

theorem editedContent_ok_iff {new : String} :
    ToolOperator.editedContent host fs resolved content oldStr newStr = .ok new ↔
      Focused content oldStr newStr ∧
        ∃ offset, editTarget host fs resolved content oldStr = some offset ∧
          replaceAt content oldStr newStr offset = new := by
  rw [ToolOperator.editedContent, Focused]
  by_cases hblank : Text.isEmpty (Text.trim oldStr) = true
  · rw [hblank]
    simp
  rw [Bool.eq_false_iff.mpr hblank]
  by_cases hsize : ToolOperator.editSnippetsTooLarge oldStr newStr = true
  · rw [hsize]
    simp
  rw [Bool.eq_false_iff.mpr hsize]
  by_cases hwhole : oldStr = content
  · simp [hwhole]
  rw [editTarget, anchoredUniqueReplacement]
  simp only [true_and, ne_eq, hwhole, not_false_eq_true]
  match hmatch : matchIndices content oldStr with
  | [] => simp
  | [found] => simp
  | found :: next :: rest =>
    cases host.findPulseRead fs resolved with
    | none => simp
    | some anchor =>
      dsimp only
      cases anchoredOffset content.toList (anchor.startLine - editAnchorLinePad)
          (anchor.endLine + editAnchorLinePad) 0 1 none (found :: next :: rest) with
      | none => simp
      | some offset => simp

/-! ### The edit of a file -/

theorem take_replaceAt_eq_iff {offset written : ℕ}
    (h : OccursAt content.toList oldStr.toList offset) (hold : oldStr.toList ≠ []) :
    String.ofList ((replaceAt content oldStr newStr offset).toList.take written) = content ↔
      (newStr.toList ++ content.toList.drop (offset + oldStr.toList.length)).take (written - offset) =
        oldStr.toList ++ content.toList.drop (offset + oldStr.toList.length) := by
  have hsplit := h.split
  have hfront : (content.toList.take offset).length = offset := by
    rw [List.length_take]
    have hlength := congrArg List.length hsplit
    have hpositive := List.length_pos_iff.mpr hold
    simp only [List.length_append, List.length_take, List.length_drop] at hlength
    omega
  generalize hrest : content.toList.drop (offset + oldStr.toList.length) = rest at hsplit ⊢
  generalize content.toList.take offset = front at hsplit hfront
  have hlist : String.ofList ((replaceAt content oldStr newStr offset).toList.take written) = content ↔
      (front ++ newStr.toList ++ rest).take written = front ++ oldStr.toList ++ rest := by
    rw [← String.toList_inj, String.toList_ofList, replaceAt, String.toList_ofList, hrest, hsplit]
    rw [List.append_assoc front, ← hfront, List.take_left]
  rw [hlist, List.append_assoc, List.append_assoc]
  by_cases hle : offset ≤ written
  · rw [List.take_append, List.take_of_length_le (by omega), List.append_cancel_left_eq, hfront]
  have hzero : written - offset = 0 := by omega
  refine iff_of_false ?_ ?_
  · intro heq
    have hlength := congrArg List.length heq
    simp only [List.length_take, List.length_append] at hlength
    omega
  · rw [hzero]
    intro heq
    exact hold (List.append_eq_nil_iff.mp heq.symm).1

namespace ToolOperator

variable (op : ToolOperator) (fault : Option WriteFault) (path : String)

/-- `edit_file` with a write that may fail on the way. -/
def editFileWith (host : EditHost) (fs : FileSystem) (fault : Option WriteFault)
    (path oldStr newStr : String) : FileSystem × Except ToolError Unit :=
  match op.resolvePath fs path with
  | .error e => (fs, .error e)
  | .ok resolved =>
    if fs.isDir resolved then (fs, .error (directoryError "edit_file" path))
    else
      match readToString fs resolved with
      | .error e => (fs, .error (.context "Failed to read file for edit" e))
      | .ok content =>
        match editedContent host fs resolved content oldStr newStr with
        | .error e => (fs, .error e)
        | .ok newContent =>
          match fs.writeWith fault resolved newContent with
          | (fs, .error (some e)) => (fs, .error (.context "Failed to edit file" e))
          | (fs, .error none) => (fs, .error (.message "Failed to edit file"))
          | (fs, .ok ()) => (fs, .ok ())

/-- Where the write meets nothing, it is `edit_file`. -/
theorem editFileWith_none (oldStr newStr : String) :
    op.editFileWith host fs none path oldStr newStr = op.editFileIn host fs path oldStr newStr := by
  rw [editFileWith, editFileIn]
  cases op.resolvePath fs path with
  | error e => rfl
  | ok resolved =>
    dsimp only
    cases readToString fs resolved with
    | error e => rfl
    | ok content =>
      dsimp only
      cases editedContent host fs resolved content oldStr newStr with
      | error e => rfl
      | ok newContent =>
        dsimp only
        rw [FileSystem.writeWith]
        cases fs.write resolved newContent with
        | error e | ok written => rfl

/-- The file of the call and its text, and the one occurrence that the search keeps in range. -/
structure Edits (host : EditHost) (fs : FileSystem) (path oldStr newStr content : String)
    (offset : ℕ) : Prop where
  resolved : op.resolvePath fs path = .ok (op.named path)
  file : fs.isDir (op.named path) = false
  read : readToString fs (op.named path) = .ok content
  focused : Focused content oldStr newStr
  target : ∀ other, Kept content.toList oldStr.toList other ∧
    InRange host fs (op.named path) content oldStr other ↔ other = offset

variable {op fault path}

/-- An edit that gets to its write. -/
theorem Edits.run {offset : ℕ} (h : op.Edits host fs path oldStr newStr content offset) :
    op.editFileWith host fs fault path oldStr newStr =
      match fs.writeWith fault (op.named path) (replaceAt content oldStr newStr offset) with
      | (fs, .error (some e)) => (fs, .error (.context "Failed to edit file" e))
      | (fs, .error none) => (fs, .error (.message "Failed to edit file"))
      | (fs, .ok ()) => (fs, .ok ()) := by
  have hedited : editedContent host fs (op.named path) content oldStr newStr =
      .ok (replaceAt content oldStr newStr offset) :=
    editedContent_ok_iff.mpr
      ⟨h.focused, offset, (editTarget_eq_some_iff h.focused.nonempty).mpr h.target, rfl⟩
  rw [editFileWith, h.resolved]
  dsimp only
  rw [if_neg (Bool.eq_false_iff.mp h.file), h.read]
  dsimp only
  rw [hedited]

theorem editFileWith_of_not_edits
    (h : ∀ content offset, ¬ op.Edits host fs path oldStr newStr content offset) :
    ∃ e, op.editFileWith host fs fault path oldStr newStr = (fs, .error e) := by
  rw [editFileWith]
  cases hresolved : op.resolvePath fs path with
  | error e => exact ⟨e, rfl⟩
  | ok resolved =>
    obtain rfl := resolvePath_named hresolved
    dsimp only
    split
    · exact ⟨_, rfl⟩
    rename_i hdir
    cases hread : readToString fs (op.named path) with
    | error e => exact ⟨_, rfl⟩
    | ok content =>
      dsimp only
      cases hedited : editedContent host fs (op.named path) content oldStr newStr with
      | error e => exact ⟨e, rfl⟩
      | ok new =>
        obtain ⟨hfocused, offset, htarget, -⟩ := editedContent_ok_iff.mp hedited
        exact absurd ⟨hresolved, Bool.eq_false_iff.mpr hdir, hread, hfocused,
          (editTarget_eq_some_iff hfocused.nonempty).mp htarget⟩ (h content offset)

theorem write_read {p : Plain} (h : readToString fs p = .ok content) (new : String) :
    ∃ fs' loc, fs.write p new = .ok (fs', loc) ∧ readToString fs' p = .ok new := by
  obtain ⟨loc, hcanon, hnode⟩ := readToString_eq_iff.mp h
  obtain ⟨fs', hwrite⟩ := FileSystem.write_over hcanon hnode new
  exact ⟨fs', loc, hwrite, read_of_write hwrite⟩

/-! ### One occurrence or none -/

/-- What an edit promises: the file stays as it was, or the only occurrence that counts is replaced. -/
def ReplacesOnly (op : ToolOperator) (host : EditHost) (fs : FileSystem) (fault : Option WriteFault)
    (path oldStr newStr : String) : Prop :=
  match op.editFileWith host fs fault path oldStr newStr with
  | (fs', .error _) => readToString fs' (op.named path) = readToString fs (op.named path)
  | (fs', .ok ()) =>
    ∃ content offset, readToString fs (op.named path) = .ok content ∧
      (∀ other, OccursAt content.toList oldStr.toList other ∧
        InRange host fs (op.named path) content oldStr other ↔ other = offset) ∧
      readToString fs' (op.named path) = .ok (replaceAt content oldStr newStr offset)

/-- No occurrence that counts starts inside one before it; a write that is cut short has put back the
text that was there. -/
def Unhidden (host : EditHost) (fs : FileSystem) (resolved : Plain) (fault : Option WriteFault)
    (content oldStr newStr : String) (offset : ℕ) : Prop :=
  match fault with
  | none => ∀ other, InRange host fs resolved content oldStr other →
      ¬ Hidden content.toList oldStr.toList other
  | some .refused => True
  | some (.cut written) =>
    let rest := content.toList.drop (offset + oldStr.toList.length)
    (newStr.toList ++ rest).take (written - offset) = oldStr.toList ++ rest

theorem Edits.inj {content' : String} {offset offset' : ℕ}
    (h : op.Edits host fs path oldStr newStr content offset)
    (h' : op.Edits host fs path oldStr newStr content' offset') :
    content' = content ∧ offset' = offset := by
  have hread := h.read
  rw [h'.read] at hread
  obtain rfl := Except.ok.inj hread
  exact ⟨rfl, (h.target offset').mp ((h'.target offset').mpr rfl)⟩

theorem Edits.replacesOnly_iff {offset : ℕ} (h : op.Edits host fs path oldStr newStr content offset) :
    op.ReplacesOnly host fs fault path oldStr newStr ↔
      Unhidden host fs (op.named path) fault content oldStr newStr offset := by
  have hold := h.focused.nonempty
  have hkept := ((h.target offset).mpr rfl).1
  rw [ReplacesOnly, h.run]
  cases fault with
  | none =>
    obtain ⟨fs', loc, hwrite, hread⟩ := write_read h.read (replaceAt content oldStr newStr offset)
    dsimp only [FileSystem.writeWith]
    rw [hwrite]
    dsimp only [Unhidden]
    rw [← unique_iff_not_hidden h.target]
    constructor
    · intro hholds
      obtain ⟨content', found, hread', hunique, -⟩ := hholds
      rw [h.read] at hread'
      obtain rfl := Except.ok.inj hread'
      exact ⟨found, hunique⟩
    · intro hunique
      obtain ⟨found, hfound⟩ := hunique
      have hrange := ((h.target offset).mpr rfl).2
      have hsame : offset = found := (hfound offset).mp ⟨hkept.occursAt, hrange⟩
      exact ⟨content, offset, h.read, hsame ▸ hfound, hread⟩
  | some fault =>
    cases fault with
    | refused => exact iff_of_true rfl trivial
    | cut written =>
      obtain ⟨fs', loc, hwrite, hread⟩ := write_read h.read
        (String.ofList ((replaceAt content oldStr newStr offset).toList.take written))
      dsimp only [FileSystem.writeWith]
      rw [hwrite]
      dsimp only [Unhidden]
      rw [hread, h.read, Except.ok.injEq]
      exact take_replaceAt_eq_iff hkept.occursAt hold

/-- **`edit_file` replaces a unique occurrence or nothing** exactly when no occurrence that counts is
hidden in another one, and its write gets to the end or changes nothing. -/
theorem edit_replaces_only_iff (op : ToolOperator) (host : EditHost) (fs : FileSystem)
    (fault : Option WriteFault) (path oldStr newStr : String) :
    op.ReplacesOnly host fs fault path oldStr newStr ↔
      ∀ content offset, op.Edits host fs path oldStr newStr content offset →
        Unhidden host fs (op.named path) fault content oldStr newStr offset := by
  by_cases hedits : ∃ content offset, op.Edits host fs path oldStr newStr content offset
  · obtain ⟨content, offset, h⟩ := hedits
    rw [h.replacesOnly_iff]
    constructor
    · intro hunhidden content' offset' h'
      obtain ⟨rfl, rfl⟩ := h.inj h'
      exact hunhidden
    · intro hall
      exact hall content offset h
  · simp only [not_exists] at hedits
    obtain ⟨e, herror⟩ := @editFileWith_of_not_edits host fs oldStr newStr op fault path hedits
    refine iff_of_true ?_ ?_
    · rw [ReplacesOnly, herror]
    · intro content offset h
      exact absurd h (hedits content offset)

/-! ### An occurrence that is not counted -/

def editFiles : FileSystem where
  entries := [(["ws"], .directory), (["ws", "a"], .file "xaaa")]
  current := ["ws"]
  tree := by decide +kernel

/-- `aa` stands in `xaaa` at two places, and the first one is replaced. -/
theorem overlapping_occurrence_replaced :
    ¬ sampleOperator.ReplacesOnly plainHost editFiles none "a" "aa" "b" := by
  intro h
  have hdone : (sampleOperator.editFileWith plainHost editFiles none "a" "aa" "b").2.isOk = true := by
    decide +kernel
  rw [ReplacesOnly] at h
  generalize sampleOperator.editFileWith plainHost editFiles none "a" "aa" "b" = run at h hdone
  obtain ⟨fs', e | done⟩ := run
  · cases hdone
  obtain ⟨content, offset, hread, hunique, -⟩ := h
  have hcontent : readToString editFiles (sampleOperator.named "a") = .ok "xaaa" := by decide +kernel
  rw [hcontent] at hread
  obtain rfl := Except.ok.inj hread
  have hrange : ∀ other, InRange plainHost editFiles (sampleOperator.named "a") "xaaa" "aa" other :=
    fun other => .inl (by decide +kernel)
  have hfirst := (hunique 1).mp ⟨by decide +kernel, hrange 1⟩
  have hsecond := (hunique 2).mp ⟨by decide +kernel, hrange 2⟩
  omega

end ToolOperator

end Vexcoder.Tools
