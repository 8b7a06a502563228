import Vexcoder.Conversation.Tools
import Vexcoder.Tools.Evidence

/-!
# Turns that may only change tests

Under the policy for `/generate-tests` a call of a file tool is refused when a path in its input is not a
test path.  The check reads the text of the paths; the call touches places: where a path leads, the
directories made in front of it, the file next to it that a patch goes through, what is below a directory
that is renamed.  `Places` finds them in the state before the call (`touched_iff_places`).
-/

namespace Vexcoder.Tools

open Base
open Conversation (firstToolString isTestTargetPath mutatingToolTargetPaths
  testsOnlyMutationConflictPrompt)
open Lib.Files FileSystem
open Lib.Files.FileSystem (Plain)

/-! ### What a request touches -/

def Request.paths : Request → List String
  | .writeFile path _ | .applyPatch path _ | .editFile path .. => [path]
  | .renameFile oldPath newPath => [oldPath, newPath]

/-- `read_file_if_exists` for a path that is no directory. -/
def readFileIfExists (fs : FileSystem) (path : Plain) : Except IoError String :=
  match readToString fs path with
  | .ok content => .ok content
  | .error .notFound => .ok ""
  | .error e => .error e

namespace ToolOperator

variable (op : ToolOperator) (host : MutationHost) (fs : FileSystem)

/-- What `execute_tool` creates, overwrites or removes for a request. -/
def requestTouched : Request → List Location
  | .writeFile path content =>
    if host.writeFileMaxLines < (Conversation.contentStats content).2 then []
    else (op.writeFile host.toEditHost fs path content).touched
  | .applyPatch path content =>
    match op.resolvePath fs path with
    | .error _ => []
    | .ok resolved =>
      if fs.isDir resolved then []
      else
        match readFileIfExists fs resolved with
        | .error _ => []
        | .ok oldContent =>
          match op.proposePatch host.toEditHost fs path oldContent content with
          | .error _ => []
          | .ok pending => (op.applyPatch fs pending).touched
  | .editFile path oldStr newStr => (op.editFile host.toEditHost fs path oldStr newStr).touched
  | .renameFile oldPath newPath => (op.renameFile fs oldPath newPath).touched

def toolTouched (tool : MutationTool) (input : Value) : List Location :=
  match toolRequest tool input with
  | .error _ => []
  | .ok request => requestTouched op host fs request

/-- The files with the directories in front of a path made. -/
def withParent (path : Plain) : FileSystem := (createParent fs path).1

/-- A directory that is made in front of the path. -/
def Lacks (path : Plain) (dir : Location) : Prop :=
  fs.node dir = none ∧ (withParent fs path).isDirectory dir = true

/-- The places that a request comes to.  Those that a path itself leads to count when the path is `asked`
about; the others are the directories to be made, the file next to a patched one, and what lies below a
directory that is renamed. -/
def Places (asked : String → Prop) (P : Location → Prop) : Request → Prop
  | .writeFile path content =>
    (Conversation.contentStats content).2 ≤ host.writeFileMaxLines →
    op.resolvePath fs path = .ok (op.named path) → fs.exists? (op.named path) = false →
      (∀ dir, Lacks fs (op.named path) dir → P dir) ∧
        (asked path → (createParent fs (op.named path)).2.2 = .ok () →
          ∀ loc, (withParent fs (op.named path)).opensAt (op.named path) = some loc → P loc)
  | .applyPatch path _ =>
    op.resolvePath fs path = .ok (op.named path) → fs.isDir (op.named path) = false →
    (readFileIfExists fs (op.named path)).isOk = true →
      ∀ loc, fs.opensAt (withExtension (op.named path) "tmp") = some loc →
        if withExtension (op.named path) "tmp" = op.named path then asked path → P loc
        else P loc ∧ (∀ dir, fs.entryAt (withExtension (op.named path) "tmp") = some dir → P dir) ∧
          (asked path → ∀ dir, fs.entryAt (op.named path) = some dir → P dir)
  | .editFile path oldStr newStr =>
    op.resolvePath fs path = .ok (op.named path) →
      ∀ old new, readToString fs (op.named path) = .ok old →
        editedContent host.toEditHost fs (op.named path) old oldStr newStr = .ok new →
          asked path → ∀ loc, fs.canonicalize (op.named path) = .ok loc → P loc
  | .renameFile oldPath newPath =>
    op.resolvePath fs oldPath = .ok (op.named oldPath) →
    op.resolvePath fs newPath = .ok (op.named newPath) →
    fs.exists? (op.named oldPath) = true → op.named oldPath ≠ op.named newPath →
      (∀ dir, Lacks fs (op.named newPath) dir → P dir) ∧
        (canRename fs (op.named oldPath) (op.named newPath) = true →
          ∀ loc loc', (withParent fs (op.named newPath)).entryAt (op.named oldPath) = some loc →
            (withParent fs (op.named newPath)).entryAt (op.named newPath) = some loc' →
              (asked oldPath → P loc) ∧ (asked newPath → P loc') ∧
                ∀ rest, rest ≠ [] → (withParent fs (op.named newPath)).node (loc ++ rest) ≠ none →
                  P (loc ++ rest) ∧ P (loc' ++ rest))

variable {op host fs} {P : Location → Prop} {path : String}

theorem writeResolved_forall {α : Type} {made : List Location} {p : Plain} {content text : String}
    {done : α} :
    (∀ loc ∈ (writeResolved fs made p content text done).touched, P loc) ↔
      (∀ dir ∈ made, P dir) ∧ ∀ loc, fs.opensAt p = some loc → P loc := by
  rw [writeResolved]
  cases hwrite : fs.write p content with
  | error e =>
    have hopens : ∀ loc, fs.opensAt p ≠ some loc := fun loc hopen => by
      obtain ⟨fs', hfs'⟩ := (@write_ok_iff fs loc p content).mpr hopen
      rw [hwrite] at hfs'
      cases hfs'
    exact ⟨fun h => ⟨h, fun loc hopen => absurd hopen (hopens loc)⟩, fun h => h.1⟩
  | ok written =>
    obtain ⟨fs', loc⟩ := written
    have hopen : fs.opensAt p = some loc := write_ok_iff.mp ⟨fs', hwrite⟩
    rw [hopen]
    constructor
    · intro h
      refine ⟨fun dir hdir => h dir (List.mem_append_left _ hdir), fun other hother => ?_⟩
      cases hother
      exact h loc (List.mem_append_right _ (List.mem_singleton_self loc))
    · rintro ⟨hmade, hloc⟩ other hother
      rcases List.mem_append.mp hother with hother | hother
      · exact hmade other hother
      · rw [List.mem_singleton.mp hother]
        exact hloc loc rfl

theorem made_forall (p : Plain) :
    (∀ dir ∈ (createParent fs p).2.1, P dir) ↔ ∀ dir, Lacks fs p dir → P dir := by
  have hmakes := createParent_makes fs p
  refine forall_congr' fun dir => imp_congr_left ⟨fun hmem => ?_, fun h => ?_⟩
  · obtain ⟨hnone, hthere⟩ := hmakes.new dir hmem
    exact ⟨hnone, beq_iff_eq.mpr hthere⟩
  · by_contra hmem
    have hthere := h.2
    rw [isDirectory, withParent, hmakes.old dir hmem, h.1] at hthere
    cases hthere

theorem nothing_iff {Q : Prop} (h : Q) : (∀ loc ∈ ([] : List Location), P loc) ↔ Q :=
  iff_of_true (fun _ hmem => nomatch hmem) h

theorem writeFile_touched_iff (content : String) :
    (∀ loc ∈ requestTouched op host fs (.writeFile path content), P loc) ↔
      Places op host fs (fun _ => True) P (.writeFile path content) := by
  rw [requestTouched, Places]
  split
  · rename_i hlimit
    exact nothing_iff fun h => absurd hlimit (Nat.not_lt.mpr h)
  rename_i hlimit
  rw [Nat.not_lt] at hlimit
  rw [writeFile]
  cases hresolved : op.resolvePath fs path with
  | error e => exact nothing_iff fun _ h => by cases h
  | ok resolved =>
    obtain rfl := resolvePath_named hresolved
    dsimp only
    split
    · rename_i hdir
      refine nothing_iff fun _ _ hexists => ?_
      rw [isDir_exists? hdir] at hexists
      cases hexists
    · split
      · rename_i hexists
        refine nothing_iff fun _ _ hnew => ?_
        rw [hexists] at hnew
        cases hnew
      · rename_i hexists
        rw [Bool.not_eq_true] at hexists
        rw [hexists]
        rw [← made_forall, withParent]
        obtain ⟨fs₁, made, e | _⟩ := createParent fs (op.named path)
        · exact ⟨fun h _ _ _ => ⟨h, fun _ herror => by cases herror⟩, fun h => (h hlimit rfl rfl).1⟩
        · exact writeResolved_forall.trans ⟨fun h _ _ _ => ⟨h.1, fun _ _ => h.2⟩,
            fun h => ⟨(h hlimit rfl rfl).1, (h hlimit rfl rfl).2 trivial rfl⟩⟩

theorem editFile_touched_iff (oldStr newStr : String) :
    (∀ loc ∈ requestTouched op host fs (.editFile path oldStr newStr), P loc) ↔
      Places op host fs (fun _ => True) P (.editFile path oldStr newStr) := by
  rw [requestTouched, Places, editFile]
  cases hresolved : op.resolvePath fs path with
  | error e => exact nothing_iff fun h => by cases h
  | ok resolved =>
    obtain rfl := resolvePath_named hresolved
    dsimp only
    split
    · rename_i hdir
      refine nothing_iff fun _ old _ hread => ?_
      obtain ⟨loc, hcanon, hfile⟩ := readToString_eq_iff.mp hread
      rw [isDir, hcanon] at hdir
      dsimp only at hdir
      rw [isDirectory, hfile] at hdir
      cases hdir
    · cases hread : readToString fs (op.named path) with
      | error e => exact nothing_iff fun _ _ _ h => by cases h
      | ok old =>
        dsimp only
        cases hedited : editedContent host.toEditHost fs (op.named path) old oldStr newStr with
        | error e =>
          refine nothing_iff fun _ old' new h h' => ?_
          cases h
          rw [hedited] at h'
          cases h'
        | ok new =>
          obtain ⟨loc, hcanon, hfile⟩ := readToString_eq_iff.mp hread
          have hopen : fs.opensAt (op.named path) = some loc := by
            obtain ⟨fs', hwrite⟩ := write_over hcanon hfile new
            exact write_ok_iff.mp ⟨fs', hwrite⟩
          refine writeResolved_forall.trans ?_
          rw [hopen, hcanon]
          constructor
          · intro h _ _ _ _ _ _ other hother
            cases hother
            exact h.2 loc rfl
          · intro h
            refine ⟨fun _ hmem => (by cases hmem), fun other hother => ?_⟩
            cases hother
            exact h rfl old new rfl hedited trivial loc rfl

theorem moved_forall {fs : FileSystem} {loc loc' : Location} :
    (∀ other ∈ fs.moved loc loc', P other) ↔ P loc ∧ P loc' ∧
      ∀ rest, rest ≠ [] → fs.node (loc ++ rest) ≠ none → P (loc ++ rest) ∧ P (loc' ++ rest) := by
  have hbelow : ∀ other, other ∈ fs.below loc ↔
      other = loc ∨ ∃ rest, rest ≠ [] ∧ fs.node (loc ++ rest) ≠ none ∧ other = loc ++ rest := by
    intro other
    rw [below, List.mem_cons, List.mem_filter, Bool.and_eq_true, bne_iff_ne,
      List.isPrefixOf_iff_prefix]
    refine or_congr_right ⟨?_, ?_⟩
    · rintro ⟨hkey, ⟨rest, rfl⟩, hne⟩
      have hrest : rest ≠ [] := fun hrest => hne (by rw [hrest, List.append_nil])
      refine ⟨rest, hrest, ?_, rfl⟩
      rw [node, nodeAt, if_neg (by simp [hrest])]
      exact fun hnone => Lib.Assoc.find?_eq_none_iff.mp hnone hkey
    · rintro ⟨rest, hrest, hnode, rfl⟩
      rw [node, nodeAt, if_neg (by simp [hrest]), ne_eq, Lib.Assoc.find?_eq_none_iff,
        not_not] at hnode
      exact ⟨hnode, List.prefix_append _ _, by simp [hrest]⟩
  rw [moved, List.forall_mem_append, List.forall_mem_map]
  constructor
  · rintro ⟨hold, hnew⟩
    have hplace := hnew loc ((hbelow loc).mpr (.inl rfl))
    rw [List.drop_length, List.append_nil] at hplace
    refine ⟨hold loc ((hbelow loc).mpr (.inl rfl)), hplace, fun rest hrest hnode => ?_⟩
    have hmem := (hbelow (loc ++ rest)).mpr (.inr ⟨rest, hrest, hnode, rfl⟩)
    have hplace := hnew _ hmem
    rw [List.drop_left] at hplace
    exact ⟨hold _ hmem, hplace⟩
  · rintro ⟨hloc, hloc', hrest⟩
    constructor
    · intro other hother
      rcases (hbelow other).mp hother with rfl | ⟨rest, hne, hnode, rfl⟩
      · exact hloc
      · exact (hrest rest hne hnode).1
    · intro other hother
      rcases (hbelow other).mp hother with rfl | ⟨rest, hne, hnode, rfl⟩
      · rw [List.drop_length, List.append_nil]
        exact hloc'
      · rw [List.drop_left]
        exact (hrest rest hne hnode).2

theorem renamed_forall {fs : FileSystem} {source target : Plain} {locations : List Location}
    (h : fs.rename source target = .ok locations) :
    (∀ loc ∈ locations, P loc) ↔ ((!locations.isEmpty) = true → ∀ loc loc',
      fs.entryAt source = some loc → fs.entryAt target = some loc' →
        P loc ∧ P loc' ∧
          ∀ rest, rest ≠ [] → fs.node (loc ++ rest) ≠ none → P (loc ++ rest) ∧ P (loc' ++ rest)) := by
  rw [rename] at h
  cases hsource : fs.entry source with
  | error e =>
    rw [hsource] at h
    cases h
  | ok entry =>
    cases htarget : fs.entry target with
    | error e =>
      rw [hsource, htarget] at h
      cases h
    | ok entry' =>
      obtain ⟨dir, name⟩ := entry
      obtain ⟨dir', name'⟩ := entry'
      rw [hsource, htarget] at h
      rw [entryAt, entryAt, hsource, htarget]
      rcases renameEntry_locations h with rfl | rfl
      · exact nothing_iff fun hempty => by cases hempty
      · rw [moved_forall]
        constructor
        · intro hall _ loc loc' hloc hloc'
          cases hloc
          cases hloc'
          exact hall
        · exact fun hall => hall rfl _ _ rfl rfl

theorem renameFile_touched_iff (oldPath newPath : String) :
    (∀ loc ∈ requestTouched op host fs (.renameFile oldPath newPath), P loc) ↔
      Places op host fs (fun _ => True) P (.renameFile oldPath newPath) := by
  rw [requestTouched, Places, renameFile]
  cases hsource : op.resolvePath fs oldPath with
  | error e => exact nothing_iff fun h => by cases h
  | ok source =>
    obtain rfl := resolvePath_named hsource
    cases htarget : op.resolvePath fs newPath with
    | error e => exact nothing_iff fun _ h => by cases h
    | ok target =>
      obtain rfl := resolvePath_named htarget
      dsimp only
      cases hexists : fs.exists? (op.named oldPath) with
      | false => exact nothing_iff fun _ _ h => by cases h
      | true =>
        rw [Bool.not_true, if_neg Bool.false_ne_true]
        split
        · rename_i hsame
          exact nothing_iff fun _ _ _ hne => absurd hsame hne
        rename_i hne
        rw [← made_forall, canRename, withParent]
        obtain ⟨fs₁, made, e | _⟩ := createParent fs (op.named newPath)
        · exact ⟨fun h _ _ _ _ => ⟨h, fun herror => by cases herror⟩,
            fun h => (h rfl rfl rfl hne).1⟩
        · dsimp only
          cases hrename : fs₁.rename (op.named oldPath) (op.named newPath) with
          | error e =>
            exact ⟨fun h _ _ _ _ => ⟨h, fun herror => by cases herror⟩,
              fun h => (h rfl rfl rfl hne).1⟩
          | ok locations =>
            rw [List.forall_mem_append, renamed_forall hrename]
            simp only [forall_const]
            exact ⟨fun h _ => h, fun h => h hne⟩

/-- Nothing lies below a file or a link, so that only its own name moves. -/
theorem moved_file {fs : FileSystem} {loc loc' : Location} {node : Node}
    (hnode : fs.node loc = some node) (hfile : node ≠ .directory) :
    (∀ other ∈ fs.moved loc loc', P other) ↔ P loc ∧ P loc' := by
  rw [moved_forall]
  exact and_congr_right fun _ => and_iff_left fun rest hrest hthere =>
    absurd (none_below hnode hfile hrest) hthere

theorem readFileIfExists_hasNul {p : Plain} {content : String}
    (h : readFileIfExists fs p = .ok content) : p.hasNul = false := by
  by_contra hnul
  rw [Bool.not_eq_false] at hnul
  rw [readFileIfExists, readToString, canonicalize, lookup, if_pos hnul] at h
  cases h

theorem applyPatch_touched {pending : PendingPatch} {content : String} {loc : Location}
    (hinside : op.ensurePathIsWithinWorkspace fs pending.path = .ok ())
    (hdir : fs.isDir pending.path = false) (hread : readFileIfExists fs pending.path = .ok content)
    (hopen : fs.opensAt (withExtension pending.path "tmp") = some loc) :
    (∀ other ∈ (op.applyPatch fs pending).touched, P other) ↔
      if withExtension pending.path "tmp" = pending.path then P loc
      else P loc ∧ (∀ dir, fs.entryAt (withExtension pending.path "tmp") = some dir → P dir) ∧
        ∀ dir, fs.entryAt pending.path = some dir → P dir := by
  obtain ⟨fs₁, hwrite⟩ := (@write_ok_iff fs loc _ pending.newContent).mpr hopen
  obtain ⟨-, hext⟩ := write_spec hwrite
  obtain ⟨dir, tempName, htemp⟩ := opensAt_entry hopen
  have hnul := readFileIfExists_hasNul hread
  have htouched : (op.applyPatch fs pending).touched =
      loc :: (fs₁.rename (withExtension pending.path "tmp") pending.path).toOption.getD [] := by
    rw [applyPatch, hinside]
    dsimp only
    rw [hwrite]
    dsimp only
    cases fs₁.rename (withExtension pending.path "tmp") pending.path with
    | error e | ok locations => rfl
  rw [htouched]
  obtain ⟨diff, newContent, p⟩ := pending
  obtain ⟨names, absolute⟩ := p
  cases names with
  | nil => cases absolute <;> cases htemp
  | cons name up =>
    obtain ⟨tempName', htempName⟩ := withExtension_cons name up absolute "tmp"
    rw [htempName] at htemp ⊢ hwrite
    obtain ⟨-, rfl, hup, hdirectory⟩ := entry_ok_iff.mp htemp
    have hentry : fs.entry ⟨name :: up, absolute⟩ = .ok (dir, name) :=
      entry_ok_iff.mpr ⟨hnul, rfl, hup, hdirectory⟩
    obtain ⟨node, hnode, hplain⟩ := write_entry hwrite htemp hdirectory
    have hrename : fs₁.rename ⟨tempName :: up, absolute⟩ ⟨name :: up, absolute⟩ =
        fs₁.renameEntry (dir ++ [tempName]) (dir ++ [name]) := by
      rw [rename, entry_extend htemp hext, entry_extend hentry hext]
    rw [hrename]
    rw [List.forall_mem_cons]
    by_cases hname : tempName = name
    · subst hname
      rw [if_pos rfl, renameEntry, hnode]
      dsimp only
      rw [if_pos rfl]
      exact and_iff_left fun _ hmem => absurd hmem List.not_mem_nil
    · have hlocation : dir ++ [tempName] ≠ dir ++ [name] := fun heq =>
        hname (List.singleton_inj.mp (List.append_cancel_left heq))
      have hfile : fs₁.isDirectory (dir ++ [name]) = false := by
        rw [Bool.eq_false_iff]
        intro hisDir
        rw [(write_spec hwrite).1] at hisDir
        have hold := isDirectory_put_file hisDir
        exact node_not_directory hdir hentry (beq_iff_eq.mp hold)
      have hne : Plain.mk (tempName :: up) absolute ≠ ⟨name :: up, absolute⟩ := fun heq => by
        cases heq
        exact hname rfl
      rw [if_neg hne, renameEntry_file hnode hplain hlocation, hfile,
        if_neg Bool.false_ne_true, entryAt, entryAt, htemp, hentry]
      refine and_congr_right fun _ => (moved_file hnode hplain).trans ?_
      simp only [Option.some.injEq, forall_eq']

theorem patch_touched_iff (content : String) :
    (∀ loc ∈ requestTouched op host fs (.applyPatch path content), P loc) ↔
      Places op host fs (fun _ => True) P (.applyPatch path content) := by
  rw [requestTouched, Places]
  cases hresolved : op.resolvePath fs path with
  | error e => exact nothing_iff fun h => by cases h
  | ok resolved =>
    obtain rfl := resolvePath_named hresolved
    dsimp only
    cases hdir : fs.isDir (op.named path) with
    | true => exact nothing_iff fun _ h => by cases h
    | false =>
      rw [if_neg Bool.false_ne_true]
      cases hread : readFileIfExists fs (op.named path) with
      | error e => exact nothing_iff fun _ _ h => by cases h
      | ok oldContent =>
        have hpropose : op.proposePatch host.toEditHost fs path oldContent content =
            .ok { diff := host.formatEditHunks oldContent content "" 2, newContent := content
                  path := op.named path } := by
          rw [proposePatch, hresolved]
          dsimp only
          rw [hdir]
          rfl
        have hinside : op.ensurePathIsWithinWorkspace fs (op.named path) = .ok () :=
          ensure_ok_iff.mpr (resolvePath_guard hresolved)
        dsimp only
        rw [hpropose]
        dsimp only
        cases hopen : fs.opensAt (withExtension (op.named path) "tmp") with
        | none =>
          have hnothing : (op.applyPatch fs
              { diff := host.formatEditHunks oldContent content "" 2, newContent := content
                path := op.named path }).touched = [] := by
            rw [applyPatch, hinside]
            dsimp only
            cases hwrite : fs.write (withExtension (op.named path) "tmp") content with
            | error e => rfl
            | ok written =>
              obtain ⟨fs', loc⟩ := written
              rw [write_ok_iff.mp ⟨fs', hwrite⟩] at hopen
              cases hopen
          rw [hnothing]
          exact nothing_iff fun _ _ _ _ h => by cases h
        | some loc =>
          rw [applyPatch_touched hinside hdir hread hopen]
          simp only [forall_const, Option.some.injEq, forall_eq']
          exact ⟨fun h _ => h, fun h => h rfl⟩

/-- **What a request touches** is where it comes to in the state before it. -/
theorem touched_iff_places (request : Request) :
    (∀ loc ∈ requestTouched op host fs request, P loc) ↔
      Places op host fs (fun _ => True) P request := by
  cases request with
  | writeFile path content => exact writeFile_touched_iff content
  | applyPatch path content => exact patch_touched_iff content
  | editFile path oldStr newStr => exact editFile_touched_iff oldStr newStr
  | renameFile oldPath newPath => exact renameFile_touched_iff oldPath newPath

end ToolOperator

/-! ### The paths that the check and the executor read -/

variable {input : Value} {tool : MutationTool} {keys : List String}

theorem requiredToolStringAny_ok {acceptedKey path : String}
    (h : requiredToolStringAny input tool acceptedKey keys = .ok path) :
    ∃ taken, firstToolString input keys = some taken ∧ path = Text.trim taken := by
  rw [requiredToolStringAny] at h
  split at h
  · cases h
  rename_i hempty
  cases h
  cases hfirst : firstToolString input keys with
  | none =>
    rw [hfirst] at hempty
    exact absurd (by decide) hempty
  | some taken => exact ⟨taken, rfl, rfl⟩

theorem firstToolString_more {taken : String} (h : firstToolString input keys = some taken)
    (more : List String) : firstToolString input (keys ++ more) = some taken := by
  rw [firstToolString] at h ⊢
  rw [List.findSome?_append, h]
  rfl

theorem path_is_target {path : String} (h : requiredToolStringAny input tool "path" keys = .ok path)
    (more : List String) :
    ∃ target ∈ (firstToolString input (keys ++ more)).toList, path = Text.trim target := by
  obtain ⟨taken, htaken, rfl⟩ := requiredToolStringAny_ok h
  rw [firstToolString_more htaken more]
  exact ⟨taken, List.mem_singleton_self taken, rfl⟩

/-- **The check reads the executor's paths**: each path of a request is, but for blanks around it, a
target path of the call. -/
theorem toolRequest_paths {request : Request} (h : toolRequest tool input = .ok request) :
    ∀ path ∈ request.paths, ∃ target ∈ mutatingToolTargetPaths tool.name input, path = Text.trim target := by
  intro other hother
  cases tool with
  | writeFile =>
    rw [toolRequest] at h
    split at h
    · cases h
    · rename_i path hpath
      cases h
      rw [List.mem_singleton.mp hother]
      exact path_is_target hpath ["filename"]
  | applyPatch =>
    rw [toolRequest] at h
    split at h
    · cases h
    rename_i path hpath
    split at h
    · cases h
    · cases h
      rw [List.mem_singleton.mp hother]
      obtain ⟨target, htarget, hsame⟩ := path_is_target hpath ["filename"]
      exact ⟨target, List.mem_append_left _ htarget, hsame⟩
  | editFile =>
    rw [toolRequest] at h
    split at h
    · cases h
    rename_i path hpath
    split at h
    · cases h
    · cases h
      rw [List.mem_singleton.mp hother]
      exact path_is_target hpath []
  | renameFile =>
    rw [toolRequest] at h
    split at h
    · cases h
    rename_i oldPath holdPath
    split at h
    · cases h
    rename_i newPath hnewPath
    cases h
    obtain ⟨old, hold, rfl⟩ := requiredToolStringAny_ok holdPath
    obtain ⟨new, hnew, rfl⟩ := requiredToolStringAny_ok hnewPath
    have htargets : mutatingToolTargetPaths "rename_file" input = [old, new] := by
      show (firstToolString input ["old_path", "from", "source_path"]).toList ++
        (firstToolString input ["new_path", "to", "target_path"]).toList = [old, new]
      rw [hold, hnew]
      rfl
    show ∃ target ∈ mutatingToolTargetPaths "rename_file" input, other = Text.trim target
    rw [htargets]
    rcases List.mem_pair.mp hother with rfl | rfl
    · exact ⟨old, List.mem_cons_self, rfl⟩
    · exact ⟨new, List.mem_cons_of_mem _ List.mem_cons_self, rfl⟩

/-! ### The policy -/

/-- A location as a path below the working directory, when it lies there. -/
def ToolOperator.workspacePath (op : ToolOperator) (loc : Location) : Option String :=
  if op.inside loc then
    some (Text.join "/" (((locationComponents loc).drop op.canonicalWorkingDir.length).filterMap
      fun component => match component with
        | .normal name => some name
        | _ => none))
  else none

/-- What lies in the workspace lies at a test path. -/
def ToolOperator.isTestPlace (op : ToolOperator) (loc : Location) : Bool :=
  match op.workspacePath loc with
  | none => true
  | some path => isTestTargetPath path

/-- A call in a turn with a policy: what the loop over the calls lets through is executed. -/
def callUnderPolicy (policy : Task.PulseToolPolicy) (op : ToolOperator) (host : MutationHost)
    (fs : FileSystem) (tool : MutationTool) (input : Value) :
    FileSystem × Except ToolError String :=
  match testsOnlyMutationConflictPrompt policy tool.name input with
  | some prompt => (fs, .error (.message prompt))
  | none => executeTool op host fs tool input

def policyTouched (policy : Task.PulseToolPolicy) (op : ToolOperator) (host : MutationHost)
    (fs : FileSystem) (tool : MutationTool) (input : Value) : List Location :=
  match testsOnlyMutationConflictPrompt policy tool.name input with
  | some _ => []
  | none => op.toolTouched host fs tool input

end Vexcoder.Tools
