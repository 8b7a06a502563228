import Vexcoder.Tools.IndexRequests
import Vexcoder.Tools.Undo

/-!
# The index along a session

A call that the index follows leaves it the chunks of an index that is built anew, so every state that is
reached by such calls does (`index_follows_session`).  A directory with source files that is renamed is not
followed: its files are refreshed under neither path.
-/

namespace Vexcoder.Tools

open Base
open Vexcoder.Configuration (SearchConfig)
open Lib.Files
open Lib.Files.FileSystem (Plain FilesChange Creates DirectoryMoves)
open Lib.Refresh

/-- As a multiset, the chunks that are held are those of an index that is built anew. -/
def IndexCurrent (host : IndexHost) (config : SearchConfig) (root : Plain) (state : IndexedFiles) : Prop :=
  state.index.Perm (buildIndexFiltered host config state.files root)

/-- The states that calls which the index follows lead to. -/
inductive Session (op : ToolOperator) (host : MutationHost) (indexHost : IndexHost)
    (config : SearchConfig) (root : Plain) (base : Location) (fs : FileSystem) : IndexedFiles → Prop
  | built : Session op host indexHost config root base fs
      { files := fs, index := buildIndexFiltered indexHost config fs root }
  | call {state : IndexedFiles} {call : ToolCall} {request : Request} :
    Session op host indexHost config root base fs state →
    toolRequest call.tool call.input = .ok request →
    (executeIndexed op host indexHost config root state call).2.isOk = true →
    IndexFollows op indexHost state.files root base request →
    Session op host indexHost config root base fs (executeIndexed op host indexHost config root state call).1

variable {op : ToolOperator} {host : MutationHost} {indexHost : IndexHost} {config : SearchConfig}
  {fs fs' : FileSystem} {root : Plain} {base loc : Location} {names : List String} {path text : String}
  {changed : List Location} {request : Request} {index : List IndexChunk}

/-! ### The places of a request -/

theorem mem_changedPlaces (h : base ++ names ∈ changedPlaces base request) :
    (∃ path ∈ request.paths, names = writtenPieces path) ∨
      ∃ path content, request = .applyPatch path content ∧ names = tempPieces path := by
  cases request with
  | writeFile path content | editFile path oldStr newStr =>
    have heq := List.append_cancel_left (List.mem_singleton.mp h)
    exact .inl ⟨path, List.mem_singleton_self path, heq⟩
  | applyPatch path content =>
    rcases List.mem_pair.mp h with heq | heq
    · exact .inr ⟨path, content, rfl, List.append_cancel_left heq⟩
    · exact .inl ⟨path, List.mem_singleton_self path, List.append_cancel_left heq⟩
  | renameFile oldPath newPath =>
    rcases List.mem_pair.mp h with heq | heq
    · exact .inl ⟨oldPath, List.mem_cons_self, List.append_cancel_left heq⟩
    · exact .inl ⟨newPath, List.mem_cons_of_mem _ List.mem_cons_self, List.append_cancel_left heq⟩

theorem base_prefix_of_mem (h : loc ∈ changedPlaces base request) : base <+: loc := by
  cases request with
  | writeFile | editFile => exact List.mem_singleton.mp h ▸ List.prefix_append _ _
  | applyPatch | renameFile => rcases List.mem_pair.mp h with rfl | rfl <;> exact List.prefix_append _ _

/-- The file that a patch goes through is called like no source file and not like `.gitignore`. -/
theorem tempPieces_last (hne : writtenPieces path ≠ []) :
    ∃ up stem, tempPieces path = up ++ [String.ofList (stem ++ ['.', 't', 'm', 'p'])] := by
  obtain ⟨up, name, hpieces⟩ : ∃ up name, writtenPieces path = up ++ [name] :=
    ⟨_, _, (List.dropLast_append_getLast hne).symm⟩
  refine ⟨up, fileStem name, ?_⟩
  rw [tempPieces, hpieces, List.reverse_append]
  show (String.ofList (fileStem name ++ '.' :: "tmp".toList) :: up.reverse).reverse = _
  rw [List.reverse_cons, List.reverse_reverse]
  rfl

theorem extensionOf_temp (stem : List Char) :
    extensionOf (String.ofList (stem ++ ['.', 't', 'm', 'p'])) = some "tmp" ∨
      extensionOf (String.ofList (stem ++ ['.', 't', 'm', 'p'])) = none := by
  have hdot := Lib.Search.rfindElem_append_right stem
    (show Lib.Search.rfindElem '.' ['.', 't', 'm', 'p'] = some 0 by decide)
  rw [extensionOf, String.toList_ofList, hdot]
  cases hlen : stem.length with
  | zero => exact .inr rfl
  | succ n =>
    left
    dsimp only
    have hdrop : (stem ++ ['.', 't', 'm', 'p']).drop (n + 2) = ['t', 'm', 'p'] := by
      rw [show n + 2 = stem.length + 1 by omega, ← List.drop_drop, List.drop_left]
      rfl
    rw [hdrop]

theorem tempPieces_language (hne : writtenPieces path ≠ []) :
    detectSourceLanguage (root.below (tempPieces path)).components = none := by
  obtain ⟨up, stem, htemp⟩ := tempPieces_last hne
  rw [htemp, components_below, List.map_append, ← List.append_assoc, detectSourceLanguage, List.filter_append]
  have hname (name : String) : ([name].map Component.normal).filter (· != Component.curDir) =
      [Component.normal name] := rfl
  rw [hname, List.getLast?_concat]
  dsimp only
  rcases extensionOf_temp stem with h | h
  · rw [h]
    rfl
  · rw [h]

theorem tempPieces_ne_ignoreFile (hne : writtenPieces path ≠ []) : tempPieces path ≠ [".gitignore"] := by
  obtain ⟨up, stem, htemp⟩ := tempPieces_last hne
  rw [htemp]
  intro h
  have hlast := congrArg List.getLast? h
  rw [List.getLast?_concat] at hlast
  have hchars := congrArg (fun name => (String.toList name).getLast?) (Option.some.inj hlast)
  rw [String.toList_ofList, List.getLast?_append] at hchars
  cases hchars

theorem ignoreFile_notMem (hfollows : IndexFollows op indexHost fs root base request) :
    base ++ [".gitignore"] ∉ changedPlaces base request := by
  intro hmem
  rcases mem_changedPlaces hmem with ⟨path, hpath, hnames⟩ | ⟨path, content, rfl, hnames⟩
  · exact (hfollows.trackable path hpath).notIgnoreFile hnames.symm
  · have hplain := (hfollows.trackable path (List.mem_singleton_self path)).written
    exact tempPieces_ne_ignoreFile (writtenPieces_ne_nil hplain) hnames.symm

/-- A changed place has a path of the call, or holds no source file. -/
theorem path_or_no_source (hfollows : IndexFollows op indexHost fs root base request)
    (h : base ++ names ∈ changedPlaces base request) :
    (∃ path ∈ request.paths, names = writtenPieces path) ∨
      detectSourceLanguage (root.below names).components = none := by
  rcases mem_changedPlaces h with hpath | ⟨path, content, rfl, rfl⟩
  · exact .inl hpath
  · have hplain := (hfollows.trackable path (List.mem_singleton_self path)).written
    exact .inr (tempPieces_language (writtenPieces_ne_nil hplain))

/-! ### What a call keeps -/

/-- Behind a call the workspace, the ignored paths and every contribution are what they were, but for the
contributions of the paths of the call. -/
structure CallKeeps (op : ToolOperator) (host : IndexHost) (config : SearchConfig) (root : Plain)
    (base : Location) (request : Request) (fs fs' : FileSystem) : Prop where
  workspace : Workspace op fs' root base
  linksArePaths : fs'.LinksArePaths
  ignore : loadIgnore host fs' root = loadIgnore host fs root
  direct : ∀ path ∈ request.paths, fs'.LinkFree base (writtenPieces path)
  contributes : ∀ names, (∀ path ∈ request.paths, names ≠ writtenPieces path) →
    contribution host config fs' root names = contribution host config fs root names

theorem CallKeeps.of_changes (hw : Workspace op fs root base) (hlinks : fs.LinksArePaths)
    (hfollows : IndexFollows op indexHost fs root base request)
    (h : ChangesFiles base request fs fs') : CallKeeps op indexHost config root base request fs fs' := by
  obtain ⟨changed, hchanged, hchange, hcreates⟩ := h
  have hapart := hfollows.apart.mono hchanged hcreates
  have hbelow : ∀ place ∈ changed, base <+: place := fun place h => base_prefix_of_mem (hchanged h)
  have hfile : base ++ [".gitignore"] ∉ changed := fun h => ignoreFile_notMem hfollows (hchanged h)
  refine
    { workspace := workspace_after hw hlinks hchange
      linksArePaths := hchange.linksArePaths hlinks
      ignore := loadIgnore_eq hw hlinks hchange hbelow hapart indexHost hfile
      direct := fun path hpath front hfront hlink =>
        (hfollows.trackable path hpath).direct front hfront (hchange.isLink_iff.mp hlink)
      contributes := fun names hnames => ?_ }
  by_cases hmem : base ++ names ∈ changed
  · obtain ⟨path, hpath, hsame⟩ | hnone := path_or_no_source hfollows (hchanged hmem)
    · exact absurd hsame (hnames path hpath)
    · exact (contribution_of_language hnone).trans (contribution_of_language hnone).symm
  · exact contribution_eq hw hlinks hchange hbelow hapart hfile hmem

theorem CallKeeps.of_moves {oldPath newPath : String} (hw : Workspace op fs root base)
    (hlinks : fs.LinksArePaths)
    (hfollows : IndexFollows op indexHost fs root base (.renameFile oldPath newPath))
    (hunseen : MovesUnseen indexHost fs root base (writtenPieces oldPath) (writtenPieces newPath))
    (hmoves : DirectoryMoves fs fs' (base ++ writtenPieces oldPath) (base ++ writtenPieces newPath)) :
    CallKeeps op indexHost config root base (.renameFile oldPath newPath) fs fs' := by
  have hold := hfollows.trackable oldPath List.mem_cons_self
  have hnew := hfollows.trackable newPath (List.mem_cons_of_mem _ List.mem_cons_self)
  have hne := writtenPieces_ne_nil hold.written
  have hne' := writtenPieces_ne_nil hnew.written
  exact
    { workspace := workspace_moved hw hmoves hunseen hne hne'
      linksArePaths := hmoves.linksFrom.linksArePaths hlinks
      ignore := loadIgnore_moved hw hmoves hunseen hne hne' hold.notIgnoreFile hnew.notIgnoreFile
      direct := fun _ _ front _ => noLinks_moved hmoves hunseen front
      contributes := fun names _ =>
        contribution_moved hw hmoves hunseen hne hne' hold.notIgnoreFile hnew.notIgnoreFile names }

theorem mem_of_contribution (h : contribution indexHost config fs root names ≠ []) :
    names ∈ indexedPaths indexHost fs root := by
  by_contra hmem
  rw [contribution, share, if_neg hmem] at h
  exact h rfl

/-! ### One call -/

section Call

variable (hkeeps : CallKeeps op indexHost config root base request fs fs')
  (hfollows : IndexFollows op indexHost fs root base request)

include hkeeps

/-- Only the texts of the paths of a call become stale. -/
theorem agrees_after :
    Agrees IndexChunk.path (request.paths.map workspaceRelative)
      (buildIndexFiltered indexHost config fs root) (buildIndexFiltered indexHost config fs' root) := by
  refine .of_sources nodup_indexedPaths nodup_indexedPaths (fun names chunk h => walkedChunks_path h)
    (fun names chunk h => walkedChunks_path h) fun names hfresh => ?_
  refine (hkeeps.contributes names fun path hpath hsame => hfresh ?_).symm
  rw [hsame]
  exact List.mem_map_of_mem hpath

include hfollows

/-- After the call, a path of it shares its text with no other file. -/
theorem alone_after (hback : ∀ path ∈ request.paths, '\\' ∉ path.toList) (hpath : path ∈ request.paths)
    (hmem : names ∈ indexedPaths indexHost fs' root) (hname : relativeText names = workspaceRelative path)
    (hne : walkedChunks indexHost config fs' root names ≠ []) : names = writtenPieces path := by
  by_cases hother : ∃ other ∈ request.paths, names = writtenPieces other
  · obtain ⟨other, hother, rfl⟩ := hother
    exact writtenPieces_inj (hfollows.trackable other hother).written
      (hfollows.trackable path hpath).written (hback other hother) (hback path hpath) hname
  · have hsame := hkeeps.contributes names fun other hmem heq => hother ⟨other, hmem, heq⟩
    rw [contribution, share, if_pos hmem] at hsame
    rw [hsame] at hne
    exact (hfollows.trackable path hpath).alone names (mem_of_contribution hne) hname

theorem changedChunks_perm (hwritten : ∀ path ∈ request.paths,
      path.toList.head? ≠ some '/' ∧ '\\' ∉ path.toList ∧ .parentDir ∉ components path)
    (hpath : path ∈ request.paths) :
    (changedChunks indexHost config fs' root path).Perm
      ((buildIndexFiltered indexHost config fs' root).filter fun chunk =>
        chunk.path = workspaceRelative path) := by
  obtain ⟨hslash, -, hparent⟩ := hwritten path hpath
  have htrack := hfollows.trackable path hpath
  rw [changedChunks_eq_contribution hkeeps.workspace htrack.written hslash hparent
    (hkeeps.direct path hpath) (hkeeps.ignore ▸ htrack.ignoredWhole)]
  exact perm_of_only nodup_indexedPaths (fun names chunk h => walkedChunks_path h)
    fun names hmem hname hne =>
      alone_after hkeeps hfollows (fun path h => (hwritten path h).2.1) hpath hmem hname hne

end Call

/-- **A call that the index follows** leaves it current. -/
theorem refreshed_perm {call : ToolCall} (hw : Workspace op fs root base) (hlinks : fs.LinksArePaths)
    (henabled : config.enabled = true) (hrequest : toolRequest call.tool call.input = .ok request)
    (hexecute : executeRequest op host fs request = (fs', .ok text))
    (hfollows : IndexFollows op indexHost fs root base request)
    (hindex : index.Perm (buildIndexFiltered indexHost config fs root)) :
    Workspace op fs' root base ∧ fs'.LinksArePaths ∧
      (request.paths.foldl (refreshCodebaseIndex indexHost config fs' root) index).Perm
        (buildIndexFiltered indexHost config fs' root) := by
  have htrim := request_paths_trimmed hrequest
  have hwritten : ∀ path ∈ request.paths,
      path.toList.head? ≠ some '/' ∧ '\\' ∉ path.toList ∧ .parentDir ∉ components path := by
    intro path hpath
    obtain ⟨resolved, hresolved⟩ := request_paths_resolved hexecute path hpath
    exact resolvePath_written (htrim path hpath) hresolved
  have hkeeps : CallKeeps op indexHost config root base request fs fs' := by
    obtain hchanges | ⟨oldPath, newPath, rfl, hunseen, hmoves⟩ :=
      changes_filesChange hw hfollows htrim (ToolOperator.executeRequest_changes hexecute)
    · exact .of_changes hw hlinks hfollows hchanges
    · exact .of_moves hw hlinks hfollows hunseen hmoves
  have hrefresh : refreshCodebaseIndex indexHost config fs' root = fun held path =>
      refresh IndexChunk.path (workspaceRelative path)
        (changedChunks indexHost config fs' root path) held := by
    funext held path
    rw [refreshCodebaseIndex, henabled]
    rfl
  have hagrees := (Agrees.of_perm hindex _).trans (agrees_after hkeeps)
  refine ⟨hkeeps.workspace, hkeeps.linksArePaths, ?_⟩
  rw [hrefresh]
  exact hagrees.refresh_all workspaceRelative _ fun path hpath =>
    changedChunks_perm hkeeps hfollows hwritten hpath

/-! ### A session -/

theorem executeIndexed_ok {state : IndexedFiles} {call : ToolCall}
    (hrequest : toolRequest call.tool call.input = .ok request)
    (h : (executeIndexed op host indexHost config root state call).2.isOk = true) :
    ∃ fs' text, executeRequest op host state.files request = (fs', .ok text) ∧
      (executeIndexed op host indexHost config root state call).1 =
        { files := fs'
          index := request.paths.foldl (refreshCodebaseIndex indexHost config fs' root) state.index } := by
  rw [executeIndexed, hrequest] at h ⊢
  dsimp only at h ⊢
  cases hexecute : executeRequest op host state.files request with
  | mk files result =>
    rw [hexecute] at h
    cases result with
    | error e => cases h
    | ok text => exact ⟨files, text, rfl, rfl⟩

/-- **The index follows a session**: whatever calls that it follows have succeeded, the chunks that are
held are those of an index that is built anew. -/
theorem index_follows_session (op : ToolOperator) (host : MutationHost) (indexHost : IndexHost)
    (config : SearchConfig) (root : Plain) (base : Location) (fs : FileSystem) (state : IndexedFiles)
    (hw : Workspace op fs root base) (hlinks : fs.LinksArePaths) (henabled : config.enabled = true)
    (h : Session op host indexHost config root base fs state) :
    IndexCurrent indexHost config root state := by
  suffices hall : Workspace op state.files root base ∧ state.files.LinksArePaths ∧
      IndexCurrent indexHost config root state from hall.2.2
  induction h with
  | built => exact ⟨hw, hlinks, .refl _⟩
  | call _ hrequest hok hfollows ih =>
    obtain ⟨hw', hlinks', hindex⟩ := ih
    obtain ⟨fs', text, hexecute, hstate⟩ := executeIndexed_ok hrequest hok
    rw [hstate]
    exact refreshed_perm hw' hlinks' henabled hrequest hexecute hfollows hindex

/-! ### A session that is followed, and a directory that is not -/

def sourceFiles : FileSystem where
  entries := [(["ws"], .directory), (["ws", "src"], .directory),
    (["ws", "src", "lib.rs"], .file "fn run() {}")]
  current := ["ws"]
  tree := by decide +kernel

def oneFunction : IndexHost where
  extractItems _ source :=
    [{ startLine := 1, endLine := 1, kind := .function, name := "run", parentScope := none, source }]
  gitignore _ _ _ := false

def sourceRoot : Plain := ⟨["ws"], true⟩

def sourceRun (calls : List ToolCall) : IndexedFiles :=
  calls.foldl (fun state call =>
    (executeIndexed sampleOperator sampleHost oneFunction {} sourceRoot state call).1)
    { files := sourceFiles, index := buildIndexFiltered oneFunction {} sourceFiles sourceRoot }

def sourceCalls : List ToolCall :=
  [writeCall "src/new.rs" "fn run() { run() }", editCall "./src/lib.rs" "{}" "{ run() }",
    renameCall "src/new.rs" "more/new.rs"]

theorem loadIgnore_oneFunction (fs : FileSystem) (rel : String) (isDir : Bool) :
    loadIgnore oneFunction fs sourceRoot rel isDir = false := by
  rw [loadIgnore]
  cases readToString fs (sourceRoot.below [".gitignore"]) with
  | ok content | error e => rfl

theorem sourceRun_call (calls : List ToolCall) (call : ToolCall) (request : Request)
    (hrequest : toolRequest call.tool call.input = .ok request)
    (hok : (executeIndexed sampleOperator sampleHost oneFunction {} sourceRoot (sourceRun calls)
      call).2.isOk = true)
    (hlinks : ((sourceRun calls).files.entries.all fun entry => match entry.2 with
      | .link _ => false
      | _ => true) = true)
    (hwritten : ∀ path ∈ request.paths, PlainlyWritten path ∧ writtenPieces path ≠ [".gitignore"] ∧
      ∀ names ∈ indexedPaths oneFunction (sourceRun calls).files sourceRoot,
        relativeText names = workspaceRelative path → names = writtenPieces path)
    (hsource : ∀ oldPath newPath, request = .renameFile oldPath newPath →
      ∃ content, (sourceRun calls).files.node (["ws"] ++ writtenPieces oldPath) = some (.file content))
    (h : Session sampleOperator sampleHost oneFunction {} sourceRoot ["ws"] sourceFiles
      (sourceRun calls)) :
    Session sampleOperator sampleHost oneFunction {} sourceRoot ["ws"] sourceFiles
      (sourceRun (calls ++ [call])) := by
  have hnone : ∀ loc, ¬ (sourceRun calls).files.IsLink loc := fun _ =>
    FileSystem.not_isLink_of_entries hlinks
  have hnext := h.call hrequest hok
    { trackable := fun path hpath =>
        { written := (hwritten path hpath).1
          direct := fun _ _ => hnone _
          notIgnoreFile := (hwritten path hpath).2.1
          ignoredWhole := fun front _ _ _ htrue => by
            rw [loadIgnore_oneFunction] at htrue
            cases htrue
          alone := (hwritten path hpath).2.2 }
      apart := linksApart_of_no_links hnone
      plainTemp := fun _ _ _ => hnone _
      source := fun oldPath newPath heq => .inr (.inl (hsource oldPath newPath heq)) }
  rw [sourceRun, List.foldl_append]
  exact hnext

theorem index_follows_sample_session :
    IndexCurrent oneFunction {} sourceRoot (sourceRun sourceCalls) := by
  have hwritten := sourceRun_call [] (writeCall "src/new.rs" "fn run() { run() }")
    (.writeFile "src/new.rs" "fn run() { run() }") (by decide +kernel) (by decide +kernel)
    (by decide +kernel) (by decide +kernel) (fun _ _ h => nomatch h) .built
  have hedited := sourceRun_call _ (editCall "./src/lib.rs" "{}" "{ run() }")
    (.editFile "./src/lib.rs" "{}" "{ run() }") (by decide +kernel) (by decide +kernel)
    (by decide +kernel) (by decide +kernel) (fun _ _ h => nomatch h) hwritten
  have hmoved := sourceRun_call _ (renameCall "src/new.rs" "more/new.rs")
    (.renameFile "src/new.rs" "more/new.rs") (by decide +kernel) (by decide +kernel)
    (by decide +kernel) (by decide +kernel)
    (fun _ _ h => by cases h; exact ⟨"fn run() { run() }", by decide +kernel⟩) hedited
  exact index_follows_session sampleOperator sampleHost oneFunction {} sourceRoot ["ws"] sourceFiles
    (sourceRun sourceCalls) ⟨by decide +kernel, by decide +kernel, by decide +kernel, by decide +kernel⟩
    (FileSystem.linksArePaths_of_entries (by decide +kernel)) rfl hmoved

/-- Both paths of a directory that is renamed are refreshed, and none of the files in it. -/
theorem renamed_directory_not_followed :
    (executeIndexed sampleOperator sampleHost oneFunction {} sourceRoot (sourceRun [])
        (renameCall "src" "lib")).2.isOk = true ∧
      (sourceRun [renameCall "src" "lib"]).index.map IndexChunk.path = ["src/lib.rs"] ∧
      (buildIndexFiltered oneFunction {} (sourceRun [renameCall "src" "lib"]).files
        sourceRoot).map IndexChunk.path = ["lib/lib.rs"] ∧
      ¬ IndexCurrent oneFunction {} sourceRoot (sourceRun [renameCall "src" "lib"]) := by
  refine ⟨by decide +kernel, by decide +kernel, by decide +kernel, fun h => ?_⟩
  have hpaths := (h.map IndexChunk.path).mem_iff (a := "lib/lib.rs")
  revert hpaths
  decide +kernel

end Vexcoder.Tools
