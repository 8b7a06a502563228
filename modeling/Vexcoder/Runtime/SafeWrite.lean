import Mathlib.Data.UInt
import Vexcoder.Config.Resolve
import Vexcoder.Lib.OpenFiles

/-!
# Safe writes

`write_bytes_safe` writes a temporary file next to the path, flushes it, and renames it to the path.
Calls for one path share the name of the temporary file.  Their steps, the steps of readers of the path
and failures come in any order here; `Atomic` is what the readers and the callers are promised.

The promise is kept as long as no step reaches a file through a name that another call has taken over
(`atomic_of_undisturbed`), and so by calls that do not overlap (`undisturbed_of_alone`).
-/

namespace Vexcoder.Runtime.SafeWrite

open Base Lib.OpenFiles Directory

/-- A path, with its `parent` and the text of its `file_name`. -/
structure WritePath where
  display : String
  parent : Option String
  fileName : Option String

abbrev Place := String × String

namespace WritePath

variable (path : WritePath)

def target : Place := (path.parent.getD "", path.fileName.getD "")

def temp : Place := (path.parent.getD "", path.fileName.getD "" ++ ".tmp")

def tempDisplay : String := Configuration.joinPath path.temp.1 path.temp.2

theorem temp_ne_target : path.temp ≠ path.target := by
  intro h
  have hname : path.fileName.getD "" ++ ".tmp" = path.fileName.getD "" := congrArg Prod.snd h
  have hlen := congrArg String.length hname
  rw [String.length_append] at hlen
  have htmp : ".tmp".length = 4 := by decide
  omega

end WritePath

/-- What the calls `ι` are given. -/
structure Calls (ι : Type) where
  path : WritePath
  label : ι → String
  content : ι → List UInt8

inductive Stage where
  | called
  | prepared
  | writing (file written : ℕ)
  | flushed
  | returned (result : Except String Unit)

/-- The call has the temporary file open, or has yet to rename it. -/
def Stage.InUse : Stage → Prop
  | .writing _ _ | .flushed => True
  | .called | .prepared | .returned _ => False

inductive Reading where
  | idle
  | reading (file : ℕ) (got : List UInt8)
  | saw (content : Option (List UInt8))

structure World (ι ρ : Type) where
  dir : Directory Place UInt8
  writers : ι → Stage
  readers : ρ → Reading

/-- A step of a call or of a reader; `write` and `read` move up to `n` bytes. -/
inductive Event (ι ρ : Type) where
  | prepare (w : ι)
  | create (w : ι)
  | write (w : ι) (n : ℕ)
  | flush (w : ι)
  | rename (w : ι)
  | fail (w : ι)
  | openFile (r : ρ)
  | read (r : ρ) (n : ℕ)

namespace World

variable {ι ρ : Type}

def start (dir : Directory Place UInt8) : World ι ρ :=
  { dir, writers := fun _ => .called, readers := fun _ => .idle }

def setWriter [DecidableEq ι] (world : World ι ρ) (w : ι) (stage : Stage) : World ι ρ :=
  { world with writers := Function.update world.writers w stage }

def setReader [DecidableEq ρ] (world : World ι ρ) (r : ρ) (reading : Reading) : World ι ρ :=
  { world with readers := Function.update world.readers r reading }

theorem setWriter_writers [DecidableEq ι] (world : World ι ρ) (w w' : ι) (stage : Stage) :
    (world.setWriter w stage).writers w' = if w' = w then stage else world.writers w' :=
  Function.update_apply world.writers w stage w'

theorem ok_of_update [DecidableEq ι] {writers : ι → Stage} {w w' : ι} {stage : Stage}
    (h : Function.update writers w stage w' = .returned (.ok ()))
    (hstage : stage ≠ .returned (.ok ())) : writers w' = .returned (.ok ()) := by
  rw [Function.update_apply] at h
  split at h
  · exact absurd h hstage
  · exact h

theorem setReader_readers [DecidableEq ρ] (world : World ι ρ) (r r' : ρ) (reading : Reading) :
    (world.setReader r reading).readers r' = if r' = r then reading else world.readers r' :=
  Function.update_apply world.readers r reading r'

end World

namespace Calls

variable {ι ρ : Type} (calls : Calls ι)

def prepare (w : ι) : Stage :=
  match calls.path.parent, calls.path.fileName with
  | none, _ =>
    .returned (.error
      ("missing parent directory for " ++ calls.label w ++ " '" ++ calls.path.display ++ "'"))
  | some _, none =>
    .returned (.error
      ("invalid file name for " ++ calls.label w ++ " '" ++ calls.path.display ++ "'"))
  | some _, some _ => .prepared

def refusal (w : ι) : Stage → Option String
  | .called =>
    calls.path.parent.map fun dir =>
      "failed to create directory for " ++ calls.label w ++ ": " ++ dir
  | .prepared =>
    some ("failed to create temp " ++ calls.label w ++ ": " ++ calls.path.tempDisplay)
  | .writing _ written =>
    some ((if written < (calls.content w).length then "failed to write temp "
      else "failed to flush temp ") ++ calls.label w ++ ": " ++ calls.path.tempDisplay)
  | .flushed => some ("failed to rename " ++ calls.label w ++ " to: " ++ calls.path.display)
  | .returned _ => none

section Steps

variable [DecidableEq ι] [DecidableEq ρ]

/-- A step of `write_bytes_safe`, or of a reader of its path. -/
def step (world : World ι ρ) : Event ι ρ → Option (World ι ρ)
  | .prepare w =>
    match world.writers w with
    | .called => some (world.setWriter w (calls.prepare w))
    | _ => none
  | .create w =>
    match world.writers w with
    | .prepared =>
      let created := world.dir.create calls.path.temp
      some { world.setWriter w (.writing created.1 0) with dir := created.2 }
    | _ => none
  | .write w n =>
    match world.writers w with
    | .writing file written =>
      if 0 < n ∧ written + n ≤ (calls.content w).length then
        some
          { world.setWriter w (.writing file (written + n)) with
            dir := world.dir.write file written (((calls.content w).drop written).take n) }
      else none
    | _ => none
  | .flush w =>
    match world.writers w with
    | .writing _ written =>
      if written = (calls.content w).length then some (world.setWriter w .flushed) else none
    | _ => none
  | .rename w =>
    match world.writers w with
    | .flushed =>
      match world.dir.rename calls.path.temp calls.path.target with
      | some dir => some { world.setWriter w (.returned (.ok ())) with dir }
      | none =>
        some (world.setWriter w (.returned (.error
          ("failed to rename " ++ calls.label w ++ " to: " ++ calls.path.display))))
    | _ => none
  | .fail w =>
    (calls.refusal w (world.writers w)).map fun error =>
      world.setWriter w (.returned (.error error))
  | .openFile r =>
    match world.readers r with
    | .idle =>
      match world.dir.entries calls.path.target with
      | some file => some (world.setReader r (.reading file []))
      | none => some (world.setReader r (.saw none))
    | _ => none
  | .read r n =>
    match world.readers r with
    | .reading file got =>
      if 0 < n then
        let bytes := ((world.dir.contents file).drop got.length).take n
        some (world.setReader r (if bytes = [] then .saw (some got) else .reading file (got ++ bytes)))
      else none
    | _ => none

def run (world : World ι ρ) (events : List (Event ι ρ)) : Option (World ι ρ) :=
  events.foldlM calls.step world

/-! ### What readers and callers are promised -/

/-- The old content of the path, or the content of a call in full. -/
def Whole (old seen : Option (List UInt8)) : Prop :=
  seen = old ∨ ∃ w, seen = some (calls.content w)

def installed (world : World ι ρ) : Option (List UInt8) := world.dir.read calls.path.target

/-- What holds behind a run of `events` from `first` to `last`. -/
structure Atomic (first last : World ι ρ) (events : List (Event ι ρ)) : Prop where
  seen : ∀ r content, last.readers r = .saw content → calls.Whole (calls.installed first) content
  held : (∃ w, last.writers w = .returned (.ok ())) → ∃ w, calls.installed last = some (calls.content w)
  reported : ∀ w, last.writers w = .returned (.ok ()) →
    ∃ front behind between, events = front ++ behind ∧ calls.run first front = some between ∧
      calls.installed between = some (calls.content w)

/-- The step does not meet what another call has made of the two names: bytes do not go to the file that
is at the path or open to a reader, and the file that is renamed has the content of the call in full. -/
def Undisturbed (world : World ι ρ) : Event ι ρ → Prop
  | .write w _ => ∀ file written, world.writers w = .writing file written →
      world.dir.entries calls.path.target ≠ some file ∧ ∀ r got, world.readers r ≠ .reading file got
  | .rename w => world.writers w = .flushed →
      ∀ file, world.dir.entries calls.path.temp = some file → world.dir.contents file = calls.content w
  | _ => True

def UndisturbedRun : World ι ρ → List (Event ι ρ) → Prop
  | _, [] => True
  | world, event :: events =>
    calls.Undisturbed world event ∧ ∀ next, calls.step world event = some next → UndisturbedRun next events

/-- No call makes the temporary file while another one has it in use. -/
def AloneRun : World ι ρ → List (Event ι ρ) → Prop
  | _, [] => True
  | world, event :: events =>
    (∀ w, event = .create w → ∀ other, ¬ (world.writers other).InUse) ∧
      ∀ next, calls.step world event = some next → AloneRun next events

end Steps

variable {calls} {old : Option (List UInt8)} {world next last : World ι ρ} {event : Event ι ρ}
  {events : List (Event ι ρ)}

/-! ### The invariant -/

variable (calls old world) in
/-- What a reader reads from is whole already, and is no longer the temporary file. -/
structure Inv : Prop where
  installed : calls.Whole old (calls.installed world)
  reading : ∀ r file got, world.readers r = .reading file got →
    calls.Whole old (some (world.dir.contents file)) ∧ got <+: world.dir.contents file ∧
      file < world.dir.fresh ∧ world.dir.entries calls.path.temp ≠ some file
  seen : ∀ r content, world.readers r = .saw content → calls.Whole old content
  held : (∃ w, world.writers w = .returned (.ok ())) → ∃ w, calls.installed world = some (calls.content w)

theorem inv_start (dir : Directory Place UInt8) :
    Inv calls (calls.installed (World.start dir : World ι ρ)) (World.start dir : World ι ρ) where
  installed := .inl rfl
  reading := nofun
  seen := nofun
  held := by
    intro ⟨w, hw⟩
    cases hw

/-- What a step may do to the directory: the file at the path and the files of readers keep their
content, and no reader's file becomes the temporary one. -/
theorem Inv.withDir (h : Inv calls old world) {dir : Directory Place UInt8}
    (htarget : dir.read calls.path.target = world.dir.read calls.path.target)
    (hreading : ∀ r file got, world.readers r = .reading file got →
      dir.contents file = world.dir.contents file ∧ file < dir.fresh ∧
        dir.entries calls.path.temp ≠ some file) :
    Inv calls old { world with dir } where
  installed := by
    rw [Calls.installed, htarget]
    exact h.installed
  reading := by
    intro r file got hr
    obtain ⟨hwhole, hprefix, -, -⟩ := h.reading r file got hr
    obtain ⟨hcontents, hfresh, htemp⟩ := hreading r file got hr
    exact ⟨hcontents ▸ hwhole, hcontents ▸ hprefix, hfresh, htemp⟩
  seen := h.seen
  held := by
    rw [Calls.installed, htarget]
    exact h.held

theorem read_congr {dir dir' : Directory Place UInt8} {place : Place}
    (hentries : dir'.entries place = dir.entries place)
    (hcontents : ∀ file, dir.entries place = some file → dir'.contents file = dir.contents file) :
    dir'.read place = dir.read place := by
  rw [Directory.read, Directory.read, hentries]
  cases hfile : dir.entries place with
  | none => rfl
  | some file => exact congrArg some (hcontents file hfile)

theorem Inv.create (h : Inv calls old world) :
    Inv calls old { world with dir := (world.dir.create calls.path.temp).2 } := by
  have hne := calls.path.temp_ne_target
  refine h.withDir (read_congr ?_ ?_) ?_
  · rw [create_entries, Function.update_of_ne hne.symm]
  · intro file hfile
    rw [create_contents, Function.update_of_ne (create_other hne hfile).symm]
  · intro r file got hr
    obtain ⟨-, -, hfresh, htemp⟩ := h.reading r file got hr
    have hother : file ≠ (world.dir.create calls.path.temp).1 := by
      intro heq
      rcases world.dir.create_file calls.path.temp with hcreated | hcreated
      · exact htemp (heq ▸ hcreated)
      · omega
    refine ⟨?_, Nat.lt_of_lt_of_le hfresh (fresh_create_le _), ?_⟩
    · rw [create_contents, Function.update_of_ne hother]
    · rw [create_entries, Function.update_self]
      intro heq
      exact hother (Option.some.inj heq).symm

theorem Inv.write (h : Inv calls old world) {file : ℕ} (offset : ℕ) (bytes : List UInt8)
    (htarget : world.dir.entries calls.path.target ≠ some file)
    (hreaders : ∀ r got, world.readers r ≠ .reading file got) :
    Inv calls old { world with dir := world.dir.write file offset bytes } := by
  refine h.withDir (read_congr rfl ?_) ?_
  · intro other hother
    refine Function.update_of_ne ?_ _ _
    intro heq
    exact htarget (heq ▸ hother)
  · intro r other got hr
    obtain ⟨-, -, hfresh, htemp⟩ := h.reading r other got hr
    refine ⟨Function.update_of_ne ?_ _ _, hfresh, htemp⟩
    intro heq
    exact hreaders r got (heq ▸ hr)

theorem installed_rename {dir : Directory Place UInt8} {content : List UInt8}
    (hrename : world.dir.rename calls.path.temp calls.path.target = some dir)
    (hcontent : ∀ file, world.dir.entries calls.path.temp = some file → world.dir.contents file = content) :
    dir.read calls.path.target = some content := by
  obtain ⟨file, hfile, hentries, hcontents, -⟩ :=
    rename_eq_some calls.path.temp_ne_target hrename
  rw [Directory.read, hentries, Function.update_self, hcontents]
  exact congrArg some (hcontent file hfile)

theorem prepare_ne_ok (w : ι) : calls.prepare w ≠ .returned (.ok ()) := by
  rw [prepare]
  split <;> simp

theorem prepare_not_inUse (w : ι) : ¬ (calls.prepare w).InUse := by
  rw [prepare]
  split <;> exact not_false

section Writers

variable [DecidableEq ι]

theorem Inv.setWriter (h : Inv calls old world) (w : ι) {stage : Stage}
    (hstage : stage ≠ .returned (.ok ())) : Inv calls old (world.setWriter w stage) where
  installed := h.installed
  reading := h.reading
  seen := h.seen
  held := by
    intro ⟨w', hw'⟩
    exact h.held ⟨w', World.ok_of_update hw' hstage⟩

theorem Inv.rename (h : Inv calls old world) {dir : Directory Place UInt8} (w : ι)
    (hrename : world.dir.rename calls.path.temp calls.path.target = some dir)
    (hcontent : ∀ file, world.dir.entries calls.path.temp = some file →
      world.dir.contents file = calls.content w) :
    Inv calls old { world.setWriter w (.returned (.ok ())) with dir } := by
  have hinstalled : dir.read calls.path.target = some (calls.content w) :=
    installed_rename hrename hcontent
  obtain ⟨file, -, hentries, hcontents, hfresh⟩ :=
    rename_eq_some calls.path.temp_ne_target hrename
  refine ⟨.inr ⟨w, hinstalled⟩, ?_, h.seen, fun _ => ⟨w, hinstalled⟩⟩
  intro r other got hr
  obtain ⟨hwhole, hprefix, hlt, -⟩ := h.reading r other got hr
  show calls.Whole old (some (dir.contents other)) ∧ got <+: dir.contents other ∧
    other < dir.fresh ∧ dir.entries calls.path.temp ≠ some other
  rw [hcontents, hfresh, hentries, Function.update_of_ne calls.path.temp_ne_target, Function.update_self]
  exact ⟨hwhole, hprefix, hlt, nofun⟩

end Writers

section Readers

variable [DecidableEq ρ]

/-- A reader goes on: it has read the front of a whole file, or it has seen one. -/
theorem Inv.setReader (h : Inv calls old world) (r : ρ) {reading : Reading}
    (hreading : ∀ file got, reading = .reading file got →
      calls.Whole old (some (world.dir.contents file)) ∧ got <+: world.dir.contents file ∧
        file < world.dir.fresh ∧ world.dir.entries calls.path.temp ≠ some file)
    (hseen : ∀ content, reading = .saw content → calls.Whole old content) :
    Inv calls old (world.setReader r reading) where
  installed := h.installed
  reading := by
    intro r' file got hr
    rw [World.setReader_readers] at hr
    split at hr
    · exact hreading file got hr
    · exact h.reading r' file got hr
  seen := by
    intro r' content hr
    rw [World.setReader_readers] at hr
    split at hr
    · exact hseen content hr
    · exact h.seen r' content hr
  held := h.held

theorem Inv.openFile (h : Inv calls old world) (r : ρ) {file : ℕ}
    (hfile : world.dir.entries calls.path.target = some file) :
    Inv calls old (world.setReader r (.reading file [])) := by
  refine h.setReader r ?_ nofun
  rintro other got ⟨⟩
  have hwhole := h.installed
  rw [Calls.installed, Directory.read, hfile] at hwhole
  refine ⟨hwhole, List.nil_prefix, world.dir.used hfile, ?_⟩
  intro htemp
  exact calls.path.temp_ne_target (world.dir.single htemp hfile)

theorem Inv.saw (h : Inv calls old world) (r : ρ) {content : Option (List UInt8)}
    (hwhole : calls.Whole old content) : Inv calls old (world.setReader r (.saw content)) := by
  refine h.setReader r nofun ?_
  rintro seen ⟨⟩
  exact hwhole

theorem Inv.reads (h : Inv calls old world) (r : ρ) {file : ℕ} {got : List UInt8}
    (hr : world.readers r = .reading file got) (n : ℕ) :
    Inv calls old (world.setReader r
      (.reading file (got ++ ((world.dir.contents file).drop got.length).take n))) := by
  refine h.setReader r ?_ nofun
  rintro other got' ⟨⟩
  obtain ⟨hwhole, ⟨rest, hrest⟩, hfresh, htemp⟩ := h.reading r file got hr
  refine ⟨hwhole, ⟨rest.drop n, ?_⟩, hfresh, htemp⟩
  show got ++ ((world.dir.contents file).drop got.length).take n ++ rest.drop n = _
  rw [← hrest, List.drop_left, List.append_assoc, List.take_append_drop]

end Readers

/-! ### Calls that do not overlap -/

variable (calls) in
/-- What a call that has the temporary file in use has made of it. -/
def Holds (dir : Directory Place UInt8) (w : ι) : Stage → Prop
  | .writing file written => written ≤ (calls.content w).length ∧
      dir.entries calls.path.temp = some file ∧
      dir.contents file = (calls.content w).take written
  | .flushed => ∀ file, dir.entries calls.path.temp = some file → dir.contents file = calls.content w
  | .called | .prepared | .returned _ => True

variable (calls world) in
structure Own : Prop where
  holds : ∀ w, calls.Holds world.dir w (world.writers w)
  single : ∀ w other, (world.writers w).InUse → (world.writers other).InUse → w = other

theorem holds_of_not_inUse {dir : Directory Place UInt8} {w : ι} {stage : Stage}
    (h : ¬ stage.InUse) : calls.Holds dir w stage := by
  cases stage with
  | writing file written | flushed => exact absurd trivial h
  | called | prepared | returned result => trivial

theorem Own.others (h : Own calls world) (w : ι) (hw : (world.writers w).InUse) :
    ∀ other, other ≠ w → ¬ (world.writers other).InUse := by
  intro other hne hother
  exact hne (h.single other w hother hw)

theorem Own.undisturbed (hown : Own calls world) (h : Inv calls old world) (event : Event ι ρ) :
    calls.Undisturbed world event := by
  cases event with
  | write w n =>
    intro file written hwriter
    have hholds := hown.holds w
    rw [hwriter] at hholds
    obtain ⟨-, htemp, -⟩ := hholds
    refine ⟨?_, ?_⟩
    · intro htarget
      exact calls.path.temp_ne_target (world.dir.single htemp htarget)
    · intro r got hr
      exact (h.reading r file got hr).2.2.2 htemp
  | rename w =>
    intro hwriter
    have hholds := hown.holds w
    rw [hwriter] at hholds
    exact hholds
  | _ => trivial

section Writers

variable [DecidableEq ι]

theorem Own.release (h : Own calls world) (w : ι) {stage : Stage} (hstage : ¬ stage.InUse) :
    Own calls (world.setWriter w stage) where
  holds := by
    intro w'
    rw [World.setWriter_writers]
    split
    · exact holds_of_not_inUse hstage
    · exact h.holds w'
  single := by
    intro w₁ w₂ h₁ h₂
    rw [World.setWriter_writers] at h₁ h₂
    split at h₁
    · exact absurd h₁ hstage
    · split at h₂
      · exact absurd h₂ hstage
      · exact h.single w₁ w₂ h₁ h₂

theorem own_of_only {dir : Directory Place UInt8} {w : ι} {stage : Stage}
    (hothers : ∀ other, other ≠ w → ¬ (world.writers other).InUse) (hholds : calls.Holds dir w stage) :
    Own calls { world.setWriter w stage with dir } where
  holds := by
    intro w'
    show calls.Holds dir w' ((world.setWriter w stage).writers w')
    rw [World.setWriter_writers]
    split
    · rename_i heq
      exact heq ▸ hholds
    · rename_i hne
      exact holds_of_not_inUse (hothers w' hne)
  single := by
    intro w₁ w₂ h₁ h₂
    have hw : ∀ w', ((world.setWriter w stage).writers w').InUse → w' = w := by
      intro w' hw'
      rw [World.setWriter_writers] at hw'
      split at hw'
      · assumption
      · exact absurd hw' (hothers w' ‹_›)
    exact (hw w₁ h₁).trans (hw w₂ h₂).symm

end Writers

/-! ### Runs -/

variable [DecidableEq ι] [DecidableEq ρ]

variable (calls world) in
inductive Moves : Event ι ρ → World ι ρ → Prop
  | settles (event : Event ι ρ) (w : ι) (stage : Stage) (hidle : ¬ stage.InUse) (hok : stage ≠ .returned (.ok ())) :
      Moves event (world.setWriter w stage)
  | creates (w : ι) :
      Moves (.create w)
        { world.setWriter w (.writing (world.dir.create calls.path.temp).1 0) with
          dir := (world.dir.create calls.path.temp).2 }
  | writes (w : ι) (n : ℕ) (file written : ℕ) (hwriter : world.writers w = .writing file written)
      (hn : written + n ≤ (calls.content w).length) :
      Moves (.write w n)
        { world.setWriter w (.writing file (written + n)) with
          dir := world.dir.write file written (((calls.content w).drop written).take n) }
  | flushes (w : ι) (file : ℕ)
      (hwriter : world.writers w = .writing file (calls.content w).length) :
      Moves (.flush w) (world.setWriter w .flushed)
  | renames (w : ι) (dir : Directory Place UInt8) (hwriter : world.writers w = .flushed)
      (hrename : world.dir.rename calls.path.temp calls.path.target = some dir) :
      Moves (.rename w) { world.setWriter w (.returned (.ok ())) with dir }
  | opens (r : ρ) (file : ℕ) (hfile : world.dir.entries calls.path.target = some file) :
      Moves (.openFile r) (world.setReader r (.reading file []))
  | misses (r : ρ) (hnone : world.dir.entries calls.path.target = none) :
      Moves (.openFile r) (world.setReader r (.saw none))
  | reads (r : ρ) (n file : ℕ) (got : List UInt8) (hreader : world.readers r = .reading file got) :
      Moves (.read r n) (world.setReader r
        (.reading file (got ++ ((world.dir.contents file).drop got.length).take n)))
  | ends (r : ρ) (n file : ℕ) (got : List UInt8) (hreader : world.readers r = .reading file got)
      (hend : (world.dir.contents file).drop got.length = []) :
      Moves (.read r n) (world.setReader r (.saw (some got)))

theorem step_moves (hstep : calls.step world event = some next) : Moves calls world event next := by
  cases event with
  | prepare w =>
    rw [Calls.step] at hstep
    split at hstep
    · cases hstep
      exact .settles _ w _ (prepare_not_inUse w) (prepare_ne_ok w)
    · cases hstep
  | create w =>
    rw [Calls.step] at hstep
    split at hstep
    · cases hstep
      exact .creates w
    · cases hstep
  | write w n =>
    rw [Calls.step] at hstep
    split at hstep
    · rename_i file written hwriter
      split at hstep
      · rename_i hn
        cases hstep
        exact .writes w n file written hwriter hn.2
      · cases hstep
    · cases hstep
  | flush w =>
    rw [Calls.step] at hstep
    split at hstep
    · rename_i file written hwriter
      split at hstep
      · rename_i hall
        cases hstep
        exact .flushes w file (hall ▸ hwriter)
      · cases hstep
    · cases hstep
  | rename w =>
    rw [Calls.step] at hstep
    split at hstep
    · rename_i hwriter
      split at hstep
      · rename_i dir hrename
        cases hstep
        exact .renames w dir hwriter hrename
      · cases hstep
        exact .settles _ w _ not_false nofun
    · cases hstep
  | fail w =>
    obtain ⟨error, -, rfl⟩ := Option.map_eq_some_iff.mp hstep
    exact .settles _ w _ not_false nofun
  | openFile r =>
    rw [Calls.step] at hstep
    split at hstep
    · split at hstep
      · rename_i file hfile
        cases hstep
        exact .opens r file hfile
      · rename_i hnone
        cases hstep
        exact .misses r hnone
    · cases hstep
  | read r n =>
    rw [Calls.step] at hstep
    split at hstep
    · rename_i file got hreader
      split at hstep
      · cases hstep
        show Moves calls world _ (world.setReader r (if _ then _ else _))
        split
        · rename_i hnil
          exact .ends r n file got hreader ((List.take_eq_nil_iff.mp hnil).resolve_left (by omega))
        · exact .reads r n file got hreader
      · cases hstep
    · cases hstep

theorem Inv.step (h : Inv calls old world) (hundisturbed : calls.Undisturbed world event)
    (hmoves : Moves calls world event next) : Inv calls old next := by
  cases hmoves with
  | settles _ w stage hidle hok => exact h.setWriter w hok
  | creates w => exact h.create.setWriter w nofun
  | writes w n file written hwriter hn =>
    obtain ⟨htarget, hreaders⟩ := hundisturbed file written hwriter
    exact (h.write written _ htarget hreaders).setWriter w nofun
  | flushes w file hwriter => exact h.setWriter w nofun
  | renames w dir hwriter hrename => exact h.rename w hrename (hundisturbed hwriter)
  | opens r file hfile => exact h.openFile r hfile
  | misses r hnone =>
    refine h.saw r ?_
    have hwhole := h.installed
    rw [Calls.installed, Directory.read, hnone] at hwhole
    exact hwhole
  | reads r n file got hreader => exact h.reads r hreader n
  | ends r n file got hreader hend =>
    obtain ⟨hwhole, ⟨rest, hrest⟩, -, -⟩ := h.reading r file got hreader
    -- Nothing is left behind `got`, which is then the whole file.
    rw [← hrest, List.drop_left] at hend
    rw [hend, List.append_nil] at hrest
    exact h.saw r (hrest ▸ hwhole)

/-- A call that has just returned Ok has installed its content. -/
theorem step_reported (hundisturbed : calls.Undisturbed world event) (hmoves : Moves calls world event next)
    (w : ι) (hw : next.writers w = .returned (.ok ())) :
    world.writers w = .returned (.ok ()) ∨ calls.installed next = some (calls.content w) := by
  cases hmoves with
  | settles _ w' stage hidle hok => exact .inl (World.ok_of_update hw hok)
  | creates w' | writes w' n file written hwriter hn | flushes w' file hwriter =>
    exact .inl (World.ok_of_update hw nofun)
  | renames w' dir hwriter hrename =>
    have hcases : (if w = w' then Stage.returned (.ok ()) else world.writers w) =
        .returned (.ok ()) := (world.setWriter_writers w' w _).symm.trans hw
    split at hcases
    · rename_i heq
      rw [heq]
      exact .inr (installed_rename hrename (hundisturbed hwriter))
    · exact .inl hcases
  | opens r file hfile | misses r hnone | reads r n file got hreader
  | ends r n file got hreader hend => exact .inl hw

theorem run_cons (world : World ι ρ) (event : Event ι ρ) (events : List (Event ι ρ)) :
    calls.run world (event :: events) = (calls.step world event).bind fun next =>
      calls.run next events := rfl

theorem Inv.run (h : Inv calls old world) (hundisturbed : calls.UndisturbedRun world events)
    (hrun : calls.run world events = some last) : Inv calls old last := by
  induction events generalizing world with
  | nil =>
    cases hrun
    exact h
  | cons event events ih =>
    obtain ⟨next, hstep, hrest⟩ := Option.bind_eq_some_iff.mp hrun
    exact ih (h.step hundisturbed.1 (step_moves hstep)) (hundisturbed.2 next hstep) hrest

theorem run_reported (hundisturbed : calls.UndisturbedRun world events)
    (hrun : calls.run world events = some last) (w : ι) (hw : last.writers w = .returned (.ok ())) :
    world.writers w = .returned (.ok ()) ∨
      ∃ front behind between, events = front ++ behind ∧ calls.run world front = some between ∧
        calls.installed between = some (calls.content w) := by
  induction events generalizing world with
  | nil =>
    cases hrun
    exact .inl hw
  | cons event events ih =>
    obtain ⟨next, hstep, hrest⟩ := Option.bind_eq_some_iff.mp hrun
    rcases ih (hundisturbed.2 next hstep) hrest with hnext | ⟨front, behind, between, rfl, hfront, hin⟩
    · rcases step_reported hundisturbed.1 (step_moves hstep) w hnext with hworld | hin
      · exact .inl hworld
      · refine .inr ⟨[event], events, next, rfl, ?_, hin⟩
        rw [run_cons, hstep]
        rfl
    · refine .inr ⟨event :: front, behind, between, rfl, ?_, hin⟩
      rw [run_cons, hstep]
      exact hfront

/-- Whatever the order of the steps, and whatever fails: a run whose steps are undisturbed keeps the
promise. -/
theorem atomic_of_undisturbed (dir : Directory Place UInt8)
    (hundisturbed : calls.UndisturbedRun (World.start dir) events)
    (hrun : calls.run (World.start dir) events = some last) :
    calls.Atomic (World.start dir) last events where
  seen := ((inv_start dir).run hundisturbed hrun).seen
  held := ((inv_start dir).run hundisturbed hrun).held
  reported := by
    intro w hw
    exact (run_reported hundisturbed hrun w hw).resolve_left nofun

theorem Own.step (h : Own calls world)
    (halone : ∀ w, event = .create w → ∀ other, ¬ (world.writers other).InUse)
    (hmoves : Moves calls world event next) : Own calls next := by
  cases hmoves with
  | settles _ w stage hidle hok => exact h.release w hidle
  | creates w =>
    refine own_of_only (fun other _ => halone w rfl other) ⟨Nat.zero_le _, ?_, ?_⟩
    · rw [create_entries, Function.update_self]
    · rw [create_contents, Function.update_self, List.take_zero]
  | writes w n file written hwriter hn =>
    have hholds := h.holds w
    have hothers := h.others w
    rw [hwriter] at hholds hothers
    obtain ⟨hle, htemp, hcontents⟩ := hholds
    refine own_of_only (hothers trivial) ⟨hn, htemp, ?_⟩
    have hlen : ((calls.content w).take written).length = written := by
      rw [List.length_take]
      omega
    have happend := overwrite_end ((calls.content w).take written)
      (((calls.content w).drop written).take n)
    rw [hlen] at happend
    show Function.update world.dir.contents file (overwrite
      (world.dir.contents file) written (((calls.content w).drop written).take n)) file = _
    rw [Function.update_self, hcontents, happend, List.take_add]
  | flushes w file hwriter =>
    have hholds := h.holds w
    have hothers := h.others w
    rw [hwriter] at hholds hothers
    obtain ⟨-, htemp, hcontents⟩ := hholds
    refine own_of_only (hothers trivial) ?_
    intro file' htemp'
    rw [htemp] at htemp'
    cases htemp'
    rw [hcontents, List.take_length]
  | renames w dir hwriter hrename =>
    have hothers := h.others w
    rw [hwriter] at hothers
    exact own_of_only (hothers trivial) trivial
  | opens r file hfile | misses r hnone | reads r n file got hreader
  | ends r n file got hreader hend => exact ⟨h.holds, h.single⟩

theorem Own.undisturbedRun (hown : Own calls world) (h : Inv calls old world)
    (halone : calls.AloneRun world events) : calls.UndisturbedRun world events := by
  induction events generalizing world with
  | nil => trivial
  | cons event events ih =>
    have hundisturbed := hown.undisturbed h event
    refine ⟨hundisturbed, ?_⟩
    intro next hstep
    have hmoves := step_moves hstep
    exact ih (hown.step halone.1 hmoves) (h.step hundisturbed hmoves) (halone.2 next hstep)

/-- Calls that do not overlap leave each other undisturbed, wherever the readers stand. -/
theorem undisturbed_of_alone (dir : Directory Place UInt8)
    (halone : calls.AloneRun (World.start dir) events) :
    calls.UndisturbedRun (World.start dir) events :=
  Own.undisturbedRun ⟨fun _ => trivial, nofun⟩ (inv_start dir) halone

/-! ### Two calls for one lease -/

def emptyDir : Directory Place UInt8 where
  entries _ := none
  contents _ := []
  fresh := 0
  used := nofun
  single := nofun

def twoCalls : Calls Bool where
  path := ⟨"/worktree-leases/T1.json", some "/worktree-leases", some "T1.json"⟩
  label _ := "worktree lease"
  content
    | false => [65]
    | true => [66, 66]

def overlapping : List (Event Bool Unit) :=
  [.prepare false, .create false, .write false 1, .flush false, .prepare true, .create true,
    .rename false, .openFile (), .read () 8]

theorem overlapping_not_atomic :
    ∃ last, twoCalls.run (World.start emptyDir) overlapping = some last ∧
      last.writers false = .returned (.ok ()) ∧ last.readers () = .saw (some []) ∧
      ¬ twoCalls.Atomic (World.start emptyDir) last overlapping := by
  refine ⟨_, rfl, rfl, rfl, ?_⟩
  intro h
  rcases h.seen () _ rfl with hold | ⟨w, hw⟩
  · cases hold
  · cases w with
    | false | true => cases hw

/-- The lease file is there, with a content that neither call writes. -/
def oldDir : Directory Place UInt8 where
  entries place := if place = twoCalls.path.target then some 0 else none
  contents file := if file = 0 then [111, 108, 100] else []
  fresh := 1
  used := by
    intro name file h
    split at h
    · cases h
      exact Nat.zero_lt_one
    · cases h
  single := by
    intro name other file h h'
    split at h
    · split at h'
      · rename_i hname hother
        rw [hname, hother]
      · cases h'
    · cases h

/-- One reader holds the old file, the other that of the first call, while the calls write and rename. -/
def heldOpen : List (Event Bool Bool) :=
  [.openFile false, .read false 1, .prepare false, .prepare true, .create false, .write false 1,
    .flush false, .rename false, .openFile true, .create true, .write true 1, .read true 8, .write true 1,
    .flush true, .rename true, .read false 8, .read false 8, .read true 8]

theorem aloneRun_cons (hstep : calls.step world event = some next)
    (halone : ∀ w, event = .create w → ∀ other, ¬ (world.writers other).InUse)
    (hrest : calls.AloneRun next events) : calls.AloneRun world (event :: events) := by
  refine ⟨halone, fun next' hnext' => ?_⟩
  rw [hstep] at hnext'
  exact Option.some.inj hnext' ▸ hrest

theorem aloneRun_heldOpen : twoCalls.AloneRun (World.start oldDir) heldOpen := by
  have hcreate : ∀ {w : Bool} {world : World Bool Bool}, (∀ other, ¬ (world.writers other).InUse) →
      ∀ w', (Event.create w : Event Bool Bool) = .create w' → ∀ other, ¬ (world.writers other).InUse :=
    fun h _ _ => h
  refine aloneRun_cons rfl nofun (aloneRun_cons rfl nofun (aloneRun_cons rfl nofun
    (aloneRun_cons rfl nofun (aloneRun_cons rfl (hcreate ?_) ?_))))
  · exact Bool.rec not_false not_false
  refine aloneRun_cons rfl nofun (aloneRun_cons rfl nofun (aloneRun_cons rfl nofun
    (aloneRun_cons rfl nofun (aloneRun_cons rfl (hcreate ?_) ?_))))
  · exact Bool.rec not_false not_false
  exact aloneRun_cons rfl nofun (aloneRun_cons rfl nofun (aloneRun_cons rfl nofun
    (aloneRun_cons rfl nofun (aloneRun_cons rfl nofun (aloneRun_cons rfl nofun
      (aloneRun_cons rfl nofun (aloneRun_cons rfl nofun trivial)))))))

/-- Both calls return Ok, and each reader sees in full what it has opened. -/
theorem heldOpen_atomic : ∃ last, twoCalls.run (World.start oldDir) heldOpen = some last ∧
    (∀ w, last.writers w = .returned (.ok ())) ∧
    last.readers false = .saw (some [111, 108, 100]) ∧ last.readers true = .saw (some [65]) ∧
    twoCalls.installed last = some [66, 66] ∧
    twoCalls.Atomic (World.start oldDir) last heldOpen :=
  ⟨_, rfl, Bool.rec rfl rfl, rfl, rfl, rfl,
    atomic_of_undisturbed oldDir (undisturbed_of_alone oldDir aloneRun_heldOpen) rfl⟩

end Calls

end Vexcoder.Runtime.SafeWrite
