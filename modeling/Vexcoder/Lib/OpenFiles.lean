import Mathlib.Data.List.Basic

/-!
# Files behind names

A directory leads from names to files, and a file that was opened stays the same file whatever becomes
of its name: a rename moves the name, not what has the file open.  No two names lead to one file.
-/

namespace Vexcoder.Lib.OpenFiles

variable {α β : Type} [DecidableEq α] {name other source target : α} {file : ℕ}

structure Directory (α β : Type) where
  entries : α → Option ℕ
  contents : ℕ → List β
  /-- The number of the next new file. -/
  fresh : ℕ
  used : ∀ {name file}, entries name = some file → file < fresh
  single : ∀ {name other file}, entries name = some file → entries other = some file → name = other

namespace Directory

variable (d : Directory α β)

/-- What is found under a name. -/
def read (name : α) : Option (List β) := (d.entries name).map d.contents

/-- A file is opened for writing: it is emptied when it is there, and made when it is not. -/
def create (name : α) : ℕ × Directory α β :=
  match d.entries name with
  | some file => (file, { d with contents := Function.update d.contents file [] })
  | none =>
    (d.fresh,
      { entries := Function.update d.entries name (some d.fresh)
        contents := Function.update d.contents d.fresh []
        fresh := d.fresh + 1
        used := by
          intro other file h
          rw [Function.update_apply] at h
          split at h
          · cases h
            exact Nat.lt_succ_self _
          · exact Nat.lt_succ_of_lt (d.used h)
        single := by
          intro name₁ name₂ file h₁ h₂
          rw [Function.update_apply] at h₁ h₂
          split at h₁ <;> split at h₂
          · simp_all
          · cases h₁
            exact absurd (d.used h₂) (Nat.lt_irrefl _)
          · cases h₂
            exact absurd (d.used h₁) (Nat.lt_irrefl _)
          · exact d.single h₁ h₂ })

/-- `bytes` from `offset` on, over what stands there; a gap is filled. -/
def overwrite [Zero β] (content : List β) (offset : ℕ) (bytes : List β) : List β :=
  (content ++ List.replicate (offset - content.length) 0).take offset ++ bytes ++
    content.drop (offset + bytes.length)

def write [Zero β] (file offset : ℕ) (bytes : List β) : Directory α β :=
  { d with contents := Function.update d.contents file (overwrite (d.contents file) offset bytes) }

/-- The name goes from `source` to `target`, from which a file that was there goes away. -/
def rename (source target : α) : Option (Directory α β) :=
  match h : d.entries source with
  | none => none
  | some file =>
    if source = target then some d
    else
      some
        { d with
          entries := Function.update (Function.update d.entries source none) target (some file)
          used := by
            intro name file' h'
            rw [Function.update_apply, Function.update_apply] at h'
            split at h'
            · cases h'
              exact d.used h
            · split at h'
              · cases h'
              · exact d.used h'
          single := by
            intro name₁ name₂ file' h₁ h₂
            rw [Function.update_apply, Function.update_apply] at h₁ h₂
            split at h₁ <;> split at h₂
            · simp_all
            · cases h₁
              split at h₂
              · cases h₂
              · rename_i hne
                exact absurd (d.single h h₂).symm hne
            · cases h₂
              split at h₁
              · cases h₁
              · rename_i hne
                exact absurd (d.single h h₁).symm hne
            · split at h₁
              · cases h₁
              · split at h₂
                · cases h₂
                · exact d.single h₁ h₂ }

variable {d}

theorem overwrite_end [Zero β] (content bytes : List β) :
    overwrite content content.length bytes = content ++ bytes := by
  simp [overwrite]

/-! ### Creating -/

theorem create_entries (name : α) :
    (d.create name).2.entries = Function.update d.entries name (some (d.create name).1) := by
  rw [create]
  split
  · rename_i file h
    exact (Function.update_eq_self_iff.mpr h.symm).symm
  · rfl

theorem create_contents (name : α) :
    (d.create name).2.contents = Function.update d.contents (d.create name).1 [] := by
  rw [create]
  split <;> rfl

theorem fresh_create_le (name : α) : d.fresh ≤ (d.create name).2.fresh := by
  rw [create]
  split
  · exact Nat.le_refl _
  · exact Nat.le_succ _

theorem create_file (name : α) : d.entries name = some (d.create name).1 ∨ (d.create name).1 = d.fresh := by
  rw [create]
  split
  · rename_i file h
    exact .inl h
  · exact .inr rfl

theorem create_other {name : α} (hne : name ≠ other) (h : d.entries other = some file) :
    (d.create name).1 ≠ file := by
  intro heq
  rcases d.create_file name with hname | hfresh
  · rw [heq] at hname
    exact hne (d.single hname h)
  · rw [heq] at hfresh
    exact absurd (d.used h) (by omega)

/-! ### Renaming -/

theorem rename_eq_some {d' : Directory α β} (hne : source ≠ target) (h : d.rename source target = some d') :
    ∃ file, d.entries source = some file ∧
      d'.entries = Function.update (Function.update d.entries source none) target (some file) ∧
      d'.contents = d.contents ∧ d'.fresh = d.fresh := by
  rw [rename] at h
  split at h
  · cases h
  · rename_i file hfile
    rw [if_neg hne] at h
    cases h
    exact ⟨file, hfile, rfl, rfl, rfl⟩

end Directory

end Vexcoder.Lib.OpenFiles
