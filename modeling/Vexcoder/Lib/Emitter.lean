import Mathlib.Data.List.Basic

/-!
# Computations that emit

An `Emitter σ ω α` runs on a state `σ`, emits outputs `ω` in order and returns an `α`; it may panic.
A monitor is a deterministic automaton on the outputs (`δ : μ → ω → Option μ`); `watch δ m out` is
its state behind `out`, or `none` when it has rejected an output.

`Spec δ P x Q` is the triple of this setting: from a state and a monitor state related by `P`, the
outputs of `x` are accepted and the end states are related by `Q`.  The rules below go with the
operations, and `Keeps δ I x` is the case of an invariant.
-/

namespace Vexcoder.Lib

/-- A computation over the state `σ` that emits a list of `ω`; `none` is a panic. -/
def Emitter (σ ω α : Type) : Type := σ → Option (α × List ω × σ)

namespace Emitter

variable {σ ω μ α β : Type}

protected def pure (a : α) : Emitter σ ω α := fun s => some (a, [], s)

def prepend (out : List ω) : Option (α × List ω × σ) → Option (α × List ω × σ)
  | none => none
  | some (a, out', s) => some (a, out ++ out', s)

variable {x : Emitter σ ω α} (out : List ω) (s : σ)

@[simp] theorem prepend_some (out' : List ω) (a : α) (s : σ) :
    prepend out (some (a, out', s)) = some (a, out ++ out', s) := rfl

@[simp] theorem prepend_nil (r : Option (α × List ω × σ)) : prepend [] r = r := by
  cases r <;> rfl

protected def bind (x : Emitter σ ω α) (f : α → Emitter σ ω β) : Emitter σ ω β := fun s =>
  match x s with
  | none => none
  | some (a, out, s') => prepend out (f a s')

instance : Monad (Emitter σ ω) where
  pure := Emitter.pure
  bind := Emitter.bind

def read : Emitter σ ω σ := fun s => some (s, [], s)

def modify (f : σ → σ) : Emitter σ ω Unit := fun s => some ((), [], f s)

def emit (o : ω) : Emitter σ ω Unit := fun s => some ((), [o], s)

def crash : Emitter σ ω α := fun _ => none

def forEach : List β → (β → Emitter σ ω Unit) → Emitter σ ω Unit
  | [], _ => pure ()
  | b :: bs, f => do
    f b
    forEach bs f

/-- Run `f` on the value, if there is one. -/
def forSome : Option β → (β → Emitter σ ω Unit) → Emitter σ ω Unit
  | none, _ => pure ()
  | some b, f => f b

def onlyIf (c : Bool) (x : Emitter σ ω Unit) : Emitter σ ω Unit := if c then x else pure ()

def emitAll (out : List ω) : Emitter σ ω Unit := fun s => some ((), out, s)

@[simp] theorem pure_run (a : α) (s : σ) : (pure a : Emitter σ ω α) s = some (a, [], s) := rfl

@[simp] theorem read_run : (read : Emitter σ ω σ) s = some (s, [], s) := rfl

@[simp] theorem modify_run (f : σ → σ) (s : σ) :
    (modify f : Emitter σ ω Unit) s = some ((), [], f s) := rfl

@[simp] theorem emit_run (o : ω) (s : σ) : (emit o : Emitter σ ω Unit) s = some ((), [o], s) := rfl

@[simp] theorem emitAll_run : (emitAll out : Emitter σ ω Unit) s = some ((), out, s) := rfl

theorem bind_run (x : Emitter σ ω α) (f : α → Emitter σ ω β) (s : σ) :
    (x >>= f) s =
      match x s with
      | none => none
      | some (a, out, s') => prepend out (f a s') := rfl

theorem bind_of_some {f : α → Emitter σ ω β} {s s' : σ} {a : α} {out : List ω}
    (h : x s = some (a, out, s')) : (x >>= f) s = prepend out (f a s') := by
  rw [bind_run, h]

/-- What a run of `x >>= f` that ends is made of. -/
theorem bind_eq_some {f : α → Emitter σ ω β} {s s'' : σ} {b : β} {out : List ω}
    (h : (x >>= f) s = some (b, out, s'')) :
    ∃ a out₁ s' out₂, x s = some (a, out₁, s') ∧ f a s' = some (b, out₂, s'') ∧ out = out₁ ++ out₂ := by
  rw [bind_run] at h
  split at h
  · cases h
  rename_i a out₁ s' hx
  cases hf : f a s' with
  | none => rw [hf] at h; cases h
  | some r =>
    obtain ⟨b', out₂, s₂⟩ := r
    rw [hf] at h
    obtain ⟨rfl, rfl, rfl⟩ := by simpa using h
    exact ⟨a, out₁, s', out₂, hx, hf, rfl⟩

theorem modify_bind_eq_some {f : σ → σ} {g : Unit → Emitter σ ω β} {s : σ}
    {r : β × List ω × σ} (h : (modify f >>= g) s = some r) : g () (f s) = some r := by
  rwa [bind_of_some (modify_run f s), prepend_nil] at h

theorem prepend_prepend (out' : List ω) (r : Option (α × List ω × σ)) :
    prepend out (prepend out' r) = prepend (out ++ out') r := by
  cases r with
  | none => rfl
  | some r => simp [prepend]

theorem id_map_run (x : Emitter σ ω α) : id <$> x = x := by
  funext s
  show (x >>= fun a => pure a) s = x s
  rw [bind_run]
  cases x s with
  | none => rfl
  | some r => simp

theorem pure_bind_run (a : α) (f : α → Emitter σ ω β) : pure a >>= f = f a := by
  funext s
  rw [bind_of_some (pure_run a s), prepend_nil]

theorem bind_assoc_run {γ : Type} (x : Emitter σ ω α) (f : α → Emitter σ ω β)
    (g : β → Emitter σ ω γ) : x >>= f >>= g = x >>= fun a => f a >>= g := by
  funext s
  rw [bind_run, bind_run, bind_run]
  cases x s with
  | none => rfl
  | some r =>
    obtain ⟨a, out, s'⟩ := r
    simp only
    rw [bind_run]
    cases f a s' with
    | none => rfl
    | some r' =>
      obtain ⟨b, out', s''⟩ := r'
      simp only [prepend_some]
      rw [prepend_prepend]

instance : LawfulMonad (Emitter σ ω) :=
  LawfulMonad.mk' _ id_map_run pure_bind_run bind_assoc_run

@[simp] theorem forSome_none (f : β → Emitter σ ω Unit) : forSome none f = pure () := rfl

@[simp] theorem forSome_some (b : β) (f : β → Emitter σ ω Unit) : forSome (some b) f = f b := rfl

theorem forEach_append (bs cs : List β) (f : β → Emitter σ ω Unit) :
    forEach (bs ++ cs) f = forEach bs f >>= fun _ => forEach cs f := by
  induction bs with
  | nil => simp [forEach]
  | cons b bs ih => simp [forEach, ih]

theorem forEach_flatMap {γ : Type} (cs : List γ) (g : γ → List β) (f : β → Emitter σ ω Unit) :
    forEach (cs.flatMap g) f = forEach cs fun c => forEach (g c) f := by
  induction cs with
  | nil => rfl
  | cons c cs ih => rw [List.flatMap_cons, forEach_append, ih]; rfl

theorem forEach_singleton (b : β) (f : β → Emitter σ ω Unit) : forEach [b] f = f b := by
  simp [forEach]

/-- Run a computation on a part of the state, and turn its outputs into those of the whole. -/
def zoom {τ υ : Type} (get : τ → σ) (put : σ → τ → τ) (wrap : ω → υ) (x : Emitter σ ω α) :
    Emitter τ υ α := fun t =>
  match x (get t) with
  | none => none
  | some (a, out, s) => some (a, out.map wrap, put s t)

theorem zoom_eq_some {τ υ : Type} {get : τ → σ} {put : σ → τ → τ} {wrap : ω → υ} {t t' : τ} {a : α}
    {out : List υ} (h : zoom get put wrap x t = some (a, out, t')) :
    ∃ out₀ s, x (get t) = some (a, out₀, s) ∧ out = out₀.map wrap ∧ t' = put s t := by
  rw [zoom] at h
  cases hx : x (get t) with
  | none =>
    rw [hx] at h
    cases h
  | some result =>
    obtain ⟨b, out₀, s⟩ := result
    rw [hx] at h
    cases h
    exact ⟨out₀, s, rfl, rfl, rfl⟩

/-! ### Monitors -/

def watch (δ : μ → ω → Option μ) : μ → List ω → Option μ
  | m, [] => some m
  | m, o :: out =>
    match δ m o with
    | none => none
    | some m' => watch δ m' out

def both {ν : Type} (δ : μ → ω → Option μ) (ε : ν → ω → Option ν) : μ × ν → ω → Option (μ × ν)
  | (m, n), o => (δ m o).bind fun m' => (ε n o).map fun n' => (m', n')

theorem watch_both {ν : Type} (δ : μ → ω → Option μ) (ε : ν → ω → Option ν) (m m' : μ) (n n' : ν)
    (out : List ω) :
    watch (both δ ε) (m, n) out = some (m', n') ↔ watch δ m out = some m' ∧ watch ε n out = some n' := by
  induction out generalizing m n with
  | nil => simp [watch]
  | cons o out ih =>
    simp only [watch, both]
    cases δ m o with
    | none => simp
    | some m₁ =>
      cases ε n o with
      | none => simp
      | some n₁ => simpa using ih m₁ n₁

theorem watch_of_ignored {δ : μ → ω → Option μ} {m : μ} {out : List ω}
    (h : ∀ o ∈ out, δ m o = some m) : watch δ m out = some m := by
  induction out with
  | nil => rfl
  | cons o out ih =>
    rw [watch, h o List.mem_cons_self]
    exact ih fun o' ho' => h o' (List.mem_cons_of_mem _ ho')

variable (δ : μ → ω → Option μ)

theorem watch_append (m : μ) (out out' : List ω) :
    watch δ m (out ++ out') = (watch δ m out).bind fun m' => watch δ m' out' := by
  induction out generalizing m with
  | nil => rfl
  | cons o out ih =>
    simp only [List.cons_append, watch]
    cases δ m o with
    | none => rfl
    | some m' => exact ih m'

/-- From related states the outputs are accepted and the end states are related. -/
def Spec (P : σ → μ → Prop) (x : Emitter σ ω α) (Q : α → σ → μ → Prop) : Prop :=
  ∀ s m a out s', P s m → x s = some (a, out, s') → ∃ m', watch δ m out = some m' ∧ Q a s' m'

variable {δ} {P : σ → μ → Prop} {Q : α → σ → μ → Prop}

theorem Spec.conseq {P' : σ → μ → Prop} {Q' : α → σ → μ → Prop} (h : Spec δ P x Q)
    (hP : ∀ s m, P' s m → P s m) (hQ : ∀ a s m, Q a s m → Q' a s m) : Spec δ P' x Q' := by
  intro s m a out s' hp hx
  obtain ⟨m', hw, hq⟩ := h s m a out s' (hP s m hp) hx
  exact ⟨m', hw, hQ a s' m' hq⟩

theorem Spec.of_run
    (h : ∀ s m, P s m → ∃ a out s' m', x s = some (a, out, s') ∧ watch δ m out = some m' ∧
      Q a s' m') : Spec δ P x Q := by
  intro s m a out s' hp hx
  obtain ⟨a', out', s'', m', hrun, hw, hq⟩ := h s m hp
  rw [hrun] at hx
  obtain ⟨rfl, rfl, rfl⟩ := by simpa using hx
  exact ⟨m', hw, hq⟩

theorem Spec.pure {a : α} (h : ∀ s m, P s m → Q a s m) : Spec δ P (pure a) Q := by
  intro s m a' out s' hp hx
  obtain ⟨rfl, rfl, rfl⟩ := by simpa using hx
  exact ⟨m, rfl, h s m hp⟩

theorem Spec.crash : Spec δ P (crash : Emitter σ ω α) Q := by
  intro s m a out s' _ hx
  cases hx

theorem Spec.bind {R : α → σ → μ → Prop} {Q : β → σ → μ → Prop} {x : Emitter σ ω α}
    {f : α → Emitter σ ω β} (hx : Spec δ P x R) (hf : ∀ a, Spec δ (R a) (f a) Q) :
    Spec δ P (x >>= f) Q := by
  intro s m b out s'' hp h
  obtain ⟨a, out₁, s', out₂, h₁, h₂, rfl⟩ := bind_eq_some h
  obtain ⟨m₁, hw₁, hr⟩ := hx s m a out₁ s' hp h₁
  obtain ⟨m₂, hw₂, hq⟩ := hf a s' m₁ b out₂ s'' hr h₂
  refine ⟨m₂, ?_, hq⟩
  rw [watch_append, hw₁]
  exact hw₂

theorem Spec.read {Q : β → σ → μ → Prop} {f : σ → Emitter σ ω β}
    (h : ∀ s₀, Spec δ (fun s m => s = s₀ ∧ P s m) (f s₀) Q) : Spec δ P (read >>= f) Q := by
  intro s m b out s' hp hx
  rw [bind_of_some (read_run s), prepend_nil] at hx
  exact h s s m b out s' ⟨rfl, hp⟩ hx

theorem Spec.modify {f : σ → σ} {Q : Unit → σ → μ → Prop} (h : ∀ s m, P s m → Q () (f s) m) :
    Spec δ P (modify f) Q := by
  intro s m a out s' hp hx
  obtain ⟨rfl, rfl⟩ := by simpa using hx
  exact ⟨m, rfl, h s m hp⟩

theorem Spec.emit {o : ω} {Q : Unit → σ → μ → Prop}
    (h : ∀ s m, P s m → ∃ m', δ m o = some m' ∧ Q () s m') : Spec δ P (emit o) Q := by
  intro s m a out s' hp hx
  obtain ⟨rfl, rfl⟩ := by simpa using hx
  obtain ⟨m', hδ, hq⟩ := h s m hp
  exact ⟨m', by simp [watch, hδ], hq⟩

theorem Spec.emitAll {out : List ω} :
    Spec δ (fun s m => ∃ m', watch δ m out = some m' ∧ P s m') (emitAll out) fun _ => P := by
  intro s m a out' s' hp hx
  obtain ⟨rfl, rfl⟩ := by simpa using hx
  exact hp

/-- A fact that does not depend on the states may be assumed. -/
theorem Spec.of_pure {φ : Prop} (h : φ → Spec δ P x Q) : Spec δ (fun s m => φ ∧ P s m) x Q := by
  intro s m a out s' hp hx
  exact h hp.1 s m a out s' hp.2 hx

/-- A parameter that the states determine. -/
theorem Spec.exists {ι : Type} {P : ι → σ → μ → Prop} (h : ∀ i, Spec δ (P i) x Q) :
    Spec δ (fun s m => ∃ i, P i s m) x Q := by
  intro s m a out s' hp hx
  obtain ⟨i, hi⟩ := hp
  exact h i s m a out s' hi hx

theorem Spec.forEach {I : σ → μ → Prop} {bs : List β} {f : β → Emitter σ ω Unit}
    (h : ∀ b ∈ bs, Spec δ I (f b) fun _ => I) : Spec δ I (forEach bs f) fun _ => I := by
  induction bs with
  | nil => exact Spec.pure fun _ _ hi => hi
  | cons b bs ih =>
    refine Spec.bind (h b List.mem_cons_self) fun _ => ?_
    exact ih fun b' hb' => h b' (List.mem_cons_of_mem _ hb')

theorem Spec.forSome {I : σ → μ → Prop} {o : Option β} {f : β → Emitter σ ω Unit}
    (h : ∀ b, o = some b → Spec δ I (f b) fun _ => I) : Spec δ I (forSome o f) fun _ => I := by
  cases o with
  | none => exact Spec.pure fun _ _ hi => hi
  | some b => exact h b rfl

theorem Spec.onlyIf {I : σ → μ → Prop} {c : Bool} {x : Emitter σ ω Unit}
    (h : c = true → Spec δ I x fun _ => I) : Spec δ I (onlyIf c x) fun _ => I := by
  cases c with
  | false => exact Spec.pure fun _ _ hi => hi
  | true => exact h rfl

/-- The state is read, and `φ` is all that is needed of it. -/
theorem Spec.read_of {φ : σ → Prop} {Q : β → σ → μ → Prop} {f : σ → Emitter σ ω β}
    (hφ : ∀ s m, P s m → φ s) (h : ∀ s₀, φ s₀ → Spec δ P (f s₀) Q) :
    Spec δ P (Emitter.read >>= f) Q := by
  refine Spec.read fun s₀ => ?_
  intro s m b out s' hs hx
  obtain ⟨rfl, hp⟩ := hs
  exact h s (hφ s m hp) s m b out s' hp hx

theorem Spec.read_any {Q : β → σ → μ → Prop} {f : σ → Emitter σ ω β}
    (h : ∀ s₀, Spec δ P (f s₀) Q) : Spec δ P (Emitter.read >>= f) Q :=
  Spec.read_of (fun _ _ _ => trivial) fun s₀ _ => h s₀

theorem Spec.or {P' : σ → μ → Prop} (h : Spec δ P x Q) (h' : Spec δ P' x Q) :
    Spec δ (fun s m => P s m ∨ P' s m) x Q := by
  intro s m a out s' hp hx
  rcases hp with hp | hp
  · exact h s m a out s' hp hx
  · exact h' s m a out s' hp hx

/-- The invariant `I` of state and monitor is kept. -/
def Keeps (δ : μ → ω → Option μ) (I : σ → μ → Prop) (x : Emitter σ ω α) : Prop :=
  Spec δ I x fun _ => I

end Emitter

end Vexcoder.Lib
