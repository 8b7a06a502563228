import Vexcoder.Lib.Emitter

/-!
# Frames and runs of emitting computations

`Leaves proj shows x` is a frame: whatever `x` does, the part `proj` of the state stays as it is and
every output is one that `shows` allows.

A run performs one computation for each item of a list (`forEach`).  `Meets C f past s items` says
that every step of the run from `s` meets the condition `C`, which speaks about the outputs so far,
the state in front of the step and the item.  `run_meets` is the induction along such a run.
-/

namespace Vexcoder.Lib.Emitter

variable {σ ω μ α β κ : Type}

/-! ### Frames -/

def Leaves (proj : σ → κ) (shows : ω → Prop) (x : Emitter σ ω α) : Prop :=
  ∀ s a out s', x s = some (a, out, s') → proj s' = proj s ∧ ∀ o ∈ out, shows o

section Leaves

variable {proj : σ → κ} {shows : ω → Prop}

theorem Leaves.pure (a : α) : Leaves proj shows (pure a : Emitter σ ω α) := by
  intro s a' out s' h
  obtain ⟨-, rfl, rfl⟩ := by simpa using h
  exact ⟨rfl, nofun⟩

theorem Leaves.read : Leaves proj shows (read : Emitter σ ω σ) := by
  intro s a out s' h
  obtain ⟨-, rfl, rfl⟩ := by simpa using h
  exact ⟨rfl, nofun⟩

theorem Leaves.modify {f : σ → σ} (h : ∀ s, proj (f s) = proj s) :
    Leaves proj shows (modify f : Emitter σ ω Unit) := by
  intro s a out s' hrun
  obtain ⟨rfl, rfl⟩ := by simpa using hrun
  exact ⟨h s, nofun⟩

theorem Leaves.emit {o : ω} (h : shows o) : Leaves proj shows (emit o : Emitter σ ω Unit) := by
  intro s a out s' hrun
  obtain ⟨rfl, rfl⟩ := by simpa using hrun
  exact ⟨rfl, fun o' ho => (List.mem_singleton.mp ho) ▸ h⟩

/-- An invariant of the part that is left alone is kept, by a monitor that ignores the outputs. -/
theorem Leaves.keeps {δ : μ → ω → Option μ} {I : σ → μ → Prop} {x : Emitter σ ω α}
    (h : Leaves proj shows x) (hI : ∀ s s' m, proj s' = proj s → I s m → I s' m)
    (hδ : ∀ m o, shows o → δ m o = some m) : Spec δ I x fun _ => I := by
  intro s m a out s' hi hx
  obtain ⟨hs', hout⟩ := h s a out s' hx
  exact ⟨m, watch_of_ignored fun o ho => hδ m o (hout o ho), hI s s' m hs' hi⟩

end Leaves

/-! ### What is known of the value -/

/-- Whatever value `x` returns, it has the property. -/
def Ensures (x : Emitter σ ω α) (Q : α → Prop) : Prop :=
  ∀ s a out s', x s = some (a, out, s') → Q a

section Ensures

variable {Q : α → Prop}

theorem Ensures.pure {a : α} (h : Q a) : Ensures (pure a : Emitter σ ω α) Q := by
  intro s a' out s' hrun
  obtain ⟨rfl, -, -⟩ := by simpa using hrun
  exact h

variable {x : Emitter σ ω α} {f : α → Emitter σ ω β}

theorem Ensures.bind {R : β → Prop} (hx : Ensures x Q) (hf : ∀ a, Q a → Ensures (f a) R) :
    Ensures (x >>= f) R := by
  intro s b out s'' h
  obtain ⟨a, out₁, s', out₂, h₁, h₂, rfl⟩ := bind_eq_some h
  exact hf a (hx s a out₁ s' h₁) s' b out₂ s'' h₂

theorem Ensures.last {R : β → Prop} (hf : ∀ a, Ensures (f a) R) : Ensures (x >>= f) R :=
  Ensures.bind (Q := fun _ => True) (fun _ _ _ _ _ => trivial) fun a _ => hf a

theorem Spec.ensures {δ : μ → ω → Option μ} {P : σ → μ → Prop} {R : α → σ → μ → Prop}
    (h : Spec δ P x R) (hQ : Ensures x Q) : Spec δ P x fun a s m => Q a ∧ R a s m := by
  intro s m a out s' hp hx
  obtain ⟨m', hw, hr⟩ := h s m a out s' hp hx
  exact ⟨m', hw, hQ s a out s' hx, hr⟩

end Ensures

/-! ### What goes through a computation -/

/-- A property that a computation has when its parts have it, where the later ones may use what is known
of the values of the earlier ones. -/
structure Closed (C : (α : Type) → Emitter σ ω α → Prop) : Prop where
  pure : ∀ {α : Type} (a : α), C α (pure a)
  read : C σ read
  bind_of : ∀ {α β : Type} {x : Emitter σ ω α} {f : α → Emitter σ ω β} {Q : α → Prop}, C α x →
    Ensures x Q → (∀ a, Q a → C β (f a)) → C β (x >>= f)

namespace Closed

variable {C : (α : Type) → Emitter σ ω α → Prop} (h : Closed C)

include h

theorem bind {x : Emitter σ ω α} {f : α → Emitter σ ω β} (hx : C α x) (hf : ∀ a, C β (f a)) : C β (x >>= f) :=
  h.bind_of (Q := fun _ => True) hx (fun _ _ _ _ _ => trivial) fun a _ => hf a

theorem forEach {bs : List β} {f : β → Emitter σ ω Unit} (hf : ∀ b, C Unit (f b)) :
    C Unit (forEach bs f) := by
  induction bs with
  | nil => exact h.pure ()
  | cons b bs ih => exact h.bind (hf b) fun _ => ih

theorem forSome {o : Option β} {f : β → Emitter σ ω Unit} (hf : ∀ b, C Unit (f b)) :
    C Unit (forSome o f) := by
  cases o with
  | none => exact h.pure ()
  | some b => exact hf b

theorem onlyIf {c : Bool} {x : Emitter σ ω Unit} (hx : C Unit x) : C Unit (onlyIf c x) := by
  cases c with
  | false => exact h.pure ()
  | true => exact hx

end Closed

theorem closed_leaves (proj : σ → κ) (shows : ω → Prop) : Closed fun α => Leaves (α := α) proj shows where
  pure := Leaves.pure
  read := Leaves.read
  bind_of := by
    intro α β x f Q hx hQ hf s b out s'' h
    obtain ⟨a, out₁, s', out₂, h₁, h₂, rfl⟩ := bind_eq_some h
    obtain ⟨hs', ho₁⟩ := hx s a out₁ s' h₁
    obtain ⟨hs'', ho₂⟩ := hf a (hQ s a out₁ s' h₁) s' b out₂ s'' h₂
    exact ⟨hs''.trans hs', fun o ho => (List.mem_append.mp ho).elim (ho₁ o) (ho₂ o)⟩

section Leaves

variable {proj : σ → κ} {shows : ω → Prop}

theorem Leaves.bind {x : Emitter σ ω α} {f : α → Emitter σ ω β} (hx : Leaves proj shows x)
    (hf : ∀ a, Leaves proj shows (f a)) : Leaves proj shows (x >>= f) :=
  (closed_leaves proj shows).bind hx hf

theorem Leaves.forEach {bs : List β} {f : β → Emitter σ ω Unit}
    (h : ∀ b, Leaves proj shows (f b)) : Leaves proj shows (forEach bs f) :=
  (closed_leaves proj shows).forEach h

theorem Leaves.forSome {o : Option β} {f : β → Emitter σ ω Unit}
    (h : ∀ b, Leaves proj shows (f b)) : Leaves proj shows (forSome o f) :=
  (closed_leaves proj shows).forSome h

theorem Leaves.onlyIf {c : Bool} {x : Emitter σ ω Unit} (h : Leaves proj shows x) :
    Leaves proj shows (onlyIf c x) :=
  (closed_leaves proj shows).onlyIf h

end Leaves

/-! ### What is always among the outputs -/

/-- Whenever `x` runs, `o` is among its outputs. -/
def Outputs (o : ω) (x : Emitter σ ω α) : Prop := ∀ s a out s', x s = some (a, out, s') → o ∈ out

section Outputs

variable {o : ω} {x : Emitter σ ω α} {f : α → Emitter σ ω β}

theorem Outputs.emit : Outputs o (emit o : Emitter σ ω Unit) := by
  intro s a out s' hrun
  obtain ⟨rfl, -⟩ := by simpa using hrun
  exact List.mem_singleton_self o

theorem Outputs.first (hx : Outputs o x) : Outputs o (x >>= f) := by
  intro s b out s'' h
  obtain ⟨a, out₁, s', out₂, h₁, -, rfl⟩ := bind_eq_some h
  exact List.mem_append_left out₂ (hx s a out₁ s' h₁)

theorem Outputs.later (hf : ∀ a, Outputs o (f a)) : Outputs o (x >>= f) := by
  intro s b out s'' h
  obtain ⟨a, out₁, s', out₂, -, h₂, rfl⟩ := bind_eq_some h
  exact List.mem_append_right out₁ (hf a s' b out₂ s'' h₂)

end Outputs

/-! ### Computations that do not panic -/

/-- From a state with `P` the computation runs, and value, outputs and state behind it are as `Q`
says. -/
def Yields (P : σ → Prop) (x : Emitter σ ω α) (Q : α → List ω → σ → Prop) : Prop :=
  ∀ s, P s → ∃ a out s', x s = some (a, out, s') ∧ Q a out s'

section Yields

variable {P : σ → Prop} {Q : α → List ω → σ → Prop}

theorem Yields.pure {a : α} (h : ∀ s, P s → Q a [] s) : Yields P (pure a) Q :=
  fun s hp => ⟨a, [], s, rfl, h s hp⟩

theorem Yields.read {φ : σ → Prop} {R : β → List ω → σ → Prop} {f : σ → Emitter σ ω β}
    (hφ : ∀ s, P s → φ s) (h : ∀ s₀, φ s₀ → Yields P (f s₀) R) :
    Yields P (Emitter.read >>= f) R := by
  intro s hp
  rw [bind_of_some (read_run s), prepend_nil]
  exact h s (hφ s hp) s hp

theorem Yields.modify {f : σ → σ} {Q : Unit → List ω → σ → Prop} (h : ∀ s, P s → Q () [] (f s)) :
    Yields P (modify f) Q := fun s hp => ⟨(), [], f s, rfl, h s hp⟩

theorem Yields.emit {o : ω} {Q : Unit → List ω → σ → Prop} (h : ∀ s, P s → Q () [o] s) :
    Yields P (emit o) Q := fun s hp => ⟨(), [o], s, rfl, h s hp⟩

end Yields

def Total (x : Emitter σ ω α) : Prop := ∀ s, ∃ result, x s = some result

section Total

theorem Total.pure (a : α) : Total (pure a : Emitter σ ω α) := fun s => ⟨(a, [], s), rfl⟩

theorem Total.modify (f : σ → σ) : Total (modify f : Emitter σ ω Unit) :=
  fun s => ⟨((), [], f s), rfl⟩

theorem Total.emit (o : ω) : Total (emit o : Emitter σ ω Unit) := fun s => ⟨((), [o], s), rfl⟩

theorem closed_total : Closed fun α => Total (σ := σ) (ω := ω) (α := α) where
  pure := Total.pure
  read := fun s => ⟨(s, [], s), rfl⟩
  bind_of := by
    intro α β x f Q hx hQ hf s
    obtain ⟨⟨a, out, s'⟩, hrun⟩ := hx s
    obtain ⟨⟨b, out', s''⟩, hrun'⟩ := hf a (hQ s a out s' hrun) s'
    exact ⟨(b, out ++ out', s''), by rw [bind_of_some hrun, hrun', prepend_some]⟩

theorem Total.bind {x : Emitter σ ω α} {f : α → Emitter σ ω β} (hx : Total x)
    (hf : ∀ a, Total (f a)) : Total (x >>= f) := closed_total.bind hx hf

end Total

/-! ### Outputs under a tag -/

variable {υ : Type} {C : List ω → σ → β → Prop} {f : β → Emitter σ ω Unit} {past : List ω} {s : σ}
  {bs : List β}

theorem watch_map (δ : μ → υ → Option μ) (wrap : ω → υ) (m : μ) (out : List ω) :
    watch δ m (out.map wrap) = watch (fun m o => δ m (wrap o)) m out := by
  induction out generalizing m with
  | nil => rfl
  | cons o out ih =>
    simp only [List.map_cons, watch]
    cases δ m (wrap o) with
    | none => rfl
    | some m' => exact ih m'

theorem Spec.zoom {τ : Type} {δ : μ → υ → Option μ} {get : τ → σ} {put : σ → τ → τ} {wrap : ω → υ}
    {P : τ → μ → Prop} {Q : α → τ → μ → Prop} {x : Emitter σ ω α}
    (h : ∀ t, Spec (fun m o => δ m (wrap o)) (fun s m => s = get t ∧ P t m) x
      fun a s m => Q a (put s t) m) : Spec δ P (zoom get put wrap x) Q := by
  intro t m a out t' hp hrun
  obtain ⟨out₀, s, hx, rfl, rfl⟩ := zoom_eq_some hrun
  obtain ⟨m', hwatch, hq⟩ := h t (get t) m a out₀ s ⟨rfl, hp⟩ hx
  exact ⟨m', (watch_map δ wrap m out₀).trans hwatch, hq⟩

theorem Total.zoom {τ : Type} {x : Emitter σ ω α} (h : Total x) (get : τ → σ) (put : σ → τ → τ)
    (wrap : ω → υ) : Total (zoom get put wrap x) := by
  intro t
  obtain ⟨⟨a, out, s⟩, hrun⟩ := h (get t)
  exact ⟨(a, out.map wrap, put s t), by rw [Emitter.zoom, hrun]⟩

/-! ### Runs whose steps meet a condition -/

def Meets (C : List ω → σ → β → Prop) (f : β → Emitter σ ω Unit) : List ω → σ → List β → Prop
  | _, _, [] => True
  | past, s, b :: bs =>
    C past s b ∧ ∀ out s', f b s = some ((), out, s') → Meets C f (past ++ out) s' bs

theorem meets_cons_iff {b : β} :
    Meets C f past s (b :: bs) ↔
      C past s b ∧ ∀ result ∈ f b s, Meets C f (past ++ result.2.1) result.2.2 bs :=
  ⟨fun h => ⟨h.1, fun result hresult => h.2 result.2.1 result.2.2 hresult⟩,
    fun h => ⟨h.1, fun out s' hrun => h.2 ((), out, s') hrun⟩⟩

instance decidableMeets {C : List ω → σ → β → Prop} [∀ past s b, Decidable (C past s b)]
    {f : β → Emitter σ ω Unit} :
    (past : List ω) → (s : σ) → (bs : List β) → Decidable (Meets C f past s bs)
  | _, _, [] => .isTrue trivial
  | past, _, _ :: bs =>
    have : DecidablePred fun result : Unit × List ω × σ => Meets C f (past ++ result.2.1) result.2.2 bs :=
      fun result => decidableMeets (past ++ result.2.1) result.2.2 bs
    decidable_of_iff' _ meets_cons_iff

/-- **Runs under a condition**, for an invariant of the outputs so far and the state: what each step
keeps that meets the condition, a run keeps whose steps all meet it. -/
theorem run_records {I : List ω → σ → Prop}
    (hstep : ∀ past s b out s', I past s → C past s b → f b s = some ((), out, s') →
      I (past ++ out) s') {out : List ω} {s' : σ} (hi : I past s) (hmeets : Meets C f past s bs)
    (hrun : forEach bs f s = some ((), out, s')) : I (past ++ out) s' := by
  induction bs generalizing past s out with
  | nil =>
    obtain ⟨rfl, rfl⟩ := by simpa [forEach] using hrun
    rwa [List.append_nil]
  | cons b bs ih =>
    obtain ⟨⟨⟩, out₁, s₁, out₂, hb, hbs, rfl⟩ := bind_eq_some hrun
    have hi₁ : I (past ++ out₁) s₁ := hstep past s b out₁ s₁ hi hmeets.1 hb
    rw [← List.append_assoc]
    exact ih hi₁ (hmeets.2 out₁ s₁ hb) hbs

/-- **Runs under a condition**, for an invariant of the state and of a monitor of the outputs. -/
theorem run_meets {δ : μ → ω → Option μ} {m₀ : μ} {I : σ → μ → Prop}
    (hstep : ∀ past s m b out s', watch δ m₀ past = some m → I s m → C past s b →
      f b s = some ((), out, s') → ∃ m', watch δ m out = some m' ∧ I s' m') {m : μ} {out : List ω}
    {s' : σ} (hpast : watch δ m₀ past = some m) (hi : I s m) (hmeets : Meets C f past s bs)
    (hrun : forEach bs f s = some ((), out, s')) :
    ∃ m', watch δ m₀ (past ++ out) = some m' ∧ I s' m' := by
  have start : ∃ m, watch δ m₀ past = some m ∧ I s m := ⟨m, hpast, hi⟩
  refine run_records (I := fun past s => ∃ m, watch δ m₀ past = some m ∧ I s m)
    (fun past s b out s' hinv hc hb => ?_) start hmeets hrun
  obtain ⟨m₁, hw₁, hi₁⟩ := hinv
  obtain ⟨m₂, hw₂, hi₂⟩ := hstep past s m₁ b out s' hw₁ hi₁ hc hb
  refine ⟨m₂, ?_, hi₂⟩
  rw [watch_append, hw₁]
  exact hw₂

end Vexcoder.Lib.Emitter
