import Mathlib

set_option autoImplicit false

/-!
# Programs that can stop

A program transforms a state or stops for good. `wp` is its weakest precondition, with one
condition for normal ends and one for stops.

A program refines another one over a relation of their states when every normal end of the first is
matched by the second. The specification may stop by `misuse`: outside its contract it asks nothing.
The implementation may stop at a `limit` that the specification does not have.
-/

namespace Prog

variable {σ τ ε α β : Type}

section Weakest

def wp (m : StateT σ (Except ε) α) (post : α → σ → Prop) (stop : ε → Prop) (s : σ) : Prop :=
  match m s with
  | .ok (a, s') => post a s'
  | .error e => stop e

variable {post : α → σ → Prop} {stop : ε → Prop} {s : σ}

theorem wp_ok (m : StateT σ (Except ε) α) (a : α) (s' : σ) (ends : m s = .ok (a, s'))
    (holds : wp m post stop s) : post a s' := by
  simpa [wp, ends] using holds

theorem wp_error (m : StateT σ (Except ε) α) (e : ε) (stops : m s = .error e)
    (holds : wp m post stop s) : stop e := by
  simpa [wp, stops] using holds

theorem bind_ok {m : StateT σ (Except ε) α} {f : α → StateT σ (Except ε) β} {a : α} {s' : σ}
    (ends : m s = .ok (a, s')) : (m >>= f) s = f a s' := by
  simp only [bind, StateT.bind, ends, Except.bind]

theorem ok_of_bind {m : StateT σ (Except ε) α} {f : α → StateT σ (Except ε) β} {b : β} {s' : σ}
    (ends : (m >>= f) s = .ok (b, s')) : ∃ a s₁, m s = .ok (a, s₁) ∧ f a s₁ = .ok (b, s') := by
  simp only [bind, StateT.bind, Except.bind] at ends
  cases first : m s with
  | error e =>
    rw [first] at ends
    cases ends
  | ok r =>
    rw [first] at ends
    exact ⟨r.1, r.2, rfl, ends⟩

@[simp] theorem wp_pure (a : α) : wp (pure a) post stop s ↔ post a s := Iff.rfl

@[simp] theorem wp_bind {post : β → σ → Prop} (m : StateT σ (Except ε) α)
    (f : α → StateT σ (Except ε) β) :
    wp (m >>= f) post stop s ↔ wp m (fun a s' => wp (f a) post stop s') stop s := by
  simp only [wp, bind, StateT.bind, Except.bind]
  cases m s <;> rfl

theorem wp_bind_ok {post : β → σ → Prop} {m : StateT σ (Except ε) α} {f : α → StateT σ (Except ε) β} {a : α}
    {s' : σ} (ends : m s = .ok (a, s')) : wp (m >>= f) post stop s ↔ wp (f a) post stop s' := by
  simp only [wp, bind_ok ends]

@[simp] theorem wp_map {post : β → σ → Prop} (m : StateT σ (Except ε) α) (f : α → β) :
    wp (f <$> m) post stop s ↔ wp m (fun a s' => post (f a) s') stop s := by
  simp only [wp, Functor.map, StateT.map, Bind.bind, Except.bind]
  cases m s <;> rfl

@[simp] theorem wp_throw (e : ε) :
    wp (throw e : StateT σ (Except ε) α) post stop s ↔ stop e := Iff.rfl

@[simp] theorem wp_get {post : σ → σ → Prop} :
    wp (get : StateT σ (Except ε) σ) post stop s ↔ post s s := Iff.rfl

@[simp] theorem wp_set {post : PUnit → σ → Prop} (s' : σ) :
    wp (set s' : StateT σ (Except ε) PUnit) post stop s ↔ post ⟨⟩ s' := Iff.rfl

@[simp] theorem wp_modify {post : PUnit → σ → Prop} (f : σ → σ) :
    wp (modify f : StateT σ (Except ε) PUnit) post stop s ↔ post ⟨⟩ (f s) := Iff.rfl

theorem wp_mono {post' : α → σ → Prop} {stop' : ε → Prop} (m : StateT σ (Except ε) α)
    (holds : wp m post stop s) (ends : ∀ a s', post a s' → post' a s') (stops : ∀ e, stop e → stop' e) :
    wp m post' stop' s := by
  unfold wp at *
  split at holds
  · exact ends _ _ holds
  · exact stops _ holds

theorem wp_post {mid : α → σ → Prop} (m : StateT σ (Except ε) α) (holds : wp m mid stop s)
    (ends : ∀ a s', mid a s' → post a s') : wp m post stop s :=
  wp_mono m holds ends fun _ stops => stops

theorem wp_then {mid : α → σ → Prop} {post : β → σ → Prop} {stop' : ε → Prop} (m : StateT σ (Except ε) α)
    (f : α → StateT σ (Except ε) β) (first : wp m mid stop' s)
    (rest : ∀ a s', mid a s' → wp (f a) post stop s') (stops : ∀ e, stop' e → stop e) : wp (m >>= f) post stop s :=
  wp_bind m f |>.mpr (wp_mono m first rest stops)

theorem wp_seq {mid : α → σ → Prop} {post : β → σ → Prop} (m : StateT σ (Except ε) α)
    (f : α → StateT σ (Except ε) β) (first : wp m mid stop s)
    (rest : ∀ a s', mid a s' → wp (f a) post stop s') : wp (m >>= f) post stop s :=
  wp_then m f first rest fun _ stops => stops

theorem wp_and {post' : α → σ → Prop} {stop' : ε → Prop} (m : StateT σ (Except ε) α)
    (one : wp m post stop s) (two : wp m post' stop' s) :
    wp m (fun a s' => post a s' ∧ post' a s') (fun e => stop e ∧ stop' e) s := by
  unfold wp at *
  split at one <;> simp_all

end Weakest

section Within

/-- Every end of the program is related to its start. -/
def Within (R : σ → σ → Prop) (m : StateT σ (Except ε) α) : Prop :=
  ∀ s, wp m (fun _ s' => R s s') (fun _ => True) s

variable {R : σ → σ → Prop}

theorem Within.ok {m : StateT σ (Except ε) α} (within : Within R m) {s s' : σ} {a : α} (ends : m s = .ok (a, s')) :
    R s s' :=
  wp_ok m a s' ends (within s)

theorem Within.bind [IsTrans σ R] {m : StateT σ (Except ε) α} {f : α → StateT σ (Except ε) β} (first : Within R m)
    (rest : ∀ a, Within R (f a)) : Within R (m >>= f) := by
  intro s
  refine wp_seq _ _ (first s) fun a s₁ here => wp_post _ (rest a s₁) fun _ s₂ later => ?_
  exact IsTrans.trans _ _ _ here later

theorem Within.ite {c : Prop} [Decidable c] {m m' : StateT σ (Except ε) α} (yes : Within R m) (no : Within R m') :
    Within R (if c then m else m') := by
  split
  · exact yes
  · exact no

theorem within_pure [Std.Refl R] (a : α) : Within R (pure a : StateT σ (Except ε) α) := fun s => refl_of R s

theorem within_get [Std.Refl R] : Within R (get : StateT σ (Except ε) σ) := fun s => refl_of R s

theorem within_throw (e : ε) : Within R (throw e : StateT σ (Except ε) α) := fun _ => trivial

end Within

/-- How the states of an implementation and of its specification belong together, and which stops
are excused. -/
structure Link (σ τ ε : Type) where
  rel : σ → τ → Prop
  limit : ε → Prop
  misuse : ε

namespace Link

variable (link : Link σ τ ε)

def Refines (m : StateT σ (Except ε) α) (n : StateT τ (Except ε) α) : Prop :=
  ∀ s t, link.rel s t → n t ≠ .error link.misuse →
    wp m (fun a s' => ∃ t', n t = .ok (a, t') ∧ link.rel s' t')
      (fun e => link.limit e ∨ n t = .error e) s

variable {link}

/-- The implementation only stops at its limits, and every end of it is an end of the specification. -/
theorem refines_at {m : StateT σ (Except ε) α} {n : StateT τ (Except ε) α} {mid : α → σ → Prop} {s : σ} {t : τ}
    (holds : wp m mid link.limit s)
    (ends : ∀ a s', mid a s' → ∃ t', n t = .ok (a, t') ∧ link.rel s' t') :
    wp m (fun a s' => ∃ t', n t = .ok (a, t') ∧ link.rel s' t')
      (fun e => link.limit e ∨ n t = .error e) s :=
  wp_mono m holds ends fun _ limit => Or.inl limit

theorem refines_seq {m : StateT σ (Except ε) β} {f : β → StateT σ (Except ε) α} {n : StateT τ (Except ε) α}
    {mid : β → σ → Prop} {s : σ} {t : τ} (first : wp m mid link.limit s)
    (rest : ∀ b s', mid b s' → wp (f b) (fun a s' => ∃ t', n t = .ok (a, t') ∧ link.rel s' t')
      (fun e => link.limit e ∨ n t = .error e) s') :
    wp (m >>= f) (fun a s' => ∃ t', n t = .ok (a, t') ∧ link.rel s' t')
      (fun e => link.limit e ∨ n t = .error e) s :=
  (wp_bind m f).mpr (wp_mono m first rest fun _ limit => Or.inl limit)

theorem Refines.ok {m : StateT σ (Except ε) α} {n : StateT τ (Except ε) α} (refines : link.Refines m n) {s s' : σ}
    {t : τ} {a : α} (related : link.rel s t) (defined : n t ≠ .error link.misuse) (ends : m s = .ok (a, s')) :
    ∃ t', n t = .ok (a, t') ∧ link.rel s' t' :=
  wp_ok m a s' ends (refines s t related defined)

end Link

end Prog
