import Shading.Lowering

/-!
# What stateful steps come to

Parsers and lowering steps thread a state and may fail. `bind_eq_ok`
takes a successful sequence apart, and `Ends` describes a run by what
holds of its result and of its error. Where it does not matter whether
the run succeeds, `Results` says what holds if it does.
-/

namespace Shading

variable {σ ε α β : Type}

/-- A sequence succeeds when both of its steps do. -/
theorem bind_eq_ok {x : StateT σ (Except ε) α} {k : α → StateT σ (Except ε) β} {s s' : σ} {b : β} :
    (x >>= k) s = .ok (b, s') ↔ ∃ a t, x s = .ok (a, t) ∧ k a t = .ok (b, s') := by
  change (StateT.bind x k) s = _ ↔ _
  simp only [StateT.bind, Bind.bind, Except.bind]
  cases x s with
  | error e => simp
  | ok v =>
    obtain ⟨a, t⟩ := v
    exact ⟨fun h => ⟨a, t, rfl, h⟩, by rintro ⟨_, _, ⟨⟩, h⟩; exact h⟩

theorem pure_eq_ok {a b : α} {s s' : σ} :
    (Pure.pure a : StateT σ (Except ε) α) s = .ok (b, s') ↔ a = b ∧ s = s' := by
  change Except.ok (a, s) = .ok (b, s') ↔ _
  simp

theorem modify_eq_ok {g : σ → σ} {s s' : σ} {u : PUnit} :
    (modify g : StateT σ (Except ε) PUnit) s = .ok (u, s') ↔ g s = s' := by
  change Except.ok (_, g s) = .ok (_, s') ↔ _
  simp

theorem get_eq_ok {s s' a : σ} :
    (get : StateT σ (Except ε) σ) s = .ok (a, s') ↔ a = s ∧ s' = s := by
  change Except.ok (s, s) = .ok (a, s') ↔ _
  simp [eq_comm]

/-- A computation has a result if a test passes on it. -/
theorem exists_ok_of_any {x : Except ε α} {f : α → Bool} (any : x.toOption.any f = true) :
    ∃ a, x = .ok a ∧ f a = true := by
  cases x with
  | error e => cases any
  | ok a => exact ⟨a, rfl, any⟩

/-- **What a run from a state comes to**: a result and a state of which
`Q` holds, or an error of which `E` holds. -/
def Ends (x : StateT σ (Except ε) α) (s : σ) (Q : α → σ → Prop) (E : ε → Prop) : Prop :=
  match x s with
  | .ok (a, s') => Q a s'
  | .error e => E e

namespace Ends

variable {x : StateT σ (Except ε) α} {k : α → StateT σ (Except ε) β} {s s' : σ}
  {Q Q' : α → σ → Prop} {R : β → σ → Prop} {E E' : ε → Prop}

theorem of_ok {a : α} (h : Ends x s Q E) (run : x s = .ok (a, s')) : Q a s' := by
  rw [Ends, run] at h
  exact h

theorem intro {a : α} (run : x s = .ok (a, s')) (h : Q a s') : Ends x s Q E := by
  rw [Ends, run]
  exact h

theorem of_error {e : ε} (run : x s = .error e) (h : E e) : Ends x s Q E := by
  rw [Ends, run]
  exact h

/-- What does not fail has a result. -/
theorem exists_ok (h : Ends x s Q fun _ => False) : ∃ a s', x s = .ok (a, s') ∧ Q a s' := by
  cases run : x s with
  | error e =>
    rw [Ends, run] at h
    exact h.elim
  | ok v => exact ⟨v.1, v.2, rfl, h.of_ok run⟩

theorem mono (h : Ends x s Q E) (hQ : ∀ a s', Q a s' → Q' a s') (hE : ∀ e, E e → E' e) :
    Ends x s Q' E' := by
  unfold Ends at h ⊢
  split at h <;> simp_all

/-- What follows a run starts where the run ends. -/
theorem bind (h : Ends x s Q E) (hk : ∀ a s', Q a s' → Ends (k a) s' R E) :
    Ends (x >>= k) s R E := by
  change match (StateT.bind x k) s with
    | .ok (a, s') => R a s'
    | .error e => E e
  unfold Ends at h
  simp only [StateT.bind, Bind.bind, Except.bind]
  revert h
  cases x s with
  | error e => exact fun h => h
  | ok v => exact fun h => hk v.1 v.2 h

theorem pure {a : α} (h : Q a s) : Ends (Pure.pure a) s Q E := h

theorem bindGet {k : σ → StateT σ (Except ε) β} (h : Ends (k s) s R E) :
    Ends (get >>= k) s R E := h

theorem modify {g : σ → σ} {Q : PUnit → σ → Prop} (h : Q .unit (g s)) :
    Ends (modify g) s Q E := h

end Ends

/-- **What holds of the result** of a run from a state, if there is one. -/
def Results (x : StateT σ (Except ε) α) (s : σ) (Q : α → σ → Prop) : Prop :=
  ∀ a s', x s = .ok (a, s') → Q a s'

namespace Results

variable {x : StateT σ (Except ε) α} {k : α → StateT σ (Except ε) β} {s s' : σ}
  {Q Q' : α → σ → Prop} {R : β → σ → Prop}

theorem ofEnds {E : ε → Prop} (h : Ends x s Q E) : Results x s Q := fun _ _ run => h.of_ok run

/-- What is known of the result in another way holds of it too. -/
theorem andEnds {E : ε → Prop} (h : Results x s Q) (ends : Ends x s Q' E) :
    Ends x s (fun a s' => Q' a s' ∧ Q a s') E := by
  unfold Ends at ends ⊢
  split at ends
  · next run => exact ⟨ends, h _ _ run⟩
  · exact ends

theorem intro {a : α} (run : x s = .ok (a, s')) (h : Q a s') : Results x s Q := fun b t run' => by
  rw [run] at run'
  cases run'
  exact h

theorem mono (h : Results x s Q) (hQ : ∀ a s', Q a s' → Q' a s') : Results x s Q' :=
  fun a s' run => hQ a s' (h a s' run)

theorem and (h : Results x s Q) (h' : Results x s Q') : Results x s fun a s' => Q a s' ∧ Q' a s' :=
  fun a s' run => ⟨h a s' run, h' a s' run⟩

/-- What follows a run starts where the run ends. -/
theorem bind (h : Results x s Q) (hk : ∀ a s', Q a s' → Results (k a) s' R) :
    Results (x >>= k) s R := fun b t run => by
  obtain ⟨a, s', first, second⟩ := bind_eq_ok.1 run
  exact hk a s' (h a s' first) b t second

theorem pure {a : α} (h : Q a s) : Results (Pure.pure a : StateT σ (Except ε) α) s Q :=
  .intro rfl h

theorem bindGet {k : σ → StateT σ (Except ε) β} (h : Results (k s) s R) :
    Results (get >>= k) s R := h

theorem modify {g : σ → σ} {Q : PUnit → σ → Prop} (h : Q .unit (g s)) :
    Results (modify g : StateT σ (Except ε) PUnit) s Q := .intro rfl h

/-- A step that is taken or not. -/
theorem optional {p : Prop} [Decidable p] {x : StateT σ (Except ε) PUnit}
    {k : PUnit → StateT σ (Except ε) β} {Q : PUnit → σ → Prop}
    (h : Results (if p then x else Pure.pure .unit) s Q)
    (hk : ∀ s', Q .unit s' → Results (k .unit) s' R) :
    Results (if p then x >>= k else k .unit) s R := by
  split
  · next taken =>
    rw [if_pos taken] at h
    exact h.bind fun _ s' holds => hk s' holds
  · next left =>
    rw [if_neg left] at h
    exact hk s (h .unit s rfl)

end Results

end Shading
