import Mathlib.Tactic.Common

/-!
# Programs that return

Total correctness for programs with a state and failures. `Returns p s Q`: from the
state `s` the program `p` does return, and the value and the state it leaves are as
`Q` says. One rule for each way of composing programs; a proof about a program is a
chain of them. `Ensures` says the same of the runs that return, if there are any. The
rules about lists lift a refinement of single operations.
-/
namespace TagSoc.Programs

variable {σ ε α β : Type}

def Returns (p : StateT σ (Except ε) α) (s : σ) (Q : α → σ → Prop) : Prop :=
  ∃ a s', p s = .ok (a, s') ∧ Q a s'

variable {p : StateT σ (Except ε) α} {f : α → StateT σ (Except ε) β} {s : σ}
  {Q Q' : α → σ → Prop} {R : β → σ → Prop}

theorem Returns.bind (h : Returns p s Q) (hf : ∀ a s', Q a s' → Returns (f a) s' R) :
    Returns (p >>= f) s R := by
  obtain ⟨a, s', hp, hQ⟩ := h
  obtain ⟨b, s'', hb, hR⟩ := hf a s' hQ
  refine ⟨b, s'', ?_, hR⟩
  simp only [Bind.bind, StateT.bind, hp, Except.bind]
  exact hb

theorem Returns.mono (h : Returns p s Q) (hQ : ∀ a s', Q a s' → Q' a s') : Returns p s Q' := by
  obtain ⟨a, s', hp, h'⟩ := h
  exact ⟨a, s', hp, hQ a s' h'⟩

theorem Returns.pure {a : α} (h : Q a s) : Returns (Pure.pure a : StateT σ (Except ε) α) s Q :=
  ⟨a, s, rfl, h⟩

theorem Returns.get {Q : σ → σ → Prop} (h : Q s s) :
    Returns (MonadState.get : StateT σ (Except ε) σ) s Q :=
  ⟨s, s, rfl, h⟩

theorem Returns.modify {u : σ → σ} {Q : PUnit → σ → Prop} (h : Q () (u s)) :
    Returns (modifyThe σ u : StateT σ (Except ε) PUnit) s Q :=
  ⟨(), u s, rfl, h⟩

theorem Returns.of_eq {a : α} {s' : σ} (hp : p s = .ok (a, s')) (h : Q a s') : Returns p s Q :=
  ⟨a, s', hp, h⟩

/-- What a program that returns has returned. -/
theorem Returns.of_ok {a : α} {s' : σ} (h : Returns p s Q) (hp : p s = .ok (a, s')) : Q a s' := by
  obtain ⟨b, t, hb, hQ⟩ := h
  rw [hb] at hp
  cases hp
  exact hQ

/-! ## Runs that return -/

def Ensures (p : StateT σ (Except ε) α) (s : σ) (Q : α → σ → Prop) : Prop :=
  ∀ a s', p s = .ok (a, s') → Q a s'

theorem Returns.ensures (h : Returns p s Q) : Ensures p s Q := fun _ _ hp => h.of_ok hp

theorem ok_of_toBool {e : Except ε α} (h : e.toBool = true) : ∃ a, e = .ok a := by
  cases e with
  | error e => cases h
  | ok a => exact ⟨a, rfl⟩

theorem Returns.and_ensures (h : Returns p s Q) (h' : Ensures p s Q') :
    Returns p s fun a s' => Q a s' ∧ Q' a s' := by
  obtain ⟨a, s', hp, hQ⟩ := h
  exact ⟨a, s', hp, hQ, h' a s' hp⟩

theorem Ensures.bind (h : Ensures p s Q) (hf : ∀ a s', Q a s' → Ensures (f a) s' R) :
    Ensures (p >>= f) s R := by
  intro b s'' hb
  simp only [Bind.bind, StateT.bind, Except.bind] at hb
  cases hp : p s with
  | error e =>
      rw [hp] at hb
      cases hb
  | ok r =>
      rw [hp] at hb
      exact hf r.1 r.2 (h r.1 r.2 hp) b s'' hb

theorem Ensures.pure {a : α} (h : Q a s) : Ensures (Pure.pure a : StateT σ (Except ε) α) s Q :=
  (Returns.pure h).ensures

theorem Ensures.throw {e : ε} : Ensures (MonadExcept.throw e : StateT σ (Except ε) α) s Q := by
  intro a s' h
  cases h

theorem Ensures.mono (h : Ensures p s Q) (hQ : ∀ a s', Q a s' → Q' a s') : Ensures p s Q' :=
  fun a s' hp => hQ a s' (h a s' hp)

/-- A relation between the states before and after that every operation of a list keeps. -/
theorem Ensures.mapM {rel : σ → σ → Prop} (hrefl : ∀ s, rel s s)
    (htrans : ∀ s t u, rel s t → rel t u → rel s u) {xs : List α}
    (hone : ∀ x ∈ xs, ∀ s, Ensures (f x) s fun _ s' => rel s s') :
    Ensures (xs.mapM f) s fun _ s' => rel s s' := by
  induction xs generalizing s with
  | nil =>
      rw [List.mapM_nil]
      exact Ensures.pure (hrefl s)
  | cons x xs ih =>
      rw [List.mapM_cons]
      refine (hone x List.mem_cons_self s).bind fun b s₁ h₁ => ?_
      refine (ih fun y hy => hone y (List.mem_cons_of_mem x hy)).bind fun bs s₂ h₂ => ?_
      exact Ensures.pure (htrans _ _ _ h₁ h₂)

/-! ## Lists of operations -/

variable {μ : Type}

/-- The answers of a list of operations on a specification's state, and the state. -/
def script (spec : α → μ → β × μ) : List α → μ → List β × μ
  | [], m => ([], m)
  | x :: xs, m =>
      let first := spec x m
      let rest := script spec xs first.2
      (first.1 :: rest.1, rest.2)

/-- If every operation keeps the relation to the specification and answers as it does,
so does every list of them. -/
theorem Returns.mapM {spec : α → μ → β × μ} (rel : μ → σ → Prop) {xs : List α} {m : μ} (hm : rel m s)
    (hone : ∀ x ∈ xs, ∀ m s, rel m s →
      Returns (f x) s fun b s' => b = (spec x m).1 ∧ rel (spec x m).2 s') :
    Returns (xs.mapM f) s fun bs s' => bs = (script spec xs m).1 ∧ rel (script spec xs m).2 s' := by
  induction xs generalizing m s with
  | nil =>
      rw [List.mapM_nil]
      exact Returns.pure ⟨rfl, hm⟩
  | cons x xs ih =>
      rw [List.mapM_cons]
      refine (hone x List.mem_cons_self m s hm).bind fun b s₁ h₁ => ?_
      refine (ih h₁.2 fun y hy => hone y (List.mem_cons_of_mem x hy)).bind fun bs s₂ h₂ => ?_
      exact Returns.pure ⟨by rw [h₁.1, h₂.1, script], h₂.2⟩

/-- Operations that leave the specification's state as it is. -/
theorem Returns.mapM_eq (rel : σ → Prop) (v : α → β) {xs : List α} (hm : rel s)
    (hone : ∀ x ∈ xs, ∀ s, rel s → Returns (f x) s fun b s' => b = v x ∧ rel s') :
    Returns (xs.mapM f) s fun bs s' => bs = xs.map v ∧ rel s' := by
  induction xs generalizing s with
  | nil =>
      rw [List.mapM_nil]
      exact Returns.pure ⟨rfl, hm⟩
  | cons x xs ih =>
      rw [List.mapM_cons]
      refine (hone x List.mem_cons_self s hm).bind fun b s₁ h₁ => ?_
      refine (ih h₁.2 fun y hy => hone y (List.mem_cons_of_mem x hy)).bind fun bs s₂ h₂ => ?_
      exact Returns.pure ⟨by rw [h₁.1, h₂.1, List.map_cons], h₂.2⟩

end TagSoc.Programs
