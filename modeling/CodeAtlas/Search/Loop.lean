/-!
# Stepwise searches

A search is a machine that takes one small step at a time until it has nothing left to do. Running
it needs a bound on the number of steps; each search computes one from the size of its graph.
-/

namespace CodeAtlas

variable {σ : Type}

/-- Takes steps until `step` stops or `fuel` of them are taken. -/
def iterate (step : σ → Option σ) : Nat → σ → σ
  | 0, s => s
  | fuel + 1, s =>
    match step s with
    | none => s
    | some s => iterate step fuel s

/-- A bound on the steps of a backtracking search whose nodes have at most `width` successors and
whose trails can grow by `depth` more nodes: one step to leave a node, and for each successor one
step to take it and a whole search below it. -/
def searchBudget (width : Nat) : Nat → Nat
  | 0 => 1
  | depth + 1 => 1 + width * (1 + searchBudget width depth)

theorem iterate_zero (step : σ → Option σ) (s : σ) : iterate step 0 s = s := rfl

theorem iterate_stopped {step : σ → Option σ} {s : σ} (h : step s = none) (fuel : Nat) :
    iterate step fuel s = s := by
  cases fuel with
  | zero => rfl
  | succ n => rw [iterate, h]

theorem iterate_add (step : σ → Option σ) (m n : Nat) (s : σ) :
    iterate step (m + n) s = iterate step n (iterate step m s) := by
  induction m generalizing s with
  | zero => rw [Nat.zero_add, iterate_zero]
  | succ m ih =>
    rw [Nat.succ_add, iterate, iterate]
    cases h : step s with
    | none => exact (iterate_stopped h n).symm
    | some t => exact ih t

/-- One more step is a step from where the machine has come to. -/
theorem iterate_succ (step : σ → Option σ) (k : Nat) (s : σ) :
    step (iterate step k s) = none ∧ iterate step (k + 1) s = iterate step k s ∨
      step (iterate step k s) = some (iterate step (k + 1) s) := by
  rw [iterate_add]
  cases hstep : step (iterate step k s) with
  | none => exact Or.inl ⟨rfl, iterate_stopped hstep 1⟩
  | some t =>
    rw [iterate, hstep]
    exact Or.inr rfl

/-- What a step keeps, a run keeps. -/
theorem iterate_induction {step : σ → Option σ} {P : σ → Prop}
    (keep : ∀ s t, P s → step s = some t → P t) (fuel : Nat) (s : σ) (h : P s) :
    P (iterate step fuel s) := by
  induction fuel generalizing s with
  | zero => exact h
  | succ n ih =>
    rw [iterate]
    cases hs : step s with
    | none => exact h
    | some t => exact ih t (keep s t h hs)

/-- Two machines that go in step stay in step. -/
theorem iterate_map {τ : Type} {step : σ → Option σ} {step' : τ → Option τ} {f : σ → τ}
    (hstep : ∀ s, step' (f s) = (step s).map f) (fuel : Nat) (s : σ) :
    iterate step' fuel (f s) = f (iterate step fuel s) := by
  induction fuel generalizing s with
  | zero => rfl
  | succ n ih =>
    rw [iterate, iterate, hstep]
    cases step s with
    | none => rfl
    | some t => exact ih t

/-- Two machines that are related after each step, and stop together, stay related. What the first
keeps may be used. -/
theorem iterate_related {τ : Type} {step : σ → Option σ} {step' : τ → Option τ} {P : σ → Prop}
    {R : σ → τ → Prop} (keep : ∀ s t, P s → step s = some t → P t)
    (hstep : ∀ s t, P s → R s t → Option.Rel R (step s) (step' t)) (fuel : Nat) (s : σ) (t : τ)
    (hs : P s) (h : R s t) : R (iterate step fuel s) (iterate step' fuel t) := by
  induction fuel generalizing s t with
  | zero => exact h
  | succ n ih =>
    have hnext := hstep s t hs h
    rw [iterate, iterate]
    cases hs' : step s with
    | none =>
      rw [hs'] at hnext
      cases ht : step' t with
      | none => exact h
      | some t' =>
        rw [ht] at hnext
        cases hnext
    | some s' =>
      rw [hs'] at hnext
      cases ht : step' t with
      | none =>
        rw [ht] at hnext
        cases hnext
      | some t' =>
        rw [ht] at hnext
        cases hnext with
        | some hrel => exact ih s' t' (keep s s' hs hs') hrel

/-- Any fuel that brings a machine to its end gives the same result. -/
theorem iterate_eq_of_stopped {step : σ → Option σ} {s : σ} {m n : Nat}
    (hm : step (iterate step m s) = none) (hn : step (iterate step n s) = none) :
    iterate step m s = iterate step n s := by
  rcases Nat.le_total m n with hle | hle
  · obtain ⟨k, rfl⟩ := Nat.exists_eq_add_of_le hle
    rw [iterate_add, iterate_stopped hm]
  · obtain ⟨k, rfl⟩ := Nat.exists_eq_add_of_le hle
    rw [iterate_add, iterate_stopped hn]

/-- A run that comes to its end has a last step: up to it the machine goes on, from then on it is
stopped. -/
theorem exists_last_step {step : σ → Option σ} {s : σ} {fuel : Nat}
    (hend : step (iterate step fuel s) = none) :
    ∃ last ≤ fuel, ∀ k, step (iterate step k s) = none ↔ last ≤ k := by
  induction fuel generalizing s with
  | zero =>
    rw [iterate_zero] at hend
    refine ⟨0, Nat.le_refl 0, fun k => iff_of_true ?_ (Nat.zero_le k)⟩
    rwa [iterate_stopped hend]
  | succ n ih =>
    cases hs : step s with
    | none =>
      refine ⟨0, Nat.zero_le _, fun k => iff_of_true ?_ (Nat.zero_le k)⟩
      rwa [iterate_stopped hs]
    | some t =>
      have hrun : ∀ k, iterate step (k + 1) s = iterate step k t := by
        intro k
        rw [iterate, hs]
      rw [hrun] at hend
      obtain ⟨last, hle, hlast⟩ := ih hend
      refine ⟨last + 1, Nat.succ_le_succ hle, fun k => ?_⟩
      cases k with
      | zero =>
        rw [iterate_zero, hs]
        exact iff_of_false (Option.some_ne_none t) (Nat.not_succ_le_zero last)
      | succ k => rw [hrun, hlast, Nat.succ_le_succ_iff]

/-- A run whose steps lower a measure below the fuel ends because the machine stops. -/
theorem step_iterate_eq_none {step : σ → Option σ} {P : σ → Prop} (measure : σ → Nat)
    (keep : ∀ s t, P s → step s = some t → P t)
    (lower : ∀ s t, P s → step s = some t → measure t < measure s) (fuel : Nat) (s : σ) (h : P s)
    (enough : measure s < fuel) : step (iterate step fuel s) = none := by
  induction fuel generalizing s with
  | zero => omega
  | succ n ih =>
    rw [iterate]
    cases hs : step s with
    | none => exact hs
    | some t =>
      have hlow := lower s t h hs
      exact ih t (keep s t h hs) (by omega)

end CodeAtlas
