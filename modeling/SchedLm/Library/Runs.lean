import Mathlib.Tactic

/-!
Runs of a step function that may raise: inversion of one step, the invariant
rule, and the rule that relates two runs over the same inputs.
-/

namespace Runs

variable {ε α β σ τ : Type}

theorem bind_eq_ok {x : Except ε α} {f : α → Except ε β} {b : β} :
    (x >>= f) = .ok b ↔ ∃ a, x = .ok a ∧ f a = .ok b := by
  cases x with
  | error e => simp [bind, Except.bind]
  | ok a => simp [bind, Except.bind]

theorem map_eq_ok {x : Except ε α} {f : α → β} {b : β} :
    x.map f = .ok b ↔ ∃ a, x = .ok a ∧ f a = b := by
  cases x with
  | error e => simp [Except.map]
  | ok a => simp [Except.map]

theorem eq_ok_of_toOption {x : Except ε α} {a : α} (h : x.toOption = some a) : x = .ok a := by
  cases x with
  | error e => cases h
  | ok b => exact congrArg Except.ok (Option.some.inj h)

theorem exists_eq_ok {x : Except ε α} (h : x.toOption.isSome = true) : ∃ a, x = .ok a := by
  obtain ⟨a, ha⟩ := Option.isSome_iff_exists.mp h
  exact ⟨a, eq_ok_of_toOption ha⟩

/-- Rewriting a result and going on is going on from the rewritten result. -/
theorem map_bind (x : Except ε α) (f : α → β) (g : β → Except ε σ) :
    (x.map f >>= g) = (x >>= fun a => g (f a)) := by
  cases x <;> rfl

/-- Replacing one element by one with the property keeps the property of all. -/
theorem forall_mem_set {P : α → Prop} {xs : List α} (h : ∀ x ∈ xs, P x) (i : ℕ) {x : α}
    (hx : P x) : ∀ y ∈ xs.set i x, P y := by
  intro y hy
  rcases List.mem_or_eq_of_mem_set hy with hy | rfl
  · exact h y hy
  · exact hx

/-- Every input of a traversal that returns has its output among the results. -/
theorem exists_of_mem_mapM {f : α → Except ε β} {xs : List α} {ys : List β}
    (h : xs.mapM f = .ok ys) {x : α} (hx : x ∈ xs) : ∃ y ∈ ys, f x = .ok y := by
  induction xs generalizing ys with
  | nil => simp at hx
  | cons first rest ih =>
    rw [List.mapM_cons, bind_eq_ok] at h
    obtain ⟨y, hy, h⟩ := h
    rw [bind_eq_ok] at h
    obtain ⟨tail, htail, h⟩ := h
    obtain rfl : y :: tail = ys := Except.ok.inj h
    rcases List.mem_cons.mp hx with rfl | hx
    · exact ⟨y, List.mem_cons_self, hy⟩
    · obtain ⟨z, hz, hfz⟩ := ih htail hx
      exact ⟨z, List.mem_cons_of_mem y hz, hfz⟩

theorem exists_of_mem_result {f : α → Except ε β} {xs : List α} {ys : List β}
    (h : xs.mapM f = .ok ys) {y : β} (hy : y ∈ ys) : ∃ x ∈ xs, f x = .ok y := by
  induction xs generalizing ys with
  | nil =>
    obtain rfl : [] = ys := Except.ok.inj h
    simp at hy
  | cons first rest ih =>
    rw [List.mapM_cons, bind_eq_ok] at h
    obtain ⟨z, hz, h⟩ := h
    rw [bind_eq_ok] at h
    obtain ⟨tail, htail, h⟩ := h
    obtain rfl : z :: tail = ys := Except.ok.inj h
    rcases List.mem_cons.mp hy with rfl | hy
    · exact ⟨first, List.mem_cons_self, hz⟩
    · obtain ⟨x, hx, hfx⟩ := ih htail hy
      exact ⟨x, List.mem_cons_of_mem first hx, hfx⟩

theorem mapM_eq_ok {f : α → Except ε β} {g : α → β} {xs : List α}
    (h : ∀ x ∈ xs, f x = .ok (g x)) : xs.mapM f = .ok (xs.map g) := by
  induction xs with
  | nil => rfl
  | cons x rest ih =>
    rw [List.mapM_cons, h x List.mem_cons_self, ih fun y hy => h y (List.mem_cons_of_mem x hy)]
    rfl

theorem mapM_congr {f g : α → Except ε β} {xs : List α} (h : ∀ x ∈ xs, f x = g x) :
    xs.mapM f = xs.mapM g := by
  induction xs with
  | nil => rfl
  | cons x rest ih =>
    rw [List.mapM_cons, List.mapM_cons, h x List.mem_cons_self,
      ih fun y hy => h y (List.mem_cons_of_mem x hy)]

theorem mapM_map_result (f : α → Except ε β) (g : β → σ) (xs : List α) :
    (xs.mapM fun a => (f a).map g) = (xs.mapM f).map (List.map g) := by
  induction xs with
  | nil => rfl
  | cons x rest ih =>
    rw [List.mapM_cons, List.mapM_cons, ih]
    cases f x with
    | error e => rfl
    | ok y => cases rest.mapM f <;> rfl

/-- What each step preserves holds at the end of every run that gets through. -/
theorem foldlM_preserves (P : σ → Prop) {step : σ → α → Except ε σ} {inputs : List α}
    (hstep : ∀ s a s', P s → step s a = .ok s' → P s') {s s' : σ} (hs : P s)
    (hrun : inputs.foldlM step s = .ok s') : P s' := by
  induction inputs generalizing s with
  | nil =>
    obtain rfl : s = s' := Except.ok.inj hrun
    exact hs
  | cons a rest ih =>
    rw [List.foldlM_cons, bind_eq_ok] at hrun
    obtain ⟨next, hnext, hrun⟩ := hrun
    exact ih (hstep s a next hs hnext) hrun

section Prefixes

variable {step : σ → α → Except ε σ} {inputs : List α} {start : σ}

theorem foldlM_take_succ {k : ℕ} {a : α} (ha : inputs[k]? = some a) :
    (inputs.take (k + 1)).foldlM step start =
      (inputs.take k).foldlM step start >>= fun s => step s a := by
  rw [List.take_add_one, ha, Option.toList_some, List.foldlM_append]
  congr 1
  funext s
  simp

/-- What holds at the start and survives each step holds after every prefix of
the inputs that the run gets through. -/
theorem invariant (Inv : ℕ → σ → Prop) (hstart : Inv 0 start)
    (hstep : ∀ k s a s', inputs[k]? = some a →
      (inputs.take k).foldlM step start = .ok s → Inv k s → step s a = .ok s' →
      Inv (k + 1) s')
    {k : ℕ} (hk : k ≤ inputs.length) {s : σ}
    (hrun : (inputs.take k).foldlM step start = .ok s) : Inv k s := by
  induction k generalizing s with
  | zero =>
    obtain rfl : start = s := Except.ok.inj hrun
    exact hstart
  | succ k ih =>
    obtain ⟨a, ha⟩ : ∃ a, inputs[k]? = some a :=
      ⟨inputs[k], List.getElem?_eq_getElem (by omega)⟩
    rw [foldlM_take_succ ha, bind_eq_ok] at hrun
    obtain ⟨before, hbefore, hlast⟩ := hrun
    exact hstep k before a s ha hbefore (ih (by omega) hbefore) hlast

end Prefixes

/-- Two outcomes that both raise the same error, or both return related states. -/
inductive Related (R : σ → τ → Prop) : Except ε σ → Except ε τ → Prop where
  | error (e : ε) : Related R (.error e) (.error e)
  | ok {s : σ} {t : τ} (h : R s t) : Related R (.ok s) (.ok t)

/-- An outcome is related to itself, along with how it came about. -/
theorem Related.self (x : Except ε σ) : Related (fun s t => s = t ∧ x = .ok s) x x := by
  cases x with
  | error e => exact .error e
  | ok s => exact .ok ⟨rfl, rfl⟩

theorem Related.imp {R S : σ → τ → Prop} {x : Except ε σ} {y : Except ε τ}
    (h : Related R x y) (hRS : ∀ s t, R s t → S s t) : Related S x y := by
  cases h with
  | error e => exact .error e
  | ok h => exact .ok (hRS _ _ h)

theorem Related.of_map_eq {x : Except ε σ} {y : Except ε τ} {f : σ → β} {g : τ → β}
    (h : x.map f = y.map g) : Related (fun s t => f s = g t) x y := by
  cases x with
  | error e =>
    cases y with
    | error e' =>
      obtain rfl : e = e' := Except.error.inj h
      exact .error e
    | ok t => cases h
  | ok s =>
    cases y with
    | error e => cases h
    | ok t => exact .ok (Except.ok.inj h)

theorem Related.outcomes {R : σ → τ → Prop} {x : Except ε σ} {y : Except ε τ}
    (h : Related R x y) : Related (fun s t => R s t ∧ x = .ok s ∧ y = .ok t) x y := by
  cases h with
  | error e => exact .error e
  | ok h => exact .ok ⟨h, rfl, rfl⟩

/-- Sequencing keeps related outcomes related, also when both of them raise. -/
theorem Related.bind {σ' τ' : Type} {R : σ → τ → Prop} {S : σ' → τ' → Prop}
    {x : Except ε σ} {y : Except ε τ} {f : σ → Except ε σ'} {g : τ → Except ε τ'}
    (hxy : Related R x y) (hfg : ∀ s t, R s t → Related S (f s) (g t)) :
    Related S (x >>= f) (y >>= g) := by
  cases hxy with
  | error e => exact .error e
  | ok h => exact hfg _ _ h

/-- Continuations that agree on related states make the outcomes equal. -/
theorem Related.bind_eq {R : σ → τ → Prop} {x : Except ε σ} {y : Except ε τ}
    {f : σ → Except ε β} {g : τ → Except ε β} (hxy : Related R x y)
    (hfg : ∀ s t, R s t → f s = g t) : (x >>= f) = (y >>= g) := by
  cases hxy with
  | error e => rfl
  | ok h => exact hfg _ _ h

theorem Related.exists_of_ok {R : σ → τ → Prop} {s : σ} {y : Except ε τ}
    (h : Related R (.ok s) y) : ∃ t, y = .ok t ∧ R s t := by
  cases h with
  | ok h => exact ⟨_, rfl, h⟩

/-- Related starts and steps that keep related states related give related runs: a
simulation between two computations that may raise. -/
theorem related_foldlM {R : σ → τ → Prop} {step : σ → α → Except ε σ}
    {step' : τ → α → Except ε τ} {inputs : List α}
    (hstep : ∀ a ∈ inputs, ∀ s t, R s t → Related R (step s a) (step' t a))
    {s : σ} {t : τ} (h : R s t) :
    Related R (inputs.foldlM step s) (inputs.foldlM step' t) := by
  induction inputs generalizing s t with
  | nil => exact .ok h
  | cons a rest ih =>
    rw [List.foldlM_cons, List.foldlM_cons]
    exact (hstep a List.mem_cons_self s t h).bind fun s' t' hnext =>
      ih (fun b hb => hstep b (List.mem_cons_of_mem a hb)) hnext

end Runs
