import SchedLm.Library.Runs

/-!
What a stateful computation that may raise can return, from any state: one rule
for each way to build such a computation. The same for facts that refer to a
part of the state which only grows: they hold in the state the computation ends
in and in every later one.
-/

namespace Runs

variable {ε σ τ α β : Type}

/-- Whatever `x` returns, from whatever state, satisfies `post`. A computation that
raises satisfies everything. -/
structure Returns (x : StateT σ (Except ε) α) (post : α → Prop) : Prop where
  of_run : ∀ {s a s'}, x s = .ok (a, s') → post a

theorem Returns.weaken {x : StateT σ (Except ε) α} {post post' : α → Prop}
    (h : Returns x post) (himp : ∀ a, post a → post' a) : Returns x post' :=
  ⟨fun hrun => himp _ (h.of_run hrun)⟩

theorem returns_trivial (x : StateT σ (Except ε) α) : Returns x fun _ => True :=
  ⟨fun _ => True.intro⟩

theorem returns_pure {a : α} {post : α → Prop} (h : post a) :
    Returns (pure a : StateT σ (Except ε) α) post := by
  constructor
  intro s a' s' hrun
  obtain ⟨rfl, -⟩ := Prod.mk.inj (Except.ok.inj hrun)
  exact h

theorem returns_throw (e : ε) (post : α → Prop) :
    Returns (throw e : StateT σ (Except ε) α) post := by
  constructor
  intro s a s' hrun
  cases hrun

/-- What a computation returns is what the next one starts from. -/
theorem Returns.bind {x : StateT σ (Except ε) α} {f : α → StateT σ (Except ε) β}
    {mid : α → Prop} {post : β → Prop} (hx : Returns x mid)
    (hf : ∀ a, mid a → Returns (f a) post) : Returns (x >>= f) post := by
  constructor
  intro s b s' hrun
  obtain ⟨⟨a, s₁⟩, hfirst, hrest⟩ := bind_eq_ok.mp hrun
  exact (hf a (hx.of_run hfirst)).of_run hrest

theorem returns_andThen {x : StateT σ (Except ε) α} {f : α → StateT σ (Except ε) β}
    {post : β → Prop} (hf : ∀ a, Returns (f a) post) : Returns (x >>= f) post :=
  (returns_trivial x).bind fun a _ => hf a

theorem Returns.map {x : StateT σ (Except ε) α} {f : α → β} {post : β → Prop}
    (hx : Returns x fun a => post (f a)) : Returns (f <$> x) post := by
  rw [map_eq_pure_bind]
  exact hx.bind fun a ha => returns_pure ha

section Settles

variable {γ : Type} [Preorder γ]

/-- Whatever `x` returns, from whatever state, the part of the state in view has
only grown, and `post` holds in the new one and every later one. -/
structure Settles (view : σ → γ) (x : StateT σ (Except ε) α) (post : α → γ → Prop) : Prop where
  of_run : ∀ {s a s'}, x s = .ok (a, s') →
    view s ≤ view s' ∧ ∀ later, view s' ≤ later → post a later

variable {view : σ → γ}

theorem Settles.weaken {x : StateT σ (Except ε) α} {post post' : α → γ → Prop}
    (h : Settles view x post) (himp : ∀ a later, post a later → post' a later) :
    Settles view x post' := by
  constructor
  intro s a s' hrun
  obtain ⟨hgrows, hpost⟩ := h.of_run hrun
  exact ⟨hgrows, fun later hlater => himp a later (hpost later hlater)⟩

theorem settles_pure {a : α} {post : α → γ → Prop} (h : ∀ later, post a later) :
    Settles view (pure a : StateT σ (Except ε) α) post := by
  constructor
  intro s a' s' hrun
  obtain ⟨rfl, rfl⟩ := Prod.mk.inj (Except.ok.inj hrun)
  exact ⟨le_rfl, fun later _ => h later⟩

theorem settles_throw (e : ε) (post : α → γ → Prop) :
    Settles view (throw e : StateT σ (Except ε) α) post := by
  constructor
  intro s a s' hrun
  cases hrun

/-- What has settled after the first computation still holds after the next. -/
theorem Settles.bind {x : StateT σ (Except ε) α} {f : α → StateT σ (Except ε) β}
    {mid : α → γ → Prop} {post : β → γ → Prop} (hx : Settles view x mid)
    (hf : ∀ a, Settles view (f a) fun b later => mid a later → post b later) :
    Settles view (x >>= f) post := by
  constructor
  intro s b s' hrun
  obtain ⟨⟨a, s₁⟩, hfirst, hrest⟩ := bind_eq_ok.mp hrun
  obtain ⟨hgrows, hmid⟩ := hx.of_run hfirst
  obtain ⟨hgrows', hpost⟩ := (hf a).of_run hrest
  exact ⟨hgrows.trans hgrows', fun later hlater =>
    hpost later hlater (hmid later (hgrows'.trans hlater))⟩

theorem Settles.andThen {x : StateT σ (Except ε) α} {f : α → StateT σ (Except ε) β}
    {post : β → γ → Prop} (hx : Settles view x fun _ _ => True)
    (hf : ∀ a, Settles view (f a) post) : Settles view (x >>= f) post :=
  hx.bind fun a => (hf a).weaken fun _ _ h _ => h

theorem Settles.map {x : StateT σ (Except ε) α} {f : α → β} {post : β → γ → Prop}
    (hx : Settles view x fun a later => post (f a) later) : Settles view (f <$> x) post := by
  rw [map_eq_pure_bind]
  exact hx.bind fun a => settles_pure fun _ h => h

end Settles

section Tracks

variable {α' β' : Type} {S : σ → τ → Prop}

/-- From related states both computations raise the same error, or both return,
related values and related states. -/
structure Tracks (S : σ → τ → Prop) (x : StateT σ (Except ε) α) (y : StateT τ (Except ε) α')
    (R : α → α' → Prop) : Prop where
  of_run : ∀ {s t}, S s t → Related (fun a b => R a.1 b.1 ∧ S a.2 b.2) (x s) (y t)

theorem tracks_pure {a : α} {b : α'} {R : α → α' → Prop} (h : R a b) :
    Tracks S (pure a : StateT σ (Except ε) α) (pure b : StateT τ (Except ε) α') R :=
  ⟨fun hst => .ok ⟨h, hst⟩⟩

theorem tracks_throw (e : ε) (R : α → α' → Prop) :
    Tracks S (throw e : StateT σ (Except ε) α) (throw e : StateT τ (Except ε) α') R :=
  ⟨fun _ => .error e⟩

/-- Related values keep the computations that go on from them side by side. -/
theorem Tracks.bind {x : StateT σ (Except ε) α} {y : StateT τ (Except ε) α'}
    {f : α → StateT σ (Except ε) β} {g : α' → StateT τ (Except ε) β'} {mid : α → α' → Prop}
    {R : β → β' → Prop} (hxy : Tracks S x y mid) (hfg : ∀ a b, mid a b → Tracks S (f a) (g b) R) :
    Tracks S (x >>= f) (y >>= g) R :=
  ⟨fun hst => (hxy.of_run hst).bind fun a b ⟨hmid, hS⟩ => (hfg a.1 b.1 hmid).of_run hS⟩

theorem Tracks.weaken {x : StateT σ (Except ε) α} {y : StateT τ (Except ε) α'}
    {R R' : α → α' → Prop} (h : Tracks S x y R) (himp : ∀ a b, R a b → R' a b) :
    Tracks S x y R' :=
  ⟨fun hst => (h.of_run hst).imp fun _ _ hR => ⟨himp _ _ hR.1, hR.2⟩⟩

end Tracks

end Runs
