import Mathlib.Tactic

/-!
Rolling hash chains and common prefixes. When the hash is injective and never
returns the seed, a digest determines the whole sequence behind it, so looking
up the digests of a query in a set of chains measures its longest common prefix
with them.
-/

namespace HashChain

variable {α β : Type}

/-- The digests of the non-empty leading parts of a sequence. -/
def chain (hash : β × α → β) : β → List α → List β
  | _, [] => []
  | parent, x :: rest => hash (parent, x) :: chain hash (hash (parent, x)) rest

def digest (hash : β × α → β) (seed : β) (xs : List α) : β :=
  xs.foldl (fun parent x => hash (parent, x)) seed

theorem digest_append_singleton (hash : β × α → β) (seed : β) (xs : List α) (x : α) :
    digest hash seed (xs ++ [x]) = hash (digest hash seed xs, x) := by
  simp [digest]

theorem getElem?_chain (hash : β × α → β) (seed : β) (xs : List α) (i : ℕ) :
    (chain hash seed xs)[i]? =
      if i < xs.length then some (digest hash seed (xs.take (i + 1))) else none := by
  induction xs generalizing seed i with
  | nil => simp [chain]
  | cons x rest ih =>
    cases i with
    | zero => simp [chain, digest]
    | succ i => simp [chain, ih, digest]

theorem mem_chain {hash : β × α → β} {seed : β} {xs : List α} {d : β} :
    d ∈ chain hash seed xs ↔
      ∃ n, 0 < n ∧ n ≤ xs.length ∧ d = digest hash seed (xs.take n) := by
  rw [List.mem_iff_getElem?]
  constructor
  · rintro ⟨i, hi⟩
    rw [getElem?_chain] at hi
    split_ifs at hi with hlt
    simp only [Option.some.injEq] at hi
    exact ⟨i + 1, by omega, hlt, hi.symm⟩
  · rintro ⟨n, hpos, hle, rfl⟩
    refine ⟨n - 1, ?_⟩
    rw [getElem?_chain, if_pos (by omega), Nat.sub_add_cancel hpos]

/-- The chain is the digests of the non-empty leading parts, shortest first. -/
theorem chain_eq_map_inits (hash : β × α → β) (seed : β) (xs : List α) :
    chain hash seed xs = xs.inits.tail.map (digest hash seed) := by
  induction xs generalizing seed with
  | nil => rfl
  | cons x rest ih =>
    have hinits : rest.inits = [] :: rest.inits.tail := by cases rest <;> simp
    rw [chain, ih, List.inits_cons, List.tail_cons, List.map_map]
    conv_rhs => rw [hinits, List.map_cons]
    rfl

theorem mem_tail_inits {ys xs : List α} :
    ys ∈ xs.inits.tail ↔ ys ≠ [] ∧ List.IsPrefix ys xs := by
  cases xs with
  | nil => simp
  | cons x rest =>
    rw [List.inits_cons, List.tail_cons, List.mem_map]
    constructor
    · rintro ⟨tail, htail, rfl⟩
      exact ⟨List.cons_ne_nil x tail, List.cons_prefix_cons.mpr
        ⟨rfl, (List.mem_inits tail rest).mp htail⟩⟩
    · rintro ⟨hne, hpre⟩
      obtain ⟨y, tail, rfl⟩ := List.exists_cons_of_ne_nil hne
      obtain ⟨rfl, htail⟩ := List.cons_prefix_cons.mp hpre
      exact ⟨tail, (List.mem_inits tail rest).mpr htail, rfl⟩

theorem pairwise_inits (xs : List α) :
    xs.inits.Pairwise fun ys zs => List.IsPrefix ys zs ∧ ys ≠ zs := by
  induction xs with
  | nil => exact List.pairwise_singleton _ _
  | cons x rest ih =>
    rw [List.inits_cons, List.pairwise_cons, List.pairwise_map]
    constructor
    · intro ys hys
      obtain ⟨tail, -, rfl⟩ := List.mem_map.mp hys
      exact ⟨List.nil_prefix, (List.cons_ne_nil x tail).symm⟩
    · refine ih.imp ?_
      rintro ys zs ⟨hpre, hne⟩
      exact ⟨List.cons_prefix_cons.mpr ⟨rfl, hpre⟩, fun h => hne (List.cons_injective h)⟩

/-- Without a collision the digests of a chain differ, and another chain that
has one of them has all before it. -/
theorem pairwise_chain {hash : β × α → β} {seed : β} {parts : Set (List α)}
    (hinj : Set.InjOn (digest hash seed) parts) {xs ys : List α}
    (hxs : ∀ part ∈ xs.inits.tail, part ∈ parts) (hys : ∀ part ∈ ys.inits.tail, part ∈ parts) :
    (chain hash seed xs).Pairwise fun a b =>
      a ≠ b ∧ (b ∈ chain hash seed ys → a ∈ chain hash seed ys) := by
  rw [chain_eq_map_inits, chain_eq_map_inits, List.pairwise_map]
  refine (pairwise_inits xs).tail.imp_of_mem ?_
  rintro p q hp hq ⟨hpre, hne⟩
  constructor
  · exact fun heq => hne (hinj (hxs p hp) (hxs q hq) heq)
  · intro hmem
    obtain ⟨q', hq', heq⟩ := List.mem_map.mp hmem
    obtain rfl := hinj (hys q' hq') (hxs q hq) heq
    have hp' : p ∈ ys.inits.tail :=
      mem_tail_inits.mpr ⟨(mem_tail_inits.mp hp).1, hpre.trans (mem_tail_inits.mp hq').2⟩
    exact List.mem_map_of_mem hp'

theorem chain_append (hash : β × α → β) (seed : β) (xs ys : List α) :
    chain hash seed (xs ++ ys) =
      chain hash seed xs ++ chain hash (digest hash seed xs) ys := by
  induction xs generalizing seed with
  | nil => rfl
  | cons x rest ih => exact congrArg (hash (seed, x) :: ·) (ih (hash (seed, x)))

/-- A longer sequence keeps the digests there were. -/
theorem chain_isPrefix {xs ys : List α} (hash : β × α → β) (seed : β)
    (h : List.IsPrefix xs ys) : List.IsPrefix (chain hash seed xs) (chain hash seed ys) := by
  obtain ⟨zs, rfl⟩ := h
  rw [chain_append]
  exact List.prefix_append _ _

section Injective

variable {hash : β × α → β} {seed : β} (hinj : Function.Injective hash)
  (hseed : ∀ p, hash p ≠ seed)

include hinj hseed

/-- A digest determines its sequence. The induction peels the last hash off both
sides; a seed on one side only would be a value of the hash. -/
theorem digest_injective : Function.Injective (digest hash seed) := by
  intro xs
  induction xs using List.reverseRecOn with
  | nil =>
    intro ys h
    rcases List.eq_nil_or_concat ys with rfl | ⟨ys, y, rfl⟩
    · rfl
    · rw [List.concat_eq_append, digest_append_singleton] at h
      exact absurd h.symm (hseed _)
  | append_singleton xs x ih =>
    intro ys h
    rcases List.eq_nil_or_concat ys with rfl | ⟨ys, y, rfl⟩
    · rw [digest_append_singleton] at h
      exact absurd h (hseed _)
    · rw [List.concat_eq_append, digest_append_singleton, digest_append_singleton] at h
      have hpair := Prod.mk.inj (hinj h)
      rw [List.concat_eq_append, ih hpair.1, hpair.2]

/-- The digest of a leading part of `ys` occurs in the chain of `xs` exactly
when both sequences start with that part. -/
theorem digest_take_mem_chain {xs ys : List α} {n : ℕ} (hpos : 0 < n)
    (hn : n ≤ ys.length) :
    digest hash seed (ys.take n) ∈ chain hash seed xs ↔
      n ≤ xs.length ∧ xs.take n = ys.take n := by
  rw [mem_chain]
  constructor
  · rintro ⟨k, -, hk, heq⟩
    have htake := digest_injective hinj hseed heq
    have hlen := congrArg List.length htake
    rw [List.length_take, List.length_take, Nat.min_eq_left hn, Nat.min_eq_left hk] at hlen
    subst hlen
    exact ⟨hk, htake.symm⟩
  · rintro ⟨hle, heq⟩
    exact ⟨n, hpos, hle, by rw [heq]⟩

end Injective

section CommonPrefix

variable [DecidableEq α]

def lcp : List α → List α → ℕ
  | x :: xs, y :: ys => if x = y then lcp xs ys + 1 else 0
  | _, _ => 0

theorem le_lcp_iff {xs ys : List α} {n : ℕ} :
    n ≤ lcp xs ys ↔ n ≤ xs.length ∧ n ≤ ys.length ∧ xs.take n = ys.take n := by
  induction xs generalizing ys n with
  | nil =>
    simp only [lcp, List.length_nil, Nat.le_zero]
    constructor
    · rintro rfl
      simp
    · rintro ⟨rfl, -⟩
      rfl
  | cons x xs ih =>
    cases ys with
    | nil =>
      simp only [lcp, List.length_nil, Nat.le_zero]
      constructor
      · rintro rfl
        simp
      · rintro ⟨-, rfl, -⟩
        rfl
    | cons y ys =>
      cases n with
      | zero => simp
      | succ n =>
        unfold lcp
        split_ifs with hxy
        · simp [ih, hxy]
        · simp [hxy]

end CommonPrefix

def pieces (size n : ℕ) (xs : List α) : List (List α) :=
  (List.range n).map fun i => (xs.drop (i * size)).take size

theorem pieces_succ (size n : ℕ) (xs : List α) :
    pieces size (n + 1) xs = xs.take size :: pieces size n (xs.drop size) := by
  simp only [pieces, List.range_succ_eq_map, List.map_cons, List.map_map, Nat.zero_mul,
    List.drop_zero]
  congr 1
  apply List.map_congr_left
  intro i _
  simp [List.drop_drop, Nat.succ_mul, Nat.add_comm]

theorem take_pieces {size n k : ℕ} (xs : List α) (hk : k ≤ n) :
    (pieces size n xs).take k = pieces size k xs := by
  rw [pieces, pieces, ← List.map_take, List.take_range, Nat.min_eq_left hk]

theorem flatten_pieces (size n : ℕ) (xs : List α) :
    (pieces size n xs).flatten = xs.take (n * size) := by
  induction n generalizing xs with
  | zero => simp [pieces]
  | succ n ih =>
    rw [pieces_succ, List.flatten_cons, ih, Nat.succ_mul, Nat.add_comm, List.take_add]

/-- Leading pieces agree exactly when the leading elements do, as far as the pieces
reach. -/
theorem pieces_eq_iff {size n : ℕ} {xs ys : List α} :
    pieces size n xs = pieces size n ys ↔ xs.take (n * size) = ys.take (n * size) := by
  constructor
  · intro h
    rw [← flatten_pieces, ← flatten_pieces, h]
  · intro h
    unfold pieces
    apply List.map_congr_left
    intro i hi
    have hle : i * size + size ≤ n * size := by
      rw [← Nat.succ_mul]
      exact Nat.mul_le_mul_right size (List.mem_range.mp hi)
    have hsplit : ∀ zs : List α, (zs.drop (i * size)).take size =
        ((zs.take (n * size)).drop (i * size)).take size := by
      intro zs
      rw [List.drop_take, List.take_take, Nat.min_eq_left (by omega)]
    rw [hsplit xs, hsplit ys, h]

@[simp] theorem length_pieces (size n : ℕ) (xs : List α) :
    (pieces size n xs).length = n := by
  simp [pieces]

/-- A longer sequence keeps its whole pieces; the elements left over may only now
fill one. -/
theorem pieces_isPrefix {size : ℕ} {xs ys : List α} (h : List.IsPrefix xs ys) :
    List.IsPrefix (pieces size (xs.length / size) xs) (pieces size (ys.length / size) ys) := by
  obtain ⟨zs, rfl⟩ := h
  have hle : xs.length / size ≤ (xs ++ zs).length / size :=
    Nat.div_le_div_right (by rw [List.length_append]; exact Nat.le_add_right _ _)
  have hsame : pieces size (xs.length / size) xs =
      pieces size (xs.length / size) (xs ++ zs) := by
    rw [pieces_eq_iff, List.take_append_of_le_length (Nat.div_mul_le_self _ _)]
  rw [hsame, ← take_pieces _ hle]
  exact List.take_prefix _ _

/-- The common prefix of the whole pieces, in elements divided by the size. -/
theorem lcp_pieces [DecidableEq α] {size : ℕ} (hsize : 1 ≤ size) (xs ys : List α) :
    lcp (pieces size (xs.length / size) xs) (pieces size (ys.length / size) ys) =
      lcp xs ys / size := by
  -- both sides have the same lower bounds
  apply eq_of_forall_le_iff
  intro n
  have hfit : ∀ zs : List α, n ≤ zs.length / size ↔ n * size ≤ zs.length := fun zs =>
    Nat.le_div_iff_mul_le hsize
  rw [Nat.le_div_iff_mul_le hsize, le_lcp_iff, le_lcp_iff, length_pieces, length_pieces,
    hfit, hfit]
  constructor
  · rintro ⟨hx, hy, htake⟩
    rw [take_pieces _ ((hfit xs).mpr hx), take_pieces _ ((hfit ys).mpr hy)] at htake
    exact ⟨hx, hy, pieces_eq_iff.mp htake⟩
  · rintro ⟨hx, hy, htake⟩
    rw [take_pieces _ ((hfit xs).mpr hx), take_pieces _ ((hfit ys).mpr hy)]
    exact ⟨hx, hy, pieces_eq_iff.mpr htake⟩

end HashChain
