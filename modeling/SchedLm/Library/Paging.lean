import Mathlib.Algebra.BigOperators.Group.Finset.Basic
import Mathlib.Data.Finset.Card
import Mathlib.Tactic

/-!
Offline paging with requests for whole sets of pages. A replacement rule keeps
at most `capacity` of the pages that were resident or just requested, and may
drop a page it has only just loaded. A rule that always drops pages whose next
use is furthest has the most hits. The proof counts, for every horizon, how
many resident pages are used again before it.
-/

namespace Paging

open Finset
open scoped Classical

variable {α : Type}

/-- The page is requested at a position from `i` on and before `d`: it is still due at
`i` when one looks as far ahead as `d`. -/
def UsedBetween (requests : ℕ → Finset α) (i d : ℕ) (page : α) : Prop :=
  ∃ j, i ≤ j ∧ j < d ∧ page ∈ requests j

noncomputable def due (requests : ℕ → Finset α) (i d : ℕ) (pages : Finset α) : ℕ :=
  (pages.filter (UsedBetween requests i d)).card

theorem due_le_card (requests : ℕ → Finset α) (i d : ℕ) (pages : Finset α) :
    due requests i d pages ≤ pages.card :=
  card_filter_le _ _

theorem due_mono {requests : ℕ → Finset α} {i d : ℕ} {pages pages' : Finset α}
    (h : pages ⊆ pages') : due requests i d pages ≤ due requests i d pages' :=
  card_le_card (filter_subset_filter _ h)

theorem due_self (requests : ℕ → Finset α) (i : ℕ) (pages : Finset α) :
    due requests i i pages = 0 := by
  rw [due, card_eq_zero, filter_eq_empty_iff]
  rintro page - ⟨j, hij, hji, -⟩
  omega

variable [DecidableEq α]

/-- Contents of a cache over time: `caches i` is what is resident just before
request `i`. -/
structure Replacement (requests : ℕ → Finset α) (capacity n : ℕ) (caches : ℕ → Finset α) :
    Prop where
  start : caches 0 = ∅
  keeps : ∀ i < n, caches (i + 1) ⊆ caches i ∪ requests i
  card_le : ∀ i < n, (caches (i + 1)).card ≤ capacity

/-- Pages are dropped only when `capacity` others are kept, and no page that is
kept is used later than one that is dropped. -/
structure FurthestFirst (requests : ℕ → Finset α) (capacity n : ℕ) (caches : ℕ → Finset α) :
    Prop where
  start : caches 0 = ∅
  keeps : ∀ i < n, caches (i + 1) ⊆ caches i ∪ requests i
  full : ∀ i < n, ∀ page ∈ caches i ∪ requests i, page ∉ caches (i + 1) →
    capacity ≤ (caches (i + 1)).card
  furthest : ∀ i < n, ∀ dropped ∈ caches i ∪ requests i, dropped ∉ caches (i + 1) →
    ∀ kept ∈ caches (i + 1), ∀ d, UsedBetween requests (i + 1) d dropped →
      UsedBetween requests (i + 1) d kept

noncomputable def hits (requests caches : ℕ → Finset α) (n : ℕ) : ℕ :=
  ∑ i ∈ range n, (requests i ∩ caches i).card

/-- Serving request `i`: what was due beforehand is the hits, plus what is due
afterwards among the pages at hand, less what the request itself leaves due. -/
theorem due_request (requests : ℕ → Finset α) {i d : ℕ} (hd : i < d) (pages : Finset α) :
    due requests i d pages + due requests (i + 1) d (requests i) =
      (requests i ∩ pages).card + due requests (i + 1) d (pages ∪ requests i) := by
  have hused : ∀ page, UsedBetween requests i d page ↔
      page ∈ requests i ∨ UsedBetween requests (i + 1) d page := by
    intro page
    constructor
    · rintro ⟨j, hij, hjd, hj⟩
      rcases hij.eq_or_lt with rfl | hlt
      · exact Or.inl hj
      · exact Or.inr ⟨j, hlt, hjd, hj⟩
    · rintro (hi | ⟨j, hij, hjd, hj⟩)
      · exact ⟨i, le_rfl, hd, hi⟩
      · exact ⟨j, by omega, hjd, hj⟩
  -- both sides split at membership in the request
  have hbefore : due requests i d pages =
      (requests i ∩ pages).card + due requests (i + 1) d (pages \ requests i) := by
    have hsplit : pages.filter (UsedBetween requests i d) =
        (requests i ∩ pages) ∪ (pages \ requests i).filter (UsedBetween requests (i + 1) d) := by
      ext page
      simp only [mem_filter, hused, mem_union, mem_inter, mem_sdiff]
      tauto
    rw [due, hsplit, card_union_of_disjoint]
    · rfl
    · rw [disjoint_left]
      intro page hin hout
      exact (mem_sdiff.mp (mem_filter.mp hout).1).2 (mem_inter.mp hin).1
  have hafter : due requests (i + 1) d (pages ∪ requests i) =
      due requests (i + 1) d (pages \ requests i) + due requests (i + 1) d (requests i) := by
    rw [due, ← sdiff_union_self_eq_union, filter_union, card_union_of_disjoint]
    · rfl
    · rw [disjoint_left]
      intro page hout hin
      exact (mem_sdiff.mp (mem_filter.mp hout).1).2 (mem_filter.mp hin).1
  omega

section Optimality

variable {requests : ℕ → Finset α} {capacity n : ℕ} {best other : ℕ → Finset α}

/-- One request keeps the invariant: for every horizon the hits so far and the
pages still due before it are at least the competitor's. -/
theorem FurthestFirst.step (hbest : FurthestFirst requests capacity n best)
    (hother : Replacement requests capacity n other) {i : ℕ} (hi : i < n)
    (hinv : ∀ d, i ≤ d → hits requests other i + due requests i d (other i) ≤
      hits requests best i + due requests i d (best i)) :
    ∀ d, i + 1 ≤ d → hits requests other (i + 1) + due requests (i + 1) d (other (i + 1)) ≤
      hits requests best (i + 1) + due requests (i + 1) d (best (i + 1)) := by
  have hserved : ∀ d, i + 1 ≤ d →
      hits requests other (i + 1) + due requests (i + 1) d (other i ∪ requests i) ≤
        hits requests best (i + 1) + due requests (i + 1) d (best i ∪ requests i) := by
    intro d hd
    have hb := due_request requests (show i < d by omega) (best i)
    have ho := due_request requests (show i < d by omega) (other i)
    have hle := hinv d (by omega)
    have hsumBest : hits requests best (i + 1) =
        hits requests best i + (requests i ∩ best i).card := sum_range_succ _ _
    have hsumOther : hits requests other (i + 1) =
        hits requests other i + (requests i ∩ other i).card := sum_range_succ _ _
    omega
  have hcount : hits requests other (i + 1) ≤ hits requests best (i + 1) := by
    have hnow := hserved (i + 1) le_rfl
    simpa [due_self] using hnow
  intro d hd
  by_cases hlost : ∃ dropped ∈ best i ∪ requests i, dropped ∉ best (i + 1) ∧
      UsedBetween requests (i + 1) d dropped
  · -- a page used before the horizon was dropped, so all pages kept are
    obtain ⟨dropped, hdropped, hgone, hused⟩ := hlost
    have hall : due requests (i + 1) d (best (i + 1)) = (best (i + 1)).card := by
      rw [due, filter_true_of_mem]
      intro kept hkept
      exact hbest.furthest i hi dropped hdropped hgone kept hkept d hused
    have hfull := hbest.full i hi dropped hdropped hgone
    have hfew := (due_le_card requests (i + 1) d (other (i + 1))).trans (hother.card_le i hi)
    omega
  · -- everything due before the horizon was kept
    have hall : due requests (i + 1) d (best (i + 1)) =
        due requests (i + 1) d (best i ∪ requests i) := by
      refine le_antisymm (due_mono (hbest.keeps i hi)) (card_le_card ?_)
      intro page hpage
      obtain ⟨hmem, hused⟩ := mem_filter.mp hpage
      refine mem_filter.mpr ⟨?_, hused⟩
      by_contra hgone
      exact hlost ⟨page, hmem, hgone, hused⟩
    have hless : due requests (i + 1) d (other (i + 1)) ≤
        due requests (i + 1) d (other i ∪ requests i) := due_mono (hother.keeps i hi)
    have hle := hserved d hd
    omega

/-- Dropping the furthest pages first is optimal: no replacement rule of the same
capacity has more hits over the requests. -/
theorem FurthestFirst.hits_le (hbest : FurthestFirst requests capacity n best)
    (hother : Replacement requests capacity n other) :
    hits requests other n ≤ hits requests best n := by
  have hinv : ∀ i ≤ n, ∀ d, i ≤ d → hits requests other i + due requests i d (other i) ≤
      hits requests best i + due requests i d (best i) := by
    intro i
    induction i with
    | zero =>
      intro _ d _
      rw [hbest.start, hother.start]
      simp [hits]
    | succ i ih =>
      intro hi
      exact hbest.step hother (by omega) (ih (by omega))
  have hend := hinv n le_rfl n le_rfl
  simpa [due_self] using hend

end Optimality

end Paging
