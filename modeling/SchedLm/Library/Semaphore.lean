import Mathlib.Tactic

/-!
A counting semaphore that serves its waiters in the order they came, and what
holds between its permits and the tasks that use it. A waiter that is woken has
its permit from then on, also before it runs again.
-/

structure Semaphore (ι : Type) where
  value : ℕ
  waiters : List ι

namespace Semaphore

variable {ι : Type}

def locked (s : Semaphore ι) : Bool := s.value == 0 || !s.waiters.isEmpty

/-- Take a permit, or join the queue. Whether there was a permit. -/
def acquire (s : Semaphore ι) (i : ι) : Semaphore ι × Bool :=
  if s.locked then ({ s with waiters := s.waiters ++ [i] }, false)
  else ({ s with value := s.value - 1 }, true)

/-- Give a permit back, to the first waiter if there is one. -/
def release (s : Semaphore ι) : Semaphore ι × Option ι :=
  match s.waiters with
  | [] => ({ s with value := s.value + 1 }, none)
  | i :: rest => ({ s with waiters := rest }, some i)

inductive Place where
  | outside
  | queued
  | inside
  deriving DecidableEq

/-- The permits are in the semaphore or with the tasks inside, the queue is that
of the queued tasks, and nobody queues while a permit is left. -/
structure Balanced (capacity : ℕ) (tasks : Finset ι) (place : ι → Place) (s : Semaphore ι) :
    Prop where
  permits : s.value + (tasks.filter fun i => place i = .inside).card = capacity
  queued : ∀ i, i ∈ s.waiters ↔ place i = .queued
  nodup : s.waiters.Nodup
  queuing : s.waiters ≠ [] → s.value = 0
  known : ∀ i, place i ≠ .outside → i ∈ tasks

namespace Balanced

variable {capacity : ℕ} {tasks : Finset ι} {place : ι → Place} {s s' : Semaphore ι} {i j : ι}

theorem start (capacity : ℕ) (tasks : Finset ι) :
    Balanced capacity tasks (fun _ => .outside) ⟨capacity, []⟩ where
  permits := by simp
  queued := by simp
  nodup := List.nodup_nil
  queuing := fun h => absurd rfl h
  known := fun _ h => absurd rfl h

theorem card_inside_le (h : Balanced capacity tasks place s) :
    (tasks.filter fun i => place i = .inside).card ≤ capacity := by
  have hpermits := h.permits
  omega

/-- Whoever queues waits for a task inside, as long as there are permits at all. -/
theorem exists_inside (h : Balanced capacity tasks place s) (hcapacity : 0 < capacity)
    (hi : place i = .queued) : ∃ j ∈ tasks, place j = .inside := by
  have hmem : i ∈ s.waiters := (h.queued i).mpr hi
  have hzero := h.queuing (List.ne_nil_of_mem hmem)
  have hpermits := h.permits
  rw [hzero, Nat.zero_add] at hpermits
  obtain ⟨j, hj⟩ := Finset.card_pos.mp (hpermits ▸ hcapacity)
  exact ⟨j, (Finset.mem_filter.mp hj).1, (Finset.mem_filter.mp hj).2⟩

variable [DecidableEq ι]

private theorem inside_update_inside (hi : i ∈ tasks) (hplace : place i ≠ .inside) :
    (tasks.filter fun k => Function.update place i .inside k = .inside).card =
      (tasks.filter fun k => place k = .inside).card + 1 := by
  have hinsert : (tasks.filter fun k => Function.update place i .inside k = .inside) =
      insert i (tasks.filter fun k => place k = .inside) := by
    ext k
    rcases eq_or_ne k i with rfl | hne
    · simp [hi]
    · simp [hne]
  rw [hinsert, Finset.card_insert_of_notMem (by simp [hplace])]

private theorem inside_update_outside (hi : i ∈ tasks) (hplace : place i = .inside) :
    (tasks.filter fun k => Function.update place i .outside k = .inside).card + 1 =
      (tasks.filter fun k => place k = .inside).card := by
  have herase : (tasks.filter fun k => Function.update place i .outside k = .inside) =
      (tasks.filter fun k => place k = .inside).erase i := by
    ext k
    rcases eq_or_ne k i with rfl | hne
    · simp
    · simp [hne]
  rw [herase, Finset.card_erase_add_one (by simp [hi, hplace])]

private theorem inside_update_queued (hplace : place i ≠ .inside) :
    (tasks.filter fun k => Function.update place i .queued k = .inside).card =
      (tasks.filter fun k => place k = .inside).card := by
  congr 1
  ext k
  rcases eq_or_ne k i with rfl | hne
  · simp [hplace]
  · simp [hne]

theorem acquire (h : Balanced capacity tasks place s) (hi : i ∈ tasks)
    (hplace : place i = .outside) (hacquire : s.acquire i = (s', true)) :
    Balanced capacity tasks (Function.update place i .inside) s' := by
  unfold Semaphore.acquire at hacquire
  by_cases hlocked : s.locked = true
  · rw [if_pos hlocked] at hacquire
    cases (Prod.mk.inj hacquire).2
  rw [if_neg hlocked] at hacquire
  obtain rfl := (Prod.mk.inj hacquire).1
  obtain ⟨hvalue, hwaiters⟩ : s.value ≠ 0 ∧ s.waiters = [] := by simpa [locked] using hlocked
  have hpermits := h.permits
  have hout : place i ≠ .inside := by simp [hplace]
  refine ⟨?_, fun k => ?_, h.nodup, fun hne => absurd hwaiters hne, fun k hk => ?_⟩
  · rw [inside_update_inside hi hout]
    change s.value - 1 + _ = capacity
    omega
  · rcases eq_or_ne k i with rfl | hne
    · simp [hwaiters]
    · simpa [hne] using h.queued k
  · rcases eq_or_ne k i with rfl | hne
    · exact hi
    · exact h.known k (by simpa [hne] using hk)

theorem enqueue (h : Balanced capacity tasks place s) (hi : i ∈ tasks)
    (hplace : place i = .outside) (hacquire : s.acquire i = (s', false)) :
    Balanced capacity tasks (Function.update place i .queued) s' := by
  unfold Semaphore.acquire at hacquire
  by_cases hlocked : s.locked = false
  · rw [if_neg (by simp [hlocked])] at hacquire
    cases (Prod.mk.inj hacquire).2
  rw [if_pos (by simpa using hlocked)] at hacquire
  obtain rfl := (Prod.mk.inj hacquire).1
  have hfresh : i ∉ s.waiters := by simp [h.queued, hplace]
  refine ⟨?_, fun k => ?_, ?_, fun _ => ?_, fun k hk => ?_⟩
  · rw [inside_update_queued (by simp [hplace])]
    exact h.permits
  · rcases eq_or_ne k i with rfl | hne
    · simp
    · simpa [hne] using h.queued k
  · exact List.nodup_append.mpr ⟨h.nodup, List.nodup_singleton i, by
      intro a ha b hb hab
      obtain rfl := List.mem_singleton.mp hb
      exact hfresh (hab ▸ ha)⟩
  · by_contra hvalue
    have hwaiters : s.waiters ≠ [] := by simpa [locked, hvalue] using hlocked
    exact hvalue (h.queuing hwaiters)
  · rcases eq_or_ne k i with rfl | hne
    · exact hi
    · exact h.known k (by simpa [hne] using hk)

theorem release (h : Balanced capacity tasks place s) (hplace : place i = .inside)
    (hrelease : s.release = (s', none)) :
    Balanced capacity tasks (Function.update place i .outside) s' := by
  have hi : i ∈ tasks := h.known i (by simp [hplace])
  unfold Semaphore.release at hrelease
  split at hrelease
  next hwaiters =>
    obtain rfl := (Prod.mk.inj hrelease).1
    have hpermits := h.permits
    rw [← inside_update_outside hi hplace] at hpermits
    refine ⟨?_, fun k => ?_, h.nodup, fun hne => absurd hwaiters hne, fun k hk => ?_⟩
    · change s.value + 1 + _ = capacity
      omega
    · rcases eq_or_ne k i with rfl | hne
      · simp [hwaiters]
      · simpa [hne] using h.queued k
    · rcases eq_or_ne k i with rfl | hne
      · exact hi
      · exact h.known k (by simpa [hne] using hk)
  next first rest hwaiters => cases hrelease

/-- A task that leaves when others wait hands its permit to the first of them. -/
theorem handOver (h : Balanced capacity tasks place s) (hplace : place i = .inside)
    (hrelease : s.release = (s', some j)) :
    place j = .queued ∧ Balanced capacity tasks
      (Function.update (Function.update place i .outside) j .inside) s' := by
  have hi : i ∈ tasks := h.known i (by simp [hplace])
  unfold Semaphore.release at hrelease
  split at hrelease
  next hwaiters => cases hrelease
  next first rest hwaiters =>
    obtain ⟨rfl, hfirst⟩ := Prod.mk.inj hrelease
    obtain rfl : first = j := Option.some.inj hfirst
    have hqueued : place first = .queued := (h.queued first).mp (by simp [hwaiters])
    have hj : first ∈ tasks := h.known first (by simp [hqueued])
    have hji : first ≠ i := by
      rintro rfl
      simp [hqueued] at hplace
    have hnodup := h.nodup
    rw [hwaiters, List.nodup_cons] at hnodup
    have hpermits := h.permits
    rw [← inside_update_outside hi hplace] at hpermits
    refine ⟨hqueued, ?_, fun k => ?_, hnodup.2, fun _ => ?_, fun k hk => ?_⟩
    · rw [inside_update_inside hj (by simp [hji, hqueued])]
      change s.value + _ = capacity
      omega
    · have hbefore := h.queued k
      rw [hwaiters, List.mem_cons] at hbefore
      rcases eq_or_ne k first with rfl | hne
      · simp [hnodup.1]
      · rcases eq_or_ne k i with rfl | hki
        · simpa [hne, hplace] using hbefore
        · simpa [hne, hki] using hbefore
    · exact h.queuing (by simp [hwaiters])
    · rcases eq_or_ne k first with rfl | hne
      · exact hj
      · rcases eq_or_ne k i with rfl | hki
        · exact hi
        · exact h.known k (by simpa [hne, hki] using hk)

end Balanced

end Semaphore
