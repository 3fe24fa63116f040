import SchedLm.Bench.Replay

/-!
What every reachable state of the replay satisfies: the permits are balanced,
each task has sent an initial part of its session, one turn after the other and
none ahead of time, and the result is what all requests together have done.
-/

namespace SchedLm.Bench

open Sim Semaphore

variable {K : Type}

def Stage.place : Stage K → Place
  | .created | .finished => .outside
  | .waiting => .queued
  | .granted | .sleeping .. | .chatting .. | .closing => .inside

def Stage.posts : Stage K → List (Post K)
  | .chatting _ post _ _ => [post]
  | _ => []

def Task.posts (t : Task K) : List (Post K) := t.past.map Exchange.post ++ t.stage.posts

namespace Replay

variable [Scalar K] {o : ReplayOptions} {sessions : List (Conversation K)} {s s' : Replay K}

/-- What a step can do, one constructor for each way a task goes on from one wait to the
next. It is read off `step` once, and the invariant and the bound on the segments follow
case by case. -/
inductive Step (o : ReplayOptions) (sessions : List (Conversation K)) (s : Replay K) :
    ReplayEvent K → Replay K → Prop where
  | tick {elapsed : K} (h : 0 ≤ elapsed) :
      Step o sessions s (.tick elapsed) { s with now := s.now + elapsed }
  | admitted {i : ℕ} {c : Conversation K} {sem : Semaphore ℕ} (hc : sessions[i]? = some c)
      (hstage : (s.task i).stage = .created) (hsem : s.sem.acquire i = (sem, true)) :
      Step o sessions s (.run i) ({ s with sem := sem }.enter o i c)
  | queued {i : ℕ} {c : Conversation K} {sem : Semaphore ℕ} (hc : sessions[i]? = some c)
      (hstage : (s.task i).stage = .created) (hsem : s.sem.acquire i = (sem, false)) :
      Step o sessions s (.run i) ({ s with sem := sem }.setStage i .waiting)
  | entered {i : ℕ} {c : Conversation K} (hc : sessions[i]? = some c)
      (hstage : (s.task i).stage = .granted) : Step o sessions s (.run i) (s.enter o i c)
  | woken {i : ℕ} {c : Conversation K} {start deadline : K} {turn : GeneratedTurn K}
      {left : List (GeneratedTurn K)} (hc : sessions[i]? = some c)
      (hstage : (s.task i).stage = .sleeping start deadline turn left)
      (hdue : deadline ≤ s.now) :
      Step o sessions s (.run i)
        (s.setStage i (.chatting start ⟨turn, o.request turn, s.now⟩ .posting left))
  | departed {i : ℕ} {c : Conversation K} (hc : sessions[i]? = some c)
      (hstage : (s.task i).stage = .closing) : Step o sessions s (.run i) (s.leave i)
  | heard {i : ℕ} {c : Conversation K} {start : K} {post : Post K} {chat chat' : Chat K}
      {left : List (GeneratedTurn K)} {d : Delivery} {new : List (Effect K)}
      (hc : sessions[i]? = some c) (hstage : (s.task i).stage = .chatting start post chat left)
      (hresume : chat.resume post.start s.now d = some (chat', new))
      (hmore : ∀ answer, chat' ≠ .returned answer) :
      Step o sessions s (.deliver i d) ((s.share new).setStage i
        (.chatting start post chat' left))
  | answered {i : ℕ} {c : Conversation K} {start : K} {post : Post K} {chat : Chat K}
      {answer : Behaviour K} {left : List (GeneratedTurn K)} {d : Delivery}
      {new : List (Effect K)} (hc : sessions[i]? = some c)
      (hstage : (s.task i).stage = .chatting start post chat left)
      (hresume : chat.resume post.start s.now d = some (.returned answer, new)) :
      Step o sessions s (.deliver i d) ((s.share new).setTask i {
        stage := onward o s.now start c.base left
        past := (s.task i).past ++ [Exchange.mk post answer s.now] })

private theorem step_run_cases {i : ℕ} {c : Conversation K} (hc : sessions[i]? = some c)
    (h : s.step o sessions (.run i) = some s') : Step o sessions s (.run i) s' := by
  simp only [step, hc] at h
  split at h
  next hstage =>
    split at h
    next sem hsem =>
      obtain rfl := Option.some.inj h
      exact .admitted hc hstage hsem
    next sem hsem =>
      obtain rfl := Option.some.inj h
      exact .queued hc hstage hsem
  next hstage =>
    obtain rfl := Option.some.inj h
    exact .entered hc hstage
  next start deadline turn left hstage =>
    split_ifs at h with hdue
    obtain rfl := Option.some.inj h
    exact .woken hc hstage hdue
  next hstage =>
    obtain rfl := Option.some.inj h
    exact .departed hc hstage
  next => cases h

private theorem step_deliver_cases {i : ℕ} {c : Conversation K} {d : Delivery}
    (hc : sessions[i]? = some c) (h : s.step o sessions (.deliver i d) = some s') :
    Step o sessions s (.deliver i d) s' := by
  simp only [step, hc] at h
  split at h
  next start post chat left hstage =>
    unfold hear at h
    split at h
    next => cases h
    next answer new hresume =>
      obtain rfl := Option.some.inj h
      exact .answered hc hstage hresume
    next chat' new hmore hresume =>
      obtain rfl := Option.some.inj h
      exact .heard hc hstage hresume hmore
  next => cases h

theorem step_cases {e : ReplayEvent K} (h : s.step o sessions e = some s') :
    Step o sessions s e s' := by
  cases e with
  | tick elapsed =>
    simp only [step] at h
    split_ifs at h with helapsed
    obtain rfl := Option.some.inj h
    exact .tick helapsed
  | run i =>
    cases hc : sessions[i]? with
    | none => simp [step, hc] at h
    | some c => exact step_run_cases hc h
  | deliver i d =>
    cases hc : sessions[i]? with
    | none => simp [step, hc] at h
    | some c => exact step_deliver_cases hc h

omit [Scalar K] in
theorem task_setTask (s : Replay K) (i : ℕ) (t : Task K) (j : ℕ) :
    (s.setTask i t).task j = if j = i then t else s.task j := Function.update_apply ..

def place (s : Replay K) (i : ℕ) : Place := (s.task i).stage.place

omit [Scalar K] in
theorem place_setTask (s : Replay K) (i : ℕ) (t : Task K) :
    (s.setTask i t).place = Function.update s.place i t.stage.place := by
  funext j
  unfold place
  rw [task_setTask, Function.update_apply]
  split_ifs <;> rfl

omit [Scalar K] in
theorem place_setTask_inside {i : ℕ} {t : Task K} (hbefore : s.place i = .inside)
    (hafter : t.stage.place = .inside) : (s.setTask i t).place = s.place := by
  rw [place_setTask, hafter, ← hbefore, Function.update_eq_self]

@[simp] theorem place_onward (now start base : K) (left : List (GeneratedTurn K)) :
    (onward o now start base left).place = .inside := by
  cases left with
  | nil => rfl
  | cons turn rest =>
    unfold onward
    dsimp only
    split_ifs <;> rfl

omit [Scalar K] in
private theorem mem_tasks {i : ℕ} {c : Conversation K} (hc : sessions[i]? = some c) :
    i ∈ Finset.range sessions.length :=
  Finset.mem_range.mpr (List.getElem?_eq_some_iff.mp hc).1

theorem balanced_step {capacity : ℕ} {e : ReplayEvent K} (hstep : Step o sessions s e s')
    (h : Balanced capacity (Finset.range sessions.length) s.place s.sem) :
    Balanced capacity (Finset.range sessions.length) s'.place s'.sem := by
  have hplace : ∀ {i stage}, (s.task i).stage = stage → s.place i = stage.place :=
    fun hstage => congrArg Stage.place hstage
  cases hstep with
  | tick _ => exact h
  | admitted hc hstage hsem =>
    have hnext := h.acquire (mem_tasks hc) (hplace hstage) hsem
    rw [enter, setStage, place_setTask, place_onward]
    exact hnext
  | queued hc hstage hsem =>
    have hnext := h.enqueue (mem_tasks hc) (hplace hstage) hsem
    rw [setStage, place_setTask]
    exact hnext
  | entered hc hstage =>
    rw [enter, setStage, place_setTask_inside (hplace hstage) (place_onward ..)]
    exact h
  | woken hc hstage hdue =>
    rw [setStage, place_setTask_inside (hplace hstage) rfl]
    exact h
  | departed hc hstage =>
    unfold leave
    split
    next sem hsem =>
      have hnext := h.release (hplace hstage) hsem
      rw [setStage, place_setTask]
      exact hnext
    next sem j hsem =>
      obtain ⟨-, hnext⟩ := h.handOver (hplace hstage) hsem
      rw [setStage, place_setTask, setStage, place_setTask]
      exact hnext
  | @heard i c start post chat chat' left d new hc hstage hresume hmore =>
    rw [setStage, place_setTask_inside (s := s.share new) (hplace hstage) rfl]
    exact h
  | @answered i c start post chat answer left d new hc hstage hresume =>
    rw [place_setTask_inside (s := s.share new) (hplace hstage) (place_onward ..)]
    exact h

/-- What has become of a session that was begun at `start`: what it has behind it, the
turn that is out, and the turns that are left. Together they are its turns; each was
posted on time and after the answer to the one before. -/
structure Kept (o : ReplayOptions) (c : Conversation K) (start now : K)
    (past : List (Exchange K)) (out : List (Post K)) (left : List (GeneratedTurn K)) : Prop where
  begun : start ≤ now
  turns : (past.map Exchange.post ++ out).map Post.turn ++ left = c.items
  requests : ∀ p ∈ past.map Exchange.post ++ out, p.request = o.request p.turn
  opened : ∀ p ∈ (past.map Exchange.post ++ out).head?, p.start = start
  onTime : ∀ p ∈ past.map Exchange.post ++ out, start + (p.turn.arrival - c.base) ≤ p.start
  posted : ∀ p ∈ past.map Exchange.post ++ out, p.start ≤ now
  ended : ∀ x ∈ past, x.post.start ≤ x.finished ∧ x.finished ≤ now
  serial : past.Pairwise fun x y => x.finished ≤ y.post.start
  current : ∀ x ∈ past, ∀ p ∈ out, x.finished ≤ p.start

namespace Kept

variable {c : Conversation K} {start now : K} {past : List (Exchange K)} {out : List (Post K)}
  {turn : GeneratedTurn K} {left : List (GeneratedTurn K)}

theorem begin (o : ReplayOptions) (c : Conversation K) (now : K) :
    Kept o c now now [] [] c.items where
  begun := le_rfl
  turns := rfl
  requests := fun _ hp => nomatch hp
  opened := fun _ hp => nomatch hp
  onTime := fun _ hp => nomatch hp
  posted := fun _ hp => nomatch hp
  ended := fun _ hx => nomatch hx
  serial := List.Pairwise.nil
  current := fun _ hx => nomatch hx

theorem later {now' : K} (h : Kept o c start now past out left) (hnow : now ≤ now') :
    Kept o c start now' past out left :=
  { h with
    begun := h.begun.trans hnow
    posted := fun p hp => (h.posted p hp).trans hnow
    ended := fun x hx => ⟨(h.ended x hx).1, (h.ended x hx).2.trans hnow⟩ }

/-- The next turn is posted, not ahead of its time. -/
theorem post (h : Kept o c start now past [] (turn :: left))
    (htime : start + (turn.arrival - c.base) ≤ now) (hfirst : past = [] → start = now) :
    Kept o c start now past [⟨turn, o.request turn, now⟩] left := by
  have hposts : ∀ p ∈ past.map Exchange.post ++ [(⟨turn, o.request turn, now⟩ : Post K)],
      p ∈ past.map Exchange.post ++ [] ∨ p = ⟨turn, o.request turn, now⟩ := by
    intro p hp
    rw [List.append_nil]
    simpa using hp
  refine ⟨h.begun, ?_, fun p hp => ?_, fun p hp => ?_, fun p hp => ?_, fun p hp => ?_, h.ended,
    h.serial, fun x hx p hp => ?_⟩
  · have hturns := h.turns
    rw [List.append_nil] at hturns
    rw [List.map_append, List.append_assoc]
    exact hturns
  · rcases hposts p hp with hp | rfl
    · exact h.requests p hp
    · rfl
  · cases hpast : past with
    | nil =>
      rw [hpast] at hp
      obtain rfl : _ = p := Option.some.inj hp
      exact (hfirst hpast).symm
    | cons x rest =>
      rw [hpast] at hp
      apply h.opened p
      rw [hpast]
      exact hp
  · rcases hposts p hp with hp | rfl
    · exact h.onTime p hp
    · exact htime
  · rcases hposts p hp with hp | rfl
    · exact h.posted p hp
    · exact le_rfl
  · obtain rfl := List.mem_singleton.mp hp
    exact (h.ended x hx).2

theorem answer {p : Post K} (h : Kept o c start now past [p] left) (answer : Behaviour K) :
    Kept o c start now (past ++ [⟨p, answer, now⟩]) [] left := by
  have hposts : (past ++ [(⟨p, answer, now⟩ : Exchange K)]).map Exchange.post ++ [] =
      past.map Exchange.post ++ [p] := by
    rw [List.append_nil, List.map_append]
    rfl
  refine ⟨h.begun, ?_, ?_, ?_, ?_, ?_, fun x hx => ?_, ?_, fun _ _ _ hq => nomatch hq⟩
  · rw [hposts]
    exact h.turns
  · rw [hposts]
    exact h.requests
  · rw [hposts]
    exact h.opened
  · rw [hposts]
    exact h.onTime
  · rw [hposts]
    exact h.posted
  · rcases List.mem_append.mp hx with hx | hx
    · exact h.ended x hx
    · obtain rfl := List.mem_singleton.mp hx
      exact ⟨h.posted p (List.mem_append_right _ (List.mem_singleton_self p)), le_rfl⟩
  · refine List.pairwise_append.mpr ⟨h.serial, List.pairwise_singleton _ _, fun x hx y hy => ?_⟩
    obtain rfl := List.mem_singleton.mp hy
    exact h.current x hx p (List.mem_singleton_self p)

end Kept

/-- What a task has done by the stage it is in. A session that has not begun has sent
nothing, one that sleeps has its next turn before it, and one that closes has sent all
it had. -/
def Standing (o : ReplayOptions) (c : Conversation K) (now : K) (past : List (Exchange K)) :
    Stage K → Prop
  | .created | .waiting | .granted => past = []
  | .sleeping start deadline turn left =>
    Kept o c start now past [] (turn :: left) ∧ past ≠ [] ∧
      start + (turn.arrival - c.base) ≤ deadline
  | .chatting start post chat left =>
    Kept o c start now past [post] left ∧ chat.Faithful post.start ∧
      ∀ answer, chat ≠ .returned answer
  | .closing | .finished => ∃ start, Kept o c start now past [] []

theorem Standing.later {c : Conversation K} {now now' : K} {past : List (Exchange K)}
    {stage : Stage K} (h : Standing o c now past stage) (hnow : now ≤ now') :
    Standing o c now' past stage := by
  cases stage with
  | created => exact h
  | waiting => exact h
  | granted => exact h
  | sleeping start deadline turn left =>
    obtain ⟨hkept, hrest⟩ := h
    exact ⟨hkept.later hnow, hrest⟩
  | chatting start post chat left =>
    obtain ⟨hkept, hchat⟩ := h
    exact ⟨hkept.later hnow, hchat⟩
  | closing =>
    obtain ⟨start, hkept⟩ := h
    exact ⟨start, hkept.later hnow⟩
  | finished =>
    obtain ⟨start, hkept⟩ := h
    exact ⟨start, hkept.later hnow⟩

/-- The loop goes on to its next wait. The first turn is never slept for. -/
theorem Kept.onward {c : Conversation K} {start now : K} {past : List (Exchange K)}
    {left : List (GeneratedTurn K)} (h : Kept o c start now past [] left)
    (hfirst : past = [] → start = now) :
    Standing o c now past (Replay.onward o now start c.base left) := by
  cases left with
  | nil => exact ⟨start, h⟩
  | cons turn rest =>
    unfold Replay.onward
    dsimp only
    split_ifs with hdelay
    · refine ⟨h, fun hpast => ?_, ?_⟩
      · subst hpast
        have hhead : turn.arrival = c.base := by
          obtain ⟨turns, nonempty⟩ := c
          obtain rfl : turn :: rest = turns := h.turns
          rfl
        rw [hfirst rfl, hhead, sub_self, sub_self, sub_self] at hdelay
        exact lt_irrefl _ hdelay
      · linarith
    · exact ⟨h.post (by linarith) hfirst, True.intro, nofun⟩

/-- Every task that has a session stands where its stage says. -/
def AllStanding (o : ReplayOptions) (sessions : List (Conversation K)) (s : Replay K) : Prop :=
  ∀ i c, sessions[i]? = some c → Standing o c s.now (s.task i).past (s.task i).stage

theorem AllStanding.setTask (h : AllStanding o sessions s) {i : ℕ} {c : Conversation K}
    (hc : sessions[i]? = some c) {t : Task K} (ht : Standing o c s.now t.past t.stage) :
    AllStanding o sessions (s.setTask i t) := by
  intro j c' hc'
  rw [task_setTask]
  split_ifs with hji
  · subst hji
    obtain rfl := Option.some.inj (hc.symm.trans hc')
    exact ht
  · exact h j c' hc'

omit [Scalar K] in
theorem exists_session {i : ℕ} (hi : i ∈ Finset.range sessions.length) :
    ∃ c, sessions[i]? = some c :=
  ⟨_, List.getElem?_eq_getElem (Finset.mem_range.mp hi)⟩

omit [Scalar K] in
theorem stage_of_queued {i : ℕ} (h : s.place i = .queued) :
    (s.task i).stage = .waiting := by
  unfold place at h
  cases hstage : (s.task i).stage with
  | waiting => rfl
  | _ =>
    rw [hstage] at h
    cases h

theorem allStanding_step {capacity : ℕ} {e : ReplayEvent K} (hstep : Step o sessions s e s')
    (hbalanced : Balanced capacity (Finset.range sessions.length) s.place s.sem)
    (h : AllStanding o sessions s) : AllStanding o sessions s' := by
  cases hstep with
  | tick helapsed =>
    intro i c hc
    exact (h i c hc).later (le_add_of_nonneg_right helapsed)
  | @admitted i c sem hc hstage hsem =>
    have hpast := h i c hc
    rw [hstage] at hpast
    change (s.task i).past = [] at hpast
    apply AllStanding.setTask (s := { s with sem := sem }) h hc
    change Standing o c s.now (s.task i).past _
    rw [hpast]
    exact (Kept.begin o c s.now).onward fun _ => rfl
  | @queued i c sem hc hstage hsem =>
    have hpast := h i c hc
    rw [hstage] at hpast
    exact AllStanding.setTask (s := { s with sem := sem }) h hc hpast
  | @entered i c hc hstage =>
    have hpast := h i c hc
    rw [hstage] at hpast
    change (s.task i).past = [] at hpast
    apply h.setTask hc
    rw [hpast]
    exact (Kept.begin o c s.now).onward fun _ => rfl
  | @woken i c start deadline turn left hc hstage hdue =>
    have hstands := h i c hc
    rw [hstage] at hstands
    obtain ⟨hkept, hpast, htime⟩ := hstands
    exact h.setTask hc
      ⟨hkept.post (htime.trans hdue) fun hnil => absurd hnil hpast, True.intro, nofun⟩
  | @departed i c hc hstage =>
    have hstands := h i c hc
    rw [hstage] at hstands
    unfold leave
    split
    next sem hsem => exact AllStanding.setTask (s := { s with sem := sem }) h hc hstands
    next sem j hsem =>
      obtain ⟨hqueued, -⟩ := hbalanced.handOver (congrArg Stage.place hstage) hsem
      obtain ⟨c', hc'⟩ := exists_session (hbalanced.known j (by rw [hqueued]; exact nofun))
      have hfinished : AllStanding o sessions ({ s with sem := sem }.setStage i .finished) :=
        AllStanding.setTask (s := { s with sem := sem }) h hc hstands
      have hwaiting := stage_of_queued hqueued
      have hne : j ≠ i := by
        rintro rfl
        cases hwaiting.symm.trans hstage
      apply hfinished.setTask hc'
      have hpast := h j c' hc'
      rw [hwaiting] at hpast
      change (({ s with sem := sem }.setStage i .finished).task j).past = []
      rw [setStage, task_setTask, if_neg hne]
      exact hpast
  | @heard i c start post chat chat' left d new hc hstage hresume hmore =>
    have hstands := h i c hc
    rw [hstage] at hstands
    obtain ⟨hkept, hchat, -⟩ := hstands
    exact AllStanding.setTask (s := s.share new) h hc
      ⟨hkept, (Chat.resume_spec hchat hresume).1, hmore⟩
  | @answered i c start post chat answer left d new hc hstage hresume =>
    have hstands := h i c hc
    rw [hstage] at hstands
    obtain ⟨hkept, -⟩ := hstands
    apply AllStanding.setTask (s := s.share new) h hc
    exact (hkept.answer answer).onward fun hnil => absurd hnil (by simp)

end Replay

def Stage.made [Scalar K] : Stage K → List (Effect K)
  | .chatting _ post chat _ => chat.made post.start
  | _ => []

def Exchange.effects [Scalar K] (x : Exchange K) : List (Effect K) :=
  x.answer.effects x.post.start

def Task.made [Scalar K] (t : Task K) : List (Effect K) :=
  t.past.flatMap Exchange.effects ++ t.stage.made

namespace Replay

variable [Scalar K] {o : ReplayOptions} {sessions : List (Conversation K)} {s s' : Replay K}

/-- The result is what all requests have done, in whatever order. -/
def Shared (sessions : List (Conversation K)) (s : Replay K) : Prop :=
  Interleave.Done Effect.apply BenchmarkResult.Agrees {} (Finset.range sessions.length)
    (fun i => (s.task i).made) s.result

@[simp] theorem made_onward (now start base : K) (left : List (GeneratedTurn K)) :
    (onward o now start base left).made = [] := by
  cases left with
  | nil => rfl
  | cons turn rest =>
    unfold onward
    dsimp only
    split_ifs <;> rfl

theorem Shared.setStage (h : Shared sessions s) {i : ℕ} {stage : Stage K}
    (hmade : stage.made = (s.task i).stage.made) : Shared sessions (s.setStage i stage) := by
  apply Interleave.Done.congr h
  intro j _
  rw [Replay.setStage, task_setTask]
  split_ifs with hji
  · subst hji
    exact congrArg ((s.task j).past.flatMap Exchange.effects ++ ·) hmade
  · rfl

theorem Shared.share (h : Shared sessions s) {i : ℕ} (hi : i ∈ Finset.range sessions.length)
    {t : Task K} {new : List (Effect K)} (hmade : t.made = (s.task i).made ++ new) :
    Shared sessions ((s.share new).setTask i t) := by
  apply commuting_apply.done_step h hi
  · rw [task_setTask, if_pos rfl]
    exact hmade
  · intro j _ hji
    rw [task_setTask, if_neg hji]
    rfl

/-- Whatever a segment does to the shared result is what its own request does; the
requests of other tasks do not show in it. -/
theorem shared_step {capacity : ℕ} {e : ReplayEvent K} (hstep : Step o sessions s e s')
    (hbalanced : Balanced capacity (Finset.range sessions.length) s.place s.sem)
    (hstanding : AllStanding o sessions s) (h : Shared sessions s) : Shared sessions s' := by
  cases hstep with
  | tick helapsed => exact h
  | @admitted i c sem hc hstage hsem =>
    apply Shared.setStage (s := { s with sem := sem }) h
    rw [made_onward]
    exact (congrArg Stage.made hstage).symm
  | @queued i c sem hc hstage hsem =>
    exact Shared.setStage (s := { s with sem := sem }) h (congrArg Stage.made hstage).symm
  | @entered i c hc hstage =>
    apply h.setStage
    rw [made_onward]
    exact (congrArg Stage.made hstage).symm
  | @woken i c start deadline turn left hc hstage hdue =>
    exact h.setStage (congrArg Stage.made hstage).symm
  | @departed i c hc hstage =>
    unfold leave
    split
    next sem hsem =>
      exact Shared.setStage (s := { s with sem := sem }) h (congrArg Stage.made hstage).symm
    next sem j hsem =>
      obtain ⟨hqueued, -⟩ := hbalanced.handOver (congrArg Stage.place hstage) hsem
      have hwaiting := stage_of_queued hqueued
      have hne : j ≠ i := by
        rintro rfl
        cases hwaiting.symm.trans hstage
      apply Shared.setStage
      · exact Shared.setStage (s := { s with sem := sem }) h (congrArg Stage.made hstage).symm
      · rw [Replay.setStage, task_setTask, if_neg hne]
        exact (congrArg Stage.made hwaiting).symm
  | @heard i c start post chat chat' left d new hc hstage hresume hmore =>
    have hstands := hstanding i c hc
    rw [hstage] at hstands
    obtain ⟨-, hmade⟩ := Chat.resume_spec hstands.2.1 hresume
    apply h.share (mem_tasks hc)
    unfold Task.made
    rw [hstage, List.append_assoc]
    exact congrArg _ hmade
  | @answered i c start post chat answer left d new hc hstage hresume =>
    have hstands := hstanding i c hc
    rw [hstage] at hstands
    obtain ⟨-, hmade⟩ := Chat.resume_spec hstands.2.1 hresume
    apply h.share (mem_tasks hc)
    unfold Task.made
    rw [hstage, made_onward, List.append_nil, List.flatMap_append, List.append_assoc]
    exact congrArg _ ((List.flatMap_singleton _ _).trans hmade)

/-- What holds between any two segments of a replay: the permits are accounted for,
every session has sent what its stage says, and the result is what all requests so far
have done to it. -/
structure Invariant (o : ReplayOptions) (sessions : List (Conversation K)) (capacity : ℕ)
    (s : Replay K) : Prop where
  balanced : Balanced capacity (Finset.range sessions.length) s.place s.sem
  standing : AllStanding o sessions s
  shared : Shared sessions s

theorem invariant_begin {concurrency : ℤ} {now : K} (h : begin concurrency now = .ok s) :
    Invariant o sessions concurrency.toNat s := by
  unfold begin at h
  split_ifs at h with hneg
  obtain rfl := Except.ok.inj h
  exact ⟨Balanced.start _ _, fun _ _ _ => rfl, commuting_apply.done_start fun _ _ => rfl⟩

theorem invariant_step {capacity : ℕ} {e : ReplayEvent K} (h : Invariant o sessions capacity s)
    (hstep : s.step o sessions e = some s') : Invariant o sessions capacity s' :=
  ⟨balanced_step (step_cases hstep) h.balanced,
    allStanding_step (step_cases hstep) h.balanced h.standing,
    shared_step (step_cases hstep) h.balanced h.standing h.shared⟩

theorem invariant_run {capacity : ℕ} {events : List (ReplayEvent K)}
    (h : Invariant o sessions capacity s) (hrun : s.run o sessions events = some s') :
    Invariant o sessions capacity s' := by
  induction events generalizing s with
  | nil =>
    obtain rfl := Option.some.inj hrun
    exact h
  | cons e rest ih =>
    obtain ⟨mid, hmid, hrest⟩ := Option.bind_eq_some_iff.mp hrun
    exact ih (invariant_step h hmid) hrest

end Replay

end SchedLm.Bench
