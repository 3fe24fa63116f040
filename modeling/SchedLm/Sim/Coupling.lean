import SchedLm.Sim.Candidates
import SchedLm.Sim.EngineRun

/-!
What the coupling probe says. The probe compares the oracle's choice with the
one it makes when every queue is empty; the question it stands for is whether
the choice changes when the queues of the *other* nodes are emptied.
-/

namespace SchedLm.Sim

open LeastCost Runs

variable {K : Type} [Scalar K]

def idleOthers (own : ℕ) (now : K) (nodes : List (Node K)) : List (Node K) :=
  requeue (fun n => if n.nodeId = own then n.busyUntil else now) nodes

/-- The choice a placement stands for, as the probe compares it. -/
def Placement.choice (p : Placement K) : ℕ × Bool := (p.nodeId, p.transfer)

/-- Emptying the queues of the nodes other than the chosen one changes the oracle's
choice, by node and transfer. The chosen node keeps its queue. -/
def DependsOnOthers (reqBlocks : List BlockHash) (nodes : List (Node K)) (now : K)
    (params : CostParams K) (loaded : Placement K) : Prop :=
  ∃ alone, bestPlacement reqBlocks (idleOthers loaded.nodeId now nodes) now params = .ok alone ∧
    alone.choice ≠ loaded.choice

section Probe

variable {reqBlocks : List BlockHash} {nodes : List (Node K)} {now : K} {params : CostParams K}
  {loaded : Placement K}

/-- What the probe answers, when it does: whether the oracle's choice changes once every
queue is empty, the chosen node's included. -/
theorem isCoupled_eq_ok_iff {changed : Bool} :
    (isCoupled reqBlocks nodes now params loaded).1 = .ok changed ↔
      ∃ idle, bestPlacement reqBlocks (requeue (fun _ => now) nodes) now params = .ok idle ∧
        decide (loaded.choice ≠ idle.choice) = changed :=
  map_eq_ok

/-- The chosen candidate, and what the probe and the question say about it. -/
structure Probed (reqBlocks : List BlockHash) (nodes : List (Node K)) (now : K)
    (params : CostParams K) (loaded : Placement K) (hot : Node K) (c : Node K × Bool) : Prop where
  isHot : hotNode reqBlocks nodes = .ok hot
  chosen : loaded = predicted reqBlocks c.1 now params hot c.2
  least : Least (Candidate nodes true hot) (waitingKey reqBlocks params hot fun n => n.wait now) c
  coupled : (isCoupled reqBlocks nodes now params loaded).1 = .ok true ↔
    ¬ Least (Candidate nodes true hot) (waitingKey reqBlocks params hot 0) c
  depends : ∀ [DecidableEq (Node K)], DependsOnOthers reqBlocks nodes now params loaded ↔
    ¬ Least (Candidate nodes true hot)
      (waitingKey reqBlocks params hot (keepOnly (fun n => n.wait now) c.1)) c

/-- Under distinct ids the chosen node is the only one that keeps its queue. -/
private theorem waitingKey_idleOthers [DecidableEq (Node K)] (hids : DistinctIds nodes)
    {hot : Node K} {c d : Node K × Bool} (hc : Candidate nodes true hot c)
    (hd : Candidate nodes true hot d) :
    waitingKey reqBlocks params hot (fun n =>
        max 0 ((if n.nodeId = c.1.nodeId then n.busyUntil else now) - now)) d =
      waitingKey reqBlocks params hot (keepOnly (fun n => n.wait now) c.1) d := by
  simp only [waitingKey, loadedKey, keepOnly]
  rcases eq_or_ne d.1 c.1 with heq | hne
  · rw [heq, if_pos rfl, Function.update_self]
    rfl
  · have hid : d.1.nodeId ≠ c.1.nodeId := fun h => hne (hids.eq_of_nodeId_eq hd.1 hc.1 h)
    rw [if_neg hid, Function.update_of_ne hne, sub_self, max_self]
    rfl

theorem exists_probed (hids : DistinctIds nodes)
    (hloaded : bestPlacement reqBlocks nodes now params = .ok loaded) :
    ∃ hot c, Probed reqBlocks nodes now params loaded hot c := by
  obtain ⟨hot, c, hbest, rfl⟩ := exists_best hloaded
  have hmem := hbest.least.mem
  obtain ⟨idle, hidle, hidleChoice⟩ :=
    bestPlacement_requeue now hids hbest.isHot hbest.canPrice (fun _ => now) hmem
  obtain ⟨alone, halone, haloneChoice⟩ :=
    bestPlacement_requeue now hids hbest.isHot hbest.canPrice
      (fun n => if n.nodeId = c.1.nodeId then n.busyUntil else now) hmem
  have hzero : (fun _ : Node K => max 0 (now - now)) = 0 := by
    funext n
    rw [sub_self, max_self, Pi.zero_apply]
  rw [hzero] at hidleChoice
  refine ⟨hot, c, hbest.isHot, rfl, hbest.least, ?_, ?_⟩
  · rw [isCoupled_eq_ok_iff, ← hidleChoice]
    constructor
    · rintro ⟨p, hp, hchanged⟩ hsame
      obtain rfl := Except.ok.inj (hidle.symm.trans hp)
      exact of_decide_eq_true hchanged hsame.symm
    · intro hchanged
      exact ⟨idle, hidle, decide_eq_true fun hsame => hchanged hsame.symm⟩
  · intro _
    rw [least_congr fun d hd => waitingKey_idleOthers hids hmem hd] at haloneChoice
    rw [← haloneChoice]
    constructor
    · rintro ⟨p, hp, hchanged⟩
      obtain rfl := Except.ok.inj (halone.symm.trans hp)
      exact hchanged
    · intro hchanged
      exact ⟨alone, halone, hchanged⟩

/-- The probe is sound and leaves no trace. When it says coupled, on a cluster with
distinct ids, the oracle's choice changes with the queues of the other nodes alone; and
it hands the nodes back as they were, whatever it was asked and also when it raises. -/
theorem coupling_probe_sound (reqBlocks : List BlockHash) (nodes : List (Node K)) (now : K)
    (params : CostParams K) :
    (∀ loaded, DistinctIds nodes → bestPlacement reqBlocks nodes now params = .ok loaded →
      (isCoupled reqBlocks nodes now params loaded).1 = .ok true →
        DependsOnOthers reqBlocks nodes now params loaded) ∧
    ∀ loaded, (isCoupled reqBlocks nodes now params loaded).2 = nodes := by
  classical
  refine ⟨?_, fun loaded => isCoupled_nodes reqBlocks nodes now params loaded⟩
  intro loaded hids hloaded hcoupled
  obtain ⟨hot, c, hprobed⟩ := exists_probed hids hloaded
  rw [hprobed.depends]
  intro hown
  exact hprobed.coupled.mp hcoupled
    (hprobed.least.zero_of_keepOnly (le_max_left 0 (c.1.busyUntil - now)) hown)

end Probe

def hotAndCold (hotBusy coldBusy : ℚ) : List (Node ℚ) :=
  [holding 0 hotBusy [1], holding 1 coldBusy []]

/-- The hot node is busy for ten seconds, the cold one idle: the request is
served on the cold one, and the probe rightly says coupled. -/
theorem coupling_probe_sound_hot : ∃ loaded,
    bestPlacement [1] (hotAndCold 10 0) 0 {} = .ok loaded ∧
    DependsOnOthers [1] (hotAndCold 10 0) 0 {} loaded ∧
    (isCoupled [1] (hotAndCold 10 0) 0 {} loaded).2 = hotAndCold 10 0 := by
  have hrun : (bestPlacement [1] (hotAndCold 10 0) 0 {} >>= fun loaded =>
      (isCoupled [1] (hotAndCold 10 0) 0 {} loaded).1) = .ok true := by decide +kernel
  obtain ⟨loaded, hloaded, hcoupled⟩ := bind_eq_ok.mp hrun
  have hsound := coupling_probe_sound [1] (hotAndCold 10 0) 0 {}
  exact ⟨loaded, hloaded,
    hsound.1 loaded (by unfold DistinctIds; decide) hloaded hcoupled, hsound.2 loaded⟩

section Missed

variable {reqBlocks : List BlockHash} {nodes : List (Node K)} {now : K} {params : CostParams K}
  {loaded : Placement K}

/-- The chosen node's own queue comes between: with every queue empty no other node
beats the chosen placement, but with its own queue counted one of the others does when
all of theirs are empty. -/
def OwnQueueBetween (reqBlocks : List BlockHash) (nodes : List (Node K)) (params : CostParams K)
    (loaded : Placement K) : Prop :=
  ∃ hot own, hotNode reqBlocks nodes = .ok hot ∧ own ∈ nodes ∧ own.nodeId = loaded.nodeId ∧
    (∀ d, Candidate nodes true hot d → d.1.nodeId ≠ loaded.nodeId →
      waitingKey reqBlocks params hot 0 (own, loaded.transfer) ≤
        waitingKey reqBlocks params hot 0 d) ∧
    ∃ d, Candidate nodes true hot d ∧ d.1.nodeId ≠ loaded.nodeId ∧
      waitingKey reqBlocks params hot 0 d < loaded.key

/-- The cold node's queue keeps the request on the hot node: were the cold node
idle, the request would go there, past the hot node's own queue. The probe
empties that queue too and says not coupled. -/
theorem coupling_missed : ∃ loaded,
    bestPlacement [1] (hotAndCold (1 / 100) 1) 0 {} = .ok loaded ∧
    DependsOnOthers [1] (hotAndCold (1 / 100) 1) 0 {} loaded ∧
    (isCoupled [1] (hotAndCold (1 / 100) 1) 0 {} loaded).1 = .ok false := by
  have hloaded : (bestPlacement [1] (hotAndCold (1 / 100) 1) 0 {}).map Placement.choice =
      .ok (0, false) := by decide +kernel
  have halone : (bestPlacement [1] (idleOthers 0 0 (hotAndCold (1 / 100) 1)) 0 {}).map
      Placement.choice = .ok (1, true) := by decide +kernel
  have hprobe : (bestPlacement [1] (hotAndCold (1 / 100) 1) 0 {} >>= fun loaded =>
      (isCoupled [1] (hotAndCold (1 / 100) 1) 0 {} loaded).1) = .ok false := by decide +kernel
  obtain ⟨loaded, hbest, hcoupled⟩ := bind_eq_ok.mp hprobe
  obtain ⟨_, hbest', hchoice⟩ := map_eq_ok.mp hloaded
  obtain rfl := Except.ok.inj (hbest.symm.trans hbest')
  obtain ⟨alone, hbestAlone, hother⟩ := map_eq_ok.mp halone
  have hid : loaded.nodeId = 0 := congrArg Prod.fst hchoice
  refine ⟨loaded, hbest, ⟨alone, by rw [hid]; exact hbestAlone, ?_⟩, hcoupled⟩
  rw [hother, hchoice]
  decide

/-- The probe says coupled whenever the oracle's choice depends on the other nodes'
queues, exactly when the chosen node's own queue does not come between: it does when
another node, once idle, beats the choice with that queue but not without it. The probe
empties the chosen node's queue as well, which the question leaves alone. -/
theorem coupling_complete_iff (hids : DistinctIds nodes)
    (hloaded : bestPlacement reqBlocks nodes now params = .ok loaded) :
    (DependsOnOthers reqBlocks nodes now params loaded →
      (isCoupled reqBlocks nodes now params loaded).1 = .ok true) ↔
    ¬ OwnQueueBetween reqBlocks nodes params loaded := by
  classical
  obtain ⟨hot, c, hprobed⟩ := exists_probed hids hloaded
  have hsame : ∀ d, Candidate nodes true hot d → (d.1.nodeId ≠ loaded.nodeId ↔ d.1 ≠ c.1) := by
    intro d hd
    rw [hprobed.chosen]
    constructor
    · intro hid heq
      exact hid (congrArg Node.nodeId heq)
    · intro hne hid
      exact hne (hids.eq_of_nodeId_eq hd.1 hprobed.least.mem.1 hid)
  rw [hprobed.coupled, hprobed.depends, least_keepOnly_iff hprobed.least,
    least_zero_iff hprobed.least, not_imp_not]
  have hkey : loaded.key = waitingKey reqBlocks params hot (fun n => n.wait now) c := by
    rw [hprobed.chosen]
    rfl
  have hbetween : OwnQueueBetween reqBlocks nodes params loaded ↔
      (∀ d, Candidate nodes true hot d → d.1 ≠ c.1 →
        waitingKey reqBlocks params hot 0 c ≤ waitingKey reqBlocks params hot 0 d) ∧
      ∃ d, Candidate nodes true hot d ∧ d.1 ≠ c.1 ∧
        waitingKey reqBlocks params hot 0 d <
          waitingKey reqBlocks params hot (fun n => n.wait now) c := by
    rw [← hkey]
    constructor
    · rintro ⟨hot', own, hhot', hown, hid, hbelow, d, hd, hother, hlt⟩
      obtain rfl := Except.ok.inj (hprobed.isHot.symm.trans hhot')
      have hc : (own, loaded.transfer) = c := by
        rw [hprobed.chosen] at hid ⊢
        exact Prod.ext (hids.eq_of_nodeId_eq hown hprobed.least.mem.1 hid) rfl
      rw [hc] at hbelow
      exact ⟨fun d hd hne => hbelow d hd ((hsame d hd).mpr hne), d, hd, (hsame d hd).mp hother, hlt⟩
    · rintro ⟨hbelow, d, hd, hother, hlt⟩
      have hc : (c.1, loaded.transfer) = c := by
        rw [hprobed.chosen]
        rfl
      refine ⟨hot, c.1, hprobed.isHot, hprobed.least.mem.1, by rw [hprobed.chosen]; rfl, ?_,
        d, hd, (hsame d hd).mpr hother, hlt⟩
      rw [hc]
      exact fun d hd hne => hbelow d hd ((hsame d hd).mp hne)
  rw [hbetween]
  push Not
  rfl

/-- Behind a long queue on the hot node the probe misses nothing: the request goes
to the idle node, whose own queue does not come between. -/
theorem coupling_complete_iff_hot : ∃ loaded,
    bestPlacement [1] (hotAndCold 10 0) 0 {} = .ok loaded ∧
    (isCoupled [1] (hotAndCold 10 0) 0 {} loaded).1 = .ok true ∧
    ¬ OwnQueueBetween [1] (hotAndCold 10 0) {} loaded := by
  have hrun : (bestPlacement [1] (hotAndCold 10 0) 0 {} >>= fun loaded =>
      (isCoupled [1] (hotAndCold 10 0) 0 {} loaded).1) = .ok true := by decide +kernel
  obtain ⟨loaded, hloaded, hcoupled⟩ := bind_eq_ok.mp hrun
  have hiff := coupling_complete_iff (by unfold DistinctIds; decide) hloaded
  exact ⟨loaded, hloaded, hcoupled, hiff.mp fun _ => hcoupled⟩

end Missed

end SchedLm.Sim
