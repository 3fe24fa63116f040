import SchedLm.Sim.GeneratedTurns

/-!
How many requests a call of the generator returns: for each class that has a part
in the mix its own rounded share, the sessions counted whole.
-/

namespace SchedLm.Sim

open Runs

variable {K : Type} [Scalar K] {env : Surroundings K}

theorem returns_length_sessionTurns (params : SessionParams K) (tool : Option (Tool K)) (sid : ℕ)
    (indices : List ℕ) (s : History K) :
    Returns (sessionTurns params tool sid indices s : Gen env _)
      fun turns => turns.length = indices.length := by
  induction indices generalizing s with
  | nil => exact returns_pure rfl
  | cons turnIdx rest ih =>
    apply returns_andThen
    rintro ⟨turn, s'⟩
    apply (ih s').bind
    intro turns hturns
    exact returns_pure (congrArg (· + 1) hturns)

theorem returns_length_session (params : SessionParams K) (sid : ℕ) (turns : ℤ) (start : K) :
    Returns (session params sid turns start : Gen env _)
      fun requests => requests.length = turns.toNat := by
  apply returns_andThen
  intro user0
  apply returns_andThen
  intro tool
  apply returns_andThen
  intro ids
  apply (returns_length_sessionTurns params tool sid _ _).weaken
  intro requests hrequests
  rw [hrequests, List.length_range]

theorem returns_length_sessions (params : SessionParams K) (sessionRate : K) (turns : ℤ)
    (sids : List ℕ) (start : K) :
    Returns (sessions params sessionRate turns sids start : Gen env _)
      fun requests => requests.length = sids.length * turns.toNat := by
  induction sids generalizing start with
  | nil => exact returns_pure (Nat.zero_mul _).symm
  | cons sid rest ih =>
    apply returns_andThen
    intro gap
    apply (returns_length_session params sid turns (start + gap)).bind
    intro first hfirst
    apply (ih (start + gap)).bind
    intro others hothers
    apply returns_pure
    rw [List.length_append, hfirst, hothers, List.length_cons, Nat.succ_mul, Nat.add_comm]

theorem returns_length_arrivals (rate burstCv : K) (make : ℕ → K → Gen env (GeneratedTurn K))
    (indices : List ℕ) (arrival : K) :
    Returns (arrivals rate burstCv make indices arrival)
      fun requests => requests.length = indices.length := by
  induction indices generalizing arrival with
  | nil => exact returns_pure rfl
  | cons i rest ih =>
    apply returns_andThen
    intro gap
    apply returns_andThen
    intro first
    apply (ih (arrival + gap)).bind
    intro others hothers
    exact returns_pure (congrArg (· + 1) hothers)

/-- A class without a part in the mix has no requests. -/
def ifPart (fraction : K) (count : ℕ) : ℕ := if 0 < fraction then count else 0

theorem ifPart_mul (fraction : K) (count each : ℕ) :
    ifPart fraction (count * each) = ifPart fraction count * each := by
  unfold ifPart
  split_ifs
  · rfl
  · exact (Nat.zero_mul each).symm

theorem returns_length_ifAny {fraction : K} {count : ℕ}
    {requests : StateT Vocab (Except WorkloadError) (List (GeneratedTurn K))}
    (h : Returns requests fun requests => requests.length = count) :
    Returns (ifAny fraction requests) fun requests => requests.length = ifPart fraction count := by
  unfold ifAny ifPart
  split_ifs
  · exact h
  · exact returns_pure rfl

def requestCount (numSessions turns : ℤ) (mix : Dict String K) : ℕ :=
  let toolFrac := (mix.lookup "tool").getD 0
  let ragFrac := (mix.lookup "rag").getD 0
  let oneshotFrac := (mix.lookup "oneshot").getD 0
  ifPart toolFrac ((share numSessions toolFrac).toNat * turns.toNat) +
    ifPart ragFrac (share (numSessions * turns) ragFrac).toNat +
    ifPart oneshotFrac (share (numSessions * turns) oneshotFrac).toNat

/-- A part of the total, which is not negative, is rounded to its nearest count. -/
theorem abs_ifPart_share_sub_le {total : ℤ} (htotal : 0 ≤ total) {fraction : K}
    (hfraction : 0 ≤ fraction) :
    |(ifPart fraction (share total fraction).toNat : K) - total * fraction| ≤ 1 / 2 := by
  unfold ifPart
  split_ifs with hpos
  · have hnonneg : 0 ≤ share total fraction :=
      Scalar.roundHalfEven_nonneg (mul_nonneg (Int.cast_nonneg htotal) hfraction)
    have hcast : ((share total fraction).toNat : K) = (share total fraction : ℤ) := by
      exact_mod_cast Int.toNat_of_nonneg hnonneg
    rw [hcast]
    exact Scalar.abs_roundHalfEven_sub_le _
  · obtain rfl := le_antisymm (not_lt.mp hpos) hfraction
    simp

/-- With no negative part the count is the budget times the sum of the parts, but
for one half of a session and of each kind of single request. -/
theorem abs_requestCount_sub_le {numSessions turns : ℤ} (hsessions : 0 ≤ numSessions)
    (hturns : 0 ≤ turns) {mix : Dict String K}
    (hmix : ∀ name fraction, mix.lookup name = some fraction → 0 ≤ fraction) :
    |(requestCount numSessions turns mix : K) - (numSessions * turns : ℤ) *
      ((mix.lookup "tool").getD 0 + (mix.lookup "rag").getD 0 + (mix.lookup "oneshot").getD 0)| ≤
        turns / 2 + 1 := by
  have hpart : ∀ name, 0 ≤ (mix.lookup name).getD 0 := by
    intro name
    cases hlookup : mix.lookup name with
    | none => exact le_rfl
    | some fraction => exact hmix name fraction hlookup
  have hbudget : 0 ≤ numSessions * turns := mul_nonneg hsessions hturns
  have htool := abs_ifPart_share_sub_le hsessions (hpart "tool")
  have hrag := abs_ifPart_share_sub_le hbudget (hpart "rag")
  have honeshot := abs_ifPart_share_sub_le hbudget (hpart "oneshot")
  have hturns_cast : ((turns.toNat : ℕ) : K) = turns := by
    exact_mod_cast Int.toNat_of_nonneg hturns
  have hturns_nonneg : (0 : K) ≤ turns := Int.cast_nonneg hturns
  unfold requestCount
  dsimp only
  rw [ifPart_mul]
  push_cast [hturns_cast] at *
  generalize (mix.lookup "tool").getD 0 = t at *
  generalize (mix.lookup "rag").getD 0 = r at *
  generalize (mix.lookup "oneshot").getD 0 = o at *
  generalize (ifPart t (share numSessions t).toNat : K) = sessions at *
  generalize (ifPart r (share (numSessions * turns) r).toNat : K) = queries at *
  generalize (ifPart o (share (numSessions * turns) o).toNat : K) = oneshots at *
  calc |sessions * turns + queries + oneshots - numSessions * turns * (t + r + o)|
      = |(turns : K) * (sessions - numSessions * t) + (queries - numSessions * turns * r) +
          (oneshots - numSessions * turns * o)| := by
        congr 1
        ring
    _ ≤ |(turns : K) * (sessions - numSessions * t)| + |queries - numSessions * turns * r| +
          |oneshots - numSessions * turns * o| := abs_add_three _ _ _
    _ ≤ turns * (1 / 2) + 1 / 2 + 1 / 2 := by
        rw [abs_mul, abs_of_nonneg hturns_nonneg]
        gcongr
    _ = turns / 2 + 1 := by ring

/-- A call that returns has as many requests as its mix asks for, each class rounded on
its own. -/
theorem returns_length_generateMixed (numSessions turns : ℤ) (qps : K) (params : MixedParams K) :
    Returns (generateMixed env numSessions turns qps params)
      fun requests => requests.length = requestCount numSessions turns params.mixture := by
  have hsessions : ∀ n rate, Returns (generateSessions env n turns rate params.toSessionParams)
      fun requests => requests.length = n.toNat * turns.toNat := by
    intro n rate
    apply (Gen.returns_withSeed (returns_length_sessions params.toSessionParams _ turns _ 0)).bind
    intro requests hrequests
    apply returns_pure
    rw [List.length_mergeSort, hrequests, List.length_range]
  have hsingles : ∀ n seed rate burstCv (make : ℕ → K → Gen env (GeneratedTurn K)),
      Returns (Gen.withSeed seed (arrivals rate burstCv make (List.range n) 0))
        fun requests => requests.length = n := by
    intro n seed rate burstCv make
    apply (Gen.returns_withSeed (returns_length_arrivals rate burstCv make _ 0)).weaken
    intro requests hrequests
    rw [hrequests, List.length_range]
  apply returns_andThen
  intro _
  apply (returns_length_ifAny (hsessions _ _)).bind
  intro tool htool
  apply (returns_length_ifAny (hsingles _ _ _ _ _)).bind
  intro rag hrag
  apply (returns_length_ifAny (hsingles _ _ _ _ _)).bind
  intro oneshots honeshots
  apply returns_pure
  rw [List.length_mergeSort, List.length_append, List.length_append, htool, hrag, honeshots]
  rfl

end SchedLm.Sim
