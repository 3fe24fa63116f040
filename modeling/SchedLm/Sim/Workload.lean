import SchedLm.Sim.Blocks

/-!
The arrival stream as the engine reads it. A request carries its ground-truth
class for the per-class metrics only; policies see a projection without it.
-/

namespace SchedLm.Sim

inductive Kind where
  | tool
  | rag
  | oneshot
  deriving DecidableEq, Repr

structure Message where
  role : String
  content : String
  deriving DecidableEq, Repr

structure TurnRequest (K : Type) where
  arrival : K
  tokens : List Token
  blockHashes : List BlockHash
  genTokens : ℤ
  messages : List Message := []
  kind : Kind := .tool
  conversationId : Option ℤ := none
  toolName : Option String := none

/-- White space as `str.split()` sees it. -/
def isSpace (c : Char) : Bool :=
  (9 ≤ c.val ∧ c.val ≤ 13) ∨ (28 ≤ c.val ∧ c.val ≤ 32) ∨ c.val = 0x85 ∨ c.val = 0xa0 ∨
    c.val = 0x1680 ∨ (0x2000 ≤ c.val ∧ c.val ≤ 0x200a) ∨ c.val = 0x2028 ∨
    c.val = 0x2029 ∨ c.val = 0x202f ∨ c.val = 0x205f ∨ c.val = 0x3000

/-- `s.split()`: the maximal runs without white space. -/
def splitWords (s : String) : List (List Char) :=
  (s.toList.splitOnP isSpace).filter fun word => !word.isEmpty

theorem splitWords_append_space (a b : String) :
    splitWords (a ++ " " ++ b) = splitWords a ++ splitWords b := by
  have hspace : (a ++ " " ++ b).toList = a.toList ++ ' ' :: b.toList := by
    simp [String.toList_append]
  rw [splitWords, hspace, List.splitOnP_append_cons _ _ (by decide : isSpace ' ' = true),
    List.filter_append]
  rfl

end SchedLm.Sim
