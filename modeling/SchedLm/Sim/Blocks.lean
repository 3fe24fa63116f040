import Mathlib.Tactic

/-!
Block-hash prefix model. A prompt is cut into whole blocks of tokens and each
block's hash folds in the hash before it. The built-in `hash` is a parameter.
-/

namespace SchedLm.Sim

abbrev Token := ℤ

abbrev BlockHash := ℤ

def defaultBlockSize : ℕ := 16

/-- Seed folded into the first block. -/
def root : BlockHash := 1469598103934665603

/-- The rolling per-block hash chain of a token sequence. A trailing partial
block is ignored. -/
def hashBlocks (hash : BlockHash × List Token → BlockHash) (tokens : List Token)
    (blockSize : ℕ := defaultBlockSize) : List BlockHash :=
  go (tokens.length / blockSize) 0 root
where
  go : ℕ → ℕ → BlockHash → List BlockHash
    | 0, _, _ => []
    | left + 1, i, parent =>
      let block := (tokens.drop (i * blockSize)).take blockSize
      let parent := hash (parent, block)
      parent :: go left (i + 1) parent

/-- Length of the longest leading run of `reqBlocks` that is cached. -/
def matchedPrefix (reqBlocks : List BlockHash) (cached : BlockHash → Bool) : ℕ :=
  match reqBlocks with
  | [] => 0
  | h :: rest => if cached h then matchedPrefix rest cached + 1 else 0

theorem matchedPrefix_le_length (reqBlocks : List BlockHash) (cached : BlockHash → Bool) :
    matchedPrefix reqBlocks cached ≤ reqBlocks.length := by
  induction reqBlocks with
  | nil => exact le_rfl
  | cons h rest ih =>
    unfold matchedPrefix
    split_ifs
    · exact Nat.succ_le_succ ih
    · exact Nat.zero_le _

theorem matchedPrefix_mono {reqBlocks : List BlockHash} {cached cached' : BlockHash → Bool}
    (h : ∀ b, cached b = true → cached' b = true) :
    matchedPrefix reqBlocks cached ≤ matchedPrefix reqBlocks cached' := by
  induction reqBlocks with
  | nil => exact le_rfl
  | cons b rest ih =>
    unfold matchedPrefix
    split_ifs with hcached hcached'
    · exact Nat.succ_le_succ ih
    · exact absurd (h b hcached) hcached'
    · exact Nat.zero_le _
    · exact le_rfl

end SchedLm.Sim
