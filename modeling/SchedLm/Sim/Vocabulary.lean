import SchedLm.Library.Returns
import SchedLm.Sim.Generator

/-!
The vocabulary of a process: ids are handed out once and never change, no two
words share one, and a text is turned into the ids of its words.
-/

namespace SchedLm.Sim

open Runs

namespace Vocab

/-- Ids are below the number of words, and each is the id of one word. With the next
free id for a new word this is kept. -/
structure Numbered (vocab : Vocab) : Prop where
  lt : ∀ {word tid}, vocab.lookup word = some tid → tid < vocab.keys.length
  injective : ∀ {word word' tid}, vocab.lookup word = some tid → vocab.lookup word' = some tid →
    word = word'

/-- A later vocabulary has every id that this one has, and is numbered if this
one is. -/
structure Grows (vocab vocab' : Vocab) : Prop where
  keeps : ∀ {word tid}, vocab.lookup word = some tid → vocab'.lookup word = some tid
  numbered : vocab.Numbered → vocab'.Numbered

instance : Preorder Vocab where
  le := Grows
  le_refl := fun _ => ⟨fun h => h, fun h => h⟩
  le_trans := fun _ _ _ hab hbc => ⟨fun h => hbc.keeps (hab.keeps h), fun h =>
    hbc.numbered (hab.numbered h)⟩

theorem numbered_empty : Numbered ∅ := by
  refine ⟨fun h => ?_, fun h => ?_⟩
  · rw [AList.lookup_empty] at h
    cases h
  · rw [AList.lookup_empty] at h
    cases h

def Spells (vocab : Vocab) (tokens : List Token) (words : List (List Char)) : Prop :=
  words.map vocab.lookup = tokens.map some

theorem Spells.later {vocab vocab' : Vocab} {tokens : List Token} {words : List (List Char)}
    (h : Spells vocab tokens words) (hle : vocab ≤ vocab') : Spells vocab' tokens words := by
  unfold Spells at h ⊢
  rw [← h]
  apply List.map_congr_left
  intro word hword
  obtain ⟨tid, -, htid⟩ := List.mem_map.mp (h ▸ List.mem_map_of_mem hword)
  rw [← htid]
  exact hle.keeps htid.symm

theorem Spells.append {vocab : Vocab} {tokens tokens' : List Token}
    {words words' : List (List Char)} (h : Spells vocab tokens words)
    (h' : Spells vocab tokens' words') : Spells vocab (tokens ++ tokens') (words ++ words') := by
  unfold Spells at h h' ⊢
  rw [List.map_append, List.map_append, h, h']

end Vocab

open Vocab

theorem le_insert {vocab : Vocab} {word : List Char} (hnew : word ∉ vocab) :
    vocab ≤ vocab.insert word (vocab.keys.length : ℤ) := by
  have hlookup : ∀ {other tid}, (vocab.insert word (vocab.keys.length : ℤ)).lookup other =
      some tid → (other = word ∧ tid = vocab.keys.length) ∨ vocab.lookup other = some tid := by
    intro other tid h
    rcases eq_or_ne other word with rfl | hne
    · rw [AList.lookup_insert] at h
      exact Or.inl ⟨rfl, (Option.some.inj h).symm⟩
    · rw [AList.lookup_insert_ne hne] at h
      exact Or.inr h
  refine ⟨fun {other tid} h => ?_, fun hnumbered => ⟨fun {other tid} h => ?_, ?_⟩⟩
  · have hne : other ≠ word := by
      rintro rfl
      exact hnew (AList.lookup_isSome.mp (by rw [h]; rfl))
    rw [AList.lookup_insert_ne hne, h]
  · rw [AList.insert_of_notMem hnew]
    change tid < ((vocab.keys.length + 1 : ℕ) : ℤ)
    have hlonger : (vocab.keys.length : ℤ) < ((vocab.keys.length + 1 : ℕ) : ℤ) :=
      Int.ofNat_lt.mpr (Nat.lt_succ_self _)
    rcases hlookup h with ⟨-, rfl⟩ | hold
    · exact hlonger
    · exact (hnumbered.lt hold).trans hlonger
  · intro other other' tid h h'
    rcases hlookup h with ⟨rfl, rfl⟩ | hold
    · rcases hlookup h' with ⟨rfl, -⟩ | hold'
      · rfl
      · exact absurd (hnumbered.lt hold') (lt_irrefl _)
    · rcases hlookup h' with ⟨rfl, rfl⟩ | hold'
      · exact absurd (hnumbered.lt hold) (lt_irrefl _)
      · exact hnumbered.injective hold hold'

theorem tokenizeWord_spec (vocab : Vocab) (word : List Char) :
    vocab ≤ (tokenizeWord vocab word).2 ∧
      (tokenizeWord vocab word).2.lookup word = some (tokenizeWord vocab word).1 := by
  unfold tokenizeWord
  cases hword : vocab.lookup word with
  | some tid => exact ⟨le_rfl, hword⟩
  | none => exact ⟨le_insert (AList.lookup_eq_none.mp hword), AList.lookup_insert vocab⟩

/-- The ids of some words spell them, from then on: in the vocabulary they leave and in
every later one. -/
theorem tokenizeWords_spec (vocab : Vocab) (words : List (List Char)) :
    vocab ≤ (tokenizeWords vocab words).2 ∧
      Spells (tokenizeWords vocab words).2 (tokenizeWords vocab words).1 words := by
  induction words generalizing vocab with
  | nil => exact ⟨le_rfl, rfl⟩
  | cons word rest ih =>
    obtain ⟨hword, hid⟩ := tokenizeWord_spec vocab word
    obtain ⟨hrest, hspells⟩ := ih (tokenizeWord vocab word).2
    have hfirst : Spells (tokenizeWord vocab word).2 [(tokenizeWord vocab word).1] [word] := by
      unfold Spells
      rw [List.map_singleton, hid, List.map_singleton]
    exact ⟨hword.trans hrest, (hfirst.later hrest).append hspells⟩

variable {K : Type} {env : Surroundings K}

/-- The tokens of a text are the ids of its words, from then on. -/
theorem Gen.settles_ids (text : String) :
    Settles Draws.vocab (Gen.ids text : Gen env (List Token))
      fun ids vocab => Spells vocab ids (splitWords text) := by
  constructor
  intro s ids s' hrun
  obtain ⟨rfl, rfl⟩ := Prod.mk.inj (Except.ok.inj hrun)
  obtain ⟨hgrows, hspells⟩ := tokenizeWords_spec s.vocab (splitWords text)
  exact ⟨hgrows, fun later hlater => hspells.later hlater⟩

theorem Gen.settles_draw {α : Type} (f : env.Rng → α × env.Rng) :
    Settles Draws.vocab (Gen.draw f : Gen env α) fun _ _ => True := by
  constructor
  intro s a s' hrun
  obtain ⟨-, rfl⟩ := Prod.mk.inj (Except.ok.inj hrun)
  exact ⟨le_rfl, fun _ _ => trivial⟩

/-- A seed of its own does not matter for what has settled. -/
theorem Gen.settles_withSeed {α : Type} {seed : Seed} {x : Gen env α} {post : α → Vocab → Prop}
    (h : Settles Draws.vocab x post) : Settles id (Gen.withSeed seed x) post := by
  constructor
  intro vocab a vocab' hrun
  obtain ⟨⟨value, s⟩, hx, hvalue⟩ := bind_eq_ok.mp hrun
  obtain ⟨rfl, rfl⟩ := Prod.mk.inj (Except.ok.inj hvalue)
  exact h.of_run hx

/-- The system prompt's tokens spell it, in the vocabulary of the import and every
later one. -/
theorem spells_systemTokens (env : Surroundings K) {vocab : Vocab}
    (hlater : importedVocab env ≤ vocab) :
    Spells vocab (systemTokens env) (splitWords env.systemPrompt) :=
  (tokenizeWords_spec ∅ (splitWords env.systemPrompt)).2.later hlater

theorem numbered_importedVocab (env : Surroundings K) : (importedVocab env).Numbered :=
  (tokenizeWords_spec ∅ (splitWords env.systemPrompt)).1.numbered numbered_empty

end SchedLm.Sim
