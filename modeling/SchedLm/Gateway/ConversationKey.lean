import SchedLm.Gateway.Classify

/-!
The derived conversation key. It hashes the first two system or user messages,
so a history keeps its key when it already has two of them, and when what
follows has none: a conversation that opens with a lone user message is hashed
from another text as soon as the next user message is there.
-/

namespace SchedLm.Gateway

def Message.opening (m : Message) : Bool := m.role == "system" || m.role == "user"

private theorem opening_iff {m : Message} :
    ¬(m.role ≠ "system" ∧ m.role ≠ "user") ↔ m.opening = true := by
  rw [Message.opening, Bool.or_eq_true, beq_iff_eq, beq_iff_eq]
  tauto

/-- The countdown loop writes the first `remaining` opening messages. -/
theorem hashOpening_eq {remaining : ℕ} (hpos : 0 < remaining) (hash : UInt64)
    (messages : List Message) :
    hashOpening remaining hash messages =
      ((messages.filter Message.opening).take remaining).foldl writeMessage hash := by
  induction messages generalizing remaining hash with
  | nil => simp [hashOpening]
  | cons m rest ih =>
    unfold hashOpening
    by_cases hskip : m.role ≠ "system" ∧ m.role ≠ "user"
    · have hopen : ¬ m.opening = true := fun h => opening_iff.mpr h hskip
      rw [if_pos hskip, ih hpos, List.filter_cons_of_neg hopen]
    · obtain ⟨left, rfl⟩ : ∃ left, remaining = left + 1 :=
        Nat.exists_eq_succ_of_ne_zero hpos.ne'
      rw [if_neg hskip, List.filter_cons_of_pos (opening_iff.mp hskip), List.take_succ_cons,
        List.foldl_cons, Nat.add_sub_cancel]
      split_ifs with hlast
      · simp [hlast]
      · exact ih (Nat.pos_of_ne_zero hlast) (writeMessage hash m)

/-- What is hashed of one message: its role and its text, each closed by a zero
byte. -/
def Message.hashedText (m : Message) : List UInt8 :=
  Fnv.bytesOf m.role ++ [0] ++ Fnv.bytesOf m.content ++ [0]

def openingText (messages : List Message) : List UInt8 :=
  ((messages.filter Message.opening).take 2).flatMap Message.hashedText

theorem writeMessage_eq (hash : UInt64) (m : Message) :
    writeMessage hash m = Fnv.write hash m.hashedText := by
  simp only [writeMessage, Message.hashedText, Fnv.write_append]

theorem foldl_writeMessage (hash : UInt64) (messages : List Message) :
    messages.foldl writeMessage hash = Fnv.write hash (messages.flatMap Message.hashedText) := by
  induction messages generalizing hash with
  | nil => rfl
  | cons m rest ih =>
    rw [List.foldl_cons, ih, writeMessage_eq, List.flatMap_cons, Fnv.write_append]

/-- Without a session header, the key of a non-empty history is the hash of its
opening text. -/
theorem conversationKey_chatBody {headers : Headers}
    (habsent : (headers.lookup sessionIdHeader).getD "" = "") {messages : List Message}
    (hne : messages ≠ []) (tools : List Any) :
    conversationKey headers (chatBody messages tools) =
      Fnv.formatUint (Fnv.write Fnv.offset (openingText messages)) := by
  have hlen : ¬ messages.length = 0 := fun h => hne (List.length_eq_zero_iff.mp h)
  rw [openingText, ← foldl_writeMessage, ← hashOpening_eq (by norm_num)]
  simp [conversationKey, chatBody, habsent, hlen]

/-- The history has two opening messages, or what follows has none. -/
def KeepsOpening (history continuation : List Message) : Prop :=
  2 ≤ (history.filter Message.opening).length ∨ ∀ m ∈ continuation, m.opening = false

/-- A continuation leaves the opening text as it is exactly when it adds no
opening message to fewer than two. -/
theorem openingText_append_iff (history continuation : List Message) :
    openingText (history ++ continuation) = openingText history ↔
      KeepsOpening history continuation := by
  constructor
  · intro hsame
    by_contra hadds
    obtain ⟨hfew, hnext⟩ := not_or.mp hadds
    obtain ⟨next, rest, hcontinuation⟩ : ∃ next rest,
        continuation.filter Message.opening = next :: rest := by
      apply List.exists_cons_of_ne_nil
      intro hnone
      exact hnext fun m hm => by simpa using List.filter_eq_nil_iff.mp hnone m hm
    obtain ⟨left, hleft⟩ : ∃ left, 2 - (history.filter Message.opening).length = left + 1 :=
      ⟨1 - (history.filter Message.opening).length, by omega⟩
    rw [openingText, openingText, List.filter_append, List.take_append, hleft, hcontinuation,
      List.take_succ_cons, List.flatMap_append, List.flatMap_cons] at hsame
    -- the text of a further message is not empty
    have hadded := List.append_right_eq_self.mp hsame
    simp [Message.hashedText] at hadded
  · rintro (htwo | hnone)
    · rw [openingText, openingText, List.filter_append, List.take_append_of_le_length htwo]
    · have hempty : continuation.filter Message.opening = [] :=
        List.filter_eq_nil_iff.mpr fun m hm => by simp [hnone m hm]
      rw [openingText, openingText, List.filter_append, hempty, List.append_nil]

theorem writeMessage_userMessage_ne (hash : UInt64) :
    writeMessage hash (userMessage "a") ≠ writeMessage hash (userMessage "b") := by
  intro heq
  have hcontent := Fnv.write_injective [0] heq
  have hbytes : Fnv.bytesOf "a" = [97] ∧ Fnv.bytesOf "b" = [98] := by decide
  simp only [userMessage, hbytes.1, hbytes.2] at hcontent
  have hletter : (97 : UInt8) = 98 := Fnv.step_byte_injective _ hcontent
  exact absurd hletter (by decide)

/-- No collision of hashes saves a history with fewer than two opening messages
in all its continuations: one of two next messages changes its key. -/
theorem key_fixed_in_every_continuation_iff (headers : Headers)
    (habsent : (headers.lookup sessionIdHeader).getD "" = "") (history : List Message)
    (huser : ∃ m ∈ history, m.role = "user") (tools : List Any) :
    (∀ continuation tools', conversationKey headers (chatBody (history ++ continuation) tools') =
        conversationKey headers (chatBody history tools)) ↔
      2 ≤ (history.filter Message.opening).length := by
  obtain ⟨user, hmem, hrole⟩ := huser
  have hne : history ≠ [] := List.ne_nil_of_mem hmem
  have hkey : ∀ continuation tools',
      conversationKey headers (chatBody (history ++ continuation) tools') =
        Fnv.formatUint (Fnv.write Fnv.offset (openingText (history ++ continuation))) :=
    fun continuation tools' =>
      conversationKey_chatBody habsent (List.append_ne_nil_of_left_ne_nil hne continuation) tools'
  constructor
  · intro hstable
    by_contra hfew
    -- the only opening message is the user's, so a new user message is written too
    obtain ⟨only, honly⟩ : ∃ only, history.filter Message.opening = [only] := by
      apply List.length_eq_one_iff.mp
      have hpos : 0 < (history.filter Message.opening).length := by
        apply List.length_pos_of_mem
        exact List.mem_filter.mpr ⟨hmem, by simp [Message.opening, hrole]⟩
      omega
    have hnext : ∀ text, conversationKey headers (chatBody (history ++ [userMessage text]) []) =
        Fnv.formatUint (writeMessage (writeMessage Fnv.offset only) (userMessage text)) := by
      intro text
      have hopening : (history ++ [userMessage text]).filter Message.opening =
          [only, userMessage text] := by
        rw [List.filter_append, honly]
        rfl
      rw [hkey, openingText, hopening, ← foldl_writeMessage]
      rfl
    apply writeMessage_userMessage_ne (writeMessage Fnv.offset only)
    apply Fnv.formatUint_injective
    rw [← hnext, ← hnext, hstable, hstable]
  · intro htwo continuation tools'
    rw [hkey, conversationKey_chatBody habsent hne,
      (openingText_append_iff history continuation).mpr (Or.inl htwo)]

/-- Without a session header, a history with a user message keeps its key in every
continuation that leaves its opening text alone: one with two opening messages in any
continuation, another one in those without an opening message. Outside this condition a
different text is hashed, and the key is the same only where the hashes of the two texts
collide. The tools a request offers have no part in its key. -/
theorem conversation_key_stable_iff (headers : Headers)
    (habsent : (headers.lookup sessionIdHeader).getD "" = "")
    (history continuation : List Message) (huser : ∃ m ∈ history, m.role = "user")
    (tools tools' : List Any) :
    (KeepsOpening history continuation →
      conversationKey headers (chatBody (history ++ continuation) tools') =
        conversationKey headers (chatBody history tools)) ∧
    (¬ KeepsOpening history continuation →
      openingText (history ++ continuation) ≠ openingText history ∧
        (conversationKey headers (chatBody (history ++ continuation) tools') =
            conversationKey headers (chatBody history tools) ↔
          Fnv.write Fnv.offset (openingText (history ++ continuation)) =
            Fnv.write Fnv.offset (openingText history))) := by
  obtain ⟨user, hmem, -⟩ := huser
  have hne : history ≠ [] := List.ne_nil_of_mem hmem
  have hkey := conversationKey_chatBody habsent hne tools
  have hkey' := conversationKey_chatBody habsent
    (List.append_ne_nil_of_left_ne_nil hne continuation) tools'
  have htext := openingText_append_iff history continuation
  constructor
  · intro hkeeps
    rw [hkey', hkey, htext.mpr hkeeps]
  · intro hadds
    refine ⟨fun hsame => hadds (htext.mp hsame), ?_⟩
    rw [hkey', hkey]
    exact Fnv.formatUint_injective.eq_iff

def greeting : List Message := [{ role := "assistant", content := "Hello." }]

/-- A history that opens with a system message keeps its key when the user
speaks again, a lone user message keeps it when only the assistant answers, and
loses its text when the user speaks again. -/
theorem conversation_key_stable_iff_system :
    conversationKey ∅ (chatBody ([{ role := "system", content := "Be brief." },
        userMessage "hi"] ++ (greeting ++ [userMessage "and now?"])) []) =
      conversationKey ∅ (chatBody
        [{ role := "system", content := "Be brief." }, userMessage "hi"] []) ∧
    conversationKey ∅ (chatBody ([userMessage "hi"] ++ greeting) []) =
      conversationKey ∅ (chatBody [userMessage "hi"] []) ∧
    openingText ([userMessage "hi"] ++ (greeting ++ [userMessage "and now?"])) ≠
      openingText [userMessage "hi"] := by
  have hlone : ∃ m ∈ [userMessage "hi"], m.role = "user" :=
    ⟨userMessage "hi", List.mem_singleton_self _, rfl⟩
  refine ⟨?_, ?_, ?_⟩
  · refine (conversation_key_stable_iff ∅ rfl _ _ ⟨userMessage "hi", by simp, rfl⟩ [] []).1 ?_
    exact Or.inl (by decide)
  · refine (conversation_key_stable_iff ∅ rfl _ _ hlone [] []).1 ?_
    exact Or.inr (by decide)
  · refine ((conversation_key_stable_iff ∅ rfl _ _ hlone [] []).2 ?_).1
    rintro (htwo | hnone)
    · exact absurd htwo (by decide)
    · exact absurd hnone (by decide)

/-- A lone user message and the same conversation two turns later have
different keys. -/
theorem conversation_key_changes :
    (∃ m ∈ [userMessage "hi"], m.role = "user") ∧
      conversationKey ∅ (chatBody ([userMessage "hi"] ++
        [{ role := "assistant", content := "Hello." }, userMessage "and now?"]) []) ≠
      conversationKey ∅ (chatBody [userMessage "hi"] []) := by
  decide +kernel

end SchedLm.Gateway
