import Mathlib.Tactic

/-!
The FNV-1a hash in 64 bits, and numbers in hexadecimal. Writing one more byte
is injective in the byte and in the hash so far, because the multiplier is odd.
-/

namespace Fnv

def offset : UInt64 := 14695981039346656037

def prime : UInt64 := 1099511628211

def step (hash : UInt64) (byte : UInt8) : UInt64 := (hash ^^^ byte.toUInt64) * prime

def write (hash : UInt64) (bytes : List UInt8) : UInt64 := bytes.foldl step hash

def bytesOf (s : String) : List UInt8 := s.toUTF8.data.toList

/-- `strconv.FormatUint(n, 16)`. -/
def formatUint (n : UInt64) : String := String.ofList (Nat.toDigits 16 n.toNat)

theorem write_append (hash : UInt64) (first second : List UInt8) :
    write hash (first ++ second) = write (write hash first) second := List.foldl_append

theorem mul_prime_injective : Function.Injective fun x : UInt64 => x * prime := by
  intro x y h
  have hinverse : prime * 14886173955864302971 = 1 := by decide
  calc x = x * prime * 14886173955864302971 := by
        rw [UInt64.mul_assoc, hinverse, UInt64.mul_one]
    _ = y * prime * 14886173955864302971 := congrArg (· * 14886173955864302971) h
    _ = y := by
        rw [UInt64.mul_assoc, hinverse, UInt64.mul_one]

theorem step_injective (byte : UInt8) : Function.Injective fun hash => step hash byte := by
  intro first second h
  have hxor := mul_prime_injective h
  exact (UInt64.xor_left_inj byte.toUInt64).mp hxor

theorem step_byte_injective (hash : UInt64) : Function.Injective (step hash) := by
  intro first second h
  have hxor := mul_prime_injective h
  exact UInt8.toUInt64_inj.mp ((UInt64.xor_right_inj hash).mp hxor)

theorem write_injective (bytes : List UInt8) : Function.Injective fun hash => write hash bytes := by
  induction bytes with
  | nil => exact fun _ _ h => h
  | cons byte rest ih =>
    intro first second h
    apply step_injective byte
    exact ih h

private theorem digitChar_injOn :
    ∀ a < 16, ∀ b < 16, Nat.digitChar a = Nat.digitChar b → a = b := by
  decide

private theorem toDigits_eq (n : ℕ) :
    Nat.toDigits 16 n =
      (if n < 16 then [] else Nat.toDigits 16 (n / 16)) ++ [Nat.digitChar (n % 16)] := by
  rw [Nat.toDigits_eq_if (by norm_num)]
  split_ifs with h
  · rw [Nat.mod_eq_of_lt h, List.nil_append]
  · rfl

private theorem toDigits_injective {m n : ℕ} (h : Nat.toDigits 16 m = Nat.toDigits 16 n) :
    m = n := by
  induction m using Nat.strong_induction_on generalizing n with
  | h m ih =>
    rw [toDigits_eq m, toDigits_eq n, List.append_singleton_inj] at h
    obtain ⟨hfront, hlast⟩ := h
    have hmod := digitChar_injOn _ (Nat.mod_lt m (by norm_num)) _ (Nat.mod_lt n (by norm_num)) hlast
    split_ifs at hfront with hm hn
    · omega
    · exact absurd hfront.symm Nat.toDigits_ne_nil
    · exact absurd hfront Nat.toDigits_ne_nil
    · have hdiv := ih (m / 16) (by omega) hfront
      omega

theorem formatUint_injective : Function.Injective formatUint := by
  intro m n h
  have hdigits := toDigits_injective (String.ofList_injective h)
  exact UInt64.toNat_inj.mp hdigits

end Fnv
