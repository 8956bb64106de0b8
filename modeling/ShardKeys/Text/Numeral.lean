/-!
Decimal numerals in free text. An unsigned numeral is one or more ASCII digits, after at most one
plus sign; its value must not exceed a bound. The first character that breaks a rule decides which
fault is reported.
-/

namespace ShardKeys.Text

/-- Why a text is not a numeral within its bound. -/
inductive NumeralFault where
  | empty
  | invalidDigit
  | overflow
  deriving DecidableEq, Repr

/-- The wording of a fault. -/
def NumeralFault.message : NumeralFault → String
  | .empty => "cannot parse integer from empty string"
  | .invalidDigit => "invalid digit found in string"
  | .overflow => "number too large to fit in target type"

/-- The value of an ASCII digit. -/
def digit? (c : Char) : Option Nat :=
  if c.isDigit then some (c.toNat - '0'.toNat) else none

/-- The value of `value` continued by the digits of the list. -/
def readDigits (bound value : Nat) : List Char → Except NumeralFault Nat
  | [] => .ok value
  | c :: cs =>
      match digit? c with
      | none => .error .invalidDigit
      | some d =>
          if 10 * value + d ≤ bound then readDigits bound (10 * value + d) cs
          else .error .overflow

/-- The value of an unsigned numeral not above `bound`. -/
def readUnsigned (bound : Nat) : List Char → Except NumeralFault Nat
  | [] => .error .empty
  | ['+'] => .error .invalidDigit
  | '+' :: cs => readDigits bound 0 cs
  | cs => readDigits bound 0 cs

/-- The value of a numeral with an optional sign, between `-(bound + 1)` and `bound`. -/
def readSigned (bound : Nat) : List Char → Option Int
  | ['-'] => none
  | '-' :: cs => (readDigits (bound + 1) 0 cs).toOption.map fun n => -(n : Int)
  | cs => (readUnsigned bound cs).toOption.map fun n => (n : Int)

/-- No result exceeds the bound. -/
theorem readDigits_le {bound value n : Nat} {cs : List Char} (hv : value ≤ bound)
    (h : readDigits bound value cs = .ok n) : n ≤ bound := by
  induction cs generalizing value with
  | nil => simp_all [readDigits]
  | cons c cs ih =>
      rw [readDigits] at h
      split at h
      · simp at h
      · split at h
        · next hle => exact ih hle h
        · simp at h

theorem readUnsigned_le {bound n : Nat} {cs : List Char} (h : readUnsigned bound cs = .ok n) :
    n ≤ bound := by
  unfold readUnsigned at h
  split at h
  · simp at h
  · simp at h
  · exact readDigits_le (Nat.zero_le _) h
  · exact readDigits_le (Nat.zero_le _) h

end ShardKeys.Text
