import RunScheduler.Store.Error

/-!
# Retrying

Operations that fail for a passing reason are tried again, after delays that double up to a
limit. Any other outcome ends the tries, and so does their number.
-/

namespace RunScheduler

/-- A length of time. Its whole seconds have 64 bits. -/
structure Duration where
  nanos : Nat
  nanos_lt : nanos < 18446744073709551616 * 1000000000
deriving DecidableEq, Repr

namespace Duration

def ofMilliseconds (n : UInt64) : Duration where
  nanos := n.toNat * 1000000
  nanos_lt := by
    have := n.toNat_lt
    omega

/-- Milliseconds, one that has only begun among them. -/
def milliseconds (d : Duration) : Nat :=
  (d.nanos + 999999) / 1000000

/-- A number stands for so many milliseconds. -/
instance : Coe UInt64 Duration := ⟨ofMilliseconds⟩

/-- Where a number is wanted, a duration is counted in milliseconds. -/
instance : CoeOut Duration Nat := ⟨milliseconds⟩

instance : LE Duration := ⟨fun d e => d.nanos ≤ e.nanos⟩

instance : DecidableLE Duration := fun d e => inferInstanceAs (Decidable (d.nanos ≤ e.nanos))

instance : Min Duration := minOfLe

def longest : Duration := ⟨18446744073709551616 * 1000000000 - 1, by decide⟩

/-- So many times as long, or the longest duration if that is too long. -/
def times (d : Duration) (n : Nat) : Duration :=
  if h : d.nanos * n < 18446744073709551616 * 1000000000 then ⟨d.nanos * n, h⟩ else longest

end Duration

structure RetryPolicy where
  /-- Tries altogether; none counts as one. -/
  maxAttempts : UInt32 := 3
  /-- The first delay. -/
  baseDelay : Duration := .ofMilliseconds 100
  /-- The longest delay. -/
  maxDelay : Duration := .ofMilliseconds 5000
deriving DecidableEq, Repr

namespace RetryPolicy

/-- The number of tries. -/
def attempts (p : RetryPolicy) : Nat :=
  max p.maxAttempts.toNat 1

/-- The factor of the delay after a number of tries: it doubles with each as long as it has 32
bits, and is the greatest number of 32 bits from then on. -/
def factor (attempt : Nat) : Nat :=
  if attempt - 1 < 32 then Nat.pow 2 (attempt - 1) else 4294967295

/-- The delay after a number of tries. -/
def delayAfter (p : RetryPolicy) (attempt : Nat) : Duration :=
  min (p.baseDelay.times (factor attempt)) p.maxDelay

universe u

variable {m : Type → Type u} [Monad m] {α : Type}

/-- Tries an operation, with `more` tries left after the next, which is the `attempt`-th. -/
def retryFrom (p : RetryPolicy) (wait : Duration → m Unit) (operation : m (Except StoreError α)) :
    (more attempt : Nat) → m (Except StoreError α)
  | 0, _ => operation
  | more + 1, attempt => do
    match ← operation with
    | .ok a => return .ok a
    | .error e =>
      if e.isTransient then
        wait (p.delayAfter attempt)
        p.retryFrom wait operation more (attempt + 1)
      else return .error e

/-- Tries an operation until its outcome is no transient error or the tries are used up. -/
def retry (p : RetryPolicy) (wait : Duration → m Unit) (operation : m (Except StoreError α)) :
    m (Except StoreError α) :=
  p.retryFrom wait operation (p.attempts - 1) 1

end RetryPolicy

end RunScheduler
