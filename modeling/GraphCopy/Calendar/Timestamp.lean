import GraphCopy.Calendar.Date

/-!
# Points in time

Whole seconds since the start of 1970 and nanoseconds. A leap second is the
last second of a minute with more than a thousand million nanoseconds, and is
shown as second sixty.
-/

namespace GraphCopy

def IsTimestamp (seconds : Int) (nanos : Nat) : Prop :=
  (Date.ofDays? (seconds / 86400)).isSome = true ∧ nanos < 2000000000 ∧
    (1000000000 ≤ nanos → seconds % 60 = 59)

instance (s : Int) (n : Nat) : Decidable (IsTimestamp s n) := by
  unfold IsTimestamp; infer_instance

structure Timestamp where
  seconds : Int
  nanos : Nat
  valid : IsTimestamp seconds nanos
deriving DecidableEq

namespace Timestamp

def of? (seconds : Int) (nanos : Nat) : Option Timestamp :=
  if h : IsTimestamp seconds nanos then some ⟨seconds, nanos, h⟩ else none

def epoch : Timestamp := ⟨0, 0, by decide⟩

def padded (width n : Nat) : String :=
  let ds := toString n
  String.ofList (List.replicate (width - ds.length) '0') ++ ds

def fractionText (nanos : Nat) : String :=
  if nanos = 0 then ""
  else if nanos % 1000000 = 0 then "." ++ padded 3 (nanos / 1000000)
  else if nanos % 1000 = 0 then "." ++ padded 6 (nanos / 1000)
  else "." ++ padded 9 nanos

def text (t : Timestamp) : String :=
  let date := (Date.ofDays? (t.seconds / 86400)).getD Date.epoch
  let s := (t.seconds % 86400).toNat
  let leap := 1000000000 ≤ t.nanos
  date.text ++ "T" ++ twoDigits (s / 3600) ++ ":" ++ twoDigits (s / 60 % 60) ++ ":"
    ++ twoDigits (s % 60 + (if leap then 1 else 0))
    ++ fractionText (if leap then t.nanos - 1000000000 else t.nanos) ++ "+00:00"

end Timestamp
end GraphCopy
