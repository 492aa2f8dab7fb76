import DistributedKV.Lib.Utf8

/-!
# Keys, faults and hashes (`storage.go`)
-/

namespace DistributedKV.Performance

/-- A key, as bytes. -/
abbrev Key := List UInt8

abbrev Value := List UInt8

/-- What stops a call: a panic, or a loop that has not ended. -/
inductive Fault where
  | negativeLength
  | divideByZero
  | indexOutOfRange
  | nilDereference
  | unfinished
deriving DecidableEq, Repr

/-- The loop of the two functions `simpleHash`, in 64 bits. -/
def simpleHash (s : List UInt8) : Int64 :=
  (Utf8.runes s).foldl (fun hash c => hash * 31 + .ofNat c) 0

end DistributedKV.Performance
