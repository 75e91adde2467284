import BitSliced.Failure

/-!
# Faults in stored bitmaps

The reasons for which some bytes are not a stored bitmap, each with the failure it is reported as.

## Main definitions

* `BitSliced.Fault` — the reasons.
* `BitSliced.Fault.failure` — how a reason is reported. An unknown cookie and an oversized count are
  reported under the kind `other`, an early end as such, and everything else as invalid data.
-/

namespace BitSliced

/-- Why some bytes are not a stored bitmap. -/
inductive Fault where
  /-- The bytes end too early. -/
  | truncated
  /-- A partition starts with a cookie that names no format. -/
  | unknownCookie
  /-- A partition declares more chunks than there are keys. -/
  | oversized
  /-- The key of a chunk is not above the key of the chunk in front of it. -/
  | unsortedKeys
  /-- A chunk of runs has no runs. -/
  | noRuns
  /-- A run leaves its chunk, or is not clear of the run in front of it. -/
  | invalidRuns
  /-- The offset at a position is below the offset in front of it. -/
  | outOfOrder (index : Nat)
  /-- The offset at a position equals the offset in front of it. -/
  | duplicate (index : Nat)
  /-- A chunk has another number of offsets than it declares. -/
  | wrongCardinality (expected actual : Nat)
  deriving DecidableEq, Repr

namespace Fault

/-- The failure that a fault is reported as. -/
def failure : Fault → Failure
  | truncated => .endOfData
  | unknownCookie => ⟨.other, "unknown cookie value"⟩
  | oversized => ⟨.other, "size is greater than supported"⟩
  | unsortedKeys => ⟨.invalidData, "container keys are not sorted"⟩
  | noRuns => ⟨.invalidData, "run container with zero runs"⟩
  | invalidRuns => ⟨.invalidData, "invalid data"⟩
  | outOfOrder index =>
    ⟨.invalidData, "An element was out of order at index: " ++ toString index⟩
  | duplicate index => ⟨.invalidData, "Duplicate element found at index: " ++ toString index⟩
  | wrongCardinality expected actual =>
    ⟨.invalidData,
      "Expected cardinality was " ++ toString expected ++ " but was " ++ toString actual⟩

end Fault

end BitSliced
