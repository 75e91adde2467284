import BitSliced.Error

/-!
# Execution settings

Settings suggest how the work of an index is spread over workers. They are carried along and
shown, and no answer depends on them.

## Main definitions

* `BitSliced.Settings` — the degree of parallelism, zero for every thread there is, and the
  number of planes from which on the work on single planes is spread.
* `BitSliced.Settings.check`, `BitSliced.Settings.checked` — a degree of parallelism has a limit.
* `BitSliced.Settings.spreads` — whether the work on some number of planes is spread.
-/

namespace BitSliced

/-- How the work of an index is spread over workers. -/
structure Settings where
  /-- The degree of parallelism that is suggested for batched queries; zero stands for every thread
  there is. -/
  parallelism : UInt64 := 0
  /-- The number of planes from which on work is spread plane by plane. -/
  planeThreshold : UInt64 := 16
  deriving DecidableEq, Repr

namespace Settings

instance : Inhabited Settings := ⟨{}⟩

/-- The greatest degree of parallelism that is accepted. -/
def maxParallelism : UInt64 := 4096

/-- Refuses a degree of parallelism above the limit. -/
def check (s : Settings) : Except Error Unit :=
  Error.checkArgument (s.parallelism ≤ maxParallelism) "parallelism"
    "self.parallelism <= MAX_PARALLELISM"

/-- The settings with the given parameters, if they are acceptable. -/
def checked (parallelism planeThreshold : UInt64) : Except Error Settings := do
  let settings : Settings := ⟨parallelism, planeThreshold⟩
  settings.check
  return settings

/-- Whether the work on so many planes is spread. The work on a single plane never is. -/
def spreads (s : Settings) (planes : Nat) : Bool := max s.planeThreshold.toNat 2 ≤ planes

end Settings

end BitSliced
