/-!
# Query operations

Six operations compare the numbers of an index with operands, and two ask for an extremum.

## Main definitions

* `BitSliced.Operation`, with `BitSliced.Operation.symbol` for messages and
  `BitSliced.Operation.isComparison`.
-/

namespace BitSliced

/-- What a query asks for. -/
inductive Operation where
  /-- Below the operand. -/
  | lt
  /-- Below the operand or equal to it. -/
  | le
  /-- Equal to the operand. -/
  | eq
  /-- Above the operand or equal to it. -/
  | ge
  /-- Above the operand. -/
  | gt
  /-- Between two operands, both included. -/
  | range
  /-- The least number. -/
  | min
  /-- The greatest number. -/
  | max
  deriving DecidableEq, Repr

namespace Operation

/-- How an operation is shown. -/
def symbol : Operation → String
  | lt => "<"
  | le => "<="
  | eq => "="
  | ge => ">="
  | gt => ">"
  | range => "between"
  | min => "min"
  | max => "max"

/-- Whether an operation compares numbers with operands. -/
def isComparison : Operation → Bool
  | min | max => false
  | _ => true

end Operation

end BitSliced
