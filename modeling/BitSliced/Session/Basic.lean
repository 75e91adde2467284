import BitSliced.Index.Extremum
import BitSliced.Index.Planewise
import BitSliced.Index.Total
import BitSliced.Journal
import BitSliced.Session.Call

/-!
# Sessions

A session has named indexes and serves calls on them. A call that fails leaves all indexes as they
were, with one exception: restoring works in place, so that an index keeps what was taken over in
front of the malformed buffer, and later calls go on with that. Work that is spread over planes is
done in the order of a schedule, which may be another one for every call.

## Main definitions

* `BitSliced.Session` — the named indexes.
* `BitSliced.Session.serveUnder`, `BitSliced.Session.serveAllUnder` — the answer to a call and the
  session after it, and the same for calls in a row.
* `BitSliced.Session.serve` — the same from the least significant plane on.
* `BitSliced.Session.journal` — what a call announces.
-/

namespace BitSliced

/-- Named indexes. -/
structure Session where
  /-- The index of each name in use. -/
  indexes : Std.ExtTreeMap String Index

namespace Session

/-- The session without any index. -/
def empty : Session := ⟨∅⟩

instance : EmptyCollection Session := ⟨empty⟩

/-- The index of a name. -/
def index? (s : Session) (name : String) : Option Index := s.indexes[name]?

/-- Leaves an index under a name. -/
def store (s : Session) (name : String) (b : Index) : Session :=
  ⟨s.indexes.insert name b⟩

/-- Serves a call on the index of a name. -/
def withIndex (s : Session) (name : String) (f : Index → Answer × Session) : Answer × Session :=
  match s.index? name with
  | some b => f b
  | none => (.noIndex name, s)

/-- Answers from the index of a name. -/
def ask (s : Session) (name : String) (f : Index → Answer) : Answer × Session :=
  s.withIndex name fun b => (f b, s)

/-- Leaves what becomes of the index of a name under a name. -/
def derive (s : Session) (name into : String) (f : Index → Index) : Answer × Session :=
  s.withIndex name fun b => (.done, s.store into (f b))

/-- The indexes of some names, or the first name that is not in use. -/
def indexesOf (s : Session) : List String → Except String (List Index)
  | [] => return []
  | name :: names => do
    match s.index? name with
    | some b => return b :: (← s.indexesOf names)
    | none => throw name

/-- A detail of an index. -/
def detailOf (b : Index) : Detail → Answer
  | .maxValue => .number b.maxValue
  | .minValue => .number b.minValue
  | .auto => .truth b.isAuto
  | .width => .size b.width
  | .cardinality => .size b.cardinality
  | .empty => .truth b.isEmpty

/-- The answer to a call, and the session after it, under a schedule. -/
def serveUnder (σ : Schedule) (s : Session) : Call → Answer × Session
  | .declare name maxValue minValue => (.done, s.store name (.ofBounds maxValue minValue))
  | .configure name settings => s.derive name name (·.withSettings settings)
  | .copy name into => s.derive name into id
  | .put name entries => s.derive name name (·.putAllPlanewise σ entries)
  | .add name other =>
    s.withIndex name fun b => s.withIndex other fun c => (.done, s.store name (b.add c))
  | .join name p others =>
    s.withIndex name fun b =>
      match s.indexesOf others with
      | .ok others => (.done, s.store name (b.joinPlanewise σ p others))
      | .error missing => (.noIndex missing, s)
  | .increment name found => s.derive name name (·.increment found)
  | .incrementAll name => s.derive name name (·.incrementAll)
  | .clear name found => s.derive name name (·.clearPlanewise σ found)
  | .retain name found into => s.derive name into (·.retainPlanewise σ found)
  | .histogram name p found filter into => s.derive name into (·.histogram p found filter)
  | .restore name buffers =>
    s.withIndex name fun b =>
      match (Index.restoreInPlace buffers).run b with
      | .ok () restored => (.done, s.store name restored)
      | .error e restored => (.failed e, s.store name restored)
  | .read name source =>
    match (Index.read .doubling).run source with
    | .ok (b, rest) => (.taken rest.position, s.store name b)
    | .error e => (.failed e, s)
  | .detail name detail => s.ask name (detailOf · detail)
  | .get name id => s.ask name fun b => .number (b.get? id)
  | .contains name id => s.ask name fun b => .truth (b.contains id)
  | .holders name => s.ask name fun b => .set b.existence
  | .plane name bit =>
    s.ask name fun b =>
      match b.plane? bit with
      | some plane => .set plane
      | none => .noPlane
  | .select name p operation start stop found =>
    s.ask name fun b =>
      match b.select p operation start stop found with
      | .ok ids => .set (.ofIds ids)
      | .error e => .failed e
  | .selectAny name p values => s.ask name fun b => .set (.ofIds (b.selectAny p values))
  | .total name found =>
    s.ask name fun b =>
      let (sum, count) := b.total found
      .total sum count
  | .extremum name p operation found =>
    s.ask name fun b =>
      match b.extremum p operation found with
      | .ok value => .number value
      | .error e => .failed e
  | .numbers name p found => s.ask name fun b => .set (.ofIds (b.numbers p found))
  | .equal name other =>
    s.withIndex name fun b => s.withIndex other fun c => (.truth (b == c), s)
  | .encodedSize name => s.ask name fun b => .size b.encodedSize
  | .buffers name => s.ask name fun b => .buffers b.toBuffers
  | .write name sink =>
    s.ask name fun b =>
      match (b.output .doubling).run sink with
      | .ok bytes sink => .written bytes sink
      | .error e sink => .cutOff e sink

/-- The answer to a call, and the session after it. -/
def serve (s : Session) (call : Call) : Answer × Session := s.serveUnder .ascending call

/-- The answers to calls in a row, each under its own schedule, and the session after them. -/
def serveAllUnder (σ : Nat → Schedule) (s : Session) : List Call → List Answer × Session
  | [] => ([], s)
  | call :: calls =>
    let (answer, s) := s.serveUnder (σ 0) call
    let (answers, s) := s.serveAllUnder (σ ∘ Nat.succ) calls
    (answer :: answers, s)

/-- What the index of a name announces. -/
def announce (s : Session) (name : String) (f : Index → List Message) : List Message :=
  match s.index? name with
  | some b => f b
  | none => []

/-- What a call announces, in order. A call that fails announces nothing. -/
def journal (s : Session) (call : Call) : List Message :=
  match call with
  | .add name other =>
    s.announce name fun b => s.announce other fun c => Journal.ofAdd b c
  | .join name _ others =>
    s.announce name fun b =>
      match s.indexesOf others with
      | .ok others => Journal.ofJoin b others
      | .error _ => []
  | .clear name found => s.announce name fun _ => Journal.ofClear found
  | .histogram name p found filter _ => s.announce name (Journal.ofHistogram · p found filter)
  | .restore name buffers =>
    s.announce name fun b =>
      match b.restore buffers with
      | .ok restored => Journal.ofRestore buffers restored
      | .error _ => []
  | .read _ source =>
    match (Index.read .doubling).run source with
    | .ok (b, _) => Journal.ofRead b
    | .error _ => []
  | .select name p operation _ _ found => s.announce name (Journal.ofSelect · p operation found)
  | .selectAny name p values => s.announce name (Journal.ofSelectAny · p values)
  | .extremum name p operation found =>
    s.announce name (Journal.ofExtremum · p operation found)
  | .numbers name p found => s.announce name (Journal.ofNumbers · p found)
  | .buffers name => s.announce name Journal.ofToBuffers
  | .write name sink =>
    s.announce name fun b =>
      match b.write .doubling sink with
      | .ok (bytes, _) => Journal.ofWrite b bytes
      | .error _ => []
  | _ => []

end Session

end BitSliced
