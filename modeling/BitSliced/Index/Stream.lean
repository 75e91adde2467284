import BitSliced.Index.Buffers
import BitSliced.Pool
import BitSliced.Stream.Source

/-!
# Indexes as streams

A stream has a header and then one frame for each buffer of an index. The header holds a magic
number, the bounds and the number of frames; a frame is a buffer behind its length. All words are
little-endian.

## Main definitions

* `BitSliced.Index.output` — writes an index into a sink, up to the first failure.
* `BitSliced.Index.write` — the number of bytes written and the sink when nothing fails.
* `BitSliced.Index.read` — reads an index from a source. It takes no byte behind the last frame.
-/

namespace BitSliced

/-- The magic number that a stream starts with; it names the format and its version. -/
def streamMagic : Nat := 0x42534901

/-- The number of bytes in front of the frames. -/
def streamHeaderSize : Nat := 24

/-- The largest buffer that is asked for before a frame is read. -/
def readAhead : Nat := 0x100000

/-- A signed number as a word of eight bytes. -/
def encodeSigned (value : Int64) : List UInt8 := Word.encode 8 (pattern value)

/-- The signed number that eight bytes spell. -/
def signedValue (bytes : List UInt8) : Int64 := (UInt64.ofNat (Word.value bytes)).toInt64

/-! ### Writing -/

/-- Writes into the sink of a stream. A failure leaves what was written before it in the sink. -/
abbrev Output := EStateM Error Sink

/-- Sends bytes into the sink; a failure is one of the stream. -/
def Output.send (bytes : List UInt8) : Output Unit :=
  (Sink.put bytes).adaptExcept (Error.io "bsi stream")

/-- Writes the frames of some bitmaps. Gives the number of bytes written. -/
def writeFrames (a : Allocator) (pool : Pool) : List Bitmap → Output Nat
  | [] => return 0
  | bitmap :: bitmaps => do
    let (buffer, pool) := pool.borrow a bitmap.encodedSize
    let buffer := buffer.append a bitmap.encode
    Output.send (Word.encode 8 buffer.bytes.length)
    Output.send buffer.bytes
    let written ← writeFrames a (pool.handBack buffer) bitmaps
    return 8 + buffer.bytes.length + written

/-- Writes an index. Gives the number of bytes written. -/
def Index.output (a : Allocator) (b : Index) : Output Nat := do
  Output.send (Word.encode 4 streamMagic)
  Output.send (encodeSigned b.maxValue)
  Output.send (encodeSigned b.minValue)
  Output.send (Word.encode 4 (b.width + 1))
  let written ← writeFrames a ∅ (b.existence :: b.planes)
  return streamHeaderSize + written

/-- The number of bytes that are written of an index into a sink, and the sink behind them, if it
has room for all of them. -/
def Index.write (a : Allocator) (b : Index) (sink : Sink) : Except Error (Nat × Sink) :=
  match (b.output a).run sink with
  | .ok written sink => .ok (written, sink)
  | .error e _ => .error e

/-! ### Reading -/

/-- Reads from the source of a stream. -/
abbrev Intake := StateT Source (Except Error)

/-- Takes bytes off the source; a failure is one of the stream. -/
def Intake.ofSource {α : Type} (f : Source → Except Failure (α × Source)) : Intake α :=
  fun source => (f source).mapError (Error.ofDecoding "bsi stream")

/-- The next `n` bytes of a header or a length. -/
def Intake.field (n : Nat) : Intake (List UInt8) := ofSource (·.takeExactly n)

/-- Reads the frame of a number: its length, as many bytes, and the bitmap in them. -/
def readFrame (a : Allocator) (pool : Pool) (number : Nat) : Intake (Bitmap × Pool) := do
  let length := Word.value (← Intake.field 8)
  let (buffer, pool) := pool.borrow a (min length readAhead)
  let bytes ← Intake.ofSource (·.take length)
  let buffer := buffer.append a bytes
  Error.checkFormat (bytes.length = length) "frame_length" "read as u64 == len"
  let bitmap ← decodeBuffer ("frame " ++ toString number) buffer.bytes
  return (bitmap, pool.handBack buffer)

/-- Reads `count` frames, from the one with the given number on. -/
def readFrames (a : Allocator) (pool : Pool) (number : Nat) : Nat → Intake (List Bitmap)
  | 0 => return []
  | count + 1 => do
    let (bitmap, pool) ← readFrame a pool number
    return bitmap :: (← readFrames a pool (number + 1) count)

/-- Reads an index. It is at least as wide as its bounds need, and its settings are the default
ones. -/
def Index.read (a : Allocator) : Intake Index := do
  let magic := Word.value (← Intake.field 4)
  Error.checkFormat (magic = streamMagic) "magic" "magic == Self::BSI_FORMAT_MAGIC_VERSION"
  let maxValue := signedValue (← Intake.field 8)
  let minValue := signedValue (← Intake.field 8)
  let count := Word.value (← Intake.field 4)
  Error.checkFormat (1 ≤ count && count ≤ Planes.limit + 1) "buffer_count"
    "buffer_count >= 1 && buffer_count <= MAX_PLANES + 1"
  let bitmaps ← readFrames a ∅ 0 count
  let planes := Planes.grow bitmaps.tail (boundsWidth maxValue minValue)
  return { maxValue, minValue, planes, existence := bitmaps.headD ∅, settings := {} }

end BitSliced
