import PostingQuery.Failure

/-!
The version of the library and the settings shared by the scorers of one segment.
-/

namespace PostingQuery

def version : String := "0.1.0"

/-- The largest chunk size: a chunk is the range of positions that a phrase looks at in one pass. -/
def largestChunkSize : UInt64 := 1048576

structure Settings where
  /-- The number of buckets of the windowed search, which is also the width of its window. -/
  bucketTableSize : UInt64
  /-- The width of the chunks of positions in exact phrases. -/
  phraseChunkSize : UInt64
  /-- A phrase term that costs more than this many times the cheapest one is moved by jumps. -/
  phraseAdvanceRatio : UInt64
  /-- A phrase term that is moved by single steps jumps in place of this step. -/
  phraseMaxNextCalls : UInt64
  /-- Whether every coordination factor is one. -/
  coordDisabled : Bool
  deriving DecidableEq

namespace Settings

def standard : Settings := ⟨2048, 4096, 5, 50, false⟩

def isPowerOfTwo (size : UInt64) : Bool := size != 0 && size &&& (size - 1) == 0

def refusal (settings : Settings) : Option Misconfiguration :=
  if settings.bucketTableSize < 2 || !isPowerOfTwo settings.bucketTableSize then
    some (.tableSizeNotPowerOfTwo settings.bucketTableSize)
  else if 2147483647 < settings.bucketTableSize then
    some (.tableSizeBeyondDocuments settings.bucketTableSize)
  else if settings.phraseChunkSize = 0 ∨ largestChunkSize < settings.phraseChunkSize then
    some (.chunkSizeOutOfRange settings.phraseChunkSize largestChunkSize)
  else if settings.phraseMaxNextCalls = 0 then some .noNextCalls
  else none

def validate (settings : Settings) : Except Failure Unit :=
  match settings.refusal with
  | some why => .error (.invalidConfiguration why)
  | none => .ok ()

end Settings

end PostingQuery
