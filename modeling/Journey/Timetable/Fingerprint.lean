import Journey.Digest.Sha256
import Journey.Timetable.TripTimes

/-!
# Fingerprints of trips

Two trips with the same scheduled departure and next arrival on every hop
have the same fingerprint, whatever realtime data says.
-/

namespace Journey

/-- The 32 bytes that stand for the scheduled hops of a trip. -/
structure Fingerprint where
  bytes : List UInt8
  deriving DecidableEq, Repr

namespace Fingerprint

def hexDigit (n : Nat) : Char :=
  if n < 10 then Char.ofNat (48 + n) else Char.ofNat (87 + n)

def text (f : Fingerprint) : String :=
  String.ofList (f.bytes.flatMap fun b => [hexDigit (b.toNat / 16), hexDigit (b.toNat % 16)])

def tagged (f : Fingerprint) : String := s!"SemanticHash({f.text})"

end Fingerprint

namespace TripTimes

/-- The four bytes of a time, the highest first. -/
def timeBytes (time : Int) : List UInt8 := Sha256.bigEndian 4 (time % 4294967296).toNat

/-- The bytes of the hop from a stop to the next one. -/
def hopBytes (t : TripTimes) (stop : Nat) : Checked (List UInt8) := do
  let departure ← t.scheduledDeparture stop
  let arrival ← t.scheduledArrival (stop + 1)
  return timeBytes departure ++ timeBytes arrival

def fingerprint (t : TripTimes) : Checked Fingerprint := do
  let hops ← (List.range (t.stopCount - 1)).mapM t.hopBytes
  return { bytes := Sha256.hash hops.flatten }

end TripTimes

end Journey
