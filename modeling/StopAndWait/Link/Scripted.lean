import StopAndWait.Dialog.Run

namespace StopAndWait

inductive Arrival
  | buffer (bytes : Bytes)
  | timeout
  deriving DecidableEq, Repr

structure ScriptedLink where
  -- What the reads to come meet.
  arrivals : List Arrival := []
  -- What every read after them brings; without it the link is closed then.
  defaultReply : Option Bytes := none
  -- How many of the next writes time out.
  failingWrites : Nat := 0
  written : Array Bytes := #[]
  readTimeouts : Array Millis := #[]

namespace ScriptedLink

def arrive (s : ScriptedLink) : Except LinkError Bytes × List Arrival :=
  match s.arrivals with
  | .buffer bytes :: rest => (.ok bytes, rest)
  | .timeout :: rest => (.error .timeout, rest)
  | [] => (match s.defaultReply with
    | some bytes => .ok bytes
    | none => .error .closed, [])

instance : Link ScriptedLink where
  read s capacity timeout :=
    let (arrival, arrivals) := s.arrive
    some (arrival.map (·.take capacity),
      { s with arrivals, readTimeouts := s.readTimeouts.push timeout })
  write s bytes _ :=
    match s.failingWrites with
    | n + 1 => some (.error .timeout, { s with failingWrites := n })
    | 0 => some (.ok bytes.length, { s with written := s.written.push bytes })

end ScriptedLink

end StopAndWait
