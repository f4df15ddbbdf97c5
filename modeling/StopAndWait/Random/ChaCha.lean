namespace StopAndWait

def rotateRight (w by5 : UInt32) : UInt32 := (w >>> by5) ||| (w <<< (32 - by5))

namespace ChaCha

abbrev Words := Vector UInt32 16

def rotateLeft (w k : UInt32) : UInt32 := (w <<< k) ||| (w >>> (32 - k))

def quarterRound (a b c d : Fin 16) (w : Words) : Words :=
  let w := w.set a (w[a] + w[b])
  let w := w.set d (rotateLeft (w[d] ^^^ w[a]) 16)
  let w := w.set c (w[c] + w[d])
  let w := w.set b (rotateLeft (w[b] ^^^ w[c]) 12)
  let w := w.set a (w[a] + w[b])
  let w := w.set d (rotateLeft (w[d] ^^^ w[a]) 8)
  let w := w.set c (w[c] + w[d])
  w.set b (rotateLeft (w[b] ^^^ w[c]) 7)

def doubleRound (w : Words) : Words :=
  quarterRound 3 4 9 14 <| quarterRound 2 7 8 13 <| quarterRound 1 6 11 12 <|
  quarterRound 0 5 10 15 <| quarterRound 3 7 11 15 <| quarterRound 2 6 10 14 <|
  quarterRound 1 5 9 13 <| quarterRound 0 4 8 12 w

def constants : Vector UInt32 4 := #v[0x61707865, 0x3320646e, 0x79622d32, 0x6b206574]

def start (key : Vector UInt32 8) (counter : UInt64) : Words :=
  constants ++ key ++ #v[counter.toUInt32, (counter >>> 32).toUInt32, 0, 0]

def block (key : Vector UInt32 8) (counter : UInt64) : Words :=
  let w := start key counter
  Vector.zipWith (· + ·) (Nat.repeat doubleRound 6 w) w

end ChaCha

namespace Seed

def next (s : UInt64) : UInt64 := s * 6364136223846793005 + 11634580027462260723

def word (s : UInt64) : UInt32 :=
  rotateRight (((s >>> 18) ^^^ s) >>> 27).toUInt32 (s >>> 59).toUInt32

def key (s : UInt64) : Vector UInt32 8 :=
  Vector.ofFn fun i => word (Nat.repeat next (i + 1) s)

end Seed

structure Generator where
  key : Vector UInt32 8
  -- The number of the next block.
  counter : UInt64 := 0
  -- The words of the last block that are left.
  ready : List UInt32 := []

namespace Generator

def ofSeed (seed : UInt64) : Generator := { key := Seed.key seed }

def word (g : Generator) : UInt32 × Generator :=
  match g.ready with
  | w :: ready => (w, { g with ready })
  | [] =>
    let block := ChaCha.block g.key g.counter
    (block[0], { g with counter := g.counter + 1, ready := block.toList.tail })

def doubleWord (g : Generator) : UInt64 × Generator :=
  let (low, g) := g.word
  let (high, g) := g.word
  (low.toUInt64 ||| (high.toUInt64 <<< 32), g)

end Generator

end StopAndWait
