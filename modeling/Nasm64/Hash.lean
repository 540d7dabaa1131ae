/-! The 64-bit xxHash of a byte string, with seed zero. -/
namespace Nasm64.Hash

def prime1 : UInt64 := 11400714785074694791
def prime2 : UInt64 := 14029467366897019727
def prime3 : UInt64 := 1609587929392839161
def prime4 : UInt64 := 9650029242287828579
def prime5 : UInt64 := 2870177450012600261

def rotateLeft (word count : UInt64) : UInt64 := word <<< count ||| word >>> (64 - count)

def littleEndian (bytes : List UInt8) : UInt64 :=
  bytes.foldr (fun byte word => word <<< 8 ||| byte.toUInt64) 0

def mixLane (lane input : UInt64) : UInt64 := rotateLeft (lane + input * prime2) 31 * prime1

def mergeLane (hash lane : UInt64) : UInt64 := (hash ^^^ mixLane 0 lane) * prime1 + prime4

/-- Four lanes, each fed eight bytes of every 32-byte stripe. -/
structure Lanes where
  first : UInt64 := prime1 + prime2
  second : UInt64 := prime2
  third : UInt64 := 0
  fourth : UInt64 := 0 - prime1

def Lanes.feed (lanes : Lanes) (bytes : List UInt8) : Lanes where
  first := mixLane lanes.first (littleEndian (bytes.take 8))
  second := mixLane lanes.second (littleEndian ((bytes.drop 8).take 8))
  third := mixLane lanes.third (littleEndian ((bytes.drop 16).take 8))
  fourth := mixLane lanes.fourth (littleEndian ((bytes.drop 24).take 8))

def Lanes.merge (lanes : Lanes) : UInt64 :=
  let sum := rotateLeft lanes.first 1 + rotateLeft lanes.second 7 + rotateLeft lanes.third 12 +
    rotateLeft lanes.fourth 18
  [lanes.first, lanes.second, lanes.third, lanes.fourth].foldl mergeLane sum

/-- Feeds the given number of stripes from the front of `bytes`. -/
def stripes : Nat → List UInt8 → Lanes → Lanes
  | 0, _, lanes => lanes
  | count + 1, bytes, lanes => stripes count (bytes.drop 32) (lanes.feed bytes)

/-- Mixes the given number of eight-byte words from the front of `bytes`. -/
def mixWords : Nat → List UInt8 → UInt64 → UInt64
  | 0, _, hash => hash
  | count + 1, bytes, hash =>
    mixWords count (bytes.drop 8)
      (rotateLeft (hash ^^^ mixLane 0 (littleEndian (bytes.take 8))) 27 * prime1 + prime4)

def mixHalf (half : List UInt8) (hash : UInt64) : UInt64 :=
  rotateLeft (hash ^^^ littleEndian half * prime1) 23 * prime2 + prime3

def mixByte (hash : UInt64) (byte : UInt8) : UInt64 :=
  rotateLeft (hash ^^^ byte.toUInt64 * prime5) 11 * prime1

/-- Mixes the bytes that fill no stripe: whole words, then half a word, then single bytes. -/
def mixRest (bytes : List UInt8) (hash : UInt64) : UInt64 :=
  let words := bytes.length / 8
  let hash := mixWords words bytes hash
  let rest := bytes.drop (words * 8)
  if 4 ≤ rest.length then (rest.drop 4).foldl mixByte (mixHalf (rest.take 4) hash)
  else rest.foldl mixByte hash

def avalanche (hash : UInt64) : UInt64 :=
  let hash := (hash ^^^ hash >>> 33) * prime2
  let hash := (hash ^^^ hash >>> 29) * prime3
  hash ^^^ hash >>> 32

def hash64 (bytes : List UInt8) : UInt64 :=
  let count := bytes.length / 32
  let start := if count == 0 then prime5 else (stripes count bytes {}).merge
  avalanche (mixRest (bytes.drop (count * 32)) (start + UInt64.ofNat bytes.length))

end Nasm64.Hash
