/-!
# Numbers as bytes

An unsigned number below 251 is one byte. A larger one is a mark and two, four or eight bytes, the
lowest first; it is written in the shortest of these forms and read in any. Signed numbers alternate
with the unsigned ones: 0, -1, 1, -2, and so on.
-/

namespace CausalReplica.Batch

/-- Reads a value from the front of the bytes and leaves the rest. -/
abbrev Reader := StateT (List UInt8) Option

namespace Reader

def byte : Reader UInt8
  | [] => none
  | b :: rest => some (b, rest)

/-- Reads `n` values one after the other. -/
def times (r : Reader α) : Nat → Reader (List α)
  | 0 => pure []
  | n + 1 => do
    let a ← r
    let as ← times r n
    return a :: as

end Reader

/-- The lowest `k` bytes of `n`, the lowest first. -/
def littleEndian : Nat → Nat → List UInt8
  | 0, _ => []
  | k + 1, n => UInt8.ofNat n :: littleEndian k (n / 256)

def ofLittleEndian : List UInt8 → Nat
  | [] => 0
  | b :: rest => b.toNat + 256 * ofLittleEndian rest

def encodeNat (n : Nat) : List UInt8 :=
  if n < 251 then [UInt8.ofNat n]
  else if n < UInt16.size then 251 :: littleEndian 2 n
  else if n < UInt32.size then 252 :: littleEndian 4 n
  else 253 :: littleEndian 8 n

def decodeNat : Reader Nat := do
  let b ← Reader.byte
  if b < 251 then return b.toNat
  else if b = 251 then return ofLittleEndian (← Reader.byte.times 2)
  else if b = 252 then return ofLittleEndian (← Reader.byte.times 4)
  else if b = 253 then return ofLittleEndian (← Reader.byte.times 8)
  else failure

/-- A number that fits its field. -/
def decodeUpTo (limit : Nat) : Reader Nat := do
  let n ← decodeNat
  if n ≤ limit then return n else failure

/-- The place of a signed number in the alternating order. -/
def zigzag : Int → Nat
  | .ofNat n => 2 * n
  | .negSucc n => 2 * n + 1

def ofZigzag (m : Nat) : Int := if m % 2 = 0 then .ofNat (m / 2) else .negSucc (m / 2)

end CausalReplica.Batch
