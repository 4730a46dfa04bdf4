import CausalReplica.Batch.Varint
import Mathlib.Algebra.Ring.Nat

/-!
# Reading back numbers

A reader reads a value from some bytes when it returns the value and whatever follows the bytes.
Readers made of readers read what is written one after the other, and every number that fits eight
bytes is read back.
-/

namespace CausalReplica.Batch

/-- `r` reads `a` from `bytes` and leaves what follows. -/
def Reads (r : Reader α) (bytes : List UInt8) (a : α) : Prop :=
  ∀ rest, r (bytes ++ rest) = some (a, rest)

namespace Reads

variable {r : Reader α} {f : α → Reader β} {bytes more : List UInt8} {a : α} {b : β}

theorem pure (a : α) : Reads (Pure.pure a) [] a := fun _ => rfl

theorem bind (h : Reads r bytes a) (h' : Reads (f a) more b) :
    Reads (r >>= f) (bytes ++ more) b := by
  intro rest
  have hread := h (more ++ rest)
  rw [List.append_assoc]
  change (r (bytes ++ (more ++ rest))).bind (fun p => f p.1 p.2) = _
  rw [hread]
  exact h' rest

/-- What comes after the last byte is read only decides what is returned. -/
theorem andThen (h : Reads r bytes a) (h' : Reads (f a) [] b) : Reads (r >>= f) bytes b := by
  have hread := h.bind h'
  rwa [List.append_nil] at hread

theorem map (h : Reads r bytes a) (g : α → β) :
    Reads (r >>= fun a => Pure.pure (g a)) bytes (g a) :=
  h.andThen (.pure (g a))

theorem byte (b : UInt8) : Reads Reader.byte [b] b := fun _ => rfl

theorem times {encode : α → List UInt8} {as : List α} (h : ∀ a ∈ as, Reads r (encode a) a) :
    Reads (r.times as.length) (as.flatMap encode) as := by
  induction as with
  | nil => exact .pure []
  | cons a as ih =>
    have hrest := ih fun a' ha => h a' (List.mem_cons_of_mem a ha)
    exact (h a List.mem_cons_self).bind (hrest.map fun as => a :: as)

end Reads

theorem littleEndian_length (k n : Nat) : (littleEndian k n).length = k := by
  induction k generalizing n with
  | zero => rfl
  | succ k ih => rw [littleEndian, List.length_cons, ih]

theorem ofLittleEndian_littleEndian {k n : Nat} (h : n < 256 ^ k) :
    ofLittleEndian (littleEndian k n) = n := by
  induction k generalizing n with
  | zero =>
    rw [Nat.pow_zero] at h
    change 0 = n
    omega
  | succ k ih =>
    have hn : n / 256 < 256 ^ k := by
      rw [Nat.pow_succ] at h
      exact Nat.div_lt_of_lt_mul (by omega)
    rw [littleEndian, ofLittleEndian, ih hn, UInt8.toNat_ofNat']
    omega

theorem reads_bytes (bytes : List UInt8) : Reads (Reader.byte.times bytes.length) bytes bytes := by
  have hread : Reads (Reader.byte.times bytes.length) (bytes.flatMap fun b => [b]) bytes :=
    Reads.times fun b _ => Reads.byte b
  rwa [List.flatMap_singleton'] at hread

theorem reads_littleEndian {k n : Nat} (h : n < 256 ^ k) :
    Reads (Reader.byte.times k >>= fun bytes => pure (ofLittleEndian bytes))
      (littleEndian k n) n := by
  have hread := (reads_bytes (littleEndian k n)).map ofLittleEndian
  rwa [littleEndian_length, ofLittleEndian_littleEndian h] at hread

theorem encodeNat_pos (n : Nat) : 0 < (encodeNat n).length := by
  unfold encodeNat
  split
  · exact Nat.one_pos
  · split
    · exact Nat.succ_pos _
    · split <;> exact Nat.succ_pos _

theorem reads_nat {n : Nat} (h : n < UInt64.size) : Reads decodeNat (encodeNat n) n := by
  unfold encodeNat
  split
  · next hn =>
    have hb : (UInt8.ofNat n).toNat = n := by
      rw [UInt8.toNat_ofNat']
      exact Nat.mod_eq_of_lt (by omega)
    have hlt : UInt8.ofNat n < 251 := by
      rw [UInt8.lt_iff_toNat_lt, hb]
      exact hn
    refine (Reads.byte (UInt8.ofNat n)).andThen ?_
    rw [if_pos hlt, hb]
    exact .pure n
  · split
    · next hn => exact (Reads.byte 251).bind (reads_littleEndian hn)
    · split
      · next hn => exact (Reads.byte 252).bind (reads_littleEndian hn)
      · exact (Reads.byte 253).bind (reads_littleEndian h)

theorem reads_upTo {limit n : Nat} (h : n ≤ limit) (hn : n < UInt64.size) :
    Reads (decodeUpTo limit) (encodeNat n) n := by
  refine (reads_nat hn).andThen ?_
  rw [if_pos h]
  exact .pure n

theorem ofZigzag_zigzag (n : Int) : ofZigzag (zigzag n) = n := by
  cases n with
  | ofNat n => simp [zigzag, ofZigzag]
  | negSucc n =>
    have h : (2 * n + 1) / 2 = n := by omega
    simp [zigzag, ofZigzag, h]

theorem zigzag_lt {n : Int} (hl : Int64.minValue.toInt ≤ n) (hu : n ≤ Int64.maxValue.toInt) :
    zigzag n < UInt64.size := by
  change -9223372036854775808 ≤ n at hl
  change n ≤ 9223372036854775807 at hu
  cases n with
  | ofNat n =>
    change 2 * n < 18446744073709551616
    rw [Int.ofNat_eq_natCast] at hu
    omega
  | negSucc n =>
    change 2 * n + 1 < 18446744073709551616
    omega

end CausalReplica.Batch
