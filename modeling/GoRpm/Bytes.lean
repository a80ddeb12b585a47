import Mathlib.Tactic

/-!
Byte-level vocabulary shared by the RPM header codec and the SCPIO stream codec. A Go
`[]byte` or `string` is a `List UInt8`; a byte source behaves like a `bytes.Buffer`, so a read
returns as many bytes as it asks for while any are left; a sink never fails. Go's `binary`
package and `io.ReadFull` are described by what they compute (big-endian integers, and the
two end-of-stream errors), not by their source.
-/

namespace GoRpm

/-- The end-of-stream errors of `io.ReadFull` and `binary.Read`. -/
inductive IoError where
  | eof
  | unexpectedEOF
  deriving DecidableEq, Repr

section Except

variable {ε α β : Type}

@[simp] theorem ok_bind (a : α) (f : α → Except ε β) : (Except.ok a >>= f) = f a := rfl

@[simp] theorem error_bind (e : ε) (f : α → Except ε β) : (Except.error e >>= f) = .error e := rfl

@[simp] theorem map_ok (f : α → β) (a : α) : (f <$> (Except.ok a : Except ε α)) = .ok (f a) := rfl

@[simp] theorem map_error (f : α → β) (e : ε) : (f <$> (Except.error e : Except ε α)) = .error e :=
  rfl

@[simp] theorem pure_eq_ok (a : α) : (pure a : Except ε α) = .ok a := rfl

@[simp] theorem throw_eq_error (e : ε) : (throw e : Except ε α) = .error e := rfl

theorem bind_eq_ok {x : Except ε α} {f : α → Except ε β} {b : β} (h : (x >>= f) = .ok b) :
    ∃ a, x = .ok a ∧ f a = .ok b := by
  cases x with
  | error e => cases h
  | ok a => exact ⟨a, rfl, h⟩

theorem map_eq_ok {x : Except ε α} {f : α → β} {b : β} (h : (f <$> x) = .ok b) :
    ∃ a, x = .ok a ∧ f a = b := by
  cases x with
  | error e => cases h
  | ok a => exact ⟨a, rfl, Except.ok.inj h⟩

theorem eq_of_ite_error_ok {c : Prop} [Decidable c] {e : ε} {a b : α}
    (h : (if c then .error e else .ok a : Except ε α) = .ok b) : a = b := by
  split at h <;> cases h
  rfl

end Except

/-- `n` zero bytes, as written from the zero arrays `zb`. -/
def zeros (n : Nat) : List UInt8 := List.replicate n 0

@[simp] theorem length_zeros (n : Nat) : (zeros n).length = n := List.length_replicate n 0

@[simp] theorem zeros_zero : zeros 0 = [] := rfl

@[simp] theorem toNat_uint8_ofNat (n : Nat) : (UInt8.ofNat n).toNat = n % 256 :=
  BitVec.toNat_ofNat _ _

@[simp] theorem toNat_uint16_ofNat (n : Nat) : (UInt16.ofNat n).toNat = n % 2 ^ 16 :=
  BitVec.toNat_ofNat _ _

@[simp] theorem toNat_uint32_ofNat (n : Nat) : (UInt32.ofNat n).toNat = n % 2 ^ 32 :=
  BitVec.toNat_ofNat _ _

@[simp] theorem toNat_uint64_ofNat (n : Nat) : (UInt64.ofNat n).toNat = n % 2 ^ 64 :=
  BitVec.toNat_ofNat _ _

@[simp] theorem toNat_uint32_add (a b : UInt32) : (a + b).toNat = (a.toNat + b.toNat) % 2 ^ 32 :=
  BitVec.toNat_add _ _

@[simp] theorem toNat_uint64_add (a b : UInt64) : (a + b).toNat = (a.toNat + b.toNat) % 2 ^ 64 :=
  BitVec.toNat_add _ _

@[simp] theorem toNat_uint32_mul (a b : UInt32) : (a * b).toNat = a.toNat * b.toNat % 2 ^ 32 :=
  BitVec.toNat_mul _ _

theorem toNat_uint32_sub (a b : UInt32) : (a - b).toNat = (2 ^ 32 - b.toNat + a.toNat) % 2 ^ 32 :=
  BitVec.toNat_sub _ _

theorem uint32_lt_iff {a b : UInt32} : a < b ↔ a.toNat < b.toNat := Iff.rfl

theorem uint32_le_iff {a b : UInt32} : a ≤ b ↔ a.toNat ≤ b.toNat := Iff.rfl

theorem uint8_toNat_lt (b : UInt8) : b.toNat < 256 := b.toNat_lt_size

theorem uint16_toNat_lt (x : UInt16) : x.toNat < 2 ^ 16 := x.toNat_lt_size

theorem uint32_toNat_lt (x : UInt32) : x.toNat < 2 ^ 32 := x.toNat_lt_size

theorem uint64_toNat_lt (x : UInt64) : x.toNat < 2 ^ 64 := x.toNat_lt_size

/-- `io.ReadFull(r, make([]byte, n))`: exactly `n` bytes, `EOF` when none is left and
`ErrUnexpectedEOF` when only some are. -/
def readFull (n : Nat) (s : List UInt8) : Except IoError (List UInt8 × List UInt8) :=
  if n ≤ s.length then .ok (s.take n, s.drop n)
  else if s = [] then .error .eof else .error .unexpectedEOF

theorem readFull_ok {n : Nat} {s b rest : List UInt8} (h : readFull n s = .ok (b, rest)) :
    n ≤ s.length ∧ b = s.take n ∧ rest = s.drop n := by
  unfold readFull at h
  split_ifs at h with hn
  cases h
  exact ⟨hn, rfl, rfl⟩

theorem readFull_append {n : Nat} {b : List UInt8} (rest : List UInt8) (hb : b.length = n) :
    readFull n (b ++ rest) = .ok (b, rest) := by
  subst hb
  simp [readFull]

/-- Go's `x &^ m` on non-negative integers: clear in `x` the bits set in `m`, which are the
bits of `x &&& m`. -/
def andNot (x m : Nat) : Nat := x - (x &&& m)

theorem andNot_two_pow_sub_one (x k : Nat) : andNot x (2 ^ k - 1) = x / 2 ^ k * 2 ^ k := by
  have h := Nat.div_add_mod x (2 ^ k)
  rw [andNot, Nat.and_pow_two_sub_one_eq_mod, Nat.mul_comm]
  omega

theorem andNot_add_three (x : Nat) : andNot (x + 3) 3 = (x + 3) / 4 * 4 :=
  andNot_two_pow_sub_one (x + 3) 2

theorem andNot_add_seven (x : Nat) : andNot (x + 7) 7 = (x + 7) / 8 * 8 :=
  andNot_two_pow_sub_one (x + 7) 3

theorem andNot_add_seven_sub (r : Nat) : andNot (r + 7) 7 - r = (8 - r % 8) % 8 := by
  rw [andNot_add_seven]
  omega

/-- On `uint32`, `x &^ (2^k - 1)` is written `x &&& ~~~m`; it rounds down to a multiple of
`2 ^ k` just as `andNot` does on naturals. -/
theorem toNat_and_not_two_pow_sub_one (x m : UInt32) {k : Nat} (hm : m.toNat = 2 ^ k - 1) :
    (x &&& ~~~m).toNat = x.toNat / 2 ^ k * 2 ^ k := by
  apply Nat.eq_of_testBit_eq
  intro i
  have hx : x.toNat < 2 ^ 32 := x.toNat_lt_size
  have hmbit : m.toBitVec.getLsbD i = decide (i < k) := by
    rw [← BitVec.testBit_toNat, ← UInt32.toNat, hm, Nat.testBit_two_pow_sub_one]
  rw [← Nat.shiftRight_eq_div_pow, ← Nat.shiftLeft_eq, Nat.testBit_shiftLeft,
    Nat.testBit_shiftRight]
  change (x.toBitVec &&& ~~~m.toBitVec).toNat.testBit i = _
  rw [BitVec.testBit_toNat, BitVec.getLsbD_and, BitVec.getLsbD_not, hmbit,
    ← BitVec.testBit_toNat, ← UInt32.toNat]
  by_cases hik : i < k
  · simp [hik]
  · have hsum : k + (i - k) = i := by omega
    by_cases hi : i < 32
    · simp [hik, hi, hsum, Nat.le_of_not_lt hik]
    · have hfalse : x.toNat.testBit i = false :=
        Nat.testBit_eq_false_of_lt (lt_of_lt_of_le hx (Nat.pow_le_pow_right (by norm_num) (by omega)))
      simp [hik, hi, hsum, hfalse]

/-- The `w` big-endian bytes of `n`, most significant first; bits above `8 * w` are dropped. -/
def beBytes : Nat → Nat → List UInt8
  | 0, _ => []
  | w + 1, n => UInt8.ofNat (n / 256 ^ w % 256) :: beBytes w n

/-- The natural number with the given big-endian bytes. -/
def beValue : List UInt8 → Nat
  | [] => 0
  | b :: bs => b.toNat * 256 ^ bs.length + beValue bs

@[simp] theorem length_beBytes (w n : Nat) : (beBytes w n).length = w := by
  induction w with
  | zero => rfl
  | succ w ih => simp [beBytes, ih]

theorem beValue_beBytes (w n : Nat) : beValue (beBytes w n) = n % 256 ^ w := by
  induction w with
  | zero => simp [beBytes, beValue, Nat.mod_one]
  | succ w ih =>
    have hdigit : (n / 256 ^ w % 256) % 256 = n / 256 ^ w % 256 := Nat.mod_mod _ _
    simp only [beBytes, beValue, length_beBytes, ih, toNat_uint8_ofNat, hdigit, Nat.mod_pow_succ]
    ring

/-- `binary.BigEndian.PutUint16`. -/
def putUint16 (x : UInt16) : List UInt8 := beBytes 2 x.toNat

/-- `binary.BigEndian.PutUint32`. -/
def putUint32 (x : UInt32) : List UInt8 := beBytes 4 x.toNat

/-- `binary.BigEndian.PutUint64`. -/
def putUint64 (x : UInt64) : List UInt8 := beBytes 8 x.toNat

/-- `binary.BigEndian.Uint16` of the first two bytes. -/
def getUint16 (bs : List UInt8) : UInt16 := UInt16.ofNat (beValue (bs.take 2))

/-- `binary.BigEndian.Uint32` of the first four bytes. -/
def getUint32 (bs : List UInt8) : UInt32 := UInt32.ofNat (beValue (bs.take 4))

/-- `binary.BigEndian.Uint64` of the first eight bytes. -/
def getUint64 (bs : List UInt8) : UInt64 := UInt64.ofNat (beValue (bs.take 8))

@[simp] theorem length_putUint16 (x : UInt16) : (putUint16 x).length = 2 := length_beBytes _ _
@[simp] theorem length_putUint32 (x : UInt32) : (putUint32 x).length = 4 := length_beBytes _ _
@[simp] theorem length_putUint64 (x : UInt64) : (putUint64 x).length = 8 := length_beBytes _ _

@[simp] theorem getUint16_putUint16 (x : UInt16) (rest : List UInt8) :
    getUint16 (putUint16 x ++ rest) = x := by
  apply UInt16.toNat.inj
  simp only [getUint16, putUint16, List.take_left' (length_beBytes 2 x.toNat), beValue_beBytes,
    toNat_uint16_ofNat]
  have hx := uint16_toNat_lt x
  norm_num at hx ⊢
  omega

@[simp] theorem getUint32_putUint32 (x : UInt32) (rest : List UInt8) :
    getUint32 (putUint32 x ++ rest) = x := by
  apply UInt32.toNat.inj
  simp only [getUint32, putUint32, List.take_left' (length_beBytes 4 x.toNat), beValue_beBytes,
    toNat_uint32_ofNat]
  have hx := uint32_toNat_lt x
  norm_num at hx ⊢
  omega

@[simp] theorem getUint32_putUint32_self (x : UInt32) : getUint32 (putUint32 x) = x := by
  simpa using getUint32_putUint32 x []

@[simp] theorem getUint64_putUint64 (x : UInt64) (rest : List UInt8) :
    getUint64 (putUint64 x ++ rest) = x := by
  apply UInt64.toNat.inj
  simp only [getUint64, putUint64, List.take_left' (length_beBytes 8 x.toNat), beValue_beBytes,
    toNat_uint64_ofNat]
  have hx := uint64_toNat_lt x
  norm_num at hx ⊢
  omega

end GoRpm
