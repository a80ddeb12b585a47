import GoRpm.Scpio.Archive

/-!
The archive round trip. `archiveLayout` is the stream the writer is meant to produce: before
each record header and before the trailer the fewest zeros that bring the position to a
multiple of four, after the 14-byte header the two zeros and after the 121-byte trailer the
three zeros that do the same. `writeArchive_eq` shows the writer produces it; `session_layout`
shows that a caller driving `Next` over it gets every record back, each `Next` leaving the
stream at the first byte of the record's payload, and that the last `Next` ends exactly at the
end of the stream.
-/

namespace GoRpm.Scpio

theorem fromHexChar_hexDigit : ∀ v : Fin 16,
    fromHexChar (hexDigits.getD v 0) = some (UInt8.ofNat v) := by decide

theorem hexPair : ∀ a b : Fin 16,
    (UInt8.ofNat a <<< 4 ||| UInt8.ofNat b) = UInt8.ofNat (a * 16 + b) := by decide

theorem shiftRight_and_fifteen (m i : Nat) : (m >>> (i * 4)) &&& 0xf = m / 16 ^ i % 16 := by
  rw [Nat.shiftRight_eq_div_pow, show (0xf : Nat) = 2 ^ 4 - 1 from rfl,
    Nat.and_pow_two_sub_one_eq_mod, pow_mul']
  norm_num

theorem fromHexChar_digit (m : Nat) :
    fromHexChar (hexDigits.getD (m % 16) 0) = some (UInt8.ofNat (m % 16)) :=
  fromHexChar_hexDigit ⟨m % 16, Nat.mod_lt _ (by norm_num)⟩

theorem hexPair_mod (a b : Nat) :
    (UInt8.ofNat (a % 16) <<< 4 ||| UInt8.ofNat (b % 16)) = UInt8.ofNat (a % 16 * 16 + b % 16) :=
  hexPair ⟨a % 16, Nat.mod_lt _ (by norm_num)⟩ ⟨b % 16, Nat.mod_lt _ (by norm_num)⟩

theorem hexDigits_byte (m i : Nat) :
    m / 16 ^ (2 * i + 1) % 16 * 16 + m / 16 ^ (2 * i) % 16 = m / 256 ^ i % 256 := by
  have h256 : (256 : Nat) ^ i = 16 ^ (2 * i) := by rw [pow_mul]; norm_num
  rw [pow_succ, ← Nat.div_div_eq_div_mul, h256]
  omega

/-- `hex.Decode` reads back the four big-endian bytes of the number `fmt16` wrote. -/
theorem hexDecode_fmt16 (n : UInt32) : hexDecode (fmt16 n) = .ok (putUint32 n) := by
  simp only [fmt16, List.range, List.range.loop, List.reverse_cons, List.reverse_nil,
    List.nil_append, List.cons_append, List.singleton_append, List.map_cons, List.map_nil,
    shiftRight_and_fifteen]
  simp only [hexDecode, fromHexChar_digit, hexPair_mod, map_ok]
  simp only [putUint32, beBytes, Except.ok.injEq, List.cons.injEq, and_true]
  refine ⟨?_, ?_, ?_, ?_⟩ <;> congr 1
  exacts [hexDigits_byte _ 3, hexDigits_byte _ 2, hexDigits_byte _ 1, hexDigits_byte _ 0]

@[simp] theorem length_fmt16 (n : UInt32) : (fmt16 n).length = 8 := by simp [fmt16]

@[simp] theorem length_newHeader_scpio (ino : UInt32) : (newHeader scpioMagic [ino]).length = 14 := by
  simp [newHeader, scpioMagic]

@[simp] theorem length_trailer : trailer.length = 121 := rfl

/-- The zeros `align` adds at position `p`. -/
def pad4 (p : Nat) : Nat := (4 - p % 4) % 4

theorem andNot_add_three_sub (p : Nat) : andNot (p + 3) 3 - p = pad4 p := by
  rw [andNot_add_three, pad4]; omega

theorem pad4_lt (p : Nat) : pad4 p < 4 := by unfold pad4; omega

theorem pad4_add_pad4 (p k : Nat) : pad4 (p + pad4 p + k) = pad4 k := by
  have h : (p + pad4 p) % 4 = 0 := by unfold pad4; omega
  show (4 - (p + pad4 p + k) % 4) % 4 = (4 - k % 4) % 4
  rw [Nat.add_mod, h, Nat.zero_add, Nat.mod_mod]

/-- The archive the writer is meant to produce from position `p`: each record header at a
multiple of four after fewer than four zeros, padded with two zeros, followed by its payload,
then the trailer, padded the same way. -/
def archiveLayout : Nat → List (UInt32 × List UInt8) → List UInt8
  | p, [] => zeros (pad4 p) ++ trailer ++ zeros 3
  | p, (ino, b) :: rs =>
    zeros (pad4 p) ++ newHeader scpioMagic [ino] ++ zeros 2 ++ b ++
      archiveLayout (p + pad4 p + 16 + b.length) rs

@[simp] theorem Writer.write_off (s : Writer) (b : List UInt8) : (s.write b).off = s.off + b.length :=
  rfl

@[simp] theorem Writer.write_out (s : Writer) (b : List UInt8) : (s.write b).out = s.out ++ b := rfl

theorem Writer.write_write (s : Writer) (a b : List UInt8) : (s.write a).write b = s.write (a ++ b) := by
  simp [Writer.write, Nat.add_assoc]

theorem Writer.align_eq (s : Writer) : s.align = s.write (zeros (pad4 s.off)) := by
  rw [Writer.align, andNot_add_three_sub]

theorem Writer.writeHeader_eq (s : Writer) (ino : UInt32) :
    s.writeHeader ino = s.write (zeros (pad4 s.off) ++ newHeader scpioMagic [ino] ++ zeros 2) := by
  have h2 : pad4 (s.off + pad4 s.off + 14) = 2 := pad4_add_pad4 _ 14
  simp only [Writer.writeHeader, Writer.writeHeaderWith, Writer.align_eq, Writer.write_write,
    Bool.false_eq_true, if_false, Writer.write_off, List.length_append, length_zeros,
    length_newHeader_scpio, Nat.add_assoc] at h2 ⊢
  rw [h2, List.append_assoc]

theorem Writer.close_eq (s : Writer) : s.close = s.write (zeros (pad4 s.off) ++ trailer ++ zeros 3) := by
  have h3 : pad4 (s.off + pad4 s.off + 121) = 3 := pad4_add_pad4 _ 121
  simp only [Writer.close, Writer.writeHeaderWith, Writer.align_eq, Writer.write_write, if_true,
    Writer.write_off, List.length_append, length_zeros, length_trailer, Nat.add_assoc] at h3 ⊢
  rw [h3, List.append_assoc]

theorem foldl_close (records : List (UInt32 × List UInt8)) (s : Writer) :
    (records.foldl (fun (s : Writer) (r : UInt32 × List UInt8) => (s.writeHeader r.1).write r.2)
      s).close = s.write (archiveLayout s.off records) := by
  induction records generalizing s with
  | nil => rw [List.foldl_nil, Writer.close_eq, archiveLayout]
  | cons r rs ih =>
    obtain ⟨ino, b⟩ := r
    rw [List.foldl_cons, ih, Writer.writeHeader_eq, Writer.write_write, Writer.write_write,
      archiveLayout]
    simp only [Writer.write_off, List.length_append, length_zeros, length_newHeader_scpio,
      List.append_assoc]
    rfl

/-- The writer writes the layout from position 0 and counts it. -/
theorem writeArchive_eq (records : List (UInt32 × List UInt8)) :
    writeArchive records =
      { off := (archiveLayout 0 records).length, out := archiveLayout 0 records } := by
  rw [writeArchive, foldl_close]
  simp [Writer.write]

theorem Reader.align_zeros {r : Reader} {more : List UInt8}
    (hrest : r.rest = zeros (pad4 r.off) ++ more) :
    r.align = .ok { rest := more, off := r.off + pad4 r.off } := by
  have := pad4_lt r.off
  simp [Reader.align, andNot_add_three_sub, hrest, zeros]

/-- `Next` at a record header: the record's inode, with the stream at its payload. -/
theorem Reader.next_record {r : Reader} {sz : Nat} {ino : UInt32} {more : List UInt8}
    (hrest : r.rest = zeros (pad4 (r.off + sz)) ++ newHeader scpioMagic [ino] ++ zeros 2 ++ more) :
    r.next sz = .ok (ino, { rest := more, off := r.off + sz + pad4 (r.off + sz) + 16 }) := by
  have halign := @Reader.align_zeros { r with off := r.off + sz }
    (newHeader scpioMagic [ino] ++ zeros 2 ++ more) (by simp only [hrest, List.append_assoc])
  have hread : readFull 16 (newHeader scpioMagic [ino] ++ zeros 2 ++ more) =
      .ok (newHeader scpioMagic [ino] ++ zeros 2, more) :=
    readFull_append more (by simp)
  have hmagic : (newHeader scpioMagic [ino] ++ zeros 2).take 6 = scpioMagic := by
    simp [newHeader, scpioMagic]
  have hdigits : ((newHeader scpioMagic [ino] ++ zeros 2).drop 6).take 8 = fmt16 ino := by
    simp [newHeader, scpioMagic]
  simp only [Reader.next, halign, ok_bind, hread, hmagic, if_true, hdigits, hexDecode_fmt16,
    getUint32_putUint32_self]

/-- `Next` at the trailer: inode 0, with the trailer and its padding consumed. -/
theorem Reader.next_trailer {r : Reader} {sz : Nat} {more : List UInt8}
    (hrest : r.rest = zeros (pad4 (r.off + sz)) ++ Scpio.trailer ++ zeros 3 ++ more) :
    r.next sz = .ok (0, { rest := more, off := r.off + sz + pad4 (r.off + sz) + 124 }) := by
  have halign := @Reader.align_zeros { r with off := r.off + sz }
    (Scpio.trailer ++ zeros 3 ++ more) (by simp only [hrest, List.append_assoc])
  have hsplit : Scpio.trailer ++ zeros 3 ++ more =
      Scpio.trailer.take 16 ++ (Scpio.trailer.drop 16 ++ zeros 3 ++ more) := by
    rw [← List.append_assoc, ← List.append_assoc, List.take_append_drop]
  have hread : readFull 16 (Scpio.trailer ++ zeros 3 ++ more) =
      .ok (Scpio.trailer.take 16, Scpio.trailer.drop 16 ++ zeros 3 ++ more) := by
    rw [hsplit]; exact readFull_append _ rfl
  have hread' : readFull 105 (Scpio.trailer.drop 16 ++ zeros 3 ++ more) =
      .ok (Scpio.trailer.drop 16, zeros 3 ++ more) := by
    rw [List.append_assoc]; exact readFull_append _ rfl
  have hpad : pad4 (r.off + sz + pad4 (r.off + sz) + 16 + 105) = 3 := by
    rw [Nat.add_assoc _ 16 105, pad4_add_pad4]; rfl
  have halign' := @Reader.align_zeros
    { rest := zeros 3 ++ more, off := r.off + sz + pad4 (r.off + sz) + 16 + 105 } more
    (by rw [hpad])
  have hnot : ¬ (Scpio.trailer.take 16).take 6 = scpioMagic := by decide
  have hnewc : (Scpio.trailer.take 16).take 6 = newcMagic := by decide
  have hname : (Scpio.trailer.drop 16).drop (105 - trailerName.length) = trailerName := by decide
  simp only [Reader.next, halign, ok_bind, hread, if_neg hnot, hnewc, if_true, Reader.trailer,
    hread', hname, ne_eq, not_true_eq_false, if_false, halign', map_ok, hpad]
  rfl

/-- A caller driving `Next` over the layout gets every record back, inode and payload, and ends
at the end of the layout. -/
theorem Reader.session_layout : ∀ (records : List (UInt32 × List UInt8)) (r : Reader) (sz : Nat)
    (more : List UInt8), r.rest = archiveLayout (r.off + sz) records ++ more →
    r.session sz (records.map fun x => x.2.length) =
      .ok (records, { rest := more, off := r.off + sz + (archiveLayout (r.off + sz) records).length })
  | [], r, sz, more, hrest => by
    rw [archiveLayout] at hrest
    simp only [List.map_nil, Reader.session, Reader.next_trailer hrest, ok_bind, pure_eq_ok,
      archiveLayout, List.length_append, length_zeros, length_trailer]
    simp only [Nat.add_assoc]
  | (ino, b) :: rs, r, sz, more, hrest => by
    rw [archiveLayout] at hrest
    have hnext := @Reader.next_record r sz ino (b ++ archiveLayout (r.off + sz + pad4 (r.off + sz) +
      16 + b.length) rs ++ more) (by simp only [hrest, List.append_assoc])
    have hrec := Reader.session_layout rs
      { rest := archiveLayout (r.off + sz + pad4 (r.off + sz) + 16 + b.length) rs ++ more,
        off := r.off + sz + pad4 (r.off + sz) + 16 } b.length more rfl
    simp only [List.map_cons, Reader.session, hnext, ok_bind, List.append_assoc,
      List.take_left' rfl, List.drop_left' rfl, hrec, pure_eq_ok, archiveLayout,
      List.length_append, length_zeros, length_newHeader_scpio]
    congr 3
    omega

/-- `WriteHeader(ino_k)` and `Write(payload_k)` for each record, then `Close`: the writer writes
the layout (each header at a multiple of four, fewer than four zeros before it) and counts it,
and a fresh `Reader` called as `Next(0)`, then `Next` with the length of the payload the caller
last read, returns each inode with the stream at the record's payload, and at the trailer
returns without error at the end of the stream. -/
theorem scpio_round_trip (records : List (UInt32 × List UInt8)) :
    (writeArchive records).out = archiveLayout 0 records ∧
      (writeArchive records).off = (writeArchive records).out.length ∧
      (Reader.ofBytes (writeArchive records).out).session 0 (records.map fun x => x.2.length) =
        .ok (records, { rest := [], off := (writeArchive records).out.length }) := by
  rw [writeArchive_eq records]
  refine ⟨rfl, rfl, ?_⟩
  have := Reader.session_layout records (Reader.ofBytes (archiveLayout 0 records)) 0 []
    (by simp [Reader.ofBytes])
  simpa [Reader.ofBytes] using this

/-- What a caller of `Next` sees, the inode or the error, at a well-formed trailer and at a
well-formed record header is the same exactly when the record's inode is 0: `Next` reports the
trailer as inode 0 with no error, so a caller tells the end of the archive by counting records,
as `TestReader` does. -/
theorem Reader.next_trailer_eq_record_iff {r r' : Reader} {sz sz' : Nat} {ino : UInt32}
    {more more' : List UInt8}
    (htr : r.rest = zeros (pad4 (r.off + sz)) ++ Scpio.trailer ++ zeros 3 ++ more)
    (hrec : r'.rest =
      zeros (pad4 (r'.off + sz')) ++ newHeader scpioMagic [ino] ++ zeros 2 ++ more') :
    Prod.fst <$> r.next sz = Prod.fst <$> r'.next sz' ↔ ino = 0 := by
  rw [Reader.next_trailer htr, Reader.next_record hrec]
  simp [eq_comm]

/-- The trailer `Close` writes and the record `WriteHeader(1)` writes, each read by a fresh
`Reader` with `Next(0)`: the caller tells them apart. -/
theorem next_trailer_ne_record_one :
    Prod.fst <$> (Reader.ofBytes (Scpio.trailer ++ zeros 3)).next 0 ≠
      Prod.fst <$> (Reader.ofBytes (newHeader scpioMagic [1] ++ zeros 2)).next 0 := fun h =>
  absurd ((@Reader.next_trailer_eq_record_iff (Reader.ofBytes (Scpio.trailer ++ zeros 3))
    (Reader.ofBytes (newHeader scpioMagic [1] ++ zeros 2)) 0 0 1 [] [] rfl rfl).mp h) (by decide)

/-- The trailer `Close` writes and the record `WriteHeader(0)` writes, each read by a fresh
`Reader` with `Next(0)`: both give inode 0 and no error. -/
theorem next_trailer_eq_record_zero :
    Prod.fst <$> (Reader.ofBytes (Scpio.trailer ++ zeros 3)).next 0 = .ok 0 ∧
      Prod.fst <$> (Reader.ofBytes (newHeader scpioMagic [0] ++ zeros 2)).next 0 = .ok 0 :=
  ⟨by rw [@Reader.next_trailer _ 0 [] rfl]; rfl, by rw [@Reader.next_record _ 0 0 [] rfl]; rfl⟩

end GoRpm.Scpio
