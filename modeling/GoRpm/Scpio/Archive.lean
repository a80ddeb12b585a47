import GoRpm.Bytes

/-!
The `scpio` stream (package `scpio`): a cpio-like archive in which each record is a 14-byte
header, the magic `07070X` and the inode as eight lowercase hex digits, followed by the
payload, every header starting at a multiple of four, and the archive ending with a `newc`
trailer record. The writer counts what it has written and pads with zeros; the reader counts
what it has consumed, skips the padding, and leaves each payload to its caller, who reads it
from the underlying stream and passes its length to the next `Next`.

The writer's sink is a buffer that takes every byte, so `Write` never fails or writes short.
-/

namespace GoRpm.Scpio

/-- `newcMagic`, `"070701"`. -/
def newcMagic : List UInt8 := [48, 55, 48, 55, 48, 49]

/-- `scpioMagic`, `"07070X"`. -/
def scpioMagic : List UInt8 := [48, 55, 48, 55, 48, 88]

/-- `"0123456789abcdef"`. -/
def hexDigits : List UInt8 := [48, 49, 50, 51, 52, 53, 54, 55, 56, 57, 97, 98, 99, 100, 101, 102]

/-- `fmt16(n, r)`: the eight hex digits of `n`, most significant first; digit `7 - i` is
`digits[n>>(i*4)&0xf]`. A right shift of a `uint32` never overflows, so it is taken on the
natural number. -/
def fmt16 (n : UInt32) : List UInt8 :=
  (List.range 8).reverse.map fun i => hexDigits.getD ((n.toNat >>> (i * 4)) &&& 0xf) 0

/-- `newHeader(magic, u...)`: the magic, then each number as eight hex digits. -/
def newHeader (magic : List UInt8) (u : List UInt32) : List UInt8 := magic ++ u.flatMap fmt16

/-- `"TRAILER!!!\x00"`. -/
def trailerName : List UInt8 := [84, 82, 65, 73, 76, 69, 82, 33, 33, 33, 0]

/-- `trailer`: a `newc` header with `nlink` 1 and a name of eleven bytes, then the name. -/
def trailer : List UInt8 :=
  newHeader newcMagic [0, 0, 0, 0, 1, 0, 0, 0, 0, 0, 0, 11, 0] ++ trailerName

/-- `Writer`: the bytes written so far and their count `off`. -/
structure Writer where
  off : Nat := 0
  out : List UInt8 := []
  deriving DecidableEq, Repr

/-- `Writer.Write`: the sink takes all of `b`. -/
def Writer.write (s : Writer) (b : List UInt8) : Writer :=
  { off := s.off + b.length, out := s.out ++ b }

/-- `Writer.align`: zeros up to the next multiple of four. -/
def Writer.align (s : Writer) : Writer := s.write (zeros (andNot (s.off + 3) 3 - s.off))

/-- The unexported `writeHeader(ino, close)`: aligned, the record header of `ino` or the
trailer, aligned again. -/
def Writer.writeHeaderWith (s : Writer) (ino : UInt32) (close : Bool) : Writer :=
  let s := s.align
  let s := if close then s.write trailer else s.write (newHeader scpioMagic [ino])
  s.align

/-- `Writer.WriteHeader`. -/
def Writer.writeHeader (s : Writer) (ino : UInt32) : Writer := s.writeHeaderWith ino false

/-- `Writer.Close`. -/
def Writer.close (s : Writer) : Writer := s.writeHeaderWith 0 true

/-- A fresh `NewWriter`, then `WriteHeader(ino)` and `Write(payload)` for each record, then
`Close`. -/
def writeArchive (records : List (UInt32 × List UInt8)) : Writer :=
  (records.foldl (fun (s : Writer) (r : UInt32 × List UInt8) => (s.writeHeader r.1).write r.2)
    {}).close

/-- `hex.Decode`'s table: the value of a hex digit of either case. -/
def fromHexChar (c : UInt8) : Option UInt8 :=
  if 48 ≤ c ∧ c ≤ 57 then some (c - 48)
  else if 97 ≤ c ∧ c ≤ 102 then some (c - 87)
  else if 65 ≤ c ∧ c ≤ 70 then some (c - 55)
  else none

/-- Why a read failed: the end-of-stream errors of `io.ReadFull`, the package's own errors, and
`hex.Decode`'s `InvalidByteError` and `ErrLength`. -/
inductive Cause where
  | io (e : IoError)
  | unexpectedEOF
  | badMagic
  | invalidTrailer
  | invalidByte (b : UInt8)
  | hexLength
  deriving DecidableEq, Repr

/-- `hex.Decode`: one byte per pair of digits, an error at the first byte that is not a digit. -/
def hexDecode : List UInt8 → Except Cause (List UInt8)
  | p :: q :: rest =>
    match fromHexChar p, fromHexChar q with
    | some a, some b => (fun r => (a <<< 4 ||| b) :: r) <$> hexDecode rest
    | none, _ => .error (.invalidByte p)
    | some _, none => .error (.invalidByte q)
  | [p] => if (fromHexChar p).isNone then .error (.invalidByte p) else .error .hexLength
  | [] => .ok []

/-- `Reader`: the bytes not yet read and the count `off` the reader keeps. The caller reads
payloads from the same stream, so `off` only learns of them through `Next`'s argument. -/
structure Reader where
  rest : List UInt8
  off : Nat := 0
  deriving DecidableEq, Repr

def Reader.ofBytes (b : List UInt8) : Reader := { rest := b }

/-- What `Reader.err` reports: the reader's offset when the error is returned, printed as
`offset: 0x%x`, and the error itself. -/
structure Error where
  off : Nat
  cause : Cause
  deriving DecidableEq, Repr

/-- `Reader.align`: discard up to the next multiple of four; a stream that ends first is
`errUnexpectedEOF`. -/
def Reader.align (r : Reader) : Except Error Reader :=
  let n := andNot (r.off + 3) 3 - r.off
  let copied := min n r.rest.length
  if n - copied ≠ 0 then .error ⟨r.off, .unexpectedEOF⟩
  else .ok { rest := r.rest.drop copied, off := r.off + copied }

/-- `Reader.trailer`: the 105 bytes of the trailer record after its first sixteen, ending in
the trailer's name, then the padding. -/
def Reader.trailer (r : Reader) : Except Error Reader :=
  match readFull 105 r.rest with
  | .error e => .error ⟨r.off, .io e⟩
  | .ok (b, rest) =>
    if b.drop (105 - trailerName.length) ≠ trailerName then .error ⟨r.off, .invalidTrailer⟩
    else Reader.align { rest := rest, off := r.off + 105 }

/-- `Reader.Next(sz)`: count the `sz` payload bytes the caller read, skip the padding, read
sixteen bytes (the header and the two padding bytes after it), and return the inode of a record
header; a trailer header is read to its end and gives inode 0. -/
def Reader.next (r : Reader) (sz : Nat) : Except Error (UInt32 × Reader) := do
  let r ← Reader.align { r with off := r.off + sz }
  match readFull 16 r.rest with
  | .error e => .error ⟨r.off, .io e⟩
  | .ok (b, rest) =>
    let r : Reader := { rest := rest, off := r.off + 16 }
    if b.take 6 = scpioMagic then
      match hexDecode ((b.drop 6).take 8) with
      | .error e => .error ⟨r.off, e⟩
      | .ok d => .ok (getUint32 d, r)
    else if b.take 6 = newcMagic then
      (fun r => (0, r)) <$> r.trailer
    else .error ⟨r.off, .badMagic⟩

/-- A caller walking an archive: `Next` with the length of the payload it last read (0 at
first), then the payload of each record read from the stream by length, and a last `Next` after
the last payload. -/
def Reader.session (r : Reader) (sz : Nat) :
    List Nat → Except Error (List (UInt32 × List UInt8) × Reader)
  | [] => do
    let (_, r) ← r.next sz
    return ([], r)
  | n :: ns => do
    let (ino, r) ← r.next sz
    let payload := r.rest.take n
    let (recs, r) ← Reader.session { r with rest := r.rest.drop n } n ns
    return ((ino, payload) :: recs, r)

end GoRpm.Scpio
