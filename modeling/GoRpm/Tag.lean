import GoRpm.Bytes

/-!
One tag of an RPM header: the 16-byte index entry `tagHeader` and the typed value behind it,
with the value encoders (`WriteTo`, `Len`) and the pieces of the reader that allocate and fill
a value (`Tag.make`, `ReadFrom`), including the `bufio.Reader` that `tagString.ReadFrom`
wraps around its source. The value interface `tagData` becomes the sum type `TagData`; the
cached `tagString.len` is not kept, because every path that sets it sets it to the computed
length.
-/

namespace GoRpm

/-- Modelled from the spec: the type codes of the tag registry (`tags.go` is not in the
source tree); §3.1 gives `CHAR=1` to `I18NSTRING=9`. -/
def rpmCharType : UInt32 := 1
def rpmInt8Type : UInt32 := 2
def rpmInt16Type : UInt32 := 3
def rpmInt32Type : UInt32 := 4
def rpmInt64Type : UInt32 := 5
def rpmStringType : UInt32 := 6
def rpmBinType : UInt32 := 7
def rpmStringArrayType : UInt32 := 8
def rpmI18nstringType : UInt32 := 9

/-- Modelled from the spec: the two region markers of the tag-id registry, with the numbers
RPM's registry gives them. -/
def headerSignatures : UInt32 := 62
def headerImmutable : UInt32 := 63

/-- The `case HEADER_IMMUTABLE, HEADER_SIGNATURES` test of `Next` and `UnmarshalJSON`. -/
def isRegionTag (tag : UInt32) : Bool := tag = headerImmutable || tag = headerSignatures

/-- The errors of package `rpm`, with the two runtime panics the code can reach and the
`json.UnmarshalTypeError` that decoding a tag's `Data` can return. -/
inductive RpmError where
  | io (e : IoError)
  | invalidLead
  | invalidHeader
  | badAlign
  | unexpectedEOF
  | offsetOOB
  | tagType
  | tagSize
  | invalidOffset
  | noTags
  | dataLen
  | nilDereference
  | indexOutOfRange
  | unmarshalType
  | invalidFileMode
  deriving DecidableEq, Repr

/-- The index entry of a tag, written as four big-endian `uint32`s. -/
structure TagHeader where
  tag : UInt32
  type : UInt32
  offset : UInt32
  count : UInt32
  deriving DecidableEq, Repr

/-- The five value shapes: `*tagBytes`, `*tagString`, `tagUint16`, `tagUint32`, `tagUint64`. -/
inductive TagData where
  | bytes (b : List UInt8)
  | string (data : List (List UInt8))
  | uint16 (xs : List UInt16)
  | uint32 (xs : List UInt32)
  | uint64 (xs : List UInt64)
  deriving DecidableEq, Repr

structure Tag extends TagHeader where
  data : TagData
  deriving DecidableEq, Repr

/-- `Len()`: the number of bytes `WriteTo` writes. -/
def TagData.len : TagData → Nat
  | .bytes b => b.length
  | .string data => (data.map (fun s => s.length + 1)).sum
  | .uint16 xs => xs.length * 2
  | .uint32 xs => xs.length * 4
  | .uint64 xs => xs.length * 8

/-- `WriteTo`: raw bytes, NUL-terminated strings, big-endian integers. -/
def TagData.writeTo : TagData → List UInt8
  | .bytes b => b
  | .string data => data.flatMap (fun s => s ++ [0])
  | .uint16 xs => xs.flatMap putUint16
  | .uint32 xs => xs.flatMap putUint32
  | .uint64 xs => xs.flatMap putUint64

@[simp] theorem TagData.length_writeTo (d : TagData) : d.writeTo.length = d.len := by
  cases d with
  | bytes b => rfl
  | string data =>
    induction data with
    | nil => rfl
    | cons s data ih => simp_all [writeTo, len]; omega
  | uint16 xs => induction xs <;> simp_all [writeTo, len, Nat.succ_mul, Nat.add_comm]
  | uint32 xs => induction xs <;> simp_all [writeTo, len, Nat.succ_mul, Nat.add_comm]
  | uint64 xs => induction xs <;> simp_all [writeTo, len, Nat.succ_mul, Nat.add_comm]

/-- `writeHeader`: `binary.Write` of the `tagHeader`. -/
def TagHeader.writeTo (h : TagHeader) : List UInt8 :=
  putUint32 h.tag ++ putUint32 h.type ++ putUint32 h.offset ++ putUint32 h.count

@[simp] theorem TagHeader.length_writeTo (h : TagHeader) : h.writeTo.length = 16 := by
  simp [TagHeader.writeTo]

/-- `binary.Read` of a `tagHeader` from its sixteen bytes. -/
def TagHeader.decode (b : List UInt8) : TagHeader where
  tag := getUint32 b
  type := getUint32 (b.drop 4)
  offset := getUint32 (b.drop 8)
  count := getUint32 (b.drop 12)

@[simp] theorem TagHeader.decode_writeTo (h : TagHeader) : TagHeader.decode h.writeTo = h := by
  simp [TagHeader.decode, TagHeader.writeTo, List.drop_append_eq_append_drop,
    List.drop_eq_nil_of_le]

/-- The empty value `Tag.make` allocates, named by its shape and its `Count`. -/
inductive Slot where
  | bytes (count : Nat)
  | string (count : Nat)
  | uint16 (count : Nat)
  | uint32 (count : Nat)
  | uint64 (count : Nat)
  deriving DecidableEq, Repr

/-- `Tag.make(a, b)`: the container for the tag's `Count` elements, refused when they cannot
fit in the `b - a` bytes of its span (`TagSize`) or when the type is unknown (`TagType`).
Strings are only checked against one byte each. -/
def TagHeader.make (t : TagHeader) (a b : UInt32) : Except RpmError Slot :=
  let dl := (b - a).toNat
  let count := t.count.toNat
  if t.type = rpmInt16Type then
    if count > dl >>> 1 then .error .tagSize else .ok (.uint16 count)
  else if t.type = rpmInt32Type then
    if count > dl >>> 2 then .error .tagSize else .ok (.uint32 count)
  else if t.type = rpmInt64Type then
    if count > dl >>> 3 then .error .tagSize else .ok (.uint64 count)
  else if t.type = rpmStringType ∨ t.type = rpmI18nstringType ∨ t.type = rpmStringArrayType then
    if count > dl then .error .tagSize else .ok (.string count)
  else if t.type = rpmBinType ∨ t.type = rpmCharType ∨ t.type = rpmInt8Type then
    if count > dl then .error .tagSize else .ok (.bytes count)
  else .error .tagType

/-- Size of the buffer of `bufio.NewReader`. -/
def bufioSize : Nat := 4096

/-- `bytes.IndexByte(buf, 0)` and the slices around it: the bytes before the first NUL and
those after it. -/
def splitNul : List UInt8 → Option (List UInt8 × List UInt8)
  | [] => none
  | b :: bs => if b = 0 then some ([], bs) else (splitNul bs).map fun (l, r) => (b :: l, r)

/-- `bufio.Reader.ReadBytes(0)`. `buf` holds the buffered unread bytes and `src` what the
underlying reader can still deliver; a fill reads as much as the buffer has room for, and a
full buffer without the delimiter is set aside as a fragment before the next fill. Each call
consumes a byte of `src`, so `src.length` is enough fuel. -/
def readBytes (acc buf src : List UInt8) : Nat →
    Except IoError (List UInt8 × List UInt8 × List UInt8)
  | 0 =>
    match splitNul buf with
    | some (line, rest) => .ok (acc ++ line ++ [0], rest, src)
    | none => .error .eof
  | fuel + 1 =>
    match splitNul buf with
    | some (line, rest) => .ok (acc ++ line ++ [0], rest, src)
    | none =>
      if src = [] then .error .eof
      else if bufioSize ≤ buf.length then
        readBytes (acc ++ buf) (src.take bufioSize) (src.drop bufioSize) fuel
      else
        readBytes acc (buf ++ src.take (bufioSize - buf.length))
          (src.drop (bufioSize - buf.length)) fuel

/-- The loop of `tagString.ReadFrom`: `count` strings read by `ReadBytes(0)`, each stored
without its NUL, with `t.len` accumulating the bytes of every line. -/
def readStrings (buf src : List UInt8) : Nat →
    Except IoError (List (List UInt8) × Nat × List UInt8 × List UInt8)
  | 0 => .ok ([], 0, buf, src)
  | n + 1 => do
    let (sb, buf, src) ← readBytes [] buf src src.length
    let (data, len, buf, src) ← readStrings buf src n
    return (sb.dropLast :: data, sb.length + len, buf, src)

/-- `binary.Read` into a vector of `count` words of `w` bytes each, decoded by `get`. -/
def getWords {α : Type} (w : Nat) (get : List UInt8 → α) : Nat → List UInt8 → List α
  | 0, _ => []
  | count + 1, b => get b :: getWords w get count (b.drop w)

/-- `binary.Read(r, binary.BigEndian, t)` for a vector of `count` words: `io.ReadFull` of the
whole vector, then the words. -/
def readWords {α : Type} (w : Nat) (get : List UInt8 → α) (count : Nat) (lim : List UInt8) :
    Except RpmError (List α × List UInt8) :=
  match readFull (count * w) lim with
  | .ok (b, rest) => .ok (getWords w get count b, rest)
  | .error e => .error (.io e)

/-- `ReadFrom` of the allocated container from the bytes `lim` that the `LimitedReader` can
deliver: the value, the count `w` it returns, and the bytes of `lim` it left unread.
`tagBytes` drains its source and keeps `count` bytes; the integer vectors read exactly their
size; `tagString` returns what its `bufio.Reader` consumed, buffered bytes included. -/
def Slot.readFrom (lim : List UInt8) : Slot → Except RpmError (TagData × Nat × List UInt8)
  | .bytes count =>
    if lim.length < count then .error .unexpectedEOF
    else .ok (.bytes (lim.take count), lim.length, [])
  | .uint16 count => do
    let (xs, rest) ← readWords 2 getUint16 count lim
    return (.uint16 xs, count * 2, rest)
  | .uint32 count => do
    let (xs, rest) ← readWords 4 getUint32 count lim
    return (.uint32 xs, count * 4, rest)
  | .uint64 count => do
    let (xs, rest) ← readWords 8 getUint64 count lim
    return (.uint64 xs, count * 8, rest)
  | .string count =>
    match readStrings [] lim count with
    | .ok (data, len, buf, rest) => .ok (.string data, buf.length + len, rest)
    | .error e => .error (.io e)

theorem getWords_flatMap {α : Type} {w : Nat} {get : List UInt8 → α} {put : α → List UInt8}
    (hget : ∀ x rest, get (put x ++ rest) = x) (hlen : ∀ x, (put x).length = w)
    (xs : List α) (rest : List UInt8) :
    getWords w get xs.length (xs.flatMap put ++ rest) = xs := by
  induction xs with
  | nil => rfl
  | cons x xs ih =>
    simp only [List.length_cons, getWords, List.flatMap_cons, List.append_assoc, hget,
      List.drop_left' (hlen x), ih]

theorem readWords_flatMap {α : Type} {w : Nat} {get : List UInt8 → α} {put : α → List UInt8}
    (hget : ∀ x rest, get (put x ++ rest) = x) (hlen : ∀ x, (put x).length = w)
    (xs : List α) (rest : List UInt8) :
    readWords w get xs.length (xs.flatMap put ++ rest) = .ok (xs, rest) := by
  have hsize : (xs.flatMap put).length = xs.length * w := by
    induction xs with
    | nil => simp
    | cons x xs ih => simp [hlen, ih, Nat.succ_mul, Nat.add_comm]
  have hwords := getWords_flatMap hget hlen xs []
  rw [List.append_nil] at hwords
  simp [readWords, readFull_append rest hsize, hwords]

theorem splitNul_eq_none {buf : List UInt8} (hbuf : 0 ∉ buf) : splitNul buf = none := by
  induction buf with
  | nil => rfl
  | cons b bs ih =>
    have hb : b ≠ 0 := fun h => hbuf (h ▸ List.mem_cons_self b bs)
    simp [splitNul, hb, ih (fun h => hbuf (List.mem_cons_of_mem b h))]

theorem splitNul_append {line : List UInt8} (hline : 0 ∉ line) (rest : List UInt8) :
    splitNul (line ++ 0 :: rest) = some (line, rest) := by
  induction line with
  | nil => simp [splitNul]
  | cons b line ih =>
    have hb : b ≠ 0 := fun h => hline (h ▸ List.mem_cons_self b line)
    simp [splitNul, hb, ih (fun h => hline (List.mem_cons_of_mem b h))]

theorem nul_split {buf src line more : List UInt8} (hline : 0 ∉ line)
    (h : buf ++ src = line ++ 0 :: more) :
    (0 ∉ buf ∧ ∃ tail, line = buf ++ tail ∧ src = tail ++ 0 :: more) ∨
      ∃ rest, buf = line ++ 0 :: rest ∧ more = rest ++ src := by
  rcases List.append_eq_append_iff.mp h with ⟨tail, hl, hs⟩ | ⟨c, hb, hc⟩
  · exact .inl ⟨fun h0 => hline (hl ▸ List.mem_append_left tail h0), tail, hl, hs⟩
  · cases c with
    | nil => exact .inl ⟨by simpa [hb] using hline, [], by simp [hb], by simpa using hc.symm⟩
    | cons x rest =>
      simp only [List.cons_append, List.cons.injEq] at hc
      exact .inr ⟨rest, by rw [hb, ← hc.1], hc.2⟩

theorem readBytes_of_splitNul {buf line rest : List UInt8} (acc src : List UInt8) (fuel : Nat)
    (h : splitNul buf = some (line, rest)) :
    readBytes acc buf src fuel = .ok (acc ++ line ++ [0], rest, src) := by
  cases fuel <;> simp [readBytes, h]

theorem readBytes_fill {buf src : List UInt8} (acc : List UInt8) (fuel : Nat)
    (h : splitNul buf = none) (hsrc : src ≠ []) :
    readBytes acc buf src (fuel + 1) =
      if bufioSize ≤ buf.length then
        readBytes (acc ++ buf) (src.take bufioSize) (src.drop bufioSize) fuel
      else
        readBytes acc (buf ++ src.take (bufioSize - buf.length))
          (src.drop (bufioSize - buf.length)) fuel := by
  simp [readBytes, h, hsrc]

/-- `ReadBytes(0)` returns the bytes up to the first NUL of what is buffered and still to come,
whatever the buffer held and however the fills fall; what is left, buffered or not, is the
rest of the stream. -/
theorem readBytes_line {more : List UInt8} :
    ∀ (fuel : Nat) (line acc buf src : List UInt8), 0 ∉ line → src.length ≤ fuel →
      buf.length ≤ bufioSize → buf ++ src = line ++ 0 :: more →
      ∃ buf' src', readBytes acc buf src fuel = .ok (acc ++ line ++ [0], buf', src') ∧
        buf' ++ src' = more ∧ buf'.length ≤ bufioSize := by
  intro fuel
  induction fuel with
  | zero =>
    intro line acc buf src hline hfuel hbuf h
    rcases nul_split hline h with ⟨-, tail, -, hsrc⟩ | ⟨rest, rfl, rfl⟩
    · simp [hsrc] at hfuel
    · exact ⟨rest, src, by rw [readBytes_of_splitNul acc src 0 (splitNul_append hline rest)],
        rfl, by simp at hbuf; omega⟩
  | succ fuel ih =>
    intro line acc buf src hline hfuel hbuf h
    rcases nul_split hline h with ⟨hnul, tail, rfl, rfl⟩ | ⟨rest, rfl, rfl⟩
    · have htail : 0 ∉ tail := fun h0 => hline (List.mem_append_right buf h0)
      rw [readBytes_fill acc fuel (splitNul_eq_none hnul) (by simp)]
      split_ifs with hfull
      · obtain ⟨buf', src', hrun, hcat, hlen⟩ := ih tail (acc ++ buf)
          ((tail ++ 0 :: more).take bufioSize) ((tail ++ 0 :: more).drop bufioSize) htail
          (by simp [bufioSize] at hfuel ⊢; omega) (by simp) (List.take_append_drop _ _)
        exact ⟨buf', src', by simpa using hrun, hcat, hlen⟩
      · exact ih (buf ++ tail) acc _ _ hline (by simp at hfuel ⊢; omega)
          (by simp; omega) (by simp)
    · exact ⟨rest, src,
        by rw [readBytes_of_splitNul acc src (fuel + 1) (splitNul_append hline rest)],
        rfl, by simp at hbuf; omega⟩

theorem readStrings_flatMap (more : List UInt8) :
    ∀ (data : List (List UInt8)) (buf src : List UInt8), (∀ s ∈ data, 0 ∉ s) →
      buf.length ≤ bufioSize → buf ++ src = data.flatMap (fun s => s ++ [0]) ++ more →
      ∃ buf' src', readStrings buf src data.length =
          .ok (data, (data.map (fun s => s.length + 1)).sum, buf', src') ∧
        buf' ++ src' = more ∧ buf'.length ≤ bufioSize := by
  intro data
  induction data with
  | nil => intro buf src _ hbuf h; exact ⟨buf, src, rfl, by simpa using h, hbuf⟩
  | cons s data ih =>
    intro buf src hnul hbuf h
    have hs : 0 ∉ s := hnul s (List.mem_cons_self s data)
    obtain ⟨buf1, src1, hread, hcat, hlen⟩ := readBytes_line src.length s [] buf src hs le_rfl hbuf
      (by simpa using h)
    obtain ⟨buf2, src2, hrest, hcat2, hlen2⟩ :=
      ih buf1 src1 (fun t ht => hnul t (List.mem_cons_of_mem s ht)) hlen hcat
    refine ⟨buf2, src2, ?_, hcat2, hlen2⟩
    rw [List.length_cons, readStrings, hread]
    simp only [ok_bind, List.nil_append, hrest, map_ok, List.dropLast_concat, List.length_append,
      List.length_singleton, List.map_cons, List.sum_cons, pure_eq_ok]

/-- The container `make` allocates for a value of the given shape and size. -/
def TagData.slot : TagData → Slot
  | .bytes b => .bytes b.length
  | .string data => .string data.length
  | .uint16 xs => .uint16 xs.length
  | .uint32 xs => .uint32 xs.length
  | .uint64 xs => .uint64 xs.length

/-- No string of the value holds a NUL byte, which `tagString.WriteTo` would pass through and
`ReadFrom` would read as a terminator. -/
def TagData.NulFree : TagData → Prop
  | .string data => ∀ s ∈ data, 0 ∉ s
  | _ => True

/-- `ReadFrom` gives back the value `WriteTo` wrote, whatever padding follows it, and leaves
unread at most that padding. -/
theorem readFrom_writeTo (d : TagData) (hd : d.NulFree) (pad : List UInt8) :
    ∃ w lim', d.slot.readFrom (d.writeTo ++ pad) = .ok (d, w, lim') ∧
      w + lim'.length = d.len + pad.length ∧ lim'.length ≤ pad.length := by
  cases d with
  | bytes b => exact ⟨(b ++ pad).length, [], by simp [TagData.slot, Slot.readFrom,
      TagData.writeTo], by simp [TagData.len], by simp⟩
  | uint16 xs => exact ⟨xs.length * 2, pad, by simp [TagData.slot, Slot.readFrom,
      TagData.writeTo, readWords_flatMap getUint16_putUint16 length_putUint16], rfl, le_rfl⟩
  | uint32 xs => exact ⟨xs.length * 4, pad, by simp [TagData.slot, Slot.readFrom,
      TagData.writeTo, readWords_flatMap getUint32_putUint32 length_putUint32], rfl, le_rfl⟩
  | uint64 xs => exact ⟨xs.length * 8, pad, by simp [TagData.slot, Slot.readFrom,
      TagData.writeTo, readWords_flatMap getUint64_putUint64 length_putUint64], rfl, le_rfl⟩
  | string data =>
    obtain ⟨buf', src', hread, hcat, hlen⟩ := readStrings_flatMap pad data []
      (data.flatMap (fun s => s ++ [0]) ++ pad) hd (by simp [bufioSize]) (List.nil_append _)
    refine ⟨buf'.length + (data.map (fun s => s.length + 1)).sum, src', ?_, ?_, ?_⟩
    · simp only [TagData.slot, Slot.readFrom, TagData.writeTo]
      rw [hread]
    · have := congrArg List.length hcat
      simp only [List.length_append] at this
      simp only [TagData.len]
      omega
    · have := congrArg List.length hcat
      simp only [List.length_append] at this
      omega

/-- `Tag.StringArray`: the strings of a `*tagString`; on any other value the type assertion
yields a nil pointer and reading its `data` panics. When it returns, `ok` is true. -/
def Tag.stringArray (t : Tag) : Except RpmError (List (List UInt8)) :=
  match t.data with
  | .string data => .ok data
  | _ => .error .nilDereference

/-- `Tag.Int16`, `Tag.Int32`, `Tag.Int64`: the type assertions, `none` for `ok = false`. -/
def Tag.int16 (t : Tag) : Option (List UInt16) :=
  match t.data with
  | .uint16 xs => some xs
  | _ => none

def Tag.int32 (t : Tag) : Option (List UInt32) :=
  match t.data with
  | .uint32 xs => some xs
  | _ => none

def Tag.int64 (t : Tag) : Option (List UInt64) :=
  match t.data with
  | .uint64 xs => some xs
  | _ => none

/-- `Tag.Bytes`. -/
def Tag.bytes (t : Tag) : Option (List UInt8) :=
  match t.data with
  | .bytes b => some b
  | _ => none

end GoRpm
