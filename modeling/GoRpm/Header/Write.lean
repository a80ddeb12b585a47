import GoRpm.Header.Build

/-!
Serialising: `Header.WriteTo` emits the preamble, the region's index entry, the other entries
in offset order, the values with the zero padding `pad` inserts before each, and the region's
value last, and refuses a header whose data does not add up to its declared length.
`WriteHeaders` frames the lead and the headers, padding the stream to a multiple of eight
before each part. The sink is a `bytes.Buffer`: writes do not fail, and on an error the bytes
already written are not modelled.
-/

namespace GoRpm

/-- `sort.Sort(hdr)` by `Offset`. Go's sort is not stable; this stable insertion sort is what
it computes whenever the offsets are distinct, and on at most twelve tags. -/
def sortByOffset {α : Type} (offset : α → UInt32) (xs : List α) : List α :=
  xs.insertionSort (fun a b => offset a ≤ offset b)

/-- `rpmHeaderMagic`: the entry magic `8e ad e8`, version 1, four reserved bytes. -/
def rpmHeaderMagic : List UInt8 := [0x8e, 0xad, 0xe8, 0x01, 0, 0, 0, 0]

/-- `binary.Write` of an `rpmHeaderPre`. -/
def HeaderPre.writeTo (pre : HeaderPre) : List UInt8 :=
  rpmHeaderMagic ++ putUint32 pre.count ++ putUint32 pre.length

/-- `Header.pad`: the zero bytes that bring the data cursor `cur` to `off`; more than eight, or
a cursor already past `off`, is `InvalidOffset`. -/
def Header.pad (off : UInt32) (cur : Nat) : Except RpmError (List UInt8) :=
  if off.toNat < cur then .error .invalidOffset
  else if off.toNat - cur > 8 then .error .invalidOffset
  else .ok (zeros (off.toNat - cur))

/-- The data loop of `WriteTo`: padding and value of each tag, and the final cursor. -/
def writeData : Nat → List Tag → Except RpmError (List UInt8 × Nat)
  | cur, [] => .ok ([], cur)
  | cur, v :: vs => do
    let p ← Header.pad v.offset cur
    let d := v.data.writeTo
    let (rest, cur') ← writeData (cur + p.length + d.length) vs
    return (p ++ d ++ rest, cur')

/-- `Header.WriteTo`: the bytes, the count it returns, and the header as it leaves it, its
tags sorted by offset. -/
def Header.writeTo (hdr : Header) : Except RpmError (List UInt8 × Nat × Header) := do
  if hdr.tags = [] then throw .noTags
  let (pre, region) := hdr.setRegionPre
    { count := UInt32.ofNat hdr.tags.length, length := hdr.off }
  let tags := sortByOffset (·.offset) hdr.tags
  let (data, cur) ← writeData 0 tags
  let regionData := (region.map (·.data.writeTo)).getD []
  if regionData.length + cur ≠ pre.length.toNat then throw .dataLen
  let r := pre.count * 16 + pre.length + 16
  return (pre.writeTo ++ (region.map (·.toTagHeader.writeTo)).getD [] ++
      tags.flatMap (·.toTagHeader.writeTo) ++ data ++ regionData,
    r.toNat, { hdr with tags := tags })

/-- `leadMagic`. -/
def leadMagic : List UInt8 := [0xed, 0xab, 0xee, 0xdb]

/-- `Lead`, 96 bytes on disk. The `[4]byte` magic and the `[66]byte` name are lists of that
length; the 16 bytes of padding are a blank field, not stored. -/
structure Lead where
  magic : List UInt8
  major : UInt8
  minor : UInt8
  type : UInt16
  archNum : UInt16
  name : List UInt8
  osNum : UInt16
  signatureType : UInt16
  magic_length : magic.length = 4
  name_length : name.length = 66

/-- `Lead.WriteTo`: `binary.Write` of the struct, blank padding as zeros. -/
def Lead.writeTo (l : Lead) : List UInt8 :=
  l.magic ++ [l.major, l.minor] ++ putUint16 l.type ++ putUint16 l.archNum ++ l.name ++
    putUint16 l.osNum ++ putUint16 l.signatureType ++ zeros 16

@[simp] theorem Lead.length_writeTo (l : Lead) : l.writeTo.length = 96 := by
  simp [Lead.writeTo, l.magic_length, l.name_length]

/-- The parts `WriteHeaders` accepts in this package: the lead and headers. -/
inductive Part where
  | lead (l : Lead)
  | header (h : Header)

/-- `WriteTo` of a part: its bytes and the count it returns. -/
def Part.writeTo : Part → Except RpmError (List UInt8 × Nat)
  | .lead l => .ok (l.writeTo, 96)
  | .header h => do
    let (b, n, _) ← h.writeTo
    return (b, n)

/-- The loop of `WriteHeaders`, from the running count `r`: before each part the zeros
`zb[:p-r]` with `p = (r + 7) &^ 7`. -/
def writeHeadersFrom : Nat → List Part → Except RpmError (List UInt8 × Nat)
  | r, [] => .ok ([], r)
  | r, v :: vs => do
    let a := andNot (r + 7) 7 - r
    let (b, n) ← v.writeTo
    let (rest, r') ← writeHeadersFrom (r + a + n) vs
    return (zeros a ++ b ++ rest, r')

/-- `WriteHeaders(w, hdr...)`: the bytes written and the count returned. -/
def writeHeaders (parts : List Part) : Except RpmError (List UInt8 × Nat) :=
  writeHeadersFrom 0 parts

end GoRpm
