import GoRpm.Header.Write

/-!
Parsing: `Reader.Lead` and `Reader.Next`. The reader keeps the unread stream and the running
offset `off`; `Next` skips to a multiple of eight, reads the preamble and the index, sorts the
index by offset, and reads each value from the bytes up to the next offset (or `Length`),
allowing fewer than eight bytes left over. A last tag with a region id becomes the region.
The values are read in stream order: the reader never seeks, so a value is read from where the
previous one stopped, and the first from the start of the data region.
-/

namespace GoRpm

/-- `Reader`: the bytes not yet read and the count `off` of bytes read. The `LimitedReader` it
keeps is reset before each use and is not part of the state. -/
structure Reader where
  rest : List UInt8
  off : Nat := 0
  deriving DecidableEq, Repr

/-- A fresh `NewReader` over a byte stream. -/
def Reader.ofBytes (b : List UInt8) : Reader := { rest := b }

/-- `binary.Read` of the 96-byte `Lead`, blank padding skipped. The fixed arrays are cut from the
record with `fixedBytes`, which on a full record is plain slicing. -/
def fixedBytes (n : Nat) (b : List UInt8) : List UInt8 := (b ++ zeros n).take n

@[simp] theorem length_fixedBytes (n : Nat) (b : List UInt8) : (fixedBytes n b).length = n := by
  simp [fixedBytes]

theorem fixedBytes_append {n : Nat} {x : List UInt8} (rest : List UInt8) (hx : x.length = n) :
    fixedBytes n (x ++ rest) = x := by
  subst hx; simp [fixedBytes]

def Lead.decode (b : List UInt8) : Lead where
  magic := fixedBytes 4 b
  major := b.getD 4 0
  minor := b.getD 5 0
  type := getUint16 (b.drop 6)
  archNum := getUint16 (b.drop 8)
  name := fixedBytes 66 (b.drop 10)
  osNum := getUint16 (b.drop 76)
  signatureType := getUint16 (b.drop 78)
  magic_length := length_fixedBytes 4 b
  name_length := length_fixedBytes 66 (b.drop 10)

/-- `Reader.Lead`. -/
def Reader.lead (r : Reader) : Except RpmError (Lead × Reader) :=
  match readFull 96 r.rest with
  | .error e => .error (.io e)
  | .ok (b, rest) =>
    let l := Lead.decode b
    if l.magic ≠ leadMagic then .error .invalidLead
    else .ok (l, { rest := rest, off := r.off + 96 })

/-- `Reader.align`: discard up to the next multiple of eight; a stream that ends first is
`BadAlign`. -/
def Reader.align (r : Reader) : Except RpmError Reader :=
  let n := andNot (r.off + 7) 7 - r.off
  let copied := min n r.rest.length
  if n - copied ≠ 0 then .error .badAlign
  else .ok { rest := r.rest.drop copied, off := r.off + copied }

/-- `binary.Read` of the count and length words of an `rpmHeaderPre`. -/
def HeaderPre.decode (b : List UInt8) : HeaderPre where
  count := getUint32 (b.drop 8)
  length := getUint32 (b.drop 12)

/-- `Reader.header`: the preamble, refused with `InvalidHeader` when the magic differs. -/
def Reader.header (r : Reader) : Except RpmError (HeaderPre × Reader) :=
  match readFull 16 r.rest with
  | .error e => .error (.io e)
  | .ok (b, rest) =>
    if b.take 8 ≠ rpmHeaderMagic then .error .invalidHeader
    else .ok (HeaderPre.decode b, { rest := rest, off := r.off + 16 })

/-- `Reader.tags`: `count` index entries; an offset beyond `length` is `OffsetOOB`. -/
def Reader.tags (r : Reader) (length : UInt32) : Nat → Except RpmError (List TagHeader × Reader)
  | 0 => .ok ([], r)
  | n + 1 =>
    match readFull 16 r.rest with
    | .error e => .error (.io e)
    | .ok (b, rest) =>
      let t := TagHeader.decode b
      if t.offset > length then .error .offsetOOB
      else do
        let (ts, r') ← Reader.tags { rest := rest, off := r.off + 16 } length n
        return (t :: ts, r')

/-- `Reader.tagaligned`: the integer types need the stream offset, not the tag's `Offset`,
to be a multiple of their size. -/
def tagaligned (off : Nat) (type : UInt32) : Bool :=
  if type = rpmInt16Type then off &&& 1 = 0
  else if type = rpmInt32Type then off &&& 3 = 0
  else if type = rpmInt64Type then off &&& 7 = 0
  else true

/-- One pass of the loop of `Next`: the tag `v` whose data spans up to `nt`. -/
def Reader.readTag (r : Reader) (v : TagHeader) (nt : UInt32) : Except RpmError (Tag × Reader) := do
  if !tagaligned r.off v.type then throw .badAlign
  if nt ≤ v.offset then throw .offsetOOB
  let nr := (nt - v.offset).toNat
  let slot ← v.make v.offset nt
  let lim := r.rest.take nr
  let (data, w, lim') ← slot.readFrom lim
  -- `r.lr.N`: what the limit still allows after `ReadFrom`
  let left := nr - (lim.length - lim'.length)
  if left ≠ 0 ∧ 8 ≤ left then throw .unexpectedEOF
  let (w, used) := if left ≠ 0 then (w + lim'.length, lim.length)
    else (w, lim.length - lim'.length)
  if nr ≠ w then throw .unexpectedEOF
  return ({ v with data := data }, { rest := r.rest.drop used, off := r.off + w })

/-- The loop of `Next` over the tags in offset order: each span ends at the next tag's offset,
the last at `Length`. -/
def Reader.readTags (r : Reader) (length : UInt32) :
    List TagHeader → Except RpmError (List Tag × Reader)
  | [] => .ok ([], r)
  | [v] => do
    let (t, r) ← r.readTag v length
    return ([t], r)
  | v :: w :: vs => do
    let (t, r) ← r.readTag v w.offset
    let (ts, r) ← r.readTags length (w :: vs)
    return (t :: ts, r)

/-- The end of `Next`: a last tag with a region id is taken out and recorded as the region,
and `off` is set to where the next `Add` would go. -/
def regionize (length : UInt32) (tags : List Tag) : Header :=
  match tags.getLast? with
  | some lt =>
    if isRegionTag lt.tag then { off := lt.offset, region := some lt.tag, tags := tags.dropLast }
    else { off := length, tags := tags }
  | none => { tags := tags }

/-- `Reader.Next`. -/
def Reader.next (r : Reader) : Except RpmError (Header × Reader) := do
  let r ← r.align
  let (pre, r) ← r.header
  let (ths, r) ← r.tags pre.length pre.count.toNat
  if ths = [] then return ({}, r)
  let (tags, r) ← r.readTags pre.length (sortByOffset (·.offset) ths)
  return (regionize pre.length tags, r)

/-- `Next` called `k` times, stopping at the first error. -/
def Reader.nextN (r : Reader) : Nat → Except RpmError (List Header × Reader)
  | 0 => .ok ([], r)
  | k + 1 => do
    let (h, r) ← r.next
    let (hs, r) ← r.nextN k
    return (h :: hs, r)

end GoRpm
