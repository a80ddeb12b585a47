import GoRpm.Header.Calls

/-!
A package as `WriteHeaders` frames it and `Reader` walks it: the 96-byte lead, then each
header, every part after the zero bytes that bring the stream to a multiple of eight. The
writer pads with `(r + 7) &^ 7 - r` zeros from its running count; the reader's `align` skips
the same number of bytes from its own count, so the two stay in step part after part.
-/

namespace GoRpm

/-- The layout of a framed stream from position `p`: each part's bytes after the fewest zeros
that bring the position to a multiple of eight. -/
def frame : Nat → List (List UInt8) → List UInt8
  | _, [] => []
  | p, b :: bs => zeros ((8 - p % 8) % 8) ++ b ++ frame (p + (8 - p % 8) % 8 + b.length) bs

/-- `WriteHeaders` from count `p`, over parts that each write their bytes and count them, writes
the framed stream and returns its end. -/
theorem writeHeadersFrom_frame : ∀ (p : Nat) (parts : List Part) (bs : List (List UInt8)),
    List.Forall₂ (fun part b => part.writeTo = .ok (b, b.length)) parts bs →
    writeHeadersFrom p parts = .ok (frame p bs, p + (frame p bs).length)
  | p, [], [], _ => by simp [writeHeadersFrom, frame]
  | p, part :: parts, b :: bs, .cons hb hrest => by
    simp only [writeHeadersFrom, andNot_add_seven_sub, hb, ok_bind,
      writeHeadersFrom_frame _ parts bs hrest, pure_eq_ok, frame, List.length_append,
      length_zeros, List.append_assoc, Nat.add_assoc]

/-- `WriteHeaders` over any `io.WriterTo`s from count `r`, given what each one's `WriteTo`
writes and returns (`main` of `tar2rpm` passes a `bytes.Buffer` as its last part). On the parts
of this package it is `writeHeadersFrom`. -/
def writeHeadersOf : Nat → List (Except RpmError (List UInt8 × Nat)) →
    Except RpmError (List UInt8 × Nat)
  | r, [] => .ok ([], r)
  | r, v :: vs => do
    let a := andNot (r + 7) 7 - r
    let (b, n) ← v
    let (rest, r') ← writeHeadersOf (r + a + n) vs
    return (zeros a ++ b ++ rest, r')

theorem writeHeadersFrom_eq_writeHeadersOf : ∀ (r : Nat) (parts : List Part),
    writeHeadersFrom r parts = writeHeadersOf r (parts.map Part.writeTo)
  | _, [] => rfl
  | r, v :: vs => by
    simp only [writeHeadersFrom, writeHeadersOf, List.map_cons, writeHeadersFrom_eq_writeHeadersOf _ vs]

theorem writeHeadersOf_frame : ∀ (p : Nat) (ws : List (Except RpmError (List UInt8 × Nat)))
    (bs : List (List UInt8)), List.Forall₂ (fun w b => w = .ok (b, b.length)) ws bs →
    writeHeadersOf p ws = .ok (frame p bs, p + (frame p bs).length)
  | p, [], [], _ => by simp [writeHeadersOf, frame]
  | p, _ :: ws, b :: bs, .cons rfl hrest => by
    simp only [writeHeadersOf, andNot_add_seven_sub, ok_bind, writeHeadersOf_frame _ ws bs hrest,
      pure_eq_ok, frame, List.length_append, length_zeros, List.append_assoc, Nat.add_assoc]

/-- `LeadBinary`. -/
def leadBinary : UInt16 := 0

/-- The name field `NewLead` fills: `copy` keeps the first 66 bytes of the name and leaves the
rest of the field zero, so a name of 66 bytes or more fills it with no NUL. -/
def leadNameOf (name : List UInt8) : List UInt8 := name.take 66 ++ zeros (66 - name.length)

theorem length_leadNameOf (name : List UInt8) : (leadNameOf name).length = 66 := by
  simp only [leadNameOf, List.length_append, List.length_take, length_zeros]
  omega

/-- `NewLead(name, lt)`: version 3.0, architecture 1 (`i386/x86_64`), OS 1 (`linux`) and
signature type 5, the header-style signature. -/
def newLead (name : List UInt8) (lt : UInt16) : Lead where
  magic := leadMagic
  major := 3
  minor := 0
  type := lt
  archNum := 1
  name := leadNameOf name
  osNum := 1
  signatureType := 5
  magic_length := rfl
  name_length := length_leadNameOf name

/-- `NewSignatureHeader`: an empty header with the region `HEADER_SIGNATURES`. -/
def newSignatureHeader : Header := ({} : Header).setRegion headerSignatures

/-- `NewPayloadHeader`: an empty header with the region `HEADER_IMMUTABLE`. -/
def newPayloadHeader : Header := ({} : Header).setRegion headerImmutable

theorem Lead.decode_writeTo (l : Lead) : Lead.decode l.writeTo = l := by
  obtain ⟨magic, major, minor, type, archNum, name, osNum, signatureType, hm, hn⟩ := l
  simp [Lead.decode, Lead.writeTo, hm, hn, fixedBytes_append, List.drop_append_eq_append_drop,
    List.drop_eq_nil_of_le, List.getElem_append_right]

theorem Reader.lead_writeTo {r : Reader} {l : Lead} (hl : l.magic = leadMagic)
    {rest : List UInt8} (hrest : r.rest = l.writeTo ++ rest) :
    r.lead = .ok (l, { rest := rest, off := r.off + 96 }) := by
  simp [Reader.lead, hrest, readFull_append rest (Lead.length_writeTo l), Lead.decode_writeTo, hl]

theorem Reader.align_zeros {r : Reader} {rest : List UInt8}
    (hrest : r.rest = zeros ((8 - r.off % 8) % 8) ++ rest) :
    r.align = .ok { rest := rest, off := r.off + (8 - r.off % 8) % 8 } := by
  simp [Reader.align, andNot_add_seven_sub, hrest, zeros]

theorem Reader.next_of_align {r r' : Reader} (h : r.align = .ok r') (h8 : r'.off % 8 = 0) :
    r.next = r'.next := by
  simp only [Reader.next, h, Reader.align_of_mod h8, ok_bind]

theorem Reader.next_frame {hdr : Header} (h : hdr.Sound) {r : Reader} {more : List UInt8}
    (hrest : r.rest = zeros ((8 - r.off % 8) % 8) ++ hdr.image ++ more) :
    r.next = .ok (hdr, { rest := more, off := r.off + (8 - r.off % 8) % 8 + hdr.size }) := by
  have halign := Reader.align_zeros (by rw [hrest, List.append_assoc])
  rw [Reader.next_of_align halign (by simp only; omega)]
  exact Reader.next_image h (by simp only; omega) rfl

/-- `Next` called once per header walks a framed stream of sound header images. -/
theorem Reader.nextN_frame : ∀ (hdrs : List Header) (r : Reader) (more : List UInt8),
    (∀ hdr ∈ hdrs, hdr.Sound) → r.rest = frame r.off (hdrs.map Header.image) ++ more →
    r.nextN hdrs.length =
      .ok (hdrs, { rest := more, off := r.off + (frame r.off (hdrs.map Header.image)).length })
  | [], ⟨rest, off⟩, more, _, hrest => by simp_all [Reader.nextN, frame]
  | hdr :: hdrs, r, more, hs, hrest => by
    have hsound := hs hdr (List.mem_cons_self _ _)
    have hnext := @Reader.next_frame hdr hsound r
      (frame (r.off + (8 - r.off % 8) % 8 + hdr.image.length) (hdrs.map Header.image) ++ more)
      (by rw [hrest]; simp only [List.map_cons, frame, List.append_assoc])
    have ih := Reader.nextN_frame hdrs
      (Reader.mk (frame (r.off + (8 - r.off % 8) % 8 + hdr.image.length) (hdrs.map Header.image) ++
        more) (r.off + (8 - r.off % 8) % 8 + hdr.size))
      more (fun h hh => hs h (List.mem_cons_of_mem _ hh)) (by rw [hsound.length_image])
    rw [← hsound.length_image] at hnext ih
    simp only [List.length_cons, Reader.nextN, hnext, ok_bind, ih, pure_eq_ok, List.map_cons,
      frame, List.length_append, length_zeros]
    simp only [Nat.add_assoc]

/-- How a header of a package is made: `Add*` calls on a fresh `Header`, then `SetRegion` when
a region id is given. -/
structure HeaderCalls where
  calls : List AddCall
  region : Option UInt32
  deriving DecidableEq, Repr

def HeaderCalls.build (x : HeaderCalls) : Header := Header.build x.calls x.region

/-- The serialized size of the header the calls make: preamble, index and data region, with the
region's entry and value when there is a region. -/
def HeaderCalls.imageSize (x : HeaderCalls) : Nat :=
  16 + 16 * (x.calls.length + x.region.toList.length) +
    (placeEnd 0 (x.calls.map AddCall.tag) + 16 * x.region.toList.length)

/-- What the package round trip asks of a header: at least one call, each admissible, a region
id if any, and a serialized size below `2 ^ 32`. -/
structure HeaderCalls.Admissible (x : HeaderCalls) : Prop where
  calls_ne : x.calls ≠ []
  admissible : ∀ c ∈ x.calls, c.Admissible
  region_id : ∀ id ∈ x.region, isRegionTag id = true
  size_lt : x.imageSize < 2 ^ 32

theorem HeaderCalls.Admissible.sound {x : HeaderCalls} (h : x.Admissible) : x.build.Sound :=
  build_sound h.calls_ne h.admissible h.region_id (by have := h.size_lt; unfold imageSize at this; omega)

theorem HeaderCalls.Admissible.writeTo_build {x : HeaderCalls} (h : x.Admissible) :
    x.build.writeTo = .ok (x.build.image, x.build.image.length, x.build) := by
  have hsize := h.size_lt
  obtain ⟨-, hoff, htags, -⟩ := build_placed x.calls x.region
    (by unfold imageSize at hsize; omega)
  have hlen : x.build.tags.length = x.calls.length := by
    have := congrArg List.length htags
    rwa [List.length_map, List.length_map] at this
  have hsz : x.build.size = x.imageSize := by
    unfold Header.size Header.regionCount HeaderCalls.imageSize
    rw [hlen, HeaderCalls.build, hoff, Header.build_region]
  rw [Header.writeTo_sound h.sound, h.sound.length_image, hsz, Nat.mod_eq_of_lt hsize]

/-- A lead carrying the lead magic, then headers made of admissible calls: `WriteHeaders`
writes the framed stream and returns its length, each header's `WriteTo` writes exactly its
part of the stream, and a fresh `Reader` gives back the lead from `Lead` and, from its `j`-th
`Next`, the `j`-th header itself (its tags in insertion order, its region id, its `off`),
ending at the end of the stream. -/
theorem writeHeaders_read_back (l : Lead) (hl : l.magic = leadMagic) (xs : List HeaderCalls)
    (hxs : ∀ x ∈ xs, x.Admissible) :
    let hdrs := xs.map HeaderCalls.build
    let out := frame 0 (l.writeTo :: hdrs.map Header.image)
    writeHeaders (.lead l :: hdrs.map .header) = .ok (out, out.length) ∧
      (∀ hdr ∈ hdrs, hdr.writeTo = .ok (hdr.image, hdr.image.length, hdr)) ∧
      ∃ r, (Reader.ofBytes out).lead = .ok (l, r) ∧
        r.nextN hdrs.length = .ok (hdrs, { rest := [], off := out.length }) := by
  intro hdrs out
  have hsound : ∀ hdr ∈ hdrs, hdr.Sound := by
    intro hdr hmem
    obtain ⟨x, hx, rfl⟩ := List.mem_map.mp hmem
    exact (hxs x hx).sound
  have hparts : List.Forall₂ (fun (part : Part) (b : List UInt8) => part.writeTo = .ok (b, b.length))
      (Part.lead l :: hdrs.map Part.header) (l.writeTo :: hdrs.map Header.image) := by
    refine .cons (by simp [Part.writeTo]) ?_
    rw [List.map_map, List.map_map, List.forall₂_map_left_iff, List.forall₂_map_right_iff,
      List.forall₂_same]
    intro x hx
    simp [Part.writeTo, (hxs x hx).writeTo_build]
  refine ⟨(writeHeadersFrom_frame 0 _ _ hparts).trans (by rw [Nat.zero_add]), ?_, ?_⟩
  · intro hdr hmem
    obtain ⟨x, hx, rfl⟩ := List.mem_map.mp hmem
    exact (hxs x hx).writeTo_build
  · have hout : out = l.writeTo ++ frame 96 (hdrs.map Header.image) := by
      simp [out, frame]
    refine ⟨_, Reader.lead_writeTo hl (by rw [Reader.ofBytes, hout]), ?_⟩
    have hnext := Reader.nextN_frame hdrs
      (Reader.mk (frame 96 (hdrs.map Header.image) ++ []) 96) [] hsound rfl
    simpa [Reader.ofBytes, hout] using hnext

theorem writeHeaders_read_back_name :
    let l : Lead := { magic := leadMagic, major := 3, minor := 0, type := 0, archNum := 1,
                      name := zeros 66, osNum := 1, signatureType := 5,
                      magic_length := rfl, name_length := rfl }
    let hdrs := [HeaderCalls.mk [.addString 1000 [97]] (some headerImmutable)].map HeaderCalls.build
    let out := frame 0 (l.writeTo :: hdrs.map Header.image)
    writeHeaders (.lead l :: hdrs.map .header) = .ok (out, out.length) ∧
      (∀ hdr ∈ hdrs, hdr.writeTo = .ok (hdr.image, hdr.image.length, hdr)) ∧
      ∃ r, (Reader.ofBytes out).lead = .ok (l, r) ∧
        r.nextN hdrs.length = .ok (hdrs, { rest := [], off := out.length }) :=
  writeHeaders_read_back _ rfl _ (by
    intro x hx
    rw [List.mem_singleton.mp hx]
    refine ⟨by simp, ?_, by intro id hid; cases hid; decide, by decide⟩
    intro c hc
    rw [List.mem_singleton.mp hc]
    exact ⟨by decide, fun s hs => by simp at hs; subst hs; decide, by decide⟩)

end GoRpm
