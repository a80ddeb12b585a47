import GoRpm.Tar2rpm.Index
import GoRpm.Tar2rpm.Load

/-!
`main` of `tar2rpm`: the configuration file `-c` names is loaded over the defaults, the payload
header takes the configuration's tags, `index` reads the tar stream on standard input into the payload archive,
the header takes the payload tags and the file index and is written to a buffer, the signature
header takes the SHA-256 digest of that buffer, and standard output gets the lead, the signature,
the buffered header and the archive. The buffered writer over standard output takes every byte.

The package it writes is read back by the package's own readers: `Lead` gives the lead of the
package's `name-version-release`, two `Next` calls give the signature header and the payload
header exactly as `main` built them and leave the archive, `FileIndexHeader` gives back the index
`index` built, and a `scpio` reader over the archive gives back each entry's record. The
signature holds the digest of the payload header's bytes as they stand in the package, and the
payload header the digest of the archive that follows it.
-/

namespace GoRpm.Tar2rpm

section
variable (sha256 : List UInt8 → List UInt8)

/-- The tags `main` adds to the payload header after `index`: the i18n table `C`, the encoding
`utf-8`, the payload format `cpio`, the OS `linux`, build time 0, SHA-256 as the payload and the
file digest algorithm, and the digest of the archive. -/
def payloadTailCalls (data : List UInt8) : List AddCall :=
  [.addStringArray rpmtagHeaderi18ntable [[67]], .addString rpmtagEncoding [117, 116, 102, 45, 56],
    .addString rpmtagPayloadformat [99, 112, 105, 111],
    .addString rpmtagOs [108, 105, 110, 117, 120], .addInt32 rpmtagBuildtime [0],
    .addInt32 rpmtagPayloaddigestalgo [pgphashalgoSha256],
    .addInt32 rpmtagFiledigestalgo [pgphashalgoSha256],
    .addStringArray rpmtagPayloaddigest [encodeToString (sha256 data)]]

/-- The name `main` gives `NewLead`: `strings.Join` of name, version and release with `-`. -/
def Config.leadName (c : Config) : List UInt8 := c.name ++ [45] ++ c.version ++ [45] ++ c.release

/-- Why `main` stops with `log.Fatal`: `loadconfig` failed, `index` did, or a header's `WriteTo`
did. -/
inductive MainError where
  | config (e : ConfigError)
  | index (e : IndexError)
  | rpm (e : RpmError)
  deriving DecidableEq, Repr

/-- `main` from the loaded configuration on, as the bytes it writes to standard output. The
`Add*` calls' errors are ignored, as `main` ignores them; `WriteHeaders` gets the lead, the
signature header and the buffer `pb`, whose `WriteTo` writes its bytes and returns their
count. -/
def writePackage (c : Config) (tr : TarStream) : Except MainError (List UInt8) := do
  let hdr := c.append.foldl (fun hdr call => call.run hdr) newPayloadHeader
  let (idx, w) ← (index sha256 tr).mapError .index
  let data := w.out
  let hdr := idx.append ((payloadTailCalls sha256 data).foldl (fun hdr call => call.run hdr) hdr)
  let (pb, _, _) ← hdr.writeTo.mapError .rpm
  let sig := newSignatureHeader.addString rpmsigtagSha256 (encodeToString (sha256 pb))
  let (out, _) ← (writeHeadersOf 0 [(Part.lead (newLead c.leadName leadBinary)).writeTo,
    (Part.header sig).writeTo, .ok (pb, pb.length)]).mapError .rpm
  return out ++ data

/-- The calls `main` makes on `NewPayloadHeader`: the configuration's, the payload tags', and the
index's; `main_payloadHeader` shows that they build the header `main` writes. -/
def payloadCalls (c : Config) (idx : FileIndex) (data : List UInt8) : HeaderCalls :=
  ⟨c.append ++ payloadTailCalls sha256 data ++ idx.appendCalls, some headerImmutable⟩

/-- The call `main` makes on `NewSignatureHeader`: the SHA-256 of the payload header's bytes. -/
def signatureCalls (pb : List UInt8) : HeaderCalls :=
  ⟨[.addString rpmsigtagSha256 (encodeToString (sha256 pb))], some headerSignatures⟩

theorem main_payloadHeader (c : Config) (idx : FileIndex) (data : List UInt8) :
    idx.append ((payloadTailCalls sha256 data).foldl (fun hdr call => call.run hdr)
      (c.append.foldl (fun hdr call => call.run hdr) newPayloadHeader)) =
        (payloadCalls sha256 c idx data).build := by
  rw [newPayloadHeader, foldl_run_setRegion, foldl_run_setRegion, ← List.foldl_append]
  exact FileIndex.append_build idx _ (some headerImmutable)

theorem main_signatureHeader (pb : List UInt8) :
    newSignatureHeader.addString rpmsigtagSha256 (encodeToString (sha256 pb)) =
      (signatureCalls sha256 pb).build :=
  AddCall.run_setRegion (.addString rpmsigtagSha256 (encodeToString (sha256 pb))) {} _

theorem length_encodeToString : ∀ b : List UInt8, (encodeToString b).length = 2 * b.length
  | [] => rfl
  | v :: b => by
    rw [encodeToString, List.flatMap_cons, List.length_append, ← encodeToString,
      length_encodeToString b]
    simp only [List.length_cons, List.length_nil]
    omega

theorem payloadTailCalls_admissible (data : List UInt8) :
    ∀ call ∈ payloadTailCalls sha256 data, call.Admissible := by
  simp only [payloadTailCalls, List.mem_cons, List.mem_singleton, List.not_mem_nil, or_false]
  rintro call (rfl | rfl | rfl | rfl | rfl | rfl | rfl | rfl)
  · exact AddCall.admissible_addStringArray (by decide) (by simp) (by decide)
  · exact AddCall.admissible_addString (by decide) (by decide)
  · exact AddCall.admissible_addString (by decide) (by decide)
  · exact AddCall.admissible_addString (by decide) (by decide)
  · exact ⟨by decide, trivial, by decide⟩
  · exact ⟨by decide, trivial, by decide⟩
  · exact ⟨by decide, trivial, by decide⟩
  · exact AddCall.admissible_addStringArray (by decide) (by simp)
      (by simpa using not_mem_encodeToString _)

/-- The payload header of a NUL-free configuration and the files of a tar stream is made of
admissible calls, as long as it fits `2 ^ 32` bytes. -/
theorem payloadCalls_admissible {c : Config} (hc : ∀ s ∈ c.strings, 0 ∉ s) {files : List File}
    (hfiles : ∀ f ∈ files, f.NulFree) (data : List UInt8)
    (hsize : (payloadCalls sha256 c (FileIndex.ofFiles files) data).imageSize < 2 ^ 32) :
    (payloadCalls sha256 c (FileIndex.ofFiles files) data).Admissible where
  calls_ne := List.append_ne_nil_of_left_ne_nil
    (List.append_ne_nil_of_right_ne_nil _ (by simp [payloadTailCalls])) _
  admissible := by
    intro call hcall
    rcases List.mem_append.mp hcall with hcall | hcall
    · rcases List.mem_append.mp hcall with hcall | hcall
      · exact Config.append_admissible c hc call hcall
      · exact payloadTailCalls_admissible sha256 data call hcall
    · by_cases hnil : files = []
      · subst hnil
        simp [FileIndex.appendCalls, FileIndex.ofFiles] at hcall
      · exact FileIndex.appendCalls_admissible hnil hfiles call hcall
  region_id := by
    intro id hid
    cases hid
    decide
  size_lt := hsize

theorem signatureCalls_admissible (hsha : ∀ b, (sha256 b).length = 32) (pb : List UInt8) :
    (signatureCalls sha256 pb).Admissible where
  calls_ne := List.cons_ne_nil _ _
  admissible := by
    intro call hcall
    rw [List.mem_singleton.mp hcall]
    exact AddCall.admissible_addString (by decide) (not_mem_encodeToString _)
  region_id := by
    intro id hid
    cases hid
    decide
  size_lt := by
    simp [HeaderCalls.imageSize, signatureCalls, placeEnd, AddCall.tag, TagData.len,
      length_encodeToString, hsha, typeAlign, alignUp, rpmStringType, rpmInt16Type, rpmInt32Type,
      rpmInt64Type]

theorem fileIndexHeader_payloadCalls (c : Config) (files : List File) (data : List UInt8) :
    fileIndexHeader (payloadCalls sha256 c (FileIndex.ofFiles files) data).build =
      .ok (FileIndex.ofFiles files) := by
  have hskip : ((c.append ++ payloadTailCalls sha256 data).map AddCall.tag).foldlM
      FileIndex.ingest newFileIndex = .ok newFileIndex := by
    refine foldlM_ingest_skip (fun t ht => ?_) newFileIndex
    obtain ⟨call, hcall, rfl⟩ := List.mem_map.mp ht
    rcases List.mem_append.mp hcall with hcall | hcall
    · have hmem := Config.append_tag_mem c call hcall
      revert hmem
      generalize call.tag.tag = t
      intro hmem
      simp only [configTags, List.mem_cons, List.mem_singleton, List.not_mem_nil, or_false] at hmem
      rcases hmem with rfl | rfl | rfl | rfl | rfl | rfl | rfl | rfl | rfl | rfl | rfl | rfl |
        rfl | rfl | rfl | rfl | rfl | rfl | rfl | rfl | rfl <;> decide
    · simp only [payloadTailCalls, List.mem_cons, List.mem_singleton, List.not_mem_nil,
        or_false] at hcall
      rcases hcall with rfl | rfl | rfl | rfl | rfl | rfl | rfl | rfl <;> rfl
  rw [payloadCalls, HeaderCalls.build, fileIndexHeader_build, List.map_append, List.foldlM_append,
    hskip, ok_bind]
  by_cases hnil : files = []
  · subst hnil
    rfl
  · exact FileIndex.ingest_appendCalls hnil

theorem Part.writeTo_lead (l : Lead) : (Part.lead l).writeTo = .ok (l.writeTo, l.writeTo.length) := by
  simp [Part.writeTo]

theorem Part.writeTo_header {hdr : Header} (h : hdr.writeTo = .ok (hdr.image, hdr.image.length, hdr)) :
    (Part.header hdr).writeTo = .ok (hdr.image, hdr.image.length) := by
  simp [Part.writeTo, h]

theorem payloadCalls_admissible_of_index {c : Config} (hc : ∀ s ∈ c.strings, 0 ∉ s)
    {tr : TarStream} {idx : FileIndex} {w : Scpio.Writer} (hidx : index sha256 tr = .ok (idx, w))
    (hsize : (payloadCalls sha256 c idx w.out).imageSize < 2 ^ 32) :
    (payloadCalls sha256 c idx w.out).Admissible := by
  obtain ⟨files, hfiles, -, rfl, -⟩ := index_ok sha256 hidx
  refine payloadCalls_admissible sha256 hc (fun f hf => ?_) _ hsize
  obtain ⟨hdr, -, hhdr⟩ := exists_of_forall₂_mem (mapM_ok_forall₂ hfiles) f hf
  exact TarEntry.file_nulFree sha256 hhdr

/-- What `main` writes when `index` reads the stream and the payload header fits: the framed
lead, signature header and payload header, then the archive. -/
theorem writePackage_eq (hsha : ∀ b, (sha256 b).length = 32) {c : Config}
    (hc : ∀ s ∈ c.strings, 0 ∉ s) {tr : TarStream} {idx : FileIndex} {w : Scpio.Writer}
    (hidx : index sha256 tr = .ok (idx, w))
    (hsize : (payloadCalls sha256 c idx w.out).imageSize < 2 ^ 32) :
    writePackage sha256 c tr = .ok (frame 0 [(newLead c.leadName leadBinary).writeTo,
      (signatureCalls sha256 (payloadCalls sha256 c idx w.out).build.image).build.image,
      (payloadCalls sha256 c idx w.out).build.image] ++ w.out) := by
  have hx := payloadCalls_admissible_of_index sha256 hc hidx hsize
  have hs := signatureCalls_admissible sha256 hsha (payloadCalls sha256 c idx w.out).build.image
  simp only [writePackage, hidx, Except.mapError, ok_bind, main_payloadHeader, hx.writeTo_build,
    main_signatureHeader]
  rw [writeHeadersOf_frame 0 _ _ (.cons (Part.writeTo_lead _)
    (.cons (Part.writeTo_header hs.writeTo_build) (.cons rfl .nil)))]
  rfl

/-- From a NUL-free configuration, the package reads back. When `index` reads the tar stream
and the payload header fits `2 ^ 32` bytes, the package is written; `Lead` gives the lead of
`name-version-release`; two `Next` calls give the signature header of the payload header's
bytes and the payload header, as `main` built them, and leave exactly the archive;
`FileIndexHeader` gives back the index `index` built; and a `scpio` reader walking the archive
gives back each entry's record, its payload under its position, and ends at the end of the
stream. -/
theorem writePackage_read_back (hsha : ∀ b, (sha256 b).length = 32) (c : Config)
    (hc : ∀ s ∈ c.strings, 0 ∉ s) (tr : TarStream) {idx : FileIndex} {w : Scpio.Writer}
    (hidx : index sha256 tr = .ok (idx, w))
    (hsize : (payloadCalls sha256 c idx w.out).imageSize < 2 ^ 32) :
    ∃ out r r', writePackage sha256 c tr = .ok out ∧
      (Reader.ofBytes out).lead = .ok (newLead c.leadName leadBinary, r) ∧
      r.nextN 2 = .ok ([(signatureCalls sha256 (payloadCalls sha256 c idx w.out).build.image).build,
        (payloadCalls sha256 c idx w.out).build], r') ∧ r'.rest = w.out ∧
      fileIndexHeader (payloadCalls sha256 c idx w.out).build = .ok idx ∧
      (Scpio.Reader.ofBytes w.out).session 0 ((records tr.entries).map fun x => x.2.length) =
        .ok (records tr.entries, { rest := [], off := w.out.length }) := by
  have hmain := writePackage_eq sha256 hsha hc hidx hsize
  have hx := payloadCalls_admissible_of_index sha256 hc hidx hsize
  have hs := signatureCalls_admissible sha256 hsha (payloadCalls sha256 c idx w.out).build.image
  obtain ⟨files, -, -, rfl, rfl⟩ := index_ok sha256 hidx
  set hdr := (payloadCalls sha256 c (FileIndex.ofFiles files)
    (Scpio.writeArchive (records tr.entries)).out).build
  set sig := (signatureCalls sha256 hdr.image).build
  set data := (Scpio.writeArchive (records tr.entries)).out
  have hout : frame 0 [(newLead c.leadName leadBinary).writeTo, sig.image, hdr.image] ++ data =
      (newLead c.leadName leadBinary).writeTo ++ (frame 96 [sig.image, hdr.image] ++ data) := by
    simp [frame]
  have hlead := Reader.lead_writeTo
    (r := Reader.ofBytes (frame 0 [(newLead c.leadName leadBinary).writeTo, sig.image, hdr.image] ++
      data)) rfl hout
  have hnext := Reader.nextN_frame [sig, hdr]
    { rest := frame 96 [sig.image, hdr.image] ++ data, off := 96 } data
    (by simpa using ⟨hs.sound, hx.sound⟩) rfl
  have hsession := Scpio.Reader.session_layout (records tr.entries)
    (Scpio.Reader.ofBytes (Scpio.archiveLayout 0 (records tr.entries))) 0 []
    (by simp [Scpio.Reader.ofBytes])
  refine ⟨_, _, _, hmain, hlead, hnext, rfl,
    fileIndexHeader_payloadCalls sha256 c files _, ?_⟩
  have hdata : data = Scpio.archiveLayout 0 (records tr.entries) := by
    rw [show data = (Scpio.writeArchive (records tr.entries)).out from rfl, Scpio.writeArchive_eq]
  rw [hdata]
  simpa [Scpio.Reader.ofBytes] using hsession

/-- The configuration `main` runs with: the defaults, and the file `-c` names loaded over
them. -/
def loadedConfig : Option (List UInt8) → Except ConfigError Config
  | none => .ok defaultConfig
  | some input => loadconfig input defaultConfig

/-- `main`, given the contents of the file `-c` names, if any, and the tar stream on standard
input, as the bytes it writes to standard output. -/
def main (cfg : Option (List UInt8)) (tr : TarStream) : Except MainError (List UInt8) := do
  let c ← (loadedConfig cfg).mapError .config
  writePackage sha256 c tr

theorem main_eq_writePackage {cfg : Option (List UInt8)} {c : Config}
    (hc : loadedConfig cfg = .ok c) (tr : TarStream) : main sha256 cfg tr = writePackage sha256 c tr := by
  simp [main, hc, Except.mapError]

theorem loadedConfig_nulFree {cfg : Option (List UInt8)} (hcfg : ∀ input ∈ cfg, 0 ∉ input)
    {c : Config} (hc : loadedConfig cfg = .ok c) : c.NulFree := by
  have hdefault : defaultConfig.NulFree := by unfold Config.NulFree; decide
  cases cfg with
  | none => cases hc; exact hdefault
  | some input => exact loadconfig_nulFree (hcfg input rfl) hdefault hc

/-- `tar2rpm` writes a package that its own readers read back. When the configuration file has
no NUL byte and loads, `index` reads the tar stream and the payload header fits `2 ^ 32` bytes,
`main` writes the package; `Lead` gives the lead of `name-version-release`; two `Next` calls
give the signature header of the payload header's bytes and the payload header, as `main` built
them, and leave exactly the archive; `FileIndexHeader` gives back the index `index` built; and a
`scpio` reader walking the archive gives back each entry's record, its payload under its
position, and ends at the end of the stream. -/
theorem main_read_back (hsha : ∀ b, (sha256 b).length = 32) (cfg : Option (List UInt8))
    (hcfg : ∀ input ∈ cfg, 0 ∉ input) {c : Config} (hc : loadedConfig cfg = .ok c)
    (tr : TarStream) {idx : FileIndex} {w : Scpio.Writer} (hidx : index sha256 tr = .ok (idx, w))
    (hsize : (payloadCalls sha256 c idx w.out).imageSize < 2 ^ 32) :
    ∃ out r r', main sha256 cfg tr = .ok out ∧
      (Reader.ofBytes out).lead = .ok (newLead c.leadName leadBinary, r) ∧
      r.nextN 2 = .ok ([(signatureCalls sha256 (payloadCalls sha256 c idx w.out).build.image).build,
        (payloadCalls sha256 c idx w.out).build], r') ∧ r'.rest = w.out ∧
      fileIndexHeader (payloadCalls sha256 c idx w.out).build = .ok idx ∧
      (Scpio.Reader.ofBytes w.out).session 0 ((records tr.entries).map fun x => x.2.length) =
        .ok (records tr.entries, { rest := [], off := w.out.length }) := by
  rw [main_eq_writePackage sha256 hc]
  exact writePackage_read_back sha256 hsha c (loadedConfig_nulFree hcfg hc) tr hidx hsize

theorem suffix_frame (more x : List UInt8) :
    ∀ (p : Nat) (bs : List (List UInt8)), x ++ more <:+ frame p (bs ++ [x]) ++ more
  | p, [] => ⟨zeros ((8 - p % 8) % 8), by simp [frame]⟩
  | p, b :: bs => by
    simp only [List.cons_append, frame, List.append_assoc]
    exact (suffix_frame more x _ bs).trans
      ((List.suffix_append _ _).trans (List.suffix_append _ _))

theorem mem_build_tags_of_mem {calls : List AddCall} {call : AddCall} (hcall : call ∈ calls)
    (region : Option UInt32) :
    ∃ t ∈ (Header.build calls region).tags, t.tag = call.tag.tag ∧ t.data = call.tag.data := by
  have h := foldl_run_tags_erase calls {}
  rw [List.map_nil, List.nil_append, ← Header.build_tags calls region] at h
  obtain ⟨t, ht, he⟩ := List.mem_map.mp (h ▸ List.mem_map_of_mem AddCall.tag hcall)
  exact ⟨t, ht, by rw [← he], by rw [← he]⟩

/-- The digests of a package `tar2rpm` writes verify. The payload header that `Next` reads is
stored as bytes that read back as that header on their own, followed by the archive to the end
of the output; the signature header holds the SHA-256 of exactly those bytes, and the payload
header holds the SHA-256 of exactly the archive. -/
theorem main_digests (hsha : ∀ b, (sha256 b).length = 32) (cfg : Option (List UInt8))
    (hcfg : ∀ input ∈ cfg, 0 ∉ input) {c : Config} (hc : loadedConfig cfg = .ok c)
    (tr : TarStream) {idx : FileIndex} {w : Scpio.Writer} (hidx : index sha256 tr = .ok (idx, w))
    (hsize : (payloadCalls sha256 c idx w.out).imageSize < 2 ^ 32) :
    ∃ out r r' sig hdr hdrBytes, main sha256 cfg tr = .ok out ∧
      (Reader.ofBytes out).lead = .ok (newLead c.leadName leadBinary, r) ∧
      r.nextN 2 = .ok ([sig, hdr], r') ∧ r'.rest = w.out ∧ hdrBytes ++ w.out <:+ out ∧
      (Reader.ofBytes hdrBytes).next = .ok (hdr, { rest := [], off := hdrBytes.length }) ∧
      (∃ t ∈ sig.tags, t.tag = rpmsigtagSha256 ∧ t.data = .string [encodeToString (sha256 hdrBytes)]) ∧
      ∃ t ∈ hdr.tags, t.tag = rpmtagPayloaddigest ∧ t.data = .string [encodeToString (sha256 w.out)] := by
  have hnul := loadedConfig_nulFree hcfg hc
  have hx := payloadCalls_admissible_of_index sha256 hnul hidx hsize
  obtain ⟨out, r, r', hw, hlead, hnext, hrest, -⟩ :=
    writePackage_read_back sha256 hsha c hnul tr hidx hsize
  have hout : out = _ := Except.ok.inj (hw.symm.trans (writePackage_eq sha256 hsha hnul hidx hsize))
  set hdr := (payloadCalls sha256 c idx w.out).build
  have hsig := @mem_build_tags_of_mem (signatureCalls sha256 hdr.image).calls
    (.addString rpmsigtagSha256 (encodeToString (sha256 hdr.image))) (List.mem_singleton_self _)
    (signatureCalls sha256 hdr.image).region
  have hdigest := @mem_build_tags_of_mem (payloadCalls sha256 c idx w.out).calls
    (.addStringArray rpmtagPayloaddigest [encodeToString (sha256 w.out)])
    (by simp [payloadCalls, payloadTailCalls]) (payloadCalls sha256 c idx w.out).region
  have hread : (Reader.ofBytes hdr.image).next = .ok (hdr, { rest := [], off := hdr.image.length }) := by
    rw [Reader.next_image hx.sound (by rfl) (List.append_nil _).symm, hx.sound.length_image]
    simp only [Reader.ofBytes, Nat.zero_add]
  refine ⟨out, r, r', _, hdr, hdr.image, main_eq_writePackage sha256 hc tr ▸ hw, hlead, hnext,
    hrest, ?_, hread, hsig, hdigest⟩
  rw [hout]
  exact suffix_frame w.out hdr.image 0 [_, _]

end

/-- A configuration file `name hi`. -/
def hiConfig : Option (List UInt8) := some [110, 97, 109, 101, 32, 104, 105, 10]

set_option maxRecDepth 20000 in
theorem main_read_back_hi :
    (∀ b : List UInt8, ((fun _ => zeros 32) b).length = 32) ∧ (∀ input ∈ hiConfig, 0 ∉ input) ∧
    ∃ c, loadedConfig hiConfig = .ok c ∧ ∃ res, index (fun _ => zeros 32) hiTar = .ok res ∧
      (payloadCalls (fun _ => zeros 32) c res.1 res.2.out).imageSize < 2 ^ 32 ∧
      ∃ out r r', main (fun _ => zeros 32) hiConfig hiTar = .ok out ∧
        (Reader.ofBytes out).lead = .ok (newLead c.leadName leadBinary, r) ∧
        r.nextN 2 = .ok ([(signatureCalls (fun _ => zeros 32)
            (payloadCalls (fun _ => zeros 32) c res.1 res.2.out).build.image).build,
          (payloadCalls (fun _ => zeros 32) c res.1 res.2.out).build], r') ∧
        r'.rest = res.2.out ∧
        fileIndexHeader (payloadCalls (fun _ => zeros 32) c res.1 res.2.out).build = .ok res.1 ∧
        (Scpio.Reader.ofBytes res.2.out).session 0
            ((records hiTar.entries).map fun x => x.2.length) =
          .ok (records hiTar.entries, { rest := [], off := res.2.out.length }) :=
  ⟨fun _ => rfl, by decide, _, rfl, _, rfl, by decide,
    main_read_back (fun _ => zeros 32) (fun _ => rfl) hiConfig (by decide) rfl hiTar rfl
      (by decide)⟩

set_option maxRecDepth 20000 in
theorem main_digests_hi :
    (∀ b : List UInt8, ((fun _ => zeros 32) b).length = 32) ∧ (∀ input ∈ hiConfig, 0 ∉ input) ∧
    ∃ c, loadedConfig hiConfig = .ok c ∧ ∃ res, index (fun _ => zeros 32) hiTar = .ok res ∧
      (payloadCalls (fun _ => zeros 32) c res.1 res.2.out).imageSize < 2 ^ 32 ∧
      ∃ out r r' sig hdr hdrBytes, main (fun _ => zeros 32) hiConfig hiTar = .ok out ∧
        (Reader.ofBytes out).lead = .ok (newLead c.leadName leadBinary, r) ∧
        r.nextN 2 = .ok ([sig, hdr], r') ∧ r'.rest = res.2.out ∧ hdrBytes ++ res.2.out <:+ out ∧
        (Reader.ofBytes hdrBytes).next = .ok (hdr, { rest := [], off := hdrBytes.length }) ∧
        (∃ t ∈ sig.tags, t.tag = rpmsigtagSha256 ∧
          t.data = .string [encodeToString ((fun _ => zeros 32) hdrBytes)]) ∧
        ∃ t ∈ hdr.tags, t.tag = rpmtagPayloaddigest ∧
          t.data = .string [encodeToString ((fun _ => zeros 32) res.2.out)] :=
  ⟨fun _ => rfl, by decide, _, rfl, _, rfl, by decide,
    main_digests (fun _ => zeros 32) (fun _ => rfl) hiConfig (by decide) rfl hiTar rfl
      (by decide)⟩

end GoRpm.Tar2rpm
