import GoRpm.Tar2rpm.Main

/-!
`rpmdump`: the lead of a package, then up to `-nhdr` headers read with `Next`, and for each
header its tags and, with `-files`, the file listing `FileIndexHeader` and `Dump` give. The model
keeps what `main` reads and lists: the headers and the listings. The text it prints for the
region and the tags (`Tag.Dump`, `Tag.DumpSignature`) and the `-json` output are not modelled.

`rpmdump -files` reads what `tar2rpm` writes: the two headers `main` built and no error after
them, nothing to list in the signature header, and in the payload header one line for each
entry of the tar stream.
-/

namespace GoRpm.Rpmdump

open Tar2rpm

/-- Why `main` stops with `log.Fatal`: the lead, no header read, `FileIndexHeader`, `Dump`, or
an error of `Next` that is not `io.EOF`. -/
inductive RpmdumpError where
  | lead (e : RpmError)
  | noHeaders (e : Option RpmError)
  | fileIndex (e : RpmError)
  | dump (e : DumpError)
  | next (e : RpmError)
  deriving DecidableEq, Repr

/-- The loop of `main`: `Next` up to `nhdr` times, keeping the headers read before its first
error, and that error. -/
def readHeaders (r : Reader) : Nat → List Header × Option RpmError
  | 0 => ([], none)
  | n + 1 =>
    match r.next with
    | .error e => ([], some e)
    | .ok (hdr, r) =>
      let (h, err) := readHeaders r n
      (hdr :: h, err)

/-- What `dump` lists for a header with `-files`. -/
def fileListing (hdr : Header) : Except RpmdumpError (List DumpLine) := do
  let fi ← (fileIndexHeader hdr).mapError .fileIndex
  fi.dump.mapError .dump

/-- `main` on the bytes of a package, with `-files` or not and `-nhdr`: the headers it reads and,
with `-files`, their listings. -/
def main (files : Bool) (nhdr : Int) (input : List UInt8) :
    Except RpmdumpError (List Header × List (List DumpLine)) := do
  let (_, r) ← (Reader.ofBytes input).lead.mapError .lead
  if nhdr < 1 then return ([], [])
  let (h, err) := readHeaders r nhdr.toNat
  if h = [] then throw (.noHeaders err)
  let listings ← if files then h.mapM fileListing else pure []
  match err with
  | some e => if e = .io .eof then return (h, listings) else throw (.next e)
  | none => return (h, listings)

theorem readHeaders_of_nextN : ∀ {r : Reader} {n : Nat} {h : List Header} {r' : Reader},
    r.nextN n = .ok (h, r') → readHeaders r n = (h, none)
  | _, 0, _, _, hn => by cases hn; rfl
  | r, n + 1, _, _, hn => by
    obtain ⟨⟨hdr, r₁⟩, hnext, hn⟩ := bind_eq_ok hn
    obtain ⟨⟨h, r₂⟩, hrest, hn⟩ := bind_eq_ok hn
    cases hn
    simp [readHeaders, hnext, readHeaders_of_nextN hrest]

section
variable (sha256 : List UInt8 → List UInt8)

theorem fileListing_signatureCalls (pb : List UInt8) :
    fileListing (signatureCalls sha256 pb).build = .ok [] := by
  have hskip := @foldlM_ingest_skip ((signatureCalls sha256 pb).calls.map AddCall.tag)
    (by simp [signatureCalls, AddCall.tag]; decide) newFileIndex
  simp only [fileListing, HeaderCalls.build, fileIndexHeader_build, hskip, Except.mapError]
  rfl

/-- `rpmdump -files` reads what `tar2rpm` writes. Under the assumptions of the read-back
theorem of `tar2rpm` and a tar stream of at most `2 ^ 32` entries, `rpmdump` reads the two
headers `main` built and no error after them; it lists nothing for the signature header, and for
the payload header one line for each file of the tar stream, in order. -/
theorem main_reads_tar2rpm (hsha : ∀ b, (sha256 b).length = 32) (cfg : Option (List UInt8))
    (hcfg : ∀ input ∈ cfg, 0 ∉ input) {c : Config} (hc : loadedConfig cfg = .ok c)
    (tr : TarStream) (hlen : tr.entries.length ≤ 2 ^ 32) {idx : FileIndex} {w : Scpio.Writer}
    (hidx : index sha256 tr = .ok (idx, w))
    (hsize : (payloadCalls sha256 c idx w.out).imageSize < 2 ^ 32) :
    ∃ out files, Tar2rpm.main sha256 cfg tr = .ok out ∧
      tr.entries.mapM (TarEntry.file sha256) = .ok files ∧
      main true 2 out = .ok ([(signatureCalls sha256 (payloadCalls sha256 c idx w.out).build.image).build,
        (payloadCalls sha256 c idx w.out).build], [[], files.map File.dumpLine]) := by
  obtain ⟨out, r, r', hw, hlead, hnext, -, hfi, -⟩ :=
    writePackage_read_back sha256 hsha c (loadedConfig_nulFree hcfg hc) tr hidx hsize
  obtain ⟨files, hfiles, -, rfl, -⟩ := index_ok sha256 hidx
  have hdirs : (dirTable files).length ≤ 2 ^ 32 :=
    (length_dirTable_le files).trans ((mapM_ok_forall₂ hfiles).length_eq ▸ hlen)
  have hpayload : fileListing (payloadCalls sha256 c (FileIndex.ofFiles files) w.out).build =
      .ok (files.map File.dumpLine) := by
    simp [fileListing, hfi, FileIndex.dump_ofFiles files hdirs, Except.mapError]
  refine ⟨out, files, main_eq_writePackage sha256 hc tr ▸ hw, hfiles, ?_⟩
  simp [main, hlead, Except.mapError, readHeaders_of_nextN hnext, List.mapM.loop,
    fileListing_signatureCalls, hpayload]

end

set_option maxRecDepth 20000 in
theorem main_reads_tar2rpm_hi :
    (∀ b : List UInt8, ((fun _ => zeros 32) b).length = 32) ∧ (∀ input ∈ hiConfig, 0 ∉ input) ∧
    ∃ c, loadedConfig hiConfig = .ok c ∧ hiTar.entries.length ≤ 2 ^ 32 ∧
      ∃ res, index (fun _ => zeros 32) hiTar = .ok res ∧
      (payloadCalls (fun _ => zeros 32) c res.1 res.2.out).imageSize < 2 ^ 32 ∧
      ∃ out files, Tar2rpm.main (fun _ => zeros 32) hiConfig hiTar = .ok out ∧
        hiTar.entries.mapM (TarEntry.file (fun _ => zeros 32)) = .ok files ∧
        main true 2 out = .ok ([(signatureCalls (fun _ => zeros 32)
            (payloadCalls (fun _ => zeros 32) c res.1 res.2.out).build.image).build,
          (payloadCalls (fun _ => zeros 32) c res.1 res.2.out).build],
          [[], files.map File.dumpLine]) :=
  ⟨fun _ => rfl, by decide, _, rfl, by decide, _, rfl, by decide,
    main_reads_tar2rpm (fun _ => zeros 32) (fun _ => rfl) hiConfig (by decide) rfl hiTar
      (by decide) rfl (by decide)⟩

end GoRpm.Rpmdump
