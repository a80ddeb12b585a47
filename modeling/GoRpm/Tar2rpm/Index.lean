import GoRpm.Tar2rpm.Config
import GoRpm.Files.Dump
import GoRpm.Scpio.RoundTrip

/-!
`index` of `tar2rpm`: the loop that reads a tar stream entry by entry, writes each entry to the
payload archive as a `scpio` record numbered by its position, and adds it to a file index. A
regular file's bytes go into its record and their SHA-256 digest, in lowercase hex, into its
file; every other entry has an empty record. The tar reader itself is not modelled: a stream is
what its successive `Next` calls give, and an entry is the header fields `index` reads, the
`os.FileMode` that `FileInfo().Mode()` makes of them, and what copying the entry's body gives.
The digest function is a parameter.

The loop and its three accumulators are a map of one function over the entries: the index is
the `FileIndex` of the files the entries give and the archive is `writeArchive` of their records,
unless some entry fails, and then the first failing entry decides the error.
-/

namespace GoRpm.Tar2rpm

/-- An error of the tar stream, by its text. -/
structure TarError where
  text : List UInt8
  deriving DecidableEq, Repr

/-- `tar.TypeReg`, the type flag `'0'`. -/
def typeReg : UInt8 := 48

/-- What the tar reader gives of one entry: the header fields `index` reads, the `os.FileMode`
of `FileInfo().Mode()`, and the bytes copying the entry's body gives, or the error it stops at.
The reader reads names as NUL-terminated fields and refuses a NUL in a PAX path, so no name
holds one. -/
structure TarEntry where
  name : List UInt8
  linkname : List UInt8
  modTime : Int
  size : Int
  fileMode : UInt32
  typeflag : UInt8
  body : Except TarError (List UInt8)
  name_nulFree : 0 ∉ name
  linkname_nulFree : 0 ∉ linkname

/-- What successive `tr.Next()` calls give: the entries, then `io.EOF` (`none`) or an error. -/
structure TarStream where
  entries : List TarEntry
  close : Option TarError

/-- Why `index` fails. The size check prints `hdr size mismatch, want %d, have %d` with the
bytes copied as `want` and the header's size as `have`. -/
inductive IndexError where
  | tar (e : TarError)
  | mode (e : RpmError)
  | sizeMismatch (want got : Int)
  deriving DecidableEq, Repr

/-- `hex.EncodeToString`: two lowercase hex digits per byte. -/
def encodeToString (b : List UInt8) : List UInt8 :=
  b.flatMap fun v => [Scpio.hexDigits.getD (v >>> 4).toNat 0, Scpio.hexDigits.getD (v &&& 0x0f).toNat 0]

theorem not_mem_encodeToString (b : List UInt8) : 0 ∉ encodeToString b := by
  have hdigits : ∀ n, Scpio.hexDigits.getD n 0 ≠ 0 ∨ n ≥ 16 := fun n => by
    by_cases hn : n < 16
    · left
      interval_cases n <;> decide
    · exact .inr (by omega)
  have hhigh : ∀ v : UInt8, (v >>> 4).toNat < 16 := fun v => by
    change (v.toNat >>> 4) < 16
    rw [Nat.shiftRight_eq_div_pow]
    have := uint8_toNat_lt v
    omega
  have hlow : ∀ v : UInt8, (v &&& 0x0f).toNat < 16 := fun v => by
    change v.toNat &&& 15 < 16
    exact lt_of_le_of_lt Nat.and_le_right (by norm_num)
  simp only [encodeToString, List.mem_flatMap, List.mem_cons, List.mem_singleton,
    List.not_mem_nil, or_false, not_exists, not_and]
  intro v _ h
  rcases h with h | h
  · exact ((hdigits _).resolve_right (by have := hhigh v; omega)) h.symm
  · exact ((hdigits _).resolve_right (by have := hlow v; omega)) h.symm

section
variable (sha256 : List UInt8 → List UInt8)

/-- The file `index` makes of an entry: `path.Join("/", hdr.Name)`, the link target, the time
and size converted to `uint32` and `uint64`, and the mode `Mode` made. -/
def TarEntry.toFile (hdr : TarEntry) (mode : UInt16) : File :=
  { name := pathJoin [[47], hdr.name], user := [], group := [], mode, linkTo := hdr.linkname,
    mTime := UInt32.ofNat (hdr.modTime % 2 ^ 32).toNat, digest := [], noVerify := 0,
    size := UInt64.ofNat (hdr.size % 2 ^ 64).toNat, flags := 0 }

/-- One pass of the loop of `index`, with the index, the archive writer and the counter `i`:
`Mode`, `WriteHeader(i)`, then either `Add` of a non-regular entry, or the copy of a regular
file's body into the archive, the size check, and `Add` with the body's digest. -/
def indexEntry : FileIndex × Scpio.Writer × UInt32 → TarEntry →
    Except IndexError (FileIndex × Scpio.Writer × UInt32)
  | (idx, w, i), hdr => do
    let mode ← (GoRpm.mode hdr.fileMode).mapError .mode
    let file := hdr.toFile mode
    let w := w.writeHeader i
    if hdr.typeflag ≠ typeReg then return (idx.add file, w, i + 1)
    let body ← hdr.body.mapError .tar
    let w := w.write body
    if (body.length : Int) ≠ hdr.size then throw (.sizeMismatch body.length hdr.size)
    return (idx.add { file with digest := encodeToString (sha256 body) }, w, i + 1)

/-- `index`: every entry in turn from `NewFileIndex`, a fresh writer and inode 0; at `io.EOF`
the index and the closed archive, at any other end of the stream its error. -/
def index (tr : TarStream) : Except IndexError (FileIndex × Scpio.Writer) := do
  let (idx, w, _) ← tr.entries.foldlM (indexEntry sha256) (newFileIndex, {}, 0)
  match tr.close with
  | some e => throw (.tar e)
  | none => return (idx, w.close)

/-- The file `indexEntry` adds for an entry, or the error it stops at; `index_eq` shows that
`index` is `Add` over these files. -/
def TarEntry.file (hdr : TarEntry) : Except IndexError File := do
  let mode ← (GoRpm.mode hdr.fileMode).mapError .mode
  if hdr.typeflag ≠ typeReg then return hdr.toFile mode
  let body ← hdr.body.mapError .tar
  if (body.length : Int) ≠ hdr.size then throw (.sizeMismatch body.length hdr.size)
  return { hdr.toFile mode with digest := encodeToString (sha256 body) }

end

/-- The payload `indexEntry` writes after an entry's record header: a regular file's bytes, and
nothing for any other entry. -/
def TarEntry.payload (hdr : TarEntry) : List UInt8 :=
  if hdr.typeflag ≠ typeReg then [] else
    match hdr.body with
    | .ok b => b
    | .error _ => []

/-- The records `index` writes to the archive: each entry's payload under its position, the
inode `indexEntry` counts up. -/
def records (hdrs : List TarEntry) : List (UInt32 × List UInt8) :=
  hdrs.enum.map fun r => (UInt32.ofNat r.1, r.2.payload)

section
variable (sha256 : List UInt8 → List UInt8)

@[simp] theorem writer_write_nil (s : Scpio.Writer) : s.write [] = s := by
  simp [Scpio.Writer.write]

theorem uint32_ofNat_succ (k : Nat) : UInt32.ofNat k + 1 = UInt32.ofNat (k + 1) :=
  UInt32.toNat.inj (by simp)

/-- One pass adds the entry's file and writes its record, or fails as the entry does. -/
theorem indexEntry_eq (idx : FileIndex) (w : Scpio.Writer) (i : UInt32) (hdr : TarEntry) :
    indexEntry sha256 (idx, w, i) hdr =
      (fun f => (idx.add f, (w.writeHeader i).write hdr.payload, i + 1)) <$> hdr.file sha256 := by
  cases hm : GoRpm.mode hdr.fileMode with
  | error e => simp [indexEntry, TarEntry.file, hm, Except.mapError]
  | ok m =>
    by_cases hreg : hdr.typeflag = typeReg
    · cases hb : hdr.body with
      | error e =>
        simp [indexEntry, TarEntry.file, TarEntry.payload, hm, hreg, hb, Except.mapError]
      | ok body =>
        by_cases hsz : (body.length : Int) = hdr.size <;>
          simp [indexEntry, TarEntry.file, TarEntry.payload, hm, hreg, hb, hsz, Except.mapError]
    · simp [indexEntry, TarEntry.file, TarEntry.payload, hm, hreg, Except.mapError]

/-- The loop from position `k` is the map of `TarEntry.file` over the entries: the index grows
by their files, the archive by their records, the counter by their number. -/
theorem foldlM_indexEntry : ∀ (hdrs : List TarEntry) (idx : FileIndex) (w : Scpio.Writer) (k : Nat),
    hdrs.foldlM (indexEntry sha256) (idx, w, UInt32.ofNat k) =
      (fun files => (files.foldl FileIndex.add idx,
        ((hdrs.enumFrom k).map fun r => (UInt32.ofNat r.1, r.2.payload)).foldl
          (fun (s : Scpio.Writer) r => (s.writeHeader r.1).write r.2) w,
        UInt32.ofNat (k + hdrs.length))) <$> hdrs.mapM (TarEntry.file sha256)
  | [], idx, w, k => rfl
  | hdr :: hdrs, idx, w, k => by
    rw [List.foldlM_cons, indexEntry_eq, List.mapM_cons]
    cases hdr.file sha256 with
    | error e => rfl
    | ok f =>
      simp only [map_ok, ok_bind, uint32_ofNat_succ, foldlM_indexEntry hdrs]
      cases hdrs.mapM (TarEntry.file sha256) with
      | error e => rfl
      | ok files =>
        simp only [map_ok, ok_bind, pure_eq_ok, List.foldl_cons, List.enumFrom_cons, List.map_cons,
          List.length_cons, Nat.add_assoc, Nat.add_comm 1]

/-- `index` reads a tar stream into the file index of the files its entries give and the
archive of their records, each entry's payload under its position as inode; the first entry
that fails, or else a stream that ends in an error, decides the error. -/
theorem index_eq (tr : TarStream) :
    index sha256 tr = tr.entries.mapM (TarEntry.file sha256) >>= fun files =>
      match tr.close with
      | some e => .error (.tar e)
      | none => .ok (FileIndex.ofFiles files, Scpio.writeArchive (records tr.entries)) := by
  have hrun := foldlM_indexEntry sha256 tr.entries newFileIndex {} 0
  unfold index
  rw [show ((newFileIndex, {}, 0) : FileIndex × Scpio.Writer × UInt32) =
    (newFileIndex, {}, UInt32.ofNat 0) from rfl, hrun]
  cases tr.entries.mapM (TarEntry.file sha256) with
  | error e => rfl
  | ok files =>
    cases tr.close <;> simp [add_run_eq_ofFiles, Scpio.writeArchive, records, List.enum]

/-- What a successful `index` gives: every entry's file, a stream that ended at `io.EOF`, the
index of those files and the archive of the entries' records. -/
theorem index_ok {tr : TarStream} {idx : FileIndex} {w : Scpio.Writer}
    (h : index sha256 tr = .ok (idx, w)) :
    ∃ files, tr.entries.mapM (TarEntry.file sha256) = .ok files ∧ tr.close = none ∧
      idx = FileIndex.ofFiles files ∧ w = Scpio.writeArchive (records tr.entries) := by
  rw [index_eq] at h
  obtain ⟨files, hfiles, h⟩ := bind_eq_ok h
  cases hc : tr.close with
  | some e => simp [hc] at h
  | none =>
    simp only [hc, Except.ok.injEq, Prod.mk.injEq] at h
    exact ⟨files, hfiles, rfl, h.1.symm, h.2.symm⟩

/-- What `TarEntry.file` can give: the file of the entry's mode, and for a regular file whose
body has the header's size, that file with the body's digest. -/
theorem TarEntry.file_ok {hdr : TarEntry} {f : File} (h : hdr.file sha256 = .ok f) :
    ∃ m, GoRpm.mode hdr.fileMode = .ok m ∧
      ((hdr.typeflag ≠ typeReg ∧ f = hdr.toFile m) ∨
        (hdr.typeflag = typeReg ∧ ∃ body, hdr.body = .ok body ∧ (body.length : Int) = hdr.size ∧
          f = { hdr.toFile m with digest := encodeToString (sha256 body) })) := by
  cases hm : GoRpm.mode hdr.fileMode with
  | error e => simp [TarEntry.file, hm, Except.mapError] at h
  | ok m =>
    refine ⟨m, rfl, ?_⟩
    by_cases hreg : hdr.typeflag = typeReg
    · cases hb : hdr.body with
      | error e => simp [TarEntry.file, hm, hreg, hb, Except.mapError] at h
      | ok body =>
        by_cases hsz : (body.length : Int) = hdr.size
        · simp [TarEntry.file, hm, hreg, hb, hsz, Except.mapError] at h
          exact .inr ⟨hreg, body, rfl, hsz, h.symm⟩
        · simp [TarEntry.file, hm, hreg, hb, hsz, Except.mapError] at h
    · simp [TarEntry.file, hm, hreg, Except.mapError] at h
      exact .inl ⟨hreg, h.symm⟩

theorem pathJoin_root (name : List UInt8) : pathJoin [[47], name] = pathClean (47 :: name) := by
  have h := pathClean_double_slash [] name
  simp only [List.nil_append] at h
  simp [pathJoin, List.intercalate, h]

theorem TarEntry.file_name {hdr : TarEntry} {f : File} (h : hdr.file sha256 = .ok f) :
    f.name = pathClean (47 :: hdr.name) ∧ f.linkTo = hdr.linkname := by
  obtain ⟨m, -, ⟨-, rfl⟩ | ⟨-, body, -, -, rfl⟩⟩ := TarEntry.file_ok sha256 h <;>
    exact ⟨pathJoin_root _, rfl⟩

theorem TarEntry.file_nulFree {hdr : TarEntry} {f : File} (h : hdr.file sha256 = .ok f) :
    f.NulFree := by
  have hname : 0 ∉ pathClean (47 :: hdr.name) := fun h0 => by
    rcases mem_pathClean h0 with h0 | h0 | h0
    · rcases List.mem_cons.mp h0 with h0 | h0
      · cases h0
      · exact hdr.name_nulFree h0
    · cases h0
    · cases h0
  obtain ⟨m, -, ⟨-, rfl⟩ | ⟨-, body, -, -, rfl⟩⟩ := TarEntry.file_ok sha256 h
  · exact ⟨by rw [TarEntry.toFile, pathJoin_root]; exact hname, List.not_mem_nil 0,
      List.not_mem_nil 0, hdr.linkname_nulFree, List.not_mem_nil 0⟩
  · exact ⟨by rw [TarEntry.toFile, pathJoin_root]; exact hname, List.not_mem_nil 0,
      List.not_mem_nil 0, hdr.linkname_nulFree, not_mem_encodeToString _⟩

theorem mapM_ok_forall₂ {α β ε : Type} {f : α → Except ε β} :
    ∀ {l : List α} {bs : List β}, l.mapM f = .ok bs → List.Forall₂ (fun a b => f a = .ok b) l bs
  | [], bs, h => by cases h; exact .nil
  | a :: l, bs, h => by
    rw [List.mapM_cons] at h
    obtain ⟨b, hb, h⟩ := bind_eq_ok h
    obtain ⟨bs', hbs, h⟩ := bind_eq_ok h
    cases h
    exact .cons hb (mapM_ok_forall₂ hbs)

theorem exists_of_forall₂_mem {α β : Type} {R : α → β → Prop} :
    ∀ {l : List α} {bs : List β}, List.Forall₂ R l bs → ∀ b ∈ bs, ∃ a ∈ l, R a b
  | _, _, .nil, _, hb => absurd hb (List.not_mem_nil _)
  | a :: _, _, .cons hab h, b, hb => by
    rcases List.mem_cons.mp hb with rfl | hb
    · exact ⟨a, List.mem_cons_self _ _, hab⟩
    · obtain ⟨a', ha', h'⟩ := exists_of_forall₂_mem h b hb
      exact ⟨a', List.mem_cons_of_mem _ ha', h'⟩

theorem map_eq_of_forall₂ {α β γ : Type} {R : α → β → Prop} {g : β → γ} {g' : α → γ}
    (hg : ∀ a b, R a b → g b = g' a) : ∀ {l : List α} {bs : List β}, List.Forall₂ R l bs →
      bs.map g = l.map g'
  | _, _, .nil => rfl
  | _, _, .cons hab h => by rw [List.map_cons, List.map_cons, hg _ _ hab, map_eq_of_forall₂ hg h]

theorem length_dirTable_le (files : List File) : (dirTable files).length ≤ files.length := by
  simp only [dirTable, firstOccurrences, List.length_reverse]
  exact (List.dedup_sublist _).length_le.trans (by simp)

/-- A tar stream of one regular file `hi`, mode `0644`, holding `hi`. -/
def hiTar : TarStream :=
  ⟨[⟨[104, 105], [], 0, 2, 0o644, typeReg, .ok [104, 105], by decide, by decide⟩], none⟩

/-- The file listing of the index `index` builds shows each entry of the tar stream, in order,
under its name made absolute and cleaned, followed by its link target. -/
theorem index_dump_files (tr : TarStream) (hlen : tr.entries.length ≤ 2 ^ 32) {idx : FileIndex}
    {w : Scpio.Writer} (h : index sha256 tr = .ok (idx, w)) :
    (List.map DumpLine.file) <$> idx.dump = .ok (tr.entries.map fun hdr =>
      pathClean (47 :: hdr.name) ++ if hdr.linkname = [] then [] else arrow ++ hdr.linkname) := by
  obtain ⟨files, hfiles, -, rfl, -⟩ := index_ok sha256 h
  have h2 := mapM_ok_forall₂ hfiles
  have hdirs : (dirTable files).length ≤ 2 ^ 32 :=
    (length_dirTable_le files).trans (h2.length_eq ▸ hlen)
  rw [FileIndex.dump_ofFiles files hdirs, map_ok, List.map_map]
  congr 1
  refine map_eq_of_forall₂ (fun hdr f hf => ?_) h2
  obtain ⟨hname, hlink⟩ := TarEntry.file_name sha256 hf
  have hslash : 47 ∈ pathClean (47 :: hdr.name) := by simp [pathClean]
  simp [File.dumpLine, File.entry, hslash, hname, hlink, pathClean_pathClean]

end

theorem index_dump_files_hi :
    hiTar.entries.length ≤ 2 ^ 32 ∧ ∃ res, index (fun _ => zeros 32) hiTar = .ok res ∧
      (List.map DumpLine.file) <$> res.1.dump = .ok (hiTar.entries.map fun hdr =>
        pathClean (47 :: hdr.name) ++ if hdr.linkname = [] then [] else arrow ++ hdr.linkname) :=
  ⟨by decide, _, rfl, index_dump_files (fun _ => zeros 32) hiTar (by decide) rfl⟩

end GoRpm.Tar2rpm
