import GoRpm.Header.Build

/-!
The file index of a package (`files.go`): one column per file attribute, and the table of
directory names that `prefixMap` grows as files are added. `Add` appends a file to every
column, `Append` hands the columns to a header through the `Add*` calls, and
`FileIndexHeader` reads them back from a header's tags. Go's `map[string]int` is a list of
bindings whose keys stay distinct; the two runtime panics `FileIndexHeader` can reach (a nil
`*tagString`, an empty size vector) are the errors `nilDereference` and `indexOutOfRange`.
-/

namespace GoRpm

/-- Modelled from the spec: the ids of the file-index tags (the registry `tags.go` is not in
the source tree), with the numbers RPM's registry gives them. -/
def rpmtagSize : UInt32 := 1009
def rpmtagFilesizes : UInt32 := 1028
def rpmtagFilemodes : UInt32 := 1030
def rpmtagFilemtimes : UInt32 := 1034
def rpmtagFiledigests : UInt32 := 1035
def rpmtagFilelinktos : UInt32 := 1036
def rpmtagFileflags : UInt32 := 1037
def rpmtagFileusername : UInt32 := 1039
def rpmtagFilegroupname : UInt32 := 1040
def rpmtagFileverifyflags : UInt32 := 1045
def rpmtagFiledevices : UInt32 := 1095
def rpmtagFileinodes : UInt32 := 1096
def rpmtagDirindexes : UInt32 := 1116
def rpmtagBasenames : UInt32 := 1117
def rpmtagDirnames : UInt32 := 1118
def rpmtagLongfilesizes : UInt32 := 5008
def rpmtagLongsize : UInt32 := 5009

/-- The ids the `switch v.Tag` of `FileIndexHeader` reads; every other tag is skipped. -/
def isFileIndexTag (id : UInt32) : Bool :=
  id ∈ [rpmtagDirnames, rpmtagBasenames, rpmtagFileusername, rpmtagFilegroupname,
    rpmtagFilelinktos, rpmtagFiledigests, rpmtagDirindexes, rpmtagFiledevices, rpmtagFileinodes,
    rpmtagFilemtimes, rpmtagFileflags, rpmtagFileverifyflags, rpmtagFilemodes, rpmtagFilesizes,
    rpmtagLongfilesizes, rpmtagSize, rpmtagLongsize]

/-- A Go `map[string]int`, as its bindings; `assign` keeps the keys distinct, so `len(m)` is
the length of the list. -/
abbrev GoMap := List (List UInt8 × Nat)

/-- `v, ok := m[k]`. -/
def GoMap.find : GoMap → List UInt8 → Option Nat
  | [], _ => none
  | (k', v) :: m, k => if k' = k then some v else GoMap.find m k

/-- `m[k] = v`: the binding of `k` replaced, or a new one added. -/
def GoMap.assign : GoMap → List UInt8 → Nat → GoMap
  | [], k, v => [(k, v)]
  | (k', v') :: m, k, v => if k' = k then (k, v) :: m else (k', v') :: GoMap.assign m k v

/-- `prefixMap`: the directory names in the order they were first seen, and the index of each. -/
structure PrefixMap where
  s : List (List UInt8)
  m : GoMap
  deriving DecidableEq, Repr

def newPrefixMap : PrefixMap := { s := [], m := [] }

/-- `filepath.Split` on a Unix path: everything up to and including the last `/`, and the
rest. -/
def splitPath (path : List UInt8) : List UInt8 × List UInt8 :=
  ((path.reverse.dropWhile (· ≠ 47)).reverse, (path.reverse.takeWhile (· ≠ 47)).reverse)

/-- `prefixMap.index`: the base name of the path and the index of its directory part (`/` when
it has none); a directory not seen before gets the next index, `len(p.m)`. -/
def PrefixMap.index (p : PrefixMap) (file : List UInt8) : (List UInt8 × Nat) × PrefixMap :=
  let (d, f) := splitPath file
  let d := if d = [] then [47] else d
  match p.m.find d with
  | some i => ((f, i), p)
  | none =>
    let i := p.m.length
    ((f, i), { m := p.m.assign d i, s := p.s ++ [d] })

/-- `File`: what `Add` records of one file. -/
structure File where
  name : List UInt8
  user : List UInt8
  group : List UInt8
  mode : UInt16
  linkTo : List UInt8
  mTime : UInt32
  digest : List UInt8
  noVerify : UInt32
  size : UInt64
  flags : UInt32
  deriving DecidableEq, Repr

/-- `FileIndex`: one column per tag. Only `lsize` is kept as a possibly-nil slice, since
`Append` tests it against `nil`; every other nil slice is the empty list. -/
structure FileIndex where
  dirNames : PrefixMap
  dirIndexes : List UInt32 := []
  name : List (List UInt8) := []
  user : List (List UInt8) := []
  group : List (List UInt8) := []
  dev : List UInt32 := []
  ino : List UInt32 := []
  mtime : List UInt32 := []
  mode : List UInt16 := []
  linkto : List (List UInt8) := []
  digest : List (List UInt8) := []
  flags : List UInt32 := []
  verify : List UInt32 := []
  size : List UInt32 := []
  lsize : Option (List UInt64) := none
  rpmsize : UInt32 := 0
  rpmlsize : UInt64 := 0
  deriving DecidableEq, Repr

def newFileIndex : FileIndex := { dirNames := newPrefixMap }

/-- `def(a, b, d)`: `d` when `a` is `b`, else `a`. -/
def orDefault (a b d : List UInt8) : List UInt8 := if a = b then d else a

/-- The name `root`. -/
def rootName : List UInt8 := [114, 111, 111, 116]

/-- `FileIndex.Add`: one more entry in every column `Add` fills; the verify flags are stored
complemented, an empty owner or group as `root`, and the size as a long size. -/
def FileIndex.add (f : FileIndex) (r : File) : FileIndex :=
  let ((name, di), dirNames) := f.dirNames.index r.name
  { f with
    dirNames := dirNames
    dirIndexes := f.dirIndexes ++ [UInt32.ofNat di]
    name := f.name ++ [name]
    mode := f.mode ++ [r.mode]
    mtime := f.mtime ++ [r.mTime]
    verify := f.verify ++ [~~~r.noVerify]
    linkto := f.linkto ++ [r.linkTo]
    digest := f.digest ++ [r.digest]
    flags := f.flags ++ [r.flags]
    user := f.user ++ [orDefault r.user [] rootName]
    group := f.group ++ [orDefault r.group [] rootName]
    lsize := some (f.lsize.getD [] ++ [r.size])
    rpmlsize := f.rpmlsize + r.size }

/-- The calls `FileIndex.Append` makes on the header, in order: none for an index without
files, and the sizes as 64-bit tags when `lsize` is not nil. -/
def FileIndex.appendCalls (f : FileIndex) : List AddCall :=
  if f.name.length = 0 then [] else
    [.addStringArray rpmtagDirnames f.dirNames.s, .addStringArray rpmtagBasenames f.name,
      .addStringArray rpmtagFileusername f.user, .addStringArray rpmtagFilegroupname f.group,
      .addStringArray rpmtagFilelinktos f.linkto, .addStringArray rpmtagFiledigests f.digest,
      .addInt32 rpmtagDirindexes f.dirIndexes, .addInt32 rpmtagFilemtimes f.mtime,
      .addInt16 rpmtagFilemodes f.mode, .addInt32 rpmtagFileflags f.flags,
      .addInt32 rpmtagFileverifyflags f.verify] ++
    match f.lsize with
    | some lsize => [.addInt64 rpmtagLongfilesizes lsize, .addInt64 rpmtagLongsize [f.rpmlsize]]
    | none => [.addInt32 rpmtagFilesizes f.size, .addInt32 rpmtagSize [f.rpmsize]]

/-- `FileIndex.Append`. -/
def FileIndex.append (f : FileIndex) (hdr : Header) : Header :=
  f.appendCalls.foldl (fun hdr c => c.run hdr) hdr

/-- The loop `FileIndexHeader` runs over the directory names: each name not yet a key of the
map is bound to its position. -/
def bindPositions (m : GoMap) (i : Nat) : List (List UInt8) → GoMap
  | [] => m
  | v :: s => bindPositions (if (m.find v).isSome then m else m.assign v i) (i + 1) s

/-- A column set from a type assertion `v.data.(T)`; `ok` false is `errTagType`. -/
def assertShape {α : Type} (x : Option α) (set : α → FileIndex) : Except RpmError FileIndex :=
  match x with
  | some a => .ok (set a)
  | none => .error .tagType

/-- `xs[i]` on a Go slice: out of range, the index panics. -/
def sliceAt {α : Type} (xs : List α) (i : Nat) : Except RpmError α :=
  match xs[i]? with
  | some x => .ok x
  | none => .error .indexOutOfRange

/-- One pass of the loop of `FileIndexHeader`: the column of a file-index tag set from its
value, `errTagType` when an integer column has another shape (the string columns go through
`StringArray`, which panics instead), and any other tag skipped. -/
def FileIndex.ingest (idx : FileIndex) (v : Tag) : Except RpmError FileIndex :=
  if v.tag = rpmtagDirnames then do
    let s ← v.stringArray
    return { idx with dirNames := { s := s, m := bindPositions idx.dirNames.m 0 s } }
  else if v.tag = rpmtagBasenames then (fun s => { idx with name := s }) <$> v.stringArray
  else if v.tag = rpmtagFileusername then (fun s => { idx with user := s }) <$> v.stringArray
  else if v.tag = rpmtagFilegroupname then (fun s => { idx with group := s }) <$> v.stringArray
  else if v.tag = rpmtagFilelinktos then (fun s => { idx with linkto := s }) <$> v.stringArray
  else if v.tag = rpmtagFiledigests then (fun s => { idx with digest := s }) <$> v.stringArray
  else if v.tag = rpmtagDirindexes then assertShape v.int32 fun xs => { idx with dirIndexes := xs }
  else if v.tag = rpmtagFiledevices then assertShape v.int32 fun xs => { idx with dev := xs }
  else if v.tag = rpmtagFileinodes then assertShape v.int32 fun xs => { idx with ino := xs }
  else if v.tag = rpmtagFilemtimes then assertShape v.int32 fun xs => { idx with mtime := xs }
  else if v.tag = rpmtagFileflags then assertShape v.int32 fun xs => { idx with flags := xs }
  else if v.tag = rpmtagFileverifyflags then
    assertShape v.int32 fun xs => { idx with verify := xs }
  else if v.tag = rpmtagFilemodes then assertShape v.int16 fun xs => { idx with mode := xs }
  else if v.tag = rpmtagFilesizes then assertShape v.int32 fun xs => { idx with size := xs }
  else if v.tag = rpmtagLongfilesizes then
    assertShape v.int64 fun xs => { idx with lsize := some xs }
  else if v.tag = rpmtagSize then
    match v.int32 with
    | some sz => (fun x => { idx with rpmsize := x }) <$> sliceAt sz 0
    | none => .error .tagType
  else if v.tag = rpmtagLongsize then
    match v.int64 with
    | some sz => (fun x => { idx with rpmlsize := x }) <$> sliceAt sz 0
    | none => .error .tagType
  else .ok idx

/-- `FileIndexHeader`: the tags in order, stopping at the first error. -/
def fileIndexHeader (hdr : Header) : Except RpmError FileIndex :=
  hdr.tags.foldlM FileIndex.ingest newFileIndex

@[simp] theorem GoMap.find_nil (k : List UInt8) : GoMap.find [] k = none := rfl

theorem GoMap.find_cons (k' k : List UInt8) (v : Nat) (m : GoMap) :
    GoMap.find ((k', v) :: m) k = if k' = k then some v else m.find k := rfl

theorem GoMap.assign_of_find_none : ∀ {m : GoMap} {k : List UInt8} (v : Nat), m.find k = none →
    m.assign k v = m ++ [(k, v)]
  | [], _, _, _ => rfl
  | (k', v') :: m, k, v, h => by
    rw [GoMap.find_cons] at h
    split_ifs at h with hk
    simp [GoMap.assign, hk, GoMap.assign_of_find_none v h]

theorem GoMap.find_append_of_some {m : GoMap} {k : List UInt8} {i : Nat} (h : m.find k = some i)
    (m' : GoMap) : (m ++ m').find k = some i := by
  induction m with
  | nil => cases h
  | cons b m ih =>
    obtain ⟨k', v⟩ := b
    rw [GoMap.find_cons] at h
    rw [List.cons_append, GoMap.find_cons]
    split_ifs at h ⊢ <;> simp_all

theorem GoMap.find_append_of_none {m : GoMap} {k : List UInt8} (h : m.find k = none)
    (m' : GoMap) : (m ++ m').find k = m'.find k := by
  induction m with
  | nil => rfl
  | cons b m ih =>
    obtain ⟨k', v⟩ := b
    rw [GoMap.find_cons] at h
    rw [List.cons_append, GoMap.find_cons]
    split_ifs at h ⊢
    exact ih h

@[simp] theorem FileIndex.ingest_erase (idx : FileIndex) (t : Tag) :
    idx.ingest { t with offset := 0 } = idx.ingest t := rfl

theorem FileIndex.ingest_of_not_fileIndexTag (idx : FileIndex) {t : Tag}
    (ht : isFileIndexTag t.tag = false) : idx.ingest t = .ok idx := by
  simp only [isFileIndexTag, List.elem_eq_mem, decide_eq_false_iff_not, List.mem_cons,
    List.mem_singleton, not_or, List.not_mem_nil, or_false] at ht
  simp [FileIndex.ingest, ht]

end GoRpm
