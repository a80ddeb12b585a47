import GoRpm.Tar2rpm.Config
import GoRpm.Files.Path
import GoRpm.Header.Json

/-!
The configuration file of `tar2rpm` (`loadconfig`). A `bufio.Scanner` splits the file into
lines, and each line, cut at its first `#`, is a key, a space or tab, and a value; `configMap`
finds the key's field among `Config`'s, by its `name` tag or its lower-cased name. A string field
takes the trimmed value, or a heredoc: after `<<`, the rest of the value is the terminator, and
the lines up to the first line equal to it, joined by newlines, are the value. A list field takes
the value's words, or after a `{` the words of the lines up to a line that is exactly `}`, each
trimmed and cut at its `#`. A scriptlet's key may name its program in parentheses.

The loaders read from the same scanner as the loop, so `scan1` consumes its line and any lines
its value spans, and the loop reads on from there; each step consumes at least its own line, so
the loop's fuel, one more than the number of lines, never runs out. The scanner's buffer grows to
64 KiB: at a line that does not fit in it with its newline, `Scan` stops with `ErrTooLong`. A
heredoc without its terminator, or a block without its `}`, takes every remaining line, and then
returns `sc.Err()`, as the loop does once the lines run out: that error, or none at the end of
the file.

White space is what `unicode.IsSpace` takes. `strings.TrimSpace` and `strings.Fields` decode the
text from the start into runes as `utf8.DecodeRune` does; `TrimRightFunc` decodes from the end,
but at a white-space rune it finds the same rune, since no rune continues over its first byte.
-/

namespace GoRpm.Tar2rpm

/-- The runes `unicode.IsSpace` takes, in UTF-8: tab to carriage return, space, U+0085, U+00A0,
U+1680, U+2000 to U+200A, U+2028, U+2029, U+202F, U+205F and U+3000. -/
def spaceRunes : List (List UInt8) :=
  [[9], [10], [11], [12], [13], [32], [0xC2, 0x85], [0xC2, 0xA0], [0xE1, 0x9A, 0x80],
    [0xE2, 0x80, 0x80], [0xE2, 0x80, 0x81], [0xE2, 0x80, 0x82], [0xE2, 0x80, 0x83],
    [0xE2, 0x80, 0x84], [0xE2, 0x80, 0x85], [0xE2, 0x80, 0x86], [0xE2, 0x80, 0x87],
    [0xE2, 0x80, 0x88], [0xE2, 0x80, 0x89], [0xE2, 0x80, 0x8A], [0xE2, 0x80, 0xA8],
    [0xE2, 0x80, 0xA9], [0xE2, 0x80, 0xAF], [0xE2, 0x81, 0x9F], [0xE3, 0x80, 0x80]]

/-- `unicode.IsSpace` of a rune, given by its bytes. -/
def isSpaceRune (r : List UInt8) : Bool := r ∈ spaceRunes

/-- The runes of a text as `for range` cuts it: each sequence `utf8.DecodeRune` decodes, and a
byte that starts none on its own; one unit of fuel per rune. -/
def runesAux : Nat → List UInt8 → List (List UInt8)
  | _, [] => []
  | 0, s => [s]
  | fuel + 1, b :: rest =>
    let n := (runeSize (b :: rest)).getD 1
    (b :: rest).take n :: runesAux fuel ((b :: rest).drop n)

/-- The runes of a text. Every rune is at least one byte, so the length is fuel enough. -/
def runes (s : List UInt8) : List (List UInt8) := runesAux s.length s

/-- `strings.TrimSpace`: the text without the white-space runes it starts and ends with. -/
def trimSpace (s : List UInt8) : List UInt8 :=
  (((runes s).dropWhile isSpaceRune).reverse.dropWhile isSpaceRune).reverse.flatten

/-- `strings.Fields`: the runs of runes between white-space runes. -/
def fields (s : List UInt8) : List (List UInt8) :=
  (((runes s).splitOnP isSpaceRune).map List.flatten).filter (· ≠ [])

example : trimSpace [0xC2, 0xA0, 104, 105, 32, 0xE3, 0x80, 0x80] = [104, 105] := by decide

example : fields [97, 0xE2, 0x80, 0xAF, 98, 0xC2, 0xA1] = [[97], [98, 0xC2, 0xA1]] := by decide

/-- `strings.Index(s, sep)`: the position of the first occurrence of `sep`. -/
def strIndex (sep : List UInt8) : List UInt8 → Option Nat
  | [] => if sep = [] then some 0 else none
  | b :: s => if sep.isPrefixOf (b :: s) then some 0 else (strIndex sep s).map (· + 1)

/-- A line up to its first `#`. -/
def uncomment (l : List UInt8) : List UInt8 := l.takeWhile (· ≠ 35)

/-- `bufio.MaxScanTokenSize`: the size a `bufio.Scanner`'s buffer grows to, 64 KiB. A line
must fit in it with its newline. -/
def maxScanTokenSize : Nat := 65536

/-- What a `bufio.Scanner` gives, as a `TarStream` is what a tar reader gives: its lines, and
whether it then stops with `bufio.ErrTooLong` rather than at the end of the input. -/
structure Scan where
  lines : List (List UInt8)
  tooLong : Bool

/-- `bufio.ScanLines` over an input: its lines, each without its newline and a carriage return
before it, a last line without a newline included, up to the first line that has
`maxScanTokenSize` bytes or more without its newline, where `Scan` stops with `ErrTooLong`. The
file gives the end of the file apart from its last bytes, as an `os.File` does. -/
def scanLines (input : List UInt8) : Scan :=
  let pieces := input.splitOn 10
  let pieces := if pieces.getLast? = some [] then pieces.dropLast else pieces
  { lines := (pieces.takeWhile (·.length < maxScanTokenSize)).map fun l =>
      if l.getLast? = some 13 then l.dropLast else l
    tooLong := pieces.any (maxScanTokenSize ≤ ·.length) }

/-- The fields of `Config`. -/
inductive Field where
  | name | version | release | arch | license | url | bugURL | packager | vendor | summary
  | description | provides | requires | preInstall | postInstall
  deriving DecidableEq, Repr

/-- The loader `configMap` gives a field, by its Go type: `str` for a `string`, `slice` for a
`[]string`, and the `script` itself. -/
inductive Kind where
  | str | slice | script
  deriving DecidableEq, Repr

def Field.kind : Field → Kind
  | .provides | .requires => .slice
  | .preInstall | .postInstall => .script
  | _ => .str

/-- The key of a field: its `name` tag, `bug-url` for `BugURL`, else its name in lower case. -/
def Field.key : Field → List UInt8
  | .name => [110, 97, 109, 101]
  | .version => [118, 101, 114, 115, 105, 111, 110]
  | .release => [114, 101, 108, 101, 97, 115, 101]
  | .arch => [97, 114, 99, 104]
  | .license => [108, 105, 99, 101, 110, 115, 101]
  | .url => [117, 114, 108]
  | .bugURL => [98, 117, 103, 45, 117, 114, 108]
  | .packager => [112, 97, 99, 107, 97, 103, 101, 114]
  | .vendor => [118, 101, 110, 100, 111, 114]
  | .summary => [115, 117, 109, 109, 97, 114, 121]
  | .description => [100, 101, 115, 99, 114, 105, 112, 116, 105, 111, 110]
  | .provides => [112, 114, 111, 118, 105, 100, 101, 115]
  | .requires => [114, 101, 113, 117, 105, 114, 101, 115]
  | .preInstall => [112, 114, 101, 105, 110, 115, 116, 97, 108, 108]
  | .postInstall => [112, 111, 115, 116, 105, 110, 115, 116, 97, 108, 108]

/-- The fields in the order of `Config`. -/
def allFields : List Field :=
  [.name, .version, .release, .arch, .license, .url, .bugURL, .packager, .vendor, .summary,
    .description, .provides, .requires, .preInstall, .postInstall]

/-- `m[k]` of the map `configMap(config)` builds. -/
def configMap (k : List UInt8) : Option Field := allFields.find? (·.key = k)

/-- What a `str` loader stores: the field itself, or a scriptlet's text. -/
def Config.setStr (c : Config) : Field → List UInt8 → Config
  | .name, v => { c with name := v }
  | .version, v => { c with version := v }
  | .release, v => { c with release := v }
  | .arch, v => { c with arch := v }
  | .license, v => { c with license := v }
  | .url, v => { c with url := v }
  | .bugURL, v => { c with bugURL := v }
  | .packager, v => { c with packager := v }
  | .vendor, v => { c with vendor := v }
  | .summary, v => { c with summary := v }
  | .description, v => { c with description := v }
  | .preInstall, v => { c with preInstall := { c.preInstall with data := v } }
  | .postInstall, v => { c with postInstall := { c.postInstall with data := v } }
  | .provides, _ | .requires, _ => c

/-- What a `slice` loader stores. -/
def Config.setSlice (c : Config) : Field → List (List UInt8) → Config
  | .provides, v => { c with provides := v }
  | .requires, v => { c with requires := v }
  | _, _ => c

/-- What `scriptProg` stores: a scriptlet's program. -/
def Config.setProg (c : Config) : Field → List UInt8 → Config
  | .preInstall, p => { c with preInstall := { c.preInstall with prog := p } }
  | .postInstall, p => { c with postInstall := { c.postInstall with prog := p } }
  | _, _ => c

/-- Why loading stops: `config: invalid entry`, `config: unknown key: %q`,
`config/str: missing EOF`, and the scanner's `bufio.Scanner: token too long`. -/
inductive ConfigError where
  | invalidEntry
  | unknownKey (key : List UInt8)
  | missingEOF
  | tooLong
  deriving DecidableEq, Repr

/-- `sc.Err()` once a loader's loop is over. When the loop stopped at its end line, there is no
error and the lines after that line are left. When it ran out of lines, the error is
`ErrTooLong` if the scanner stopped at a line too long, and none at the end of the file. -/
def scanErr (tooLong : Bool) : Option (List (List UInt8)) → Except ConfigError (List (List UInt8))
  | some rest => .ok rest
  | none => if tooLong then .error .tooLong else .ok []

/-- The heredoc loop of `str.load`: the lines before the first line equal to the terminator,
and the lines after it, if there is one. -/
def heredoc (e : List UInt8) : List (List UInt8) → List (List UInt8) × Option (List (List UInt8))
  | [] => ([], none)
  | l :: ls => if l = e then ([], some ls) else
    let (body, rest) := heredoc e ls
    (l :: body, rest)

/-- `str.load(value, sc)`: the trimmed value, or after `<<` the heredoc the rest of the value
ends, with the lines left. -/
def strLoad (value : List UInt8) (lines : List (List UInt8)) (tooLong : Bool) :
    Except ConfigError (List UInt8 × List (List UInt8)) :=
  match strIndex [60, 60] value with
  | none => .ok (trimSpace value, lines)
  | some i =>
    let e := value.drop (i + 2)
    if e = [] then .error .missingEOF else
      let (body, rest) := heredoc e lines
      Prod.mk ([10].intercalate body) <$> scanErr tooLong rest

/-- The block loop of `slice.load`: up to a line that is exactly `}`, the words of each line,
trimmed and cut at its `#`. -/
def block : List (List UInt8) → List (List UInt8) × Option (List (List UInt8))
  | [] => ([], none)
  | l :: ls => if l = [125] then ([], some ls) else
    let t := trimSpace l
    let (r, rest) := block ls
    if t = [] then (r, rest) else (fields (uncomment t) ++ r, rest)

/-- `slice.load(value, sc)`: the words of the value, or after a `{` the block that follows. -/
def sliceLoad (value : List UInt8) (lines : List (List UInt8)) (tooLong : Bool) :
    Except ConfigError (List (List UInt8) × List (List UInt8)) :=
  if 123 ∉ value then .ok (fields value, lines) else
    let (r, rest) := block lines
    Prod.mk r <$> scanErr tooLong rest

/-- `kp(key)`: the key before a `(`, and what stands between it and the next `)`. -/
def kp (key : List UInt8) : List UInt8 × List UInt8 :=
  match key.findIdx? (· = 40) with
  | none => (key, [])
  | some i =>
    match (key.drop i).findIdx? (· = 41) with
    | none => (key.take i, [])
    | some j => (key.take i, (key.drop (i + 1)).take (j - 1))

/-- The program `scriptProg` gives a scriptlet: `/bin/sh` by default, `<lua>` for `lua`, an
absolute path as it is, and any other name under `/bin`. -/
def progOf (p : List UInt8) : List UInt8 :=
  if p = [] then [47, 98, 105, 110, 47, 115, 104]
  else if p = [108, 117, 97] then [60, 108, 117, 97, 62]
  else if p.head? = some 47 then p
  else pathJoin [[47, 98, 105, 110], p]

/-- `scriptProg(key, m)`: the key without its parentheses, and for a scriptlet its program
set. -/
def scriptProg (c : Config) (key : List UInt8) : List UInt8 × Config :=
  let (k, p) := kp key
  match configMap k with
  | some f => if f.kind = .script then (k, c.setProg f (progOf p)) else (k, c)
  | none => (k, c)

/-- The field's loader on the value, reading on from the scanner's lines. -/
def load (c : Config) (f : Field) (value : List UInt8) (lines : List (List UInt8))
    (tooLong : Bool) : Except ConfigError (Config × List (List UInt8)) :=
  match f.kind with
  | .slice => (fun r => (c.setSlice f r.1, r.2)) <$> sliceLoad value lines tooLong
  | _ => (fun r => (c.setStr f r.1, r.2)) <$> strLoad value lines tooLong

/-- `scan1(m, s)` on the scanner's current line `line`, with the lines after it. -/
def scan1 (c : Config) (line : List UInt8) (lines : List (List UInt8)) (tooLong : Bool) :
    Except ConfigError (Config × List (List UInt8)) :=
  let l := uncomment line
  if l = [] then .ok (c, lines) else
  match l.findIdx? (fun b => b = 32 || b = 9) with
  | none => .error .invalidEntry
  | some i =>
    let (k, c) := scriptProg c (l.take i)
    match configMap k with
    | none => .error (.unknownKey k)
    | some f => load c f (l.drop i) lines tooLong

/-- The loop of `loadconfig`, `scan1` on each line the scanner gives, with fuel; once the lines
run out, `s.Err()`. -/
def loadLines (tooLong : Bool) : Nat → Config → List (List UInt8) → Except ConfigError Config
  | 0, c, _ => .ok c
  | _ + 1, c, [] => if tooLong then .error .tooLong else .ok c
  | n + 1, c, l :: ls => do
    let (c, rest) ← scan1 c l ls tooLong
    loadLines tooLong n c rest

/-- `loadconfig(r, config)`: the file's lines loaded in turn over the configuration. -/
def loadconfig (input : List UInt8) (c : Config) : Except ConfigError Config :=
  loadLines (scanLines input).tooLong ((scanLines input).lines.length + 1) c (scanLines input).lines

theorem mem_of_mem_splitOnP {α : Type} {p : α → Bool} {b : α} :
    ∀ {s w : List α}, w ∈ s.splitOnP p → b ∈ w → b ∈ s
  | [], w, hw, hb => by simp_all
  | a :: s, w, hw, hb => by
    obtain ⟨w0, ws, hs⟩ := List.exists_cons_of_ne_nil (List.splitOnP_ne_nil p s)
    rw [List.splitOnP_cons] at hw
    split_ifs at hw
    · rcases List.mem_cons.mp hw with rfl | hw
      · simp at hb
      · exact List.mem_cons_of_mem _ (mem_of_mem_splitOnP hw hb)
    · simp only [hs, List.modifyHead, List.mem_cons] at hw
      rcases hw with rfl | hw
      · rcases List.mem_cons.mp hb with rfl | hb
        · exact List.mem_cons_self _ _
        · exact List.mem_cons_of_mem _ (mem_of_mem_splitOnP (hs ▸ List.mem_cons_self _ _) hb)
      · exact List.mem_cons_of_mem _ (mem_of_mem_splitOnP (hs ▸ List.mem_cons_of_mem _ hw) hb)

theorem flatten_runesAux : ∀ (fuel : Nat) (s : List UInt8), (runesAux fuel s).flatten = s
  | 0, [] | _ + 1, [] => rfl
  | 0, _ :: _ => by simp [runesAux]
  | fuel + 1, b :: rest => by
    simp only [runesAux, List.flatten_cons, flatten_runesAux fuel, List.take_append_drop]

theorem subset_of_mem_runes {s r : List UInt8} (hr : r ∈ runes s) : r ⊆ s := fun _ hb =>
  flatten_runesAux s.length s ▸ List.mem_flatten.mpr ⟨r, hr, hb⟩

theorem trimSpace_subset (s : List UInt8) : trimSpace s ⊆ s := fun _ hb => by
  obtain ⟨r, hr, hb⟩ := List.mem_flatten.mp hb
  rw [List.mem_reverse] at hr
  exact subset_of_mem_runes ((List.dropWhile_suffix _).subset
    (List.mem_reverse.mp ((List.dropWhile_suffix _).subset hr))) hb

theorem fields_subset {s w : List UInt8} (hw : w ∈ fields s) : w ⊆ s := fun _ hb => by
  obtain ⟨run, hrun, rfl⟩ := List.mem_map.mp (List.mem_filter.mp hw).1
  obtain ⟨r, hr, hb⟩ := List.mem_flatten.mp hb
  exact subset_of_mem_runes (mem_of_mem_splitOnP hrun hr) hb

@[simp] theorem fields_nil : fields [] = [] := rfl

theorem scanLines_subset {input l : List UInt8} (hl : l ∈ (scanLines input).lines) :
    l ⊆ input := by
  simp only [scanLines, List.mem_map] at hl
  obtain ⟨piece, hpiece, rfl⟩ := hl
  have hsub : piece ⊆ input := fun b hb => by
    refine mem_of_mem_splitOnP (p := (· == 10)) ?_ hb
    replace hpiece := (List.takeWhile_prefix _).subset hpiece
    split_ifs at hpiece
    · exact List.dropLast_subset _ hpiece
    · exact hpiece
  split_ifs
  · exact (List.dropLast_subset _).trans hsub
  · exact hsub

/-- A heredoc is the lines before the first line equal to its terminator; the scanner goes on
after that line, if there is one. -/
theorem heredoc_eq (e : List UInt8) : ∀ lines : List (List UInt8),
    heredoc e lines = (lines.takeWhile (· ≠ e),
      if e ∈ lines then some ((lines.dropWhile (· ≠ e)).drop 1) else none)
  | [] => rfl
  | l :: ls => by
    by_cases h : l = e
    · simp [heredoc, h]
    · simp [heredoc, h, heredoc_eq e ls, Ne.symm h]

/-- A block is the words of the lines before the first line that is exactly `}`, each trimmed
and cut at its `#`; the scanner goes on after that line, if there is one. -/
theorem block_eq : ∀ lines : List (List UInt8),
    block lines = ((lines.takeWhile (· ≠ [125])).flatMap (fun l => fields (uncomment (trimSpace l))),
      if [125] ∈ lines then some ((lines.dropWhile (· ≠ [125])).drop 1) else none)
  | [] => rfl
  | l :: ls => by
    by_cases h : l = [125]
    · simp [block, h]
    · by_cases ht : trimSpace l = []
      · simp [block, h, ht, block_eq ls, uncomment, Ne.symm h]
      · simp [block, h, ht, block_eq ls, Ne.symm h]

/-- `sc.Err()` after a loop that reads up to a line `e`: the lines after the first `e`, or
without one, `ErrTooLong` where the scanner stopped at a line too long. -/
theorem scanErr_upTo (tooLong : Bool) (e : List UInt8) (lines : List (List UInt8)) :
    scanErr tooLong (if e ∈ lines then some ((lines.dropWhile (· ≠ e)).drop 1) else none) =
      if tooLong ∧ e ∉ lines then .error .tooLong else .ok ((lines.dropWhile (· ≠ e)).drop 1) := by
  by_cases he : e ∈ lines
  · simp [scanErr, he]
  · have hdrop : lines.dropWhile (· ≠ e) = [] :=
      List.dropWhile_eq_nil_iff.mpr fun l hl => by simpa using ne_of_mem_of_not_mem hl he
    rw [if_neg he, hdrop]
    cases tooLong <;> simp [scanErr, he]

/-- A string value whose first `<<` is followed by a terminator `e` is the heredoc `e` ends. -/
theorem strLoad_of_strIndex {value e : List UInt8} {i : Nat} (hi : strIndex [60, 60] value = some i)
    (he : value.drop (i + 2) = e) (hne : e ≠ []) (lines : List (List UInt8)) (tooLong : Bool) :
    strLoad value lines tooLong =
      if tooLong ∧ e ∉ lines then .error .tooLong else
        .ok ([10].intercalate (lines.takeWhile (· ≠ e)), (lines.dropWhile (· ≠ e)).drop 1) := by
  simp only [strLoad, hi, he, hne, if_false, heredoc_eq, scanErr_upTo]
  split_ifs <;> rfl

/-- A list value with a `{` is the block that follows. -/
theorem sliceLoad_of_mem {value : List UInt8} (h123 : 123 ∈ value) (lines : List (List UInt8))
    (tooLong : Bool) :
    sliceLoad value lines tooLong =
      if tooLong ∧ [125] ∉ lines then .error .tooLong else
        .ok ((lines.takeWhile (· ≠ [125])).flatMap fun l => fields (uncomment (trimSpace l)),
          (lines.dropWhile (· ≠ [125])).drop 1) := by
  simp only [sliceLoad, h123, not_true_eq_false, if_false, block_eq, scanErr_upTo]
  split_ifs <;> rfl

/-- What a string loader gives: the trimmed value with the lines as they were, or a heredoc
with the lines after its terminator. -/
theorem strLoad_ok {value v : List UInt8} {lines rest : List (List UInt8)} {tooLong : Bool}
    (h : strLoad value lines tooLong = .ok (v, rest)) :
    (v = trimSpace value ∧ rest = lines) ∨ ∃ e, v = [10].intercalate (lines.takeWhile (· ≠ e)) ∧
      rest = (lines.dropWhile (· ≠ e)).drop 1 := by
  cases hi : strIndex [60, 60] value with
  | none =>
    simp only [strLoad, hi, Except.ok.injEq, Prod.mk.injEq] at h
    exact .inl ⟨h.1.symm, h.2.symm⟩
  | some i =>
    by_cases he : value.drop (i + 2) = []
    · simp [strLoad, hi, he] at h
    · rw [strLoad_of_strIndex hi rfl he] at h
      split_ifs at h
      cases h
      exact .inr ⟨_, rfl, rfl⟩

/-- What a list loader gives: the value's words with the lines as they were, or a block with
the lines after its `}`. -/
theorem sliceLoad_ok {value : List UInt8} {v lines rest : List (List UInt8)} {tooLong : Bool}
    (h : sliceLoad value lines tooLong = .ok (v, rest)) :
    (v = fields value ∧ rest = lines) ∨
      (v = (lines.takeWhile (· ≠ [125])).flatMap (fun l => fields (uncomment (trimSpace l))) ∧
        rest = (lines.dropWhile (· ≠ [125])).drop 1) := by
  by_cases h123 : 123 ∈ value
  · rw [sliceLoad_of_mem h123] at h
    split_ifs at h
    cases h
    exact .inr ⟨rfl, rfl⟩
  · simp only [sliceLoad, h123, not_false_eq_true, if_true, Except.ok.injEq, Prod.mk.injEq] at h
    exact .inl ⟨h.1.symm, h.2.symm⟩

theorem strLoad_suffix {value v : List UInt8} {lines rest : List (List UInt8)} {tooLong : Bool}
    (h : strLoad value lines tooLong = .ok (v, rest)) : rest <:+ lines := by
  rcases strLoad_ok h with ⟨-, rfl⟩ | ⟨e, -, rfl⟩
  · exact List.suffix_refl _
  · exact (List.drop_suffix _ _).trans (List.dropWhile_suffix _)

theorem sliceLoad_suffix {value : List UInt8} {v lines rest : List (List UInt8)} {tooLong : Bool}
    (h : sliceLoad value lines tooLong = .ok (v, rest)) : rest <:+ lines := by
  rcases sliceLoad_ok h with ⟨-, rfl⟩ | ⟨-, rfl⟩
  · exact List.suffix_refl _
  · exact (List.drop_suffix _ _).trans (List.dropWhile_suffix _)

/-- What a loader can do: store a string or a list in the field, and leave a suffix of the
scanner's lines. -/
theorem load_ok {c c' : Config} {f : Field} {value : List UInt8} {lines rest : List (List UInt8)}
    {tooLong : Bool} (h : load c f value lines tooLong = .ok (c', rest)) :
    ((∃ v, c' = c.setStr f v) ∨ ∃ v, c' = c.setSlice f v) ∧ rest <:+ lines := by
  unfold load at h
  split at h
  · obtain ⟨⟨v, rest'⟩, hs, h⟩ := map_eq_ok h
    cases h
    exact ⟨.inr ⟨_, rfl⟩, sliceLoad_suffix hs⟩
  · obtain ⟨⟨v, rest'⟩, hs, h⟩ := map_eq_ok h
    cases h
    exact ⟨.inl ⟨_, rfl⟩, strLoad_suffix hs⟩

theorem kp_snd_isInfix (key : List UInt8) : (kp key).2 <:+: key := by
  unfold kp
  split
  · exact List.nil_infix
  · split
    · exact List.nil_infix
    · exact (List.take_prefix _ _).isInfix.trans (List.drop_suffix _ _).isInfix

/-- What `scan1` can do: skip a blank or comment line, or load a field with a value from its
line, after `scriptProg` has given a scriptlet a program its line names. -/
theorem scan1_ok {c c' : Config} {line : List UInt8} {lines rest : List (List UInt8)}
    {tooLong : Bool} (h : scan1 c line lines tooLong = .ok (c', rest)) :
    (c' = c ∧ rest = lines) ∨ ∃ f p value, p <:+: line ∧ value <:+: line ∧
      load (if f.kind = .script then c.setProg f (progOf p) else c) f value lines tooLong =
        .ok (c', rest) := by
  unfold scan1 at h
  dsimp only at h
  split_ifs at h
  · cases h
    exact .inl ⟨rfl, rfl⟩
  split at h
  · cases h
  rename_i i _
  have hl : uncomment line <:+: line := (List.takeWhile_prefix _).isInfix
  unfold scriptProg at h
  cases hk : configMap (kp ((uncomment line).take i)).1 with
  | none => simp [hk] at h
  | some f =>
    refine .inr ⟨f, (kp ((uncomment line).take i)).2, (uncomment line).drop i,
      (kp_snd_isInfix _).trans ((List.take_prefix _ _).isInfix.trans hl),
      (List.drop_suffix _ _).isInfix.trans hl, ?_⟩
    by_cases hf : f.kind = .script <;> simpa [hk, hf] using h

theorem scan1_suffix {c c' : Config} {line : List UInt8} {lines rest : List (List UInt8)}
    {tooLong : Bool} (h : scan1 c line lines tooLong = .ok (c', rest)) : rest <:+ lines := by
  rcases scan1_ok h with ⟨-, rfl⟩ | ⟨f, p, value, -, -, hload⟩
  · exact List.suffix_refl _
  · exact (load_ok hload).2

theorem loadLines_succ (tooLong : Bool) : ∀ (n : Nat) (c : Config) (lines : List (List UInt8)),
    lines.length < n → loadLines tooLong (n + 1) c lines = loadLines tooLong n c lines
  | 0, _, _, h => absurd h (Nat.not_lt_zero _)
  | _ + 1, _, [], _ => rfl
  | n + 1, c, l :: ls, hlen => by
    simp only [loadLines]
    cases hs : scan1 c l ls tooLong with
    | error e => rfl
    | ok r =>
      simp only [ok_bind]
      exact loadLines_succ tooLong n r.1 r.2
        (lt_of_le_of_lt (scan1_suffix hs).length_le (by simp at hlen; omega))

/-- Fuel beyond one more than the number of lines changes nothing: each step consumes its own
line, so the loop of `loadconfig` ends on its own, before its fuel. -/
theorem loadLines_of_lt {tooLong : Bool} {n : Nat} {c : Config} {lines : List (List UInt8)}
    (h : lines.length < n) :
    loadLines tooLong n c lines = loadLines tooLong (lines.length + 1) c lines := by
  induction n, h using Nat.le_induction with
  | base => rfl
  | succ n hn ih => rw [loadLines_succ tooLong n c lines hn, ih]

theorem uncomment_of_not_mem {l : List UInt8} (h : 35 ∉ l) : uncomment l = l :=
  List.takeWhile_eq_self_iff.mpr fun b hb => by simpa using ne_of_mem_of_not_mem hb h

theorem Field.key_plain (f : Field) : ∀ b ∈ f.key, b ≠ 32 ∧ b ≠ 9 ∧ b ≠ 35 ∧ b ≠ 40 := by
  cases f <;> decide

theorem configMap_key (f : Field) : configMap f.key = some f := by
  cases f <;> rfl

theorem kp_of_not_mem {key : List UInt8} (h : 40 ∉ key) : kp key = (key, []) := by
  simp [kp, List.findIdx?_eq_none_iff.mpr fun b hb => decide_eq_false (ne_of_mem_of_not_mem hb h)]

theorem findIdx?_append_cons {p : UInt8 → Bool} {xs ys : List UInt8} {y : UInt8}
    (hxs : ∀ x ∈ xs, p x = false) (hy : p y = true) : (xs ++ y :: ys).findIdx? p = some xs.length := by
  rw [List.findIdx?_append, List.findIdx?_eq_none_iff.mpr hxs]
  simp [hy]

theorem scriptProg_eq (c : Config) {f : Field} {key p : List UInt8} (hkp : kp key = (f.key, p)) :
    scriptProg c key = (f.key, if f.kind = .script then c.setProg f (progOf p) else c) := by
  simp only [scriptProg, hkp, configMap_key]
  split_ifs <;> rfl

/-- A line that is a key, a space or tab, and a value without a `#` loads the field of the key
with the value, once `scriptProg` has given a scriptlet the program its key names. -/
theorem scan1_key (c : Config) {f : Field} {key p value : List UInt8}
    (hkey : ∀ b ∈ key, b ≠ 32 ∧ b ≠ 9 ∧ b ≠ 35) (hkp : kp key = (f.key, p))
    (hvalue : value.head? = some 32 ∨ value.head? = some 9) (h35 : 35 ∉ value)
    (lines : List (List UInt8)) (tooLong : Bool) :
    scan1 c (key ++ value) lines tooLong =
      load (if f.kind = .script then c.setProg f (progOf p) else c) f value lines tooLong := by
  obtain ⟨v, vs, rfl⟩ := List.exists_cons_of_ne_nil fun h : value = [] => by simp [h] at hvalue
  have hv : v = 32 ∨ v = 9 := by simpa using hvalue
  have hline : 35 ∉ key ++ v :: vs := by
    simp only [List.mem_append, not_or]
    exact ⟨fun h => (hkey 35 h).2.2 rfl, h35⟩
  have hidx : (key ++ v :: vs).findIdx? (fun b => b = 32 || b = 9) = some key.length :=
    findIdx?_append_cons (fun b hb => by simp [(hkey b hb).1, (hkey b hb).2.1]) (by simpa using hv)
  have hne : key ++ v :: vs ≠ [] := by simp
  simp only [scan1, uncomment_of_not_mem hline, hne, hidx, if_false, List.take_left,
    List.drop_left, scriptProg_eq c hkp, configMap_key]

theorem load_of_ne_slice (c : Config) {f : Field} (hf : f.kind ≠ .slice) (value : List UInt8)
    (lines : List (List UInt8)) (tooLong : Bool) :
    load c f value lines tooLong = (fun r => (c.setStr f r.1, r.2)) <$> strLoad value lines tooLong := by
  unfold load
  split
  · contradiction
  · rfl

theorem load_of_slice (c : Config) {f : Field} (hf : f.kind = .slice) (value : List UInt8)
    (lines : List (List UInt8)) (tooLong : Bool) :
    load c f value lines tooLong =
      (fun r => (c.setSlice f r.1, r.2)) <$> sliceLoad value lines tooLong := by
  simp only [load, hf]

theorem Field.key_hyps (f : Field) :
    (∀ b ∈ f.key, b ≠ 32 ∧ b ≠ 9 ∧ b ≠ 35) ∧ kp f.key = (f.key, []) :=
  ⟨fun b hb => ⟨(f.key_plain b hb).1, (f.key_plain b hb).2.1, (f.key_plain b hb).2.2.1⟩,
    kp_of_not_mem fun h => (f.key_plain 40 h).2.2.2 rfl⟩

/-- A string or scriptlet key, a space and `<<e` take the lines before the first line equal to
`e`, joined by newlines, and the scanner goes on after that line; a scriptlet gets `/bin/sh`.
Without such a line the heredoc takes every line, and fails where the scanner stopped at a line
too long. -/
theorem scan1_heredoc (c : Config) {f : Field} (hf : f.kind ≠ .slice) {e : List UInt8}
    (he : e ≠ []) (h35 : 35 ∉ e) (lines : List (List UInt8)) (tooLong : Bool) :
    scan1 c (f.key ++ 32 :: 60 :: 60 :: e) lines tooLong =
      if tooLong ∧ e ∉ lines then .error .tooLong else
        .ok ((if f.kind = .script then c.setProg f [47, 98, 105, 110, 47, 115, 104] else c).setStr f
          ([10].intercalate (lines.takeWhile (· ≠ e))), (lines.dropWhile (· ≠ e)).drop 1) := by
  rw [scan1_key c f.key_hyps.1 f.key_hyps.2 (by simp) (by simpa using h35), load_of_ne_slice _ hf,
    @strLoad_of_strIndex (32 :: 60 :: 60 :: e) e 1 (by simp [strIndex, List.isPrefixOf]) rfl he]
  split_ifs <;> rfl

theorem scan1_heredoc_preInstall :
    let lines : List (List UInt8) := [[101, 99, 104, 111], [69, 79, 70], [120]]
    Field.preInstall.kind ≠ .slice ∧ [69, 79, 70] ≠ [] ∧ 35 ∉ [69, 79, 70] ∧
      scan1 {} (Field.preInstall.key ++ 32 :: 60 :: 60 :: [69, 79, 70]) lines true =
        if true ∧ [69, 79, 70] ∉ lines then .error .tooLong else
          .ok ((if Field.preInstall.kind = .script then
              ({} : Config).setProg .preInstall [47, 98, 105, 110, 47, 115, 104] else {}).setStr
            .preInstall ([10].intercalate (lines.takeWhile (· ≠ [69, 79, 70]))),
          (lines.dropWhile (· ≠ [69, 79, 70])).drop 1) :=
  ⟨by decide, by decide, by decide, scan1_heredoc {} (by decide) (by decide) (by decide) _ true⟩

/-- A list key whose value has a `{` takes the words of the lines before the first line that is
exactly `}`, and drops the words of its own value; the scanner goes on after that line. Without
such a line the block takes every line, and fails where the scanner stopped at a line too
long. -/
theorem scan1_block (c : Config) {f : Field} (hf : f.kind = .slice) {value : List UInt8}
    (hvalue : value.head? = some 32 ∨ value.head? = some 9) (h35 : 35 ∉ value)
    (h123 : 123 ∈ value) (lines : List (List UInt8)) (tooLong : Bool) :
    scan1 c (f.key ++ value) lines tooLong =
      if tooLong ∧ [125] ∉ lines then .error .tooLong else
        .ok (c.setSlice f
            ((lines.takeWhile (· ≠ [125])).flatMap fun l => fields (uncomment (trimSpace l))),
          (lines.dropWhile (· ≠ [125])).drop 1) := by
  have hscript : f.kind ≠ .script := by rw [hf]; decide
  rw [scan1_key c f.key_hyps.1 f.key_hyps.2 hvalue h35, if_neg hscript, load_of_slice _ hf,
    sliceLoad_of_mem h123]
  split_ifs <;> rfl

theorem scan1_block_provides :
    let lines : List (List UInt8) := [[32, 97, 32, 0xC2, 0xA0, 98], [0xC2, 0xA0], [125], [120]]
    Field.provides.kind = .slice ∧ ([32, 123] : List UInt8).head? = some 32 ∧
      35 ∉ ([32, 123] : List UInt8) ∧ 123 ∈ ([32, 123] : List UInt8) ∧
      scan1 {} (Field.provides.key ++ [32, 123]) lines false =
        if false ∧ [125] ∉ lines then .error .tooLong else
          .ok (({} : Config).setSlice .provides
              ((lines.takeWhile (· ≠ [125])).flatMap fun l => fields (uncomment (trimSpace l))),
            (lines.dropWhile (· ≠ [125])).drop 1) :=
  ⟨by decide, rfl, by decide, by decide,
    @scan1_block {} .provides (by decide) [32, 123] (.inl rfl) (by decide) (by decide) _ false⟩

/-- An indented line names the empty key. -/
example : scan1 {} [9, 120] [] false = .error (.unknownKey []) := rfl

section Loop

variable (P : Config → Prop) (Q : List UInt8 → Prop)

/-- What every `scan1` keeps, over lines that all have a property, the whole loop keeps: the
lines each step leaves are a suffix of those it was given. -/
theorem loadLines_inv
    (hstep : ∀ {c c' : Config} {line : List UInt8} {lines rest : List (List UInt8)}
      {tooLong : Bool}, P c → Q line → (∀ l ∈ lines, Q l) →
      scan1 c line lines tooLong = .ok (c', rest) → P c')
    (tooLong : Bool) : ∀ (n : Nat) {c c' : Config} (lines : List (List UInt8)), P c →
      (∀ l ∈ lines, Q l) → loadLines tooLong n c lines = .ok c' → P c'
  | 0, _, _, _, hc, _, h => by cases h; exact hc
  | _ + 1, _, _, [], hc, _, h => by
    cases tooLong
    · cases h; exact hc
    · cases h
  | n + 1, _, _, l :: ls, hc, hq, h => by
    obtain ⟨r, hs, h⟩ := bind_eq_ok h
    have hls : ∀ l' ∈ ls, Q l' := fun l' hl' => hq l' (List.mem_cons_of_mem l hl')
    exact loadLines_inv hstep tooLong n r.2 (hstep hc (hq l (List.mem_cons_self l ls)) hls hs)
      (fun l' hl' => hls l' ((scan1_suffix hs).subset hl')) h

end Loop

/-- A scriptlet with text has a program. -/
def Config.ScriptsRunnable (c : Config) : Prop :=
  (c.preInstall.data ≠ [] → c.preInstall.prog ≠ []) ∧
    (c.postInstall.data ≠ [] → c.postInstall.prog ≠ [])

theorem pathJoin_bin_ne_nil (p : List UInt8) : pathJoin [[47, 98, 105, 110], p] ≠ [] := by
  simp [pathJoin, List.intercalate, pathClean]

theorem progOf_ne_nil (p : List UInt8) : progOf p ≠ [] := by
  unfold progOf
  split_ifs with h0 h1 h2
  · simp
  · simp
  · exact h0
  · exact pathJoin_bin_ne_nil p

/-- One `scan1` keeps every scriptlet with text runnable: a scriptlet's text is only ever stored
after `scriptProg` has given it a program. -/
theorem scan1_scriptsRunnable {c c' : Config} {line : List UInt8} {lines rest : List (List UInt8)}
    {tooLong : Bool} (hc : c.ScriptsRunnable) (h : scan1 c line lines tooLong = .ok (c', rest)) :
    c'.ScriptsRunnable := by
  rcases scan1_ok h with ⟨rfl, -⟩ | ⟨f, p, value, -, -, hload⟩
  · exact hc
  have hp := progOf_ne_nil p
  obtain ⟨⟨v, rfl⟩ | ⟨v, rfl⟩, -⟩ := load_ok hload <;>
    cases f <;> simp_all [Config.ScriptsRunnable, Config.setStr, Config.setSlice, Config.setProg,
      Field.kind]

/-- Whatever the configuration file, a scriptlet it gives text to has a program, so that
`Config.append` never adds a scriptlet with an empty interpreter. -/
theorem loadconfig_scriptsRunnable {input : List UInt8} {c : Config}
    (h : loadconfig input defaultConfig = .ok c) : c.ScriptsRunnable :=
  loadLines_inv Config.ScriptsRunnable (fun _ => True) (fun hc _ _ hs => scan1_scriptsRunnable hc hs)
    _ _ _ ⟨fun h => absurd rfl h, fun h => absurd rfl h⟩ (fun _ _ => trivial) h

/-- A configuration file `postinstall(bash) echo`. -/
def bashConfig : List UInt8 :=
  [112, 111, 115, 116, 105, 110, 115, 116, 97, 108, 108, 40, 98, 97, 115, 104, 41, 32, 101, 99,
    104, 111, 10]

theorem loadconfig_scriptsRunnable_bash :
    ∃ c, loadconfig bashConfig defaultConfig = .ok c ∧ c.ScriptsRunnable :=
  ⟨_, rfl, @loadconfig_scriptsRunnable bashConfig _ rfl⟩

theorem uncomment_subset (s : List UInt8) : uncomment s ⊆ s := (List.takeWhile_prefix _).subset

theorem strLoad_subset {value v : List UInt8} {lines rest : List (List UInt8)} {tooLong : Bool}
    (h : strLoad value lines tooLong = .ok (v, rest)) {b : UInt8} (hb : b ∈ v) :
    b ∈ value ∨ b = 10 ∨ ∃ l ∈ lines, b ∈ l := by
  rcases strLoad_ok h with ⟨rfl, -⟩ | ⟨e, rfl, -⟩
  · exact .inl (trimSpace_subset _ hb)
  · rcases mem_intercalate_single hb with h10 | ⟨l, hl, hbl⟩
    · exact .inr (.inl h10)
    · exact .inr (.inr ⟨l, (List.takeWhile_prefix _).subset hl, hbl⟩)

theorem sliceLoad_subset {value : List UInt8} {v lines rest : List (List UInt8)} {tooLong : Bool}
    (h : sliceLoad value lines tooLong = .ok (v, rest)) :
    ∀ w ∈ v, ∀ b ∈ w, b ∈ value ∨ ∃ l ∈ lines, b ∈ l := by
  intro w hw b hb
  rcases sliceLoad_ok h with ⟨rfl, -⟩ | ⟨rfl, -⟩
  · exact .inl (fields_subset hw hb)
  · obtain ⟨l, hl, hw⟩ := List.mem_flatMap.mp hw
    exact .inr ⟨l, (List.takeWhile_prefix _).subset hl,
      trimSpace_subset _ (uncomment_subset _ (fields_subset hw hb))⟩

/-- No string of the configuration has a NUL byte: what `Config.append` asks. -/
def Config.NulFree (c : Config) : Prop := ∀ s ∈ c.strings, 0 ∉ s

theorem Config.strings_set (c : Config) (i : Nat) (v : List UInt8) :
    c.strings.set i v ⊆ v :: c.strings := fun _ hs =>
  (List.mem_or_eq_of_mem_set hs).elim (List.mem_cons_of_mem _) fun h => h ▸ List.mem_cons_self _ _

theorem Config.strings_setStr (c : Config) (f : Field) (v : List UInt8) :
    (c.setStr f v).strings ⊆ v :: c.strings := by
  cases f
  exacts [c.strings_set 0 v, c.strings_set 1 v, c.strings_set 2 v, c.strings_set 3 v,
    c.strings_set 4 v, c.strings_set 5 v, c.strings_set 6 v, c.strings_set 7 v, c.strings_set 8 v,
    c.strings_set 9 v, c.strings_set 10 v, List.subset_cons_self _ _, List.subset_cons_self _ _,
    c.strings_set 11 v, c.strings_set 13 v]

theorem Config.strings_setProg (c : Config) (f : Field) (p : List UInt8) :
    (c.setProg f p).strings ⊆ p :: c.strings := by
  cases f
  case preInstall => exact c.strings_set 12 p
  case postInstall => exact c.strings_set 14 p
  all_goals exact List.subset_cons_self _ _

theorem Config.strings_setSlice (c : Config) (f : Field) (v : List (List UInt8)) :
    (c.setSlice f v).strings ⊆ v ++ c.strings := by
  cases f
  case provides | requires =>
    intro s hs
    simp only [Config.strings, Config.setSlice, List.mem_append] at hs ⊢
    tauto
  all_goals exact List.subset_append_right _ _

theorem Config.setStr_nulFree {c : Config} (hc : c.NulFree) (f : Field) {v : List UInt8}
    (hv : 0 ∉ v) : (c.setStr f v).NulFree := fun s hs =>
  (List.mem_cons.mp (c.strings_setStr f v hs)).elim (fun h => h ▸ hv) (hc s)

theorem Config.setProg_nulFree {c : Config} (hc : c.NulFree) (f : Field) {p : List UInt8}
    (hp : 0 ∉ p) : (c.setProg f p).NulFree := fun s hs =>
  (List.mem_cons.mp (c.strings_setProg f p hs)).elim (fun h => h ▸ hp) (hc s)

theorem Config.setSlice_nulFree {c : Config} (hc : c.NulFree) (f : Field) {v : List (List UInt8)}
    (hv : ∀ s ∈ v, 0 ∉ s) : (c.setSlice f v).NulFree := fun s hs =>
  (List.mem_append.mp (c.strings_setSlice f v hs)).elim (hv s) (hc s)

theorem progOf_nulFree {p : List UInt8} (hp : 0 ∉ p) : 0 ∉ progOf p := by
  unfold progOf
  split_ifs
  · decide
  · decide
  · exact hp
  · intro h
    rcases mem_pathClean h with h | h | h
    · simp only [List.intercalate, List.intersperse, List.flatten] at h
      simp_all
    · cases h
    · cases h

theorem load_nulFree {c c' : Config} {f : Field} {value : List UInt8}
    {lines rest : List (List UInt8)} {tooLong : Bool} (hc : c.NulFree) (hvalue : 0 ∉ value)
    (hlines : ∀ l ∈ lines, 0 ∉ l) (h : load c f value lines tooLong = .ok (c', rest)) :
    c'.NulFree := by
  unfold load at h
  split at h
  · obtain ⟨⟨v, rest'⟩, hs, h⟩ := map_eq_ok h
    cases h
    refine c.setSlice_nulFree hc f fun s hs' h0 => ?_
    rcases sliceLoad_subset hs s hs' 0 h0 with h0 | ⟨l, hl, h0⟩
    · exact hvalue h0
    · exact hlines l hl h0
  · obtain ⟨⟨v, rest'⟩, hs, h⟩ := map_eq_ok h
    cases h
    refine c.setStr_nulFree hc f fun h0 => ?_
    rcases strLoad_subset hs h0 with h0 | h0 | ⟨l, hl, h0⟩
    · exact hvalue h0
    · cases h0
    · exact hlines l hl h0

theorem scan1_nulFree {c c' : Config} {line : List UInt8} {lines rest : List (List UInt8)}
    {tooLong : Bool} (hc : c.NulFree) (hline : 0 ∉ line) (hlines : ∀ l ∈ lines, 0 ∉ l)
    (h : scan1 c line lines tooLong = .ok (c', rest)) : c'.NulFree := by
  rcases scan1_ok h with ⟨rfl, -⟩ | ⟨f, p, value, hp, hvalue, hload⟩
  · exact hc
  refine load_nulFree ?_ (fun h0 => hline (hvalue.subset h0)) hlines hload
  split
  · exact c.setProg_nulFree hc f (progOf_nulFree fun h0 => hline (hp.subset h0))
  · exact hc

/-- A configuration file without a NUL byte loads into a configuration without one. -/
theorem loadconfig_nulFree {input : List UInt8} (hinput : 0 ∉ input) {c c' : Config}
    (hc : c.NulFree) (h : loadconfig input c = .ok c') : c'.NulFree :=
  loadLines_inv Config.NulFree (fun l => 0 ∉ l) (fun hc hl hls hs => scan1_nulFree hc hl hls hs)
    _ _ _ hc (fun _ hl h0 => hinput (scanLines_subset hl h0)) h

end GoRpm.Tar2rpm
