import Mathlib

/-!
# The binary snapshot format

`mp_export_binary_snapshot` (src/src/cmem_diag.c:409-457) writes a
`cmem_snapshot_header_t` of 32 bytes and a `cmem_snapshot_record_t` of 152 bytes for each
live block; `cmem_analyze_parse_snapshot` and `cmem_analyze_read_leaks`
(src/tools/cmem-analyze/cmem-analyze-parser.c:48-161) read the file with structures of
their own. A file is the list of its bytes, numbers are little-endian.

The reader also asks whether the totals of the header are plausible, which the writer does
not: `roundTrip_iff` says for which totals a file that was written is read back.
-/
namespace Cmem.L1.Snapshot

/-! ## Bytes -/

/-- The lower `n` bytes of a number. -/
def toLe : Nat → Nat → List UInt8
  | 0, _ => []
  | n + 1, v => UInt8.ofNat v :: toLe n (v / 256)

def ofLe : List UInt8 → Nat
  | [] => 0
  | b :: l => b.toNat + 256 * ofLe l

/-- `n` bytes at offset `k`. -/
def part (l : List UInt8) (k n : Nat) : List UInt8 := (l.drop k).take n

section Bytes
variable {a b : List UInt8} {k n v : Nat}

@[simp] theorem length_toLe (n v : Nat) : (toLe n v).length = n := by
  induction n generalizing v with
  | zero => rfl
  | succ n ih => rw [toLe, List.length_cons, ih]

theorem ofLe_toLe (h : v < 256 ^ n) : ofLe (toLe n v) = v := by
  induction n generalizing v with
  | zero =>
    rw [Nat.pow_zero] at h
    exact (Nat.lt_one_iff.mp h).symm
  | succ n ih =>
    rw [toLe, ofLe, UInt8.toNat_ofNat', ih (by rw [Nat.pow_succ] at h; omega)]
    omega

theorem part_head (h : a.length = n) : part (a ++ b) 0 n = a := by
  rw [part, List.drop_zero, List.take_left' h]

theorem part_tail (h : a.length ≤ k) : part (a ++ b) k n = part b (k - a.length) n := by
  rw [part, part, List.drop_append, List.drop_eq_nil_of_le h, List.nil_append]

end Bytes

/-! ## The writer -/

/-- A string of C. -/
structure CString where
  chars : List UInt8
  noNul : 0 ∉ chars

/-- What the writer reads of the header of a live block. -/
structure Entry where
  address : Nat
  requested : Nat
  allocType : Nat
  line : Nat
  file : Option CString
  func : Option CString

/-- `cmem_snapshot_header_t` -/
structure Header where
  magic : Nat
  version : Nat
  totalPoolSize : Nat
  activeBytes : Nat
  activeAllocations : Nat

/-- What the writer reads of a pool: `total_pool_size`, `active_bytes` and
`active_allocations`, and the active list. -/
structure Image where
  total : Nat
  active : Nat
  count : Nat
  entries : List Entry

def snapshotMagic : Nat := 0x434D454D

def Header.bytes (h : Header) : List UInt8 :=
  toLe 4 h.magic ++ (toLe 4 h.version ++ (toLe 8 h.totalPoolSize ++ (toLe 8 h.activeBytes ++
    toLe 8 h.activeAllocations)))

/-- The first 63 characters; none of them when there is no string. -/
def shown : Option CString → List UInt8
  | none => []
  | some s => s.chars.take 63

/-- `snprintf` with `"%s"` into 64 bytes that are 0. -/
def stringField (s : Option CString) : List UInt8 :=
  shown s ++ List.replicate (64 - (shown s).length) 0

/-- A `cmem_snapshot_record_t`, with the three bytes in front of `alloc_line`. -/
def Entry.record (e : Entry) : List UInt8 :=
  toLe 8 e.address ++
    (toLe 8 e.requested ++
      (toLe 1 e.allocType ++
        (List.replicate 3 0 ++ (toLe 4 e.line ++ (stringField e.file ++ stringField e.func)))))

/-- mirrors `mp_export_binary_snapshot`, src/src/cmem_diag.c:409-457 -/
def mpExportBinarySnapshot (i : Image) : List UInt8 :=
  Header.bytes ⟨snapshotMagic, 1, i.total, i.active, i.count⟩ ++ i.entries.flatMap Entry.record

/-! ## The reader -/

/-- mirrors `parse_header`, src/tools/cmem-analyze/cmem-analyze-parser.c:48-69, with the
rest of the file -/
def parseHeader (file : List UInt8) : Option (Header × List UInt8) :=
  if file.length < 32 then none
  else
    let h : Header :=
      ⟨ofLe (part file 0 4), ofLe (part file 4 4), ofLe (part file 8 8), ofLe (part file 16 8),
        ofLe (part file 24 8)⟩
    if h.magic ≠ snapshotMagic then none
    else if h.version ≠ 1 then none
    else if 2 ^ 40 < h.totalPoolSize then none
    else if h.totalPoolSize < h.activeBytes then none
    else if 2 ^ 20 < h.activeAllocations then none
    else some (h, file.drop 32)

/-- `cmem_snapshot_header_t` of src/tools/cmem-analyze/cmem-analyze.h, without `pool_name`,
which is NULL. -/
structure Summary where
  magic : Nat
  version : Nat
  timestamp : Nat
  totalPoolSize : Nat
  activeBytes : Nat
  activeAllocs : Nat
  leakBytes : Nat
  leakCount : Nat

/-- mirrors `cmem_analyze_parse_snapshot`,
src/tools/cmem-analyze/cmem-analyze-parser.c:71-101 -/
def cmemAnalyzeParseSnapshot (file : List UInt8) : Option Summary :=
  (parseHeader file).map fun (h, _) =>
    ⟨h.magic, h.version, 0, h.totalPoolSize, h.activeBytes, h.activeAllocations, h.activeBytes,
      h.activeAllocations⟩

/-- `cmem_leak_entry_t` -/
structure LeakEntry where
  address : Nat
  size : Nat
  usableSize : Nat
  tier : Nat
  file : Option (List UInt8)
  line : Nat
  func : Option (List UInt8)
  timestamp : Nat
  backtraceDepth : Nat

/-- mirrors `read_fixed_string`, src/tools/cmem-analyze/cmem-analyze-parser.c:30-46, of a
buffer of 64 bytes, when there is memory for the string -/
def readFixedString (buf : List UInt8) : Option (List UInt8) :=
  let s := buf.takeWhile (· ≠ 0)
  if s = [] then none else some s

/-- One round of the loop in `cmem_analyze_read_leaks`,
src/tools/cmem-analyze/cmem-analyze-parser.c:137-154. -/
def readRecord (rec : List UInt8) : LeakEntry :=
  let line := ofLe (part rec 20 4)
  let type := ofLe (part rec 16 1)
  { address := ofLe (part rec 0 8)
    size := ofLe (part rec 8 8)
    usableSize := ofLe (part rec 8 8)
    tier := if 8 < type then 0 else type
    file := readFixedString (part rec 24 64)
    line := if 1000000 < line then 0 else line
    func := readFixedString (part rec 88 64)
    timestamp := 0
    backtraceDepth := 0 }

/-- The loop: at most `n` records, and none that the file ends in. -/
def readRecords : Nat → List UInt8 → List LeakEntry
  | 0, _ => []
  | n + 1, file =>
    if file.length < 152 then [] else readRecord (file.take 152) :: readRecords n (file.drop 152)

/-- mirrors `cmem_analyze_read_leaks`,
src/tools/cmem-analyze/cmem-analyze-parser.c:103-161, when `calloc` succeeds -/
def cmemAnalyzeReadLeaks (file : List UInt8) : Option (List LeakEntry) :=
  (parseHeader file).map fun (h, rest) => readRecords (min h.activeAllocations 1048576) rest

/-! ## The round trip -/

/-- What is read back of an entry. A string without characters is read as NULL. -/
structure Told (e : Entry) (l : LeakEntry) : Prop where
  address : l.address = e.address
  size : l.size = e.requested
  tier : l.tier = e.allocType
  line : l.line = e.line
  file : l.file.getD [] = shown e.file
  func : l.func.getD [] = shown e.func

/-- The file is accepted, and the entries of the active list are read back in their order. -/
def RoundTrip (i : Image) : Prop :=
  (cmemAnalyzeParseSnapshot (mpExportBinarySnapshot i)).isSome ∧
    ∃ ls, cmemAnalyzeReadLeaks (mpExportBinarySnapshot i) = some ls ∧ List.Forall₂ Told i.entries ls

/-- The fields of a header are the machine's, and its line is one of a source file. -/
structure Entry.Fits (e : Entry) : Prop where
  address : e.address < 2 ^ 64
  requested : e.requested < 2 ^ 64
  allocType : e.allocType ≤ 8
  line : e.line ≤ 1000000

structure Image.Fits (i : Image) : Prop where
  total : i.total < 2 ^ 64
  active : i.active < 2 ^ 64
  count : i.count < 2 ^ 64
  entries : ∀ e ∈ i.entries, e.Fits

section
variable {e : Entry} {i : Image} {s : Option CString}

theorem length_shown (s : Option CString) : (shown s).length ≤ 63 := by
  cases s with
  | none => exact Nat.zero_le _
  | some s => exact List.length_take_le ..

@[simp] theorem length_stringField (s : Option CString) : (stringField s).length = 64 := by
  have h := length_shown s
  rw [stringField, List.length_append, List.length_replicate]
  omega

@[simp] theorem length_record (e : Entry) : e.record.length = 152 := by simp [Entry.record]

@[simp] theorem length_bytes (h : Header) : h.bytes.length = 32 := by simp [Header.bytes]

theorem shown_noNul (s : Option CString) : ∀ b ∈ shown s, b ≠ 0 := by
  cases s with
  | none => exact nofun
  | some s =>
    intro b hb h0
    exact s.noNul (h0 ▸ List.mem_of_mem_take hb)

/-- The string in a field ends at the first 0. -/
theorem readFixedString_field (s : Option CString) :
    (readFixedString (stringField s)).getD [] = shown s := by
  have htake : (stringField s).takeWhile (· ≠ 0) = shown s := by
    rw [stringField, List.takeWhile_append_of_pos fun b hb => by simpa using shown_noNul s b hb]
    simp
  unfold readFixedString
  rw [htake]
  dsimp only
  split
  · rename_i h
    rw [h, Option.getD_none]
  · rfl

/-- **A record is read back as it was written.** -/
theorem readRecord_record (h : e.Fits) : Told e (readRecord e.record) := by
  have h1 : part e.record 0 8 = toLe 8 e.address := part_head (length_toLe ..)
  have h2 : part e.record 8 8 = toLe 8 e.requested := by
    rw [Entry.record, part_tail (by simp)]
    exact part_head (length_toLe ..)
  have h3 : part e.record 16 1 = toLe 1 e.allocType := by
    rw [Entry.record, part_tail (by simp), part_tail (by simp)]
    simpa using part_head (length_toLe ..)
  have h4 : part e.record 20 4 = toLe 4 e.line := by
    rw [Entry.record, part_tail (by simp), part_tail (by simp), part_tail (by simp),
      part_tail (by simp)]
    simpa using part_head (length_toLe ..)
  have h5 : part e.record 24 64 = stringField e.file := by
    rw [Entry.record, part_tail (by simp), part_tail (by simp), part_tail (by simp),
      part_tail (by simp), part_tail (by simp)]
    simpa using part_head (length_stringField ..)
  have h6 : part e.record 88 64 = stringField e.func := by
    rw [Entry.record, part_tail (by simp), part_tail (by simp), part_tail (by simp),
      part_tail (by simp), part_tail (by simp), part_tail (by simp)]
    simp [part, List.take_of_length_le]
  obtain ⟨ha, hr, ht, hl⟩ := h
  have hline : ofLe (toLe 4 e.line) = e.line := ofLe_toLe (by omega)
  have htype : ofLe (toLe 1 e.allocType) = e.allocType := ofLe_toLe (by omega)
  unfold readRecord
  rw [h1, h2, h3, h4, h5, h6, hline, htype]
  exact ⟨ofLe_toLe (by omega), ofLe_toLe (by omega), if_neg (by omega), if_neg (by omega),
    readFixedString_field _, readFixedString_field _⟩

/-- The loop reads as many records as there are, or as it may. -/
theorem readRecords_records (n : Nat) (es : List Entry) :
    readRecords n (es.flatMap Entry.record) = (es.take n).map fun e => readRecord e.record := by
  induction n generalizing es with
  | zero => rw [readRecords, List.take_zero, List.map_nil]
  | succ n ih =>
    cases es with
    | nil => rfl
    | cons e es =>
      have hlen : ¬(e.record ++ es.flatMap Entry.record).length < 152 := by
        rw [List.length_append, length_record]
        omega
      rw [List.flatMap_cons, readRecords, if_neg hlen, List.take_left' (length_record e),
        List.drop_left' (length_record e), ih]
      rfl

/-- The fields of a header, in the file. -/
theorem part_bytes (h : Header) (rest : List UInt8) :
    part (h.bytes ++ rest) 0 4 = toLe 4 h.magic ∧ part (h.bytes ++ rest) 4 4 = toLe 4 h.version ∧
      part (h.bytes ++ rest) 8 8 = toLe 8 h.totalPoolSize ∧
      part (h.bytes ++ rest) 16 8 = toLe 8 h.activeBytes ∧
      part (h.bytes ++ rest) 24 8 = toLe 8 h.activeAllocations := by
  unfold Header.bytes
  simp only [List.append_assoc]
  refine ⟨part_head (length_toLe ..), ?_, ?_, ?_, ?_⟩
  · rw [part_tail (by simp)]
    simpa using part_head (length_toLe ..)
  · rw [part_tail (by simp), part_tail (by simp)]
    simpa using part_head (length_toLe ..)
  · rw [part_tail (by simp), part_tail (by simp), part_tail (by simp)]
    simpa using part_head (length_toLe ..)
  · rw [part_tail (by simp), part_tail (by simp), part_tail (by simp), part_tail (by simp)]
    simpa using part_head (length_toLe ..)

/-- The plausibility of the totals is all that `parse_header` asks of a file that was
written. -/
theorem parseHeader_export (h : i.Fits) :
    parseHeader (mpExportBinarySnapshot i) =
      if i.total ≤ 2 ^ 40 ∧ i.active ≤ i.total ∧ i.count ≤ 2 ^ 20 then
        some (⟨snapshotMagic, 1, i.total, i.active, i.count⟩, i.entries.flatMap Entry.record)
      else none := by
  have hlen : ¬(mpExportBinarySnapshot i).length < 32 := by
    rw [mpExportBinarySnapshot, List.length_append, length_bytes]
    omega
  have hrest : (mpExportBinarySnapshot i).drop 32 = i.entries.flatMap Entry.record :=
    List.drop_left' (length_bytes _)
  have hparts :=
    part_bytes ⟨snapshotMagic, 1, i.total, i.active, i.count⟩ (i.entries.flatMap Entry.record)
  obtain ⟨h1, h2, h3, h4, h5⟩ := hparts
  have hmagic : ofLe (toLe 4 snapshotMagic) = snapshotMagic := ofLe_toLe (by decide)
  have hversion : ofLe (toLe 4 1) = 1 := ofLe_toLe (by decide)
  have htotal : ofLe (toLe 8 i.total) = i.total := ofLe_toLe h.total
  have hactive : ofLe (toLe 8 i.active) = i.active := ofLe_toLe h.active
  have hcount : ofLe (toLe 8 i.count) = i.count := ofLe_toLe h.count
  unfold parseHeader
  rw [if_neg hlen, hrest]
  unfold mpExportBinarySnapshot
  rw [h1, h2, h3, h4, h5]
  dsimp only
  rw [hmagic, hversion, htotal, hactive, hcount, if_neg (not_not.mpr rfl), if_neg (not_not.mpr rfl)]
  split_ifs <;> first | rfl | omega

/-- **A snapshot is read back when its totals are plausible**, and only then: the active
bytes are not more than the total size, that is at most a terabyte, and the header counts
every record and at most 2 ^ 20 of them. -/
theorem roundTrip_iff (h : i.Fits) :
    RoundTrip i ↔ i.active ≤ i.total ∧ i.total ≤ 2 ^ 40 ∧ i.entries.length ≤ i.count ∧
    i.count ≤ 2 ^ 20 := by
  unfold RoundTrip cmemAnalyzeParseSnapshot cmemAnalyzeReadLeaks
  rw [parseHeader_export h]
  by_cases hp : i.total ≤ 2 ^ 40 ∧ i.active ≤ i.total ∧ i.count ≤ 2 ^ 20
  · rw [if_pos hp]
    simp only [Option.map_some, Option.isSome_some, true_and, Option.some.injEq, exists_eq_left']
    rw [readRecords_records, Nat.min_eq_left (by omega)]
    constructor
    · intro hall
      have hlen := hall.length_eq
      rw [List.length_map, List.length_take] at hlen
      omega
    · rintro ⟨-, -, hlen, -⟩
      rw [List.take_of_length_le hlen, List.forall₂_map_right_iff, List.forall₂_same]
      exact fun e he => readRecord_record (h.entries e he)
  · rw [if_neg hp]
    constructor
    · rintro ⟨hs, -⟩
      exact absurd hs (by simp)
    · rintro ⟨h1, h2, -, h3⟩
      exact absurd ⟨h2, h1, h3⟩ hp

end

end Cmem.L1.Snapshot
