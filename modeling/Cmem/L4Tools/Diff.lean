import Mathlib
import Cmem.L1Layout.Snapshot

/-!
# Comparing two snapshots

`cmem_analyze_diff` of the analyzer (src/tools/cmem-analyze/cmem-analyze-parser.c:222-286) and
`mp_diff_snapshots` of the library (src/src/cmem.c:637-753). Both look for each record of one file
among the records of the other, by address and size. The library reads the records of the first
file in one piece and those of the second one after another, to the end of the file, and takes up
to eight times as many records as the analyzer.

`matched_perm` is what the laws rest on: when the pairs of a file are distinct, the matched
records of the two files are the same pairs.
-/
namespace Cmem.L4.Diff
open Cmem.L1.Snapshot

/-- `cmem_diff_result_t` -/
structure DiffResult where
  newLeaks : Nat
  fixedLeaks : Nat
  netLeakBytes : Nat
  totalNewBytes : Nat
  totalFreedBytes : Nat
  newLeakCount : Nat
  fixedLeakCount : Nat
  deriving DecidableEq, Repr

/-- The inner loop, src/tools/cmem-analyze/cmem-analyze-parser.c:253-259. -/
def found (e : LeakEntry) (l : List LeakEntry) : Bool :=
  l.any fun a => e.address = a.address && e.size = a.size

/-- The outer loop: how many entries are not found, and their bytes. -/
def countMissing (l other : List LeakEntry) : Nat × Nat :=
  l.foldl
    (fun r e => if found e other then r else ((r.1 + 1) % 2 ^ 64, (r.2 + e.size) % 2 ^ 64)) (0, 0)

/-- mirrors `cmem_analyze_diff`, src/tools/cmem-analyze/cmem-analyze-parser.c:222-286 -/
def cmemAnalyzeDiff (a b : List UInt8) : Option DiffResult :=
  match cmemAnalyzeParseSnapshot a, cmemAnalyzeParseSnapshot b, cmemAnalyzeReadLeaks a,
    cmemAnalyzeReadLeaks b with
  | some _, some _, some ea, some eb =>
    let new := countMissing eb ea
    let fixed := countMissing ea eb
    some ⟨new.1, fixed.1, (new.2 + 2 ^ 64 - fixed.2) % 2 ^ 64, new.2, fixed.2, 0, 0⟩
  | _, _, _, _ => none

/-- What the library compares of a `cmem_snapshot_record_t`. -/
structure Record where
  address : Nat
  requestedSize : Nat
  deriving DecidableEq, Repr

def rawRecord (rec : List UInt8) : Record := ⟨ofLe (part rec 0 8), ofLe (part rec 8 8)⟩

/-- At most `n` records, and none that the file ends in. -/
def rawRecords : Nat → List UInt8 → List Record
  | 0, _ => []
  | n + 1, file =>
    if file.length < 152 then [] else rawRecord (file.take 152) :: rawRecords n (file.drop 152)

/-- mirrors `mp_diff_snapshots`, src/src/cmem.c:637-753, without the text of the report: the blocks
and the bytes it counts -/
def mpDiffSnapshots (a b : List UInt8) (maxLen : Nat) : Option (Nat × Nat) :=
  if maxLen = 0 ∨ a.length < 32 ∨ ofLe (part a 0 4) ≠ snapshotMagic ∨ b.length < 32 ∨
      ofLe (part b 0 4) ≠ snapshotMagic then none
  else
    let countA := if 8 * 1024 * 1024 < ofLe (part a 24 8) then 0 else ofLe (part a 24 8)
    -- a file that is too short counts as one without records
    let recsA :=
      if (rawRecords countA (a.drop 32)).length = countA then rawRecords countA (a.drop 32) else []
    some ((rawRecords b.length (b.drop 32)).foldl
      (fun r e =>
        if recsA.any fun a => a.address = e.address && a.requestedSize = e.requestedSize then r
        else ((r.1 + 1) % 2 ^ 64, (r.2 + e.requestedSize) % 2 ^ 64))
      (0, 0))

/-- The pair the two programs compare. -/
def key (e : LeakEntry) : Record := ⟨e.address, e.size⟩

def bytesOf (l : List LeakEntry) : Nat := (l.map LeakEntry.size).sum

/-- A file that is accepted, with as many records as its header says, all of them different. -/
structure Regular (file : List UInt8) (es : List LeakEntry) : Prop where
  accepted : (cmemAnalyzeParseSnapshot file).isSome = true
  complete : ∀ h rest, parseHeader file = some (h, rest) → rest.length / 152 = h.activeAllocations
  read : cmemAnalyzeReadLeaks file = some es
  distinct : (es.map key).Nodup

/-- **The laws** of the result `r` of comparing `a` with `b`. -/
structure Laws (a b : List UInt8) (ea eb : List LeakEntry) (maxLen : Nat)
    (r : DiffResult) : Prop where
  result : cmemAnalyzeDiff a b = some r
  count : (r.newLeaks : Int) - r.fixedLeaks = eb.length - ea.length
  net : (r.netLeakBytes : Int) = ((bytesOf eb : Int) - bytesOf ea) % 2 ^ 64
  swap :
    ∃ r', cmemAnalyzeDiff b a = some r' ∧ r'.newLeaks = r.fixedLeaks ∧ r'.fixedLeaks = r.newLeaks ∧
    r'.totalNewBytes = r.totalFreedBytes ∧ r'.totalFreedBytes = r.totalNewBytes
  same : cmemAnalyzeDiff a a = some ⟨0, 0, 0, 0, 0, 0, 0⟩
  library : mpDiffSnapshots a b maxLen = some (r.newLeaks, r.totalNewBytes)

/-! ## Reading -/

section Reading
variable {file rest : List UInt8} {es : List LeakEntry} {h : Header} {n : Nat}

theorem rawRecords_eq (n : Nat) (file : List UInt8) :
    rawRecords n file = (readRecords n file).map key := by
  induction n generalizing file with
  | zero => rfl
  | succ n ih =>
    rw [rawRecords, readRecords, ih]
    split <;> rfl

theorem length_readRecords (n : Nat) (file : List UInt8) :
    (readRecords n file).length = min n (file.length / 152) := by
  induction n generalizing file with
  | zero => rw [readRecords, List.length_nil, Nat.zero_min]
  | succ n ih =>
    rw [readRecords]
    split
    · rw [List.length_nil]
      omega
    · rw [List.length_cons, ih, List.length_drop]
      omega

/-- More turns than records change nothing. -/
theorem readRecords_of_le (hn : file.length / 152 ≤ n) :
    readRecords n file = readRecords (file.length / 152) file := by
  induction n generalizing file with
  | zero => rw [Nat.le_zero.mp hn]
  | succ n ih =>
    rw [readRecords]
    split
    · rw [show file.length / 152 = 0 by omega, readRecords]
    · obtain ⟨k, hk⟩ : ∃ k, file.length / 152 = k + 1 := ⟨file.length / 152 - 1, by omega⟩
      have hk' : (file.drop 152).length / 152 = k := by
        rw [List.length_drop]
        omega
      rw [hk, readRecords, if_neg ‹_›, ih (by omega), hk']

/-- What a header says that is accepted. -/
theorem parseHeader_some (hp : parseHeader file = some (h, rest)) :
    32 ≤ file.length ∧ ofLe (part file 0 4) = snapshotMagic ∧
    ofLe (part file 24 8) = h.activeAllocations ∧
      h.activeAllocations ≤ 2 ^ 20 ∧ rest = file.drop 32 := by
  unfold parseHeader at hp
  dsimp only at hp
  split_ifs at hp with h1 h2 h3 h4 h5 h6
  obtain ⟨rfl, rfl⟩ := Prod.mk.inj (Option.some.inj hp)
  exact ⟨Nat.le_of_not_lt h1, not_not.mp h2, rfl, Nat.le_of_not_lt h6, rfl⟩

/-- **Both programs read the records of a regular file**, all of them. -/
theorem Regular.records (hr : Regular file es) : ∃ h, parseHeader file = some (h, file.drop 32) ∧
    es.length = h.activeAllocations ∧ h.activeAllocations ≤ 2 ^ 20 ∧
    ∀ n, h.activeAllocations ≤ n → rawRecords n (file.drop 32) = es.map key := by
  obtain ⟨accepted, complete, read, -⟩ := hr
  unfold cmemAnalyzeReadLeaks at read
  obtain ⟨⟨h, rest⟩, hp, hes⟩ := Option.map_eq_some_iff.mp read
  obtain ⟨-, -, -, hle, rfl⟩ := parseHeader_some hp
  have hc := complete h _ hp
  dsimp only at hes
  rw [Nat.min_eq_left (by omega)] at hes
  subst hes
  refine ⟨h, hp, ?_, hle, fun n hn => ?_⟩
  · rw [length_readRecords, hc, Nat.min_self]
  · rw [rawRecords_eq, readRecords_of_le (by omega), hc]

end Reading

/-! ## Matching -/

section Matching
variable {ea eb l other : List LeakEntry} {e : LeakEntry}

theorem found_iff : found e l = true ↔ key e ∈ l.map key := by
  unfold found key
  simp only [List.any_eq_true, Bool.and_eq_true, decide_eq_true_eq, List.mem_map, Record.mk.injEq]
  exact ⟨fun ⟨a, ha, h1, h2⟩ => ⟨a, ha, h1.symm, h2.symm⟩,
    fun ⟨a, ha, h1, h2⟩ => ⟨a, ha, h1.symm, h2.symm⟩⟩

/-- The entries of `l` that are not in `other`. -/
def missing (l other : List LeakEntry) : List LeakEntry := l.filter fun e => !found e other

def matched (l other : List LeakEntry) : List LeakEntry := l.filter fun e => found e other

theorem countMissing_eq (l other : List LeakEntry) :
    countMissing l other =
      ((missing l other).length % 2 ^ 64, bytesOf (missing l other) % 2 ^ 64) := by
  have hfold : ∀ l : List LeakEntry, ∀ n m : Nat,
      l.foldl
        (fun r e => if found e other then r else ((r.1 + 1) % 2 ^ 64, (r.2 + e.size) % 2 ^ 64))
        (n % 2 ^ 64, m % 2 ^ 64) =
      ((n + (missing l other).length) % 2 ^ 64, (m + bytesOf (missing l other)) % 2 ^ 64) := by
    intro l
    induction l with
    | nil => exact fun n m => rfl
    | cons e l ih =>
      intro n m
      rw [List.foldl_cons]
      by_cases hf : found e other = true
      · rw [if_pos hf, ih]
        unfold missing
        rw [List.filter_cons_of_neg (by simpa using hf)]
      · rw [if_neg hf, Nat.mod_add_mod, Nat.mod_add_mod, ih]
        unfold missing
        rw [List.filter_cons_of_pos (by simpa using hf), List.length_cons, bytesOf, bytesOf,
          List.map_cons, List.sum_cons, Nat.add_assoc, Nat.add_assoc, Nat.add_comm 1]
  have h := hfold l 0 0
  rw [Nat.zero_add, Nat.zero_add] at h
  exact h

/-- The entries that are found are the same pairs on both sides. -/
theorem matched_perm (ha : (ea.map key).Nodup) (hb : (eb.map key).Nodup) :
    ((matched eb ea).map key).Perm ((matched ea eb).map key) := by
  have hsub : ∀ l other : List LeakEntry, ((matched l other).map key).Sublist (l.map key) :=
    fun l other =>
    List.filter_sublist.map key
  refine (List.perm_ext_iff_of_nodup (hb.sublist (hsub _ _)) (ha.sublist (hsub _ _))).mpr
    fun k => ?_
  have hmem : ∀ l other : List LeakEntry, k ∈ (matched l other).map key ↔
    k ∈ l.map key ∧ k ∈ other.map key := by
    intro l other
    constructor
    · intro hk
      obtain ⟨e, he, rfl⟩ := List.mem_map.mp hk
      obtain ⟨he, hf⟩ := List.mem_filter.mp he
      exact ⟨List.mem_map_of_mem he, found_iff.mp hf⟩
    · rintro ⟨hl, ho⟩
      obtain ⟨e, he, rfl⟩ := List.mem_map.mp hl
      exact List.mem_map_of_mem (List.mem_filter.mpr ⟨he, found_iff.mpr ho⟩)
  rw [hmem, hmem]
  exact and_comm

theorem split_perm (l other : List LeakEntry) : (matched l other ++ missing l other).Perm l :=
  List.filter_append_perm _ _

theorem length_split (l other : List LeakEntry) :
    (matched l other).length + (missing l other).length = l.length := by
  rw [← List.length_append, (split_perm l other).length_eq]

theorem bytesOf_split (l other : List LeakEntry) :
    bytesOf (matched l other) + bytesOf (missing l other) = bytesOf l := by
  have h := ((split_perm l other).map LeakEntry.size).sum_eq
  rw [List.map_append, List.sum_append] at h
  exact h

theorem matched_same (ha : (ea.map key).Nodup) (hb : (eb.map key).Nodup) :
    (matched eb ea).length = (matched ea eb).length ∧
    bytesOf (matched eb ea) = bytesOf (matched ea eb) := by
  have hp := matched_perm ha hb
  have hsize : ∀ l : List LeakEntry, bytesOf l = ((l.map key).map Record.requestedSize).sum :=
    fun l => by
    rw [List.map_map]
    rfl
  refine ⟨?_, ?_⟩
  · have := hp.length_eq
    rwa [List.length_map, List.length_map] at this
  · rw [hsize, hsize]
    exact (hp.map _).sum_eq

theorem missing_self (l : List LeakEntry) : missing l l = [] := by
  refine List.filter_eq_nil_iff.mpr fun e he => ?_
  rw [found_iff.mpr (List.mem_map_of_mem he)]
  exact nofun

/-- The loop of the library counts the same entries. -/
theorem foldl_key (l other : List LeakEntry) :
    (l.map key).foldl
        (fun r e =>
          if (other.map key).any fun a => a.address = e.address &&
            a.requestedSize = e.requestedSize then r
          else ((r.1 + 1) % 2 ^ 64, (r.2 + e.requestedSize) % 2 ^ 64))
        (0, 0) = countMissing l other := by
  have hany : ∀ e : LeakEntry, ((other.map key).any fun a =>
      a.address = (key e).address && a.requestedSize = (key e).requestedSize) = found e other := by
    intro e
    rw [List.any_map, found]
    refine congrArg (List.any other) (funext fun a => ?_)
    simp only [Function.comp, key, eq_comm]
  rw [List.foldl_map, countMissing]
  simp only [hany]
  rfl

end Matching

section Laws
variable {a b : List UInt8} {ea eb : List LeakEntry} {maxLen : Nat}

/-- The result of a comparison. -/
def resultOf (ea eb : List LeakEntry) : DiffResult :=
  let new := countMissing eb ea
  let fixed := countMissing ea eb
  ⟨new.1, fixed.1, (new.2 + 2 ^ 64 - fixed.2) % 2 ^ 64, new.2, fixed.2, 0, 0⟩

theorem cmemAnalyzeDiff_eq (ha : Regular a ea) (hb : Regular b eb) :
    cmemAnalyzeDiff a b = some (resultOf ea eb) := by
  obtain ⟨sa, hsa⟩ := Option.isSome_iff_exists.mp ha.accepted
  obtain ⟨sb, hsb⟩ := Option.isSome_iff_exists.mp hb.accepted
  unfold cmemAnalyzeDiff
  rw [hsa, hsb, ha.read, hb.read]
  rfl

theorem mpDiffSnapshots_eq (ha : Regular a ea) (hb : Regular b eb) (hm : 0 < maxLen) :
    mpDiffSnapshots a b maxLen = some (countMissing eb ea) := by
  obtain ⟨h, hp, hlen, hle, hrec⟩ := ha.records
  obtain ⟨h', hp', hlen', hle', hrec'⟩ := hb.records
  obtain ⟨hfile, hmagic, hcount, -⟩ := parseHeader_some hp
  obtain ⟨hfile', hmagic', -⟩ := parseHeader_some hp'
  have hfit : h'.activeAllocations ≤ b.length := by
    have := hb.complete _ _ hp'
    rw [List.length_drop] at this
    omega
  unfold mpDiffSnapshots
  rw [if_neg (by omega), hcount, if_neg (by omega)]
  dsimp only
  rw [hrec _ (Nat.le_refl _), hrec' _ hfit, List.length_map, if_pos hlen, foldl_key]

/-- **Snapshot diff.** -/
theorem diff_laws (ha : Regular a ea) (hb : Regular b eb) (hm : 0 < maxLen) :
    Laws a b ea eb maxLen (resultOf ea eb) := by
  obtain ⟨h, -, hlen, hle, -⟩ := ha.records
  obtain ⟨h', -, hlen', hle', -⟩ := hb.records
  obtain ⟨hcount, hbytes⟩ := matched_same ha.distinct hb.distinct
  have h1 := length_split eb ea
  have h2 := length_split ea eb
  have h3 := bytesOf_split eb ea
  have h4 := bytesOf_split ea eb
  have hnew := countMissing_eq eb ea
  have hfixed := countMissing_eq ea eb
  refine ⟨cmemAnalyzeDiff_eq ha hb, ?_, ?_, ?_, ?_, ?_⟩
  · unfold resultOf
    rw [hnew, hfixed]
    dsimp only
    omega
  · unfold resultOf
    rw [hnew, hfixed]
    dsimp only
    omega
  · exact ⟨resultOf eb ea, cmemAnalyzeDiff_eq hb ha, rfl, rfl, rfl, rfl⟩
  · have hzero : countMissing ea ea = (0, 0) := by
      rw [countMissing_eq, missing_self]
      rfl
    rw [cmemAnalyzeDiff_eq ha ha, resultOf, hzero]
    rfl
  · exact mpDiffSnapshots_eq ha hb hm

end Laws

/-- A file that was written for a pool with plausible totals, one record for each counted block and
no block twice. -/
theorem regular_export {i : Image} (h : i.Fits)
    (hp : i.total ≤ 2 ^ 40 ∧ i.active ≤ i.total ∧ i.count ≤ 2 ^ 20)
    (hc : i.entries.length = i.count)
    (hd : (i.entries.map fun e => (⟨e.address, e.requested⟩ : Record)).Nodup) :
    Regular (mpExportBinarySnapshot i) (i.entries.map fun e => readRecord e.record) := by
  have hparse := parseHeader_export h
  rw [if_pos hp] at hparse
  refine ⟨?_, fun h' rest hh => ?_, ?_, ?_⟩
  · rw [cmemAnalyzeParseSnapshot, hparse]
    rfl
  · rw [hparse] at hh
    obtain ⟨rfl, rfl⟩ := Prod.mk.inj (Option.some.inj hh)
    rw [List.length_flatMap, List.map_congr_left fun e _ => length_record e, List.map_const',
      List.sum_replicate, hc]
    show i.count * 152 / 152 = i.count
    omega
  · rw [cmemAnalyzeReadLeaks, hparse]
    show some (readRecords (min i.count 1048576) (i.entries.flatMap Entry.record)) = _
    rw [readRecords_records, List.take_of_length_le (by omega)]
  · have hkeys : (i.entries.map fun e => readRecord e.record).map key =
        i.entries.map fun e => (⟨e.address, e.requested⟩ : Record) := by
      rw [List.map_map]
      refine List.map_congr_left fun e he => ?_
      have htold := readRecord_record (h.entries e he)
      show (⟨(readRecord e.record).address, (readRecord e.record).size⟩ : Record) = _
      rw [htold.address, htold.size]
    rw [hkeys]
    exact hd

/-- A block of both files, one that was freed in between, and one that was taken. -/
def kept : Entry := ⟨70000, 24, 1, 7, none, none⟩
def freed : Entry := ⟨71000, 100, 1, 9, none, none⟩
def taken : Entry := ⟨72000, 300, 1, 11, none, none⟩

def before : Image := ⟨65536, 124, 2, [freed, kept]⟩
def after : Image := ⟨65536, 324, 2, [taken, kept]⟩

theorem diff_laws_one_new :
    Laws (mpExportBinarySnapshot before) (mpExportBinarySnapshot after)
      (before.entries.map fun e => readRecord e.record)
        (after.entries.map fun e => readRecord e.record) 256
      ⟨1, 1, 200, 300, 100, 0, 0⟩ := by
  have hkept : kept.Fits := ⟨by decide, by decide, by decide, by decide⟩
  have hfreed : freed.Fits := ⟨by decide, by decide, by decide, by decide⟩
  have htaken : taken.Fits := ⟨by decide, by decide, by decide, by decide⟩
  have hbefore : before.Fits := ⟨by decide, by decide, by decide,
    List.forall_mem_cons.mpr ⟨hfreed, List.forall_mem_singleton.mpr hkept⟩⟩
  have hafter : after.Fits := ⟨by decide, by decide, by decide,
    List.forall_mem_cons.mpr ⟨htaken, List.forall_mem_singleton.mpr hkept⟩⟩
  have hlaws : Laws _ _ _ _ 256 _ := diff_laws (regular_export hbefore (by decide) rfl (by decide))
    (regular_export hafter (by decide) rfl (by decide)) (by decide)
  have hresult : resultOf (before.entries.map fun e => readRecord e.record)
      (after.entries.map fun e => readRecord e.record) = ⟨1, 1, 200, 300, 100, 0, 0⟩ := by
    decide +kernel
  rwa [hresult] at hlaws

end Cmem.L4.Diff
