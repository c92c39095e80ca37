import Mathlib
import Cmem.L3Pool.Model

/-!
# The leak report of a pool

`mp_analyze_leaks` and `mp_export_leak_report` (src/src/cmem_diag.c:113-255). A text is the list
of its bytes. Each call of `snprintf` is kept with the place in the buffer and the size it is
given; `snprintf` writes at most that size and returns the length of the whole text, by which the
place moves on.

Nothing bounds the place after a text that did not fit: `leak_report_stays_iff` says for which
texts the report ends within its buffer.
-/
namespace Cmem.L3.LeakReport
open Cmem.L3.Pool (wrap)

/-! ## Texts -/

/-- `%zu` -/
def showNat (n : Nat) : List Char := Nat.toDigits 10 n

/-- `%d` -/
def showInt : Int → List Char
  | .ofNat n => showNat n
  | .negSucc n => '-' :: showNat (n + 1)

/-- `%p` -/
def showPtr (p : Nat) : List Char := '0' :: 'x' :: Nat.toDigits 16 p

/-- The nearest integer to `n / k`, the even one of two. -/
def divNearest (n k : Nat) : Nat :=
  if k < 2 * (n % k) ∨ (k = 2 * (n % k) ∧ n / k % 2 = 1) then n / k + 1 else n / k

/-- The conversion of a `size_t` to `double`, of 53 bits. -/
def toDouble (n : Nat) : Nat := divNearest n (2 ^ (n.log2 - 52)) * 2 ^ (n.log2 - 52)

/-- `%.2f` of a number of bytes in KiB. -/
def showKib (n : Nat) : List Char :=
  let hundredths := divNearest (toDouble n * 100) 1024
  showNat (hundredths / 100) ++
    ['.', Nat.digitChar (hundredths / 10 % 10), Nat.digitChar (hundredths % 10)]

/-- What the report reads of a block on the active list; `symbols` is what `backtrace_symbols`
answers for its frames. -/
structure Block where
  address : Nat
  allocType : Nat
  requested : Nat
  file : Option (List Char)
  line : Int
  func : Option (List Char)
  depth : Int
  symbols : Option (Nat → List Char)

/-- `total_pool_size`, `active_allocations`, `active_bytes` and the active list of a pool. -/
structure Image where
  total : Nat
  count : Nat
  active : Nat
  blocks : List Block
  words : total < 2 ^ 64 ∧ count < 2 ^ 64 ∧ active < 2 ^ 64

/-- The header of the report, src/src/cmem_diag.c:121-137. -/
def header (i : Image) : List Char :=
  "=================== DETAILED MEMORY LEAK ANALYSIS REPORT ===================\n".toList ++
    ("  Total Managed System Memory: ".toList ++
      (showNat i.total ++
        (" bytes (".toList ++
          (showKib i.total ++
            (" KB)\n  Active Leaked Allocations  : ".toList ++
              (showNat i.count ++
                (" blocks\n  Total Leaked Payload Bytes : ".toList ++
                  (showNat i.active ++
                    (" bytes (".toList ++
                      (showKib i.active ++
                        (" KB)\n".toList ++
                          "============================================================================\n".toList)))))))))))

def noLeaks : List Char := "  No memory leaks detected! Clean execution.\n".toList

/-- `tier_str` -/
def tierStr (b : Block) : List Char :=
  if b.allocType = 1 then "SLAB".toList
  else if b.allocType = 2 then "TLSF".toList
  else "DIRECT OS".toList

/-- The first line about a block, src/src/cmem_diag.c:165-171. -/
def leakLine (idx : Nat) (b : Block) : List Char :=
  "\n[Leak #".toList ++
    (showNat idx ++
      ("] Address: ".toList ++
        (showPtr b.address ++
          (" | Payload Size: ".toList ++
            (showNat b.requested ++ (" bytes | Tier: ".toList ++ (tierStr b ++ ['\n'])))))))

/-- Its second line, src/src/cmem_diag.c:178-190. -/
def sourceLine (b : Block) : List Char :=
  match b.file with
  | some file =>
    "  Source Location : ".toList ++ (file ++ (':' :: (showInt b.line ++ (" (function '".toList ++
      (b.func.getD "unknown".toList ++ "')\n".toList)))))
  | none =>
    "  Source Location : (Location tracking disabled, enable MP_FLAG_TRACK_LOCATIONS)\n".toList

def framesLine : List Char := "  Callstack Frames:\n".toList

/-- The line of a frame, src/src/cmem_diag.c:212-216. -/
def frameLine (b : Block) (frame : Nat) : List Char :=
  "    #".toList ++
    (showNat frame ++ (' ' :: (((b.symbols.map (· frame)).getD "unknown".toList) ++ ['\n'])))

/-! ## The program -/

/-- A call of `snprintf`: the place behind `report_buf`, the size, and the text. -/
structure Call where
  offset : Nat
  size : Nat
  text : List Char

/-- The bytes that are written, with their places. -/
def Call.bytes (c : Call) : List (Char × Nat) :=
  if c.size = 0 then [] else (c.text.take (c.size - 1) ++ ['\x00']).zipIdx c.offset

/-- What `snprintf` returns: the length of the text, or a negative number when it is not an
`int`. -/
def returned (text : List Char) : Int := if text.length < 2 ^ 31 then text.length else -1

/-- `offset`, and the calls so far. -/
structure Report where
  offset : Nat
  calls : List Call

namespace Report

def snprintf (r : Report) (size : Nat) (text : List Char) : Report :=
  { r with calls := r.calls ++ [⟨r.offset, size, text⟩] }

/-- `offset += snprintf(...)` -/
def add (r : Report) (size : Nat) (text : List Char) : Report :=
  { r.snprintf size text with offset := ((r.offset + returned text) % 2 ^ 64).toNat }

/-- `written = snprintf(...)`, by which `offset` is moved on when it is positive. -/
def append (r : Report) (avail : Nat) (text : List Char) : Report :=
  if 0 < returned text then r.add avail text else r.snprintf avail text

/-- `avail` -/
def avail (maxLen : Nat) (r : Report) : Nat := if r.offset < maxLen then maxLen - r.offset else 0

def put (maxLen : Nat) (r : Report) (text : List Char) : Report :=
  if 0 < r.avail maxLen then r.append (r.avail maxLen) text else r

/-- The loop over the frames of a block, src/src/cmem_diag.c:209-220. -/
def frames (maxLen : Nat) (b : Block) : Nat → Nat → Report → Report
  | 0, _, r => r
  | n + 1, frame, r =>
    if r.offset < maxLen then frames maxLen b n (frame + 1) (r.put maxLen (frameLine b frame))
    else r

/-- The loop over the active list, src/src/cmem_diag.c:148-222. -/
def leaks (maxLen : Nat) : Nat → List Block → Report → Report
  | _, [], r => r
  | idx, b :: l, r =>
    if r.offset < maxLen then
      if r.avail maxLen = 0 then r
      else
        let r := r.append (r.avail maxLen) (leakLine idx b)
        let r := r.put maxLen (sourceLine b)
        let r :=
          if 0 < b.depth ∧ r.offset < maxLen then
            frames maxLen b b.depth.toNat 0 (r.put maxLen framesLine)
          else r
        leaks maxLen (wrap (idx + 1)) l r
    else r

end Report

/-- mirrors `mp_analyze_leaks`, src/src/cmem_diag.c:113-226, which returns `offset` -/
def mpAnalyzeLeaks (i : Image) (maxLen : Nat) : Report :=
  if maxLen = 0 then ⟨0, []⟩
  else
    let r := Report.add ⟨0, []⟩ maxLen (header i)
    if i.count = 0 then r.add ((maxLen + 2 ^ 64 - r.offset) % 2 ^ 64) noLeaks
    else r.leaks maxLen 1 i.blocks

/-- `sizeof(buffer)` in `mp_export_leak_report` -/
def bufferSize : Nat := 16384

/-- mirrors `mp_export_leak_report`, src/src/cmem_diag.c:238-255: the places of its buffer that
`fwrite` reads, when the file can be opened -/
def mpExportLeakReport (i : Image) (opened : Bool) : Option (List Nat) :=
  let reportLen := (mpAnalyzeLeaks i bufferSize).offset
  if opened then some (List.range reportLen) else none

/-! ## The buffer -/

/-- What is written lies in the buffer, no size that is passed has wrapped, and the length that is
returned is one of the buffer. -/
structure InBuffer (maxLen : Nat) (r : Report) : Prop where
  bytes : ∀ c ∈ r.calls, ∀ b ∈ c.bytes, b.2 < maxLen
  sizes : ∀ c ∈ r.calls, c.offset + c.size = maxLen
  returned : r.offset ≤ maxLen

/-- Nothing behind the buffer is written out. -/
def ExportInside (i : Image) : Prop :=
  ∀ opened ps, mpExportLeakReport i opened = some ps → ∀ p ∈ ps, p < bufferSize

/-- The texts about a block. -/
def blockTexts (idx : Nat) (b : Block) : List (List Char) :=
  leakLine idx b :: sourceLine b ::
    if 0 < b.depth then framesLine :: (List.range b.depth.toNat).map (frameLine b) else []

def leakTexts : Nat → List Block → List (List Char)
  | _, [] => []
  | idx, b :: l => blockTexts idx b ++ leakTexts (wrap (idx + 1)) l

/-- The texts of the whole report. -/
def texts (i : Image) : List (List Char) :=
  header i :: if i.count = 0 then [noLeaks] else leakTexts 1 i.blocks

/-- The length of a text, 0 when it is not an `int`. -/
def advance (text : List Char) : Nat := if text.length < 2 ^ 31 then text.length else 0

/-- The whole report has at most `maxLen` bytes, or there are active blocks and one of its texts
ends at `maxLen`. -/
def Fits (maxLen : Nat) (i : Image) : Prop :=
  ((texts i).map advance).sum ≤ maxLen ∨
  (i.count ≠ 0 ∧ ∃ k, (((texts i).map advance).take k).sum = maxLen)

/-! ## Lengths -/

theorem length_showNat {n k : Nat} (hk : 0 < k) (hn : n < 10 ^ k) : (showNat n).length ≤ k :=
  Nat.toDigits_length 10 n k hk hn

theorem divNearest_le (n k : Nat) : divNearest n k ≤ n / k + 1 := by
  unfold divNearest
  split
  · exact Nat.le_refl _
  · exact Nat.le_succ _

theorem toDouble_le {n : Nat} (hn : n < 2 ^ 64) : toDouble n ≤ 2 ^ 64 := by
  rcases Nat.eq_zero_or_pos n with rfl | hpos
  · decide
  unfold toDouble
  have hlog : n.log2 < 64 := (Nat.log2_lt (Nat.pos_iff_ne_zero.mp hpos)).mpr hn
  have hmul : 2 ^ 64 = 2 ^ (64 - (n.log2 - 52)) * 2 ^ (n.log2 - 52) := by
    rw [← Nat.pow_add]
    congr 1
    omega
  rw [hmul]
  refine Nat.mul_le_mul_right _ ((divNearest_le _ _).trans ?_)
  refine Nat.div_lt_of_lt_mul ?_
  rw [Nat.mul_comm, ← hmul]
  exact hn

theorem length_showKib {n : Nat} (hn : n < 2 ^ 64) : (showKib n).length ≤ 23 := by
  have h1 := divNearest_le (toDouble n * 100) 1024
  have h2 := toDouble_le hn
  have h3 : (showNat (divNearest (toDouble n * 100) 1024 / 100)).length ≤ 20 :=
    length_showNat (by decide) (by omega)
  unfold showKib
  rw [List.length_append]
  simp only [List.length_cons, List.length_nil]
  omega

theorem length_header (i : Image) :
    (header i).length = 281 + (showNat i.total).length + (showKib i.total).length +
      (showNat i.count).length + (showNat i.active).length + (showKib i.active).length := by
  unfold header
  simp only [List.length_append]
  simp
  omega

theorem header_le (i : Image) : (header i).length ≤ 387 := by
  obtain ⟨h1, h2, h3⟩ := i.words
  have n1 : (showNat i.total).length ≤ 20 := length_showNat (by decide) (by omega)
  have n2 : (showNat i.count).length ≤ 20 := length_showNat (by decide) (by omega)
  have n3 : (showNat i.active).length ≤ 20 := length_showNat (by decide) (by omega)
  have k1 := length_showKib h1
  have k3 := length_showKib h3
  rw [length_header]
  omega

theorem header_short (i : Image) : (header i).length < 2 ^ 31 :=
  Nat.lt_of_le_of_lt (header_le i) (by decide)

/-! ## The place in the buffer -/

/-- A number that grows while it is below `m` ends at `m` or below when it never reaches `m`, or
when it meets it. -/
theorem climb_le_iff {m : Nat} (l : List Nat) (o : Nat) :
    l.foldl (fun o a => if o < m then o + a else o) o ≤ m ↔
    o + l.sum ≤ m ∨ ∃ k, o + (l.take k).sum = m := by
  induction l generalizing o with
  | nil =>
    rw [List.foldl_nil, List.sum_nil, Nat.add_zero]
    refine ⟨Or.inl, fun h => h.elim id fun ⟨k, hk⟩ => ?_⟩
    rw [List.take_nil, List.sum_nil] at hk
    omega
  | cons a l ih =>
    rw [List.foldl_cons, ih, List.sum_cons]
    have hcons : (∃ k, o + ((a :: l).take k).sum = m) ↔
      o = m ∨ ∃ k, o + a + (l.take k).sum = m := by
      refine ⟨fun ⟨k, hk⟩ => ?_, fun h => ?_⟩
      · cases k with
        | zero => exact .inl hk
        | succ k =>
          rw [List.take_succ_cons, List.sum_cons] at hk
          exact .inr ⟨k, by omega⟩
      · rcases h with h | ⟨k, hk⟩
        · exact ⟨0, h⟩
        · refine ⟨k + 1, ?_⟩
          rw [List.take_succ_cons, List.sum_cons]
          omega
    rw [hcons]
    split
    · rename_i hlt
      rw [← Nat.add_assoc]
      exact ⟨fun h => h.imp_right .inr,
        fun h => h.imp_right fun h => h.resolve_left (Nat.ne_of_lt hlt)⟩
    · rename_i hge
      have hmeet : (o + l.sum ≤ m ∨ ∃ k, o + (l.take k).sum = m) ↔ o = m := by
        refine ⟨fun h => ?_, fun h => .inr ⟨0, h⟩⟩
        rcases h with h | ⟨k, hk⟩ <;> omega
      rw [hmeet]
      refine ⟨fun h => .inr (.inl h), fun h => ?_⟩
      rcases h with h | h | ⟨k, hk⟩ <;> omega

section Offset
variable {maxLen : Nat} {r : Report} {t : List Char}

theorem Call.bytes_lt {c : Call} {b : Char × Nat} (hb : b ∈ c.bytes) : b.2 < c.offset + c.size := by
  unfold Call.bytes at hb
  split at hb
  · cases hb
  · have hlen : (c.text.take (c.size - 1) ++ ['\x00']).length ≤ c.size := by
      rw [List.length_append, List.length_take, List.length_singleton]
      omega
    have := (List.mem_zipIdx hb).2.1
    omega

theorem toNat_add_returned {o : Nat} (ho : o < 2 ^ 63) (ht : t.length < 2 ^ 31) :
    ((o + returned t) % 2 ^ 64).toNat = o + t.length := by
  rw [returned, if_pos ht]
  omega

/-- Every call has been given the rest of the buffer. -/
def Within (maxLen : Nat) (r : Report) : Prop := ∀ c ∈ r.calls, c.offset + c.size = maxLen

theorem Within.snprintf (h : Within maxLen r) {size : Nat} (hs : r.offset + size = maxLen)
    (t : List Char) : Within maxLen (r.snprintf size t) := by
  intro c hc
  rcases List.mem_append.mp hc with hc | hc
  · exact h c hc
  · obtain rfl := List.mem_singleton.mp hc
    exact hs

theorem Within.add (h : Within maxLen r) {size : Nat} (hs : r.offset + size = maxLen)
    (t : List Char) : Within maxLen (r.add size t) := h.snprintf hs t

theorem Within.put (h : Within maxLen r) (t : List Char) : Within maxLen (r.put maxLen t) := by
  unfold Report.put Report.append
  split
  · rename_i ha
    have hs : r.offset + r.avail maxLen = maxLen := by
      have hle : r.offset < maxLen := by
        by_contra hge
        rw [Report.avail, if_neg hge] at ha
        exact Nat.lt_irrefl 0 ha
      rw [Report.avail, if_pos hle]
      omega
    split
    · exact h.add hs t
    · exact h.snprintf hs t
  · exact h

theorem put_offset (hm : maxLen < 2 ^ 63) (r : Report) (t : List Char) :
    (r.put maxLen t).offset = if r.offset < maxLen then r.offset + advance t else r.offset := by
  unfold Report.put Report.append advance
  by_cases ho : r.offset < maxLen
  · rw [if_pos (by rw [Report.avail, if_pos ho]; omega), if_pos ho]
    by_cases ht : t.length < 2 ^ 31
    · rw [if_pos ht]
      split
      · exact toNat_add_returned (by omega) ht
      · rename_i hz
        rw [returned, if_pos ht] at hz
        show r.offset = _
        omega
    · rw [if_neg ht, if_neg (by rw [returned, if_neg ht]; omega)]
      rfl
  · rw [if_neg (by rw [Report.avail, if_neg ho]; omega), if_neg ho]

theorem put_full (h : ¬r.offset < maxLen) (t : List Char) : r.put maxLen t = r := by
  rw [Report.put, Report.avail, if_neg h, if_neg (Nat.lt_irrefl 0)]

theorem foldl_put_full (h : ¬r.offset < maxLen) (ts : List (List Char)) :
    ts.foldl (Report.put maxLen) r = r := by
  induction ts with
  | nil => rfl
  | cons t ts ih => rw [List.foldl_cons, put_full h, ih]

theorem Within.foldl_put (h : Within maxLen r) (ts : List (List Char)) :
    Within maxLen (ts.foldl (Report.put maxLen) r) := by
  induction ts generalizing r with
  | nil => exact h
  | cons t ts ih => exact ih (h.put t)

theorem foldl_put_offset (hm : maxLen < 2 ^ 63) (ts : List (List Char)) (r : Report) :
    (ts.foldl (Report.put maxLen) r).offset =
      (ts.map advance).foldl (fun o a => if o < maxLen then o + a else o) r.offset := by
  induction ts generalizing r with
  | nil => rfl
  | cons t ts ih => rw [List.foldl_cons, ih, List.map_cons, List.foldl_cons, put_offset hm]

/-! ## The report as a list of texts -/

theorem frames_eq (b : Block) (n frame : Nat) (r : Report) :
    r.frames maxLen b n frame =
      ((List.range' frame n).map (frameLine b)).foldl (Report.put maxLen) r := by
  induction n generalizing frame r with
  | zero => rfl
  | succ n ih =>
    rw [Report.frames, List.range'_succ, List.map_cons, List.foldl_cons]
    split
    · exact ih _ _
    · rename_i hf
      rw [put_full hf, foldl_put_full hf]

theorem append_eq_put (h : r.offset < maxLen) (t : List Char) :
    r.append (r.avail maxLen) t = r.put maxLen t := by
  rw [Report.put, if_pos (by rw [Report.avail, if_pos h]; omega)]

theorem leaks_eq (idx : Nat) (l : List Block) (r : Report) :
    r.leaks maxLen idx l = (leakTexts idx l).foldl (Report.put maxLen) r := by
  induction l generalizing idx r with
  | nil => rfl
  | cons b l ih =>
    rw [Report.leaks, leakTexts, List.foldl_append, blockTexts, List.foldl_cons, List.foldl_cons]
    split
    · rename_i ho
      have havail : r.avail maxLen ≠ 0 := by
        rw [Report.avail, if_pos ho]
        omega
      rw [if_neg havail]
      dsimp only
      rw [append_eq_put ho, ih]
      congr 1
      split
      · rename_i hd
        rw [if_pos hd.1, List.foldl_cons, frames_eq, List.range_eq_range']
      · rename_i hd
        split
        · rename_i hdepth
          rw [foldl_put_full fun hlt => hd ⟨hdepth, hlt⟩]
        · rfl
    · rename_i ho
      rw [put_full ho, put_full ho, foldl_put_full ho, foldl_put_full ho]

end Offset

/-! ## The report -/

section Report
variable {i : Image} {maxLen : Nat}

theorem advance_of_short {t : List Char} (ht : t.length < 2 ^ 31) :
    advance t = t.length := if_pos ht

theorem header_offset (size : Nat) :
    (Report.add ⟨0, []⟩ size (header i)).offset = (header i).length :=
  (toNat_add_returned (o := 0) (by decide) (header_short i)).trans (Nat.zero_add _)

theorem header_within : Within maxLen (Report.add ⟨0, []⟩ maxLen (header i)) :=
  Within.add (r := ⟨0, []⟩) nofun (Nat.zero_add _) _

theorem analyze_busy (h0 : 0 < maxLen) (hc : i.count ≠ 0) :
    mpAnalyzeLeaks i maxLen =
      (leakTexts 1 i.blocks).foldl (Report.put maxLen) (Report.add ⟨0, []⟩ maxLen (header i)) := by
  rw [mpAnalyzeLeaks, if_neg (Nat.ne_of_gt h0)]
  dsimp only
  rw [if_neg hc, leaks_eq]

theorem noLeaks_short : noLeaks.length < 2 ^ 31 := by
  unfold noLeaks
  simp

theorem analyze_idle (h0 : 0 < maxLen) (hc : i.count = 0) :
    mpAnalyzeLeaks i maxLen =
      (Report.add ⟨0, []⟩ maxLen (header i)).add ((maxLen + 2 ^ 64 - (header i).length) % 2 ^ 64)
        noLeaks := by
  rw [mpAnalyzeLeaks, if_neg (Nat.ne_of_gt h0)]
  dsimp only
  rw [if_pos hc, header_offset]

/-- The length that is returned is one of the buffer just when the texts fit. -/
theorem returned_le_iff (h0 : 0 < maxLen) (hm : maxLen < 2 ^ 63) :
    (mpAnalyzeLeaks i maxLen).offset ≤ maxLen ↔ Fits maxLen i := by
  have hh := header_short i
  by_cases hc : i.count = 0
  · have hoff : (mpAnalyzeLeaks i maxLen).offset = (header i).length + noLeaks.length := by
      rw [analyze_idle h0 hc, ← header_offset maxLen]
      exact toNat_add_returned (by rw [header_offset]; omega) noLeaks_short
    have htexts : (texts i).map advance = [(header i).length, noLeaks.length] := by
      rw [texts, if_pos hc, List.map_cons, List.map_cons, advance_of_short hh,
        advance_of_short noLeaks_short]
      rfl
    rw [hoff, Fits, htexts, List.sum_cons, List.sum_singleton]
    exact ⟨.inl, fun h => h.resolve_right fun hn => hn.1 hc⟩
  · have htexts :
      (texts i).map advance = (header i).length :: (leakTexts 1 i.blocks).map advance := by
      rw [texts, if_neg hc, List.map_cons, advance_of_short hh]
    rw [analyze_busy h0 hc, foldl_put_offset hm, header_offset, Fits, htexts]
    have hclimb :=
      climb_le_iff (m := maxLen) ((header i).length :: (leakTexts 1 i.blocks).map advance) 0
    rw [List.foldl_cons, if_pos h0, Nat.zero_add] at hclimb
    simp only [Nat.zero_add] at hclimb
    rw [hclimb]
    exact or_congr_right (and_iff_right hc).symm

/-- No byte is written behind a buffer that the texts fit. -/
theorem within_of_fits (h0 : 0 < maxLen) (hm : maxLen < 2 ^ 63) (hf : Fits maxLen i) :
    Within maxLen (mpAnalyzeLeaks i maxLen) := by
  by_cases hc : i.count = 0
  · have hsum := hf.resolve_right fun hn => hn.1 hc
    rw [texts, if_pos hc, List.map_cons, List.sum_cons, advance_of_short (header_short i)] at hsum
    rw [analyze_idle h0 hc]
    refine header_within.add ?_ _
    rw [header_offset]
    omega
  · rw [analyze_busy h0 hc]
    exact header_within.foldl_put _

theorem export_inside_iff (i : Image) :
    ExportInside i ↔ (mpAnalyzeLeaks i bufferSize).offset ≤ bufferSize := by
  constructor
  · intro h
    by_contra hgt
    exact Nat.lt_irrefl _ (h true _ rfl bufferSize (List.mem_range.mpr (by omega)))
  · intro h opened ps hps p hp
    unfold mpExportLeakReport at hps
    dsimp only at hps
    split at hps
    · obtain rfl := Option.some.inj hps
      exact Nat.lt_of_lt_of_le (List.mem_range.mp hp) h
    · cases hps

/-- **The leak report.** It stays in its buffer, of at most `PTRDIFF_MAX` bytes, just when its texts
fit; and nothing behind the buffer is exported just when they fit the buffer of the export. -/
theorem leak_report_stays_iff (h0 : 0 < maxLen) (hm : maxLen < 2 ^ 63) :
    (InBuffer maxLen (mpAnalyzeLeaks i maxLen) ↔ Fits maxLen i) ∧
    (ExportInside i ↔ Fits bufferSize i) := by
  refine ⟨⟨fun h => (returned_le_iff h0 hm).mp h.returned, fun hf => ?_⟩, ?_⟩
  · have hw := within_of_fits h0 hm hf
    exact ⟨fun c hc b hb => hw c hc ▸ Call.bytes_lt hb, hw, (returned_le_iff h0 hm).mpr hf⟩
  · rw [export_inside_iff, returned_le_iff (by decide) (by decide)]

end Report

/-! ## Two pools -/

/-- Two blocks that were allocated in a file with a short name, one of them with a call stack. -/
def shortFile : Block := ⟨70000, 1, 24, some "main.c".toList, 7, some "main".toList, 0, none⟩
def withFrames : Block :=
  ⟨71000, 2, 700, some "main.c".toList, 9, none, 2, some fun _ => "start".toList⟩
def tidy : Image := ⟨65536, 2, 724, [shortFile, withFrames], by decide⟩

theorem report_stays_clean : InBuffer 16384 (mpAnalyzeLeaks tidy 16384) ∧ ExportInside tidy := by
  have hfits : Fits 16384 tidy := .inl (by decide +kernel)
  obtain ⟨h1, h2⟩ := leak_report_stays_iff (i := tidy) (show 0 < 16384 by decide) (by decide)
  exact ⟨h1.mpr hfits, h2.mpr hfits⟩

/-- A block that was allocated in a file with a long name, and a pool with it. -/
def farFile : Block := ⟨70000, 1, 24, some (List.replicate 16384 'a'), 7, none, 0, none⟩
def crowded : Image := ⟨65536, 1, 24, [farFile], by decide⟩

theorem length_farFile : 16384 < advance (sourceLine farFile) := by
  have hlen : (sourceLine farFile).length = 16384 + (showInt 7).length + 43 := by
    show ("  Source Location : ".toList ++ (List.replicate 16384 'a' ++ (':' :: (showInt 7 ++
      (" (function '".toList ++ ("unknown".toList ++ "')\n".toList)))))).length = _
    simp only [List.length_append, List.length_replicate, List.length_cons]
    simp
    omega
  have hint : (showInt 7).length = 1 := rfl
  rw [advance_of_short (by omega)]
  omega

/-- The report of a pool with a long file name ends behind its buffer, and so does what is
exported. -/
theorem long_name_overruns :
    ¬InBuffer 16384 (mpAnalyzeLeaks crowded 16384) ∧ ¬ExportInside crowded := by
  have hh := header_le crowded
  have hleak : advance (leakLine 1 farFile) ≤ 100 := by decide +kernel
  have hsource := length_farFile
  have hnot : ¬Fits 16384 crowded := by
    have htexts : (texts crowded).map advance =
        [(header crowded).length, advance (leakLine 1 farFile), advance (sourceLine farFile)] := by
      rw [← advance_of_short (header_short crowded)]
      rfl
    rw [Fits, htexts]
    simp only [List.sum_cons, List.sum_nil]
    rintro (h | ⟨-, k, hk⟩)
    · omega
    · rcases k with _ | _ | _ | k <;> simp at hk <;> omega
  exact ⟨fun h => hnot ((returned_le_iff (by decide) (by decide)).mp h.returned),
    fun h => hnot ((returned_le_iff (by decide) (by decide)).mp ((export_inside_iff crowded).mp h))⟩

end Cmem.L3.LeakReport
