import Cmem.L2Compress.RoundTrip

/-!
# How long an LZ4 block gets, and which matches it uses

`cmem_lz4_compress` checks the room at every step it writes. Whether it fails
depends on the length of the whole block only: `Takes` is that for a writer, and
`encLen` the length. Sequences pay for themselves, so that a block is never longer
than its bytes as one run of literals, `room n`.

Results:
* `lz4_total`: one length decides for every capacity whether the call succeeds; it
  is at most `room n`, and whatever is written decompresses to the source.
* `findMatch_longest`: the probe loop finds the longest match of the window, at the
  least offset that has one, although it stops early.
* `NoRepeat.encLen_eq`: without four bytes that repeat the block is that long.
-/
namespace Cmem.L2.Compress

/-! ## Writers that need a fixed room -/

/-- The writer fails exactly when `m` more bytes do not fit. -/
def Takes (oend : Nat) (w : Writer) (m : Nat) : Prop :=
  ∀ buf op, op ≤ oend → (w buf op).2 = if op + m ≤ oend then some (op + m) else none

section Takes
variable {oend : Nat} {w w' : Writer} {m m' : Nat} {src : Buf}

theorem takes_skip : Takes oend .skip 0 := fun _ _ h => (if_pos h).symm

theorem Takes.andThen (h : Takes oend w m) (h' : Takes oend w' m') :
    Takes oend (w.andThen w') (m + m') := by
  intro buf op hop
  have h1 := h buf op hop
  unfold Writer.andThen
  obtain ⟨⟨buf₁, r⟩, hr⟩ : ∃ r, w buf op = r := ⟨_, rfl⟩
  rw [hr] at h1 ⊢
  by_cases hfit : op + m ≤ oend
  · obtain rfl : r = some (op + m) := h1.trans (if_pos hfit)
    rw [← Nat.add_assoc]
    exact h' buf₁ (op + m) hfit
  · obtain rfl : r = none := h1.trans (if_neg hfit)
    rw [if_neg (by omega)]

theorem takes_putByte (b : UInt8) : Takes oend (putByte oend b) 1 := by
  intro buf op _
  unfold putByte
  by_cases h : op + 1 ≤ oend
  · rw [if_neg (by omega), if_pos h]
  · rw [if_pos (by omega), if_neg h]

theorem takes_putRun (pos n : Nat) : Takes oend (putRun oend src pos n) n := by
  intro buf op _
  unfold putRun
  by_cases h : op + n ≤ oend
  · rw [if_neg (by omega), if_pos h]
  · rw [if_pos (by omega), if_neg h]

theorem takes_putOffset (off : Nat) : Takes oend (putOffset oend off) 2 := by
  intro buf op _
  unfold putOffset
  by_cases h : op + 2 ≤ oend
  · rw [if_neg (by omega), if_pos h]
  · rw [if_pos (by omega), if_neg h]

theorem takes_writeExt (k len : Nat) : Takes oend (writeExt oend k len) (k + 1) := by
  induction k generalizing len with
  | zero => exact takes_putByte _
  | succ k ih =>
    rw [Nat.add_comm (k + 1) 1]
    exact (takes_putByte _).andThen (ih _)

/-- The number of extension bytes of a length. -/
def extLen (v : Nat) : Nat := if 15 ≤ v then (v - 15) / 255 + 1 else 0

theorem extLen_eq (v : Nat) : extLen v = (v + 240) / 255 := by
  unfold extLen
  split <;> omega

theorem takes_putExt (v : Nat) : Takes oend (putExt oend v) (extLen v) := by
  unfold putExt extLen
  split
  · exact takes_writeExt _ _
  · exact takes_skip

/-- The bytes of a sequence with `lit` literals and a match of `mlen` bytes. -/
def seqLen (lit mlen : Nat) : Nat := 1 + extLen lit + lit + 2 + extLen (mlen - 4)

theorem takes_putSeq (k ip mlen off : Nat) :
    Takes oend (putSeq oend src k ip mlen off) (seqLen (ip - k) mlen) := by
  have hrun : Takes oend (if 0 < ip - k then putRun oend src k (ip - k) else .skip) (ip - k) := by
    split
    · exact takes_putRun _ _
    · rename_i h0
      rw [show ip - k = 0 by omega]
      exact takes_skip
  exact ((((takes_putByte _).andThen (takes_putExt _)).andThen hrun).andThen
    (takes_putOffset _)).andThen
    (takes_putExt _)

/-- The room `r` bytes need as one run of literals. -/
def room (r : Nat) : Nat := if r = 0 then 0 else 1 + extLen r + r

theorem takes_putLast (k n : Nat) : Takes oend (putLast oend src k n) (room (n - k)) := by
  unfold putLast room
  by_cases h : k < n
  · rw [if_pos h, if_neg (by omega)]
    exact ((takes_putByte _).andThen (takes_putExt _)).andThen (takes_putRun _ _)
  · rw [if_neg h, if_pos (by omega)]
    exact takes_skip

end Takes

/-! ## The length of a block -/

/-- The number of bytes `encLoop` writes when there is room for all of them. -/
def encLen (src : Buf) (iend : Nat) : Nat → Nat → Nat → Nat
  | 0, _, anchor => room (iend - anchor)
  | fuel + 1, ip, anchor =>
    if ip < iend then
      let best := findMatch src iend ip
      if best.1 < 4 then encLen src iend fuel (ip + 1) anchor
      else seqLen (ip - anchor) best.1 + encLen src iend fuel (ip + best.1) (ip + best.1)
    else room (iend - anchor)

section Encoder
variable {src : Buf} {n : Nat}

theorem takes_encLoop (src : Buf) (n oend fuel ip k : Nat) :
    Takes oend (encLoop oend src n fuel ip k) (encLen src n fuel ip k) := by
  induction fuel generalizing ip k with
  | zero => exact takes_putLast _ _
  | succ fuel ih =>
    unfold encLoop encLen
    split
    · simp only
      split
      · exact ih _ _
      · exact (takes_putSeq _ _ _ _).andThen (ih _ _)
    · exact takes_putLast _ _

/-- A match of four bytes or more saves what its sequence costs, whatever the
literals in front of it and the bytes behind it need. -/
theorem seqLen_room {lit mlen r : Nat} (h : 4 ≤ mlen) :
    seqLen lit mlen + room r ≤ room (lit + mlen + r) := by
  unfold seqLen room
  rw [extLen_eq, extLen_eq, extLen_eq, extLen_eq, if_neg (show lit + mlen + r ≠ 0 by omega)]
  split <;> omega

theorem encLen_le (src : Buf) {n ip k : Nat} (fuel : Nat) (hk : k ≤ ip) (hip : ip ≤ n) :
    encLen src n fuel ip k ≤ room (n - k) := by
  induction fuel generalizing ip k with
  | zero => exact Nat.le_refl _
  | succ fuel ih =>
    unfold encLen
    split
    · rename_i hlt
      simp only
      split
      · exact ih (by omega) hlt
      · rename_i hlen
        rcases findMatch_good src n ip with h0 | ⟨-, -, hprobe, -⟩
        · omega
        · have hend : ip + (findMatch src n ip).1 ≤ n := by omega
          calc seqLen (ip - k) (findMatch src n ip).1 + encLen src n fuel _ _
              ≤ seqLen (ip - k) (findMatch src n ip).1 + room (n - (ip + (findMatch src n ip).1)) :=
                Nat.add_le_add_left (ih (Nat.le_refl _) hend) _
            _ ≤ room (ip - k + (findMatch src n ip).1 + (n - (ip + (findMatch src n ip).1))) :=
                seqLen_room (by omega)
            _ = room (n - k) := by congr 1; omega
    · exact Nat.le_refl _

theorem encLen_pos (src : Buf) {n ip k : Nat} (fuel : Nat) (hk : k < n) :
    0 < encLen src n fuel ip k := by
  have hroom : 0 < room (n - k) := by
    unfold room
    rw [if_neg (by omega)]
    omega
  induction fuel generalizing ip with
  | zero => exact hroom
  | succ fuel ih =>
    unfold encLen
    split
    · simp only
      split
      · exact ih
      · unfold seqLen
        omega
    · exact hroom

end Encoder

/-! ## The longest match -/

/-- `src[ip - off..]` and `src[ip..]` agree for `len` bytes. -/
def Repeats (src : Buf) (ip off len : Nat) : Prop := ∀ j < len, src (ip - off + j) = src (ip + j)

theorem matchLen_max {src : Buf} {cand ip left len k : Nat} (hk : k ≤ len + left)
    (h : ∀ j < k, src (cand + j) = src (ip + j)) : k ≤ matchLen src cand ip left len := by
  induction left generalizing len with
  | zero => exact hk
  | succ left ih =>
    unfold matchLen
    split
    · exact ih (by omega)
    · rename_i hne
      by_contra hlt
      exact hne (h len (by omega))

/-- `best` is the longest match among the offsets below `limit`, and the nearest of
its length. -/
structure Longest (src : Buf) (ip probe limit : Nat) (best : Nat × Nat) : Prop where
  found : best.1 = 0 ∨ 1 ≤ best.2 ∧ best.2 < limit ∧ best.1 ≤ probe ∧ Repeats src ip best.2 best.1
  max : ∀ off len, 1 ≤ off → off < limit → len ≤ probe → Repeats src ip off len → len ≤ best.1
  near : ∀ off len, 1 ≤ off → off < limit → len ≤ probe → Repeats src ip off len →
    len = best.1 → 0 < len → best.2 ≤ off

section Longest
variable {src : Buf} {ip probe off limit : Nat} {best : Nat × Nat}

/-- The offset `off` has a longer match than all before it. -/
theorem Longest.better (h : Longest src ip probe off best) (hoff : 1 ≤ off)
    (hlt : best.1 < matchLen src (ip - off) ip probe 0) :
    Longest src ip probe (off + 1) (matchLen src (ip - off) ip probe 0, off) := by
  obtain ⟨hle, heq⟩ := matchLen_spec src (ip - off) ip probe 0 nofun
  refine ⟨.inr ⟨hoff, Nat.lt_succ_self _, by simpa using hle, heq⟩, fun o len h1 h2 h3 h4 => ?_,
    fun o len h1 h2 h3 h4 he _ => ?_⟩
  · rcases Nat.lt_succ_iff_lt_or_eq.mp h2 with hlo | rfl
    · exact Nat.le_of_lt (Nat.lt_of_le_of_lt (h.max o len h1 hlo h3 h4) hlt)
    · exact matchLen_max (by omega) h4
  · by_contra hlo
    have := h.max o len h1 (Nat.lt_of_not_le hlo) h3 h4
    simp only at he
    omega

/-- The offset `off` has no longer match than the best before it. -/
theorem Longest.keep (h : Longest src ip probe off best)
    (hle : matchLen src (ip - off) ip probe 0 ≤ best.1) : Longest src ip probe (off + 1) best := by
  refine ⟨?_, fun o len h1 h2 h3 h4 => ?_, fun o len h1 h2 h3 h4 he hpos => ?_⟩
  · rcases h.found with h0 | ⟨h1, h2, h3⟩
    · exact .inl h0
    · exact .inr ⟨h1, by omega, h3⟩
  · rcases Nat.lt_succ_iff_lt_or_eq.mp h2 with hlo | rfl
    · exact h.max o len h1 hlo h3 h4
    · exact Nat.le_trans (matchLen_max (by omega) h4) hle
  · rcases Nat.lt_succ_iff_lt_or_eq.mp h2 with hlo | rfl
    · exact h.near o len h1 hlo h3 h4 he hpos
    · rcases h.found with h0 | ⟨-, h2, -⟩ <;> omega

/-- A match as long as the probe ends the search: no later offset can beat it. -/
theorem Longest.stop (h : Longest src ip probe off best) (hp : best.1 = probe) (hpos : 0 < best.1)
    (hle : off ≤ limit) : Longest src ip probe limit best := by
  have hbest : best.2 < off := by
    rcases h.found with h0 | ⟨-, h2, -⟩ <;> omega
  refine ⟨?_, fun o len _ _ h3 _ => by omega, fun o len h1 h2 h3 h4 he h0 => ?_⟩
  · rcases h.found with h0 | ⟨h1, -, h3⟩
    · exact .inl h0
    · exact .inr ⟨h1, by omega, h3⟩
  · by_cases hlo : o < off
    · exact h.near o len h1 hlo h3 h4 he h0
    · omega

theorem Longest.loop {left : Nat} (h : Longest src ip probe off best) (hoff : 1 ≤ off) :
    Longest src ip probe (off + left) (bestMatch src ip probe left off best) := by
  induction left generalizing off best with
  | zero => exact h
  | succ left ih =>
    unfold bestMatch
    simp only
    rw [Nat.add_comm left 1, ← Nat.add_assoc]
    split
    · rename_i hlt
      have hnew := h.better hoff hlt
      split
      · rename_i hfull
        exact hnew.stop hfull (by simp only; omega) (by omega)
      · exact ih hnew (by omega)
    · exact ih (h.keep (by omega)) (by omega)

end Longest

/-- The probe loop of `cmem_lz4_compress` finds the longest match of at most 4096
bytes in the last 65535, at the least distance that has it. -/
theorem findMatch_longest (src : Buf) (n ip : Nat) :
    Longest src ip (min (n - ip) 4096) (min ip 0xFFFF + 1) (findMatch src n ip) := by
  have hstart : Longest src ip (min (n - ip) 4096) 1 (0, 0) :=
    ⟨.inl rfl, fun off _ h1 h2 => by omega, fun off _ h1 h2 => by omega⟩
  unfold findMatch
  split
  · rw [Nat.add_comm]
    exact hstart.loop (Nat.le_refl 1)
  · rename_i h0
    rw [show min ip 0xFFFF + 1 = 1 by omega]
    exact hstart

/-- No four bytes of the source stand again within the window behind them. -/
def NoRepeat (src : Buf) (n : Nat) : Prop :=
  ∀ ip off, 1 ≤ off → off ≤ min ip 0xFFFF → ip + 4 ≤ n → ¬ Repeats src ip off 4

theorem NoRepeat.short {src : Buf} {n ip : Nat} (h : NoRepeat src n) (hip : ip < n) :
    (findMatch src n ip).1 < 4 := by
  by_contra hlen
  rcases (findMatch_longest src n ip).found with h0 | ⟨h1, h2, h3, h4⟩
  · omega
  · exact h ip _ h1 (by omega) (by omega) fun j hj => h4 j (by omega)

theorem NoRepeat.encLen_eq {src : Buf} {n ip k : Nat} (h : NoRepeat src n) (fuel : Nat) :
    encLen src n fuel ip k = room (n - k) := by
  induction fuel generalizing ip with
  | zero => rfl
  | succ fuel ih =>
    unfold encLen
    split
    · rename_i hip
      simp only
      rw [if_pos (h.short hip)]
      exact ih
    · rfl

/-! ## The results -/

theorem compress_takes (src dst : Buf) {n cap : Nat} (hn : 0 < n) :
    (cmemLz4Compress src dst n cap).2 =
      if encLen src n n 0 0 ≤ cap then some (encLen src n n 0 0) else none := by
  have hpos : 0 < encLen src n n 0 0 := encLen_pos src n hn
  unfold cmemLz4Compress
  split
  · rw [if_neg (by omega)]
  · have h := takes_encLoop src n cap n 0 0 dst 0 (Nat.zero_le _)
    rwa [Nat.zero_add] at h

/-- One length `m` decides about every call with this source: it fails when the
destination has less room and writes `m` bytes otherwise, which decompress to the
source. `m` is at most `n + (n + 240) / 255 + 1`, and no less when nothing repeats. -/
theorem lz4_total (src : Buf) {n : Nat} (hn : 0 < n) :
    ∃ m, 0 < m ∧ m ≤ n + (n + 240) / 255 + 1 ∧ (NoRepeat src n → m = n + (n + 240) / 255 + 1) ∧
      (∀ dst cap, cap < m → (cmemLz4Compress src dst n cap).2 = none) ∧
      ∀ dst cap, m ≤ cap → (cmemLz4Compress src dst n cap).2 = some m ∧
        ∀ out, ∃ out', cmemLz4Decompress (cmemLz4Compress src dst n cap).1 out m n =
          (out', some n) ∧ ∀ i < n, out' i = src i := by
  have hroom : room n = n + (n + 240) / 255 + 1 := by
    unfold room
    rw [if_neg (by omega), extLen_eq]
    omega
  refine ⟨encLen src n n 0 0, encLen_pos src n hn, ?_, fun h => ?_, fun dst cap hcap => ?_,
    fun dst cap hcap => ?_⟩
  · rw [← hroom]
    exact encLen_le src n (Nat.le_refl 0) (Nat.zero_le n)
  · rw [← hroom]
    exact h.encLen_eq n
  · rw [compress_takes src dst hn, if_neg (by omega)]
  · have hm := (compress_takes src dst hn).trans (if_pos hcap)
    obtain ⟨-, -, bs, hc, hlen, hat⟩ := (compress_coded src dst n cap).2 _ hm
    rw [← hlen] at hm ⊢
    exact ⟨hm, fun out => decompress_coded _ hc hat out⟩

/-- Three hundred bytes and the worst capacity, 303. -/
theorem lz4_total_counting :
    let src : Buf := fun i => UInt8.ofNat i
    ∃ m ≤ 303, (cmemLz4Compress src (fun _ => 0) 300 303).2 = some m ∧
      ∃ out', cmemLz4Decompress (cmemLz4Compress src (fun _ => 0) 300 303).1 (fun _ => 0) m 300 =
        (out', some 300) ∧ ∀ i < 300, out' i = src i := by
  intro src
  obtain ⟨m, -, hle, -, -, hret⟩ := lz4_total src (n := 300) (by decide)
  obtain ⟨hm, hdec⟩ := hret (fun _ => 0) 303 hle
  exact ⟨m, hle, hm, hdec _⟩

end Cmem.L2.Compress
