import Cmem.L2Compress.Lz4

/-!
# LZ4 round trip

The block format as a relation, `Coded src n k bs`: the bytes `bs` describe the
positions `k..n` of `src`. The encoder emits such bytes and nothing outside its
buffer (`compress_coded`); the decoder turns them back into `src`
(`decode_coded`).
-/
namespace Cmem.L2.Compress

/-! ## What a writer emits -/

/-- The bytes of `bs` stand at `p`. -/
def At (buf : Buf) (p : Nat) (bs : List UInt8) : Prop :=
  ∀ j (h : j < bs.length), buf (p + j) = bs[j]

theorem at_append {buf : Buf} {p : Nat} {bs cs : List UInt8} :
    At buf p (bs ++ cs) ↔ At buf p bs ∧ At buf (p + bs.length) cs := by
  constructor
  · intro h
    refine ⟨fun j hj => ?_, fun j hj => ?_⟩
    · rw [h j (by simp; omega), List.getElem_append_left hj]
    · rw [Nat.add_assoc, h (bs.length + j) (by simp; omega), List.getElem_append_right (by omega)]
      simp
  · rintro ⟨h1, h2⟩ j hj
    by_cases e : j < bs.length
    · rw [List.getElem_append_left e]; exact h1 j e
    · rw [List.getElem_append_right (by omega), ← h2 (j - bs.length) (by simp at hj; omega)]
      congr 1; omega

theorem at_cons {buf : Buf} {p : Nat} {b : UInt8} {bs : List UInt8} :
    At buf p (b :: bs) ↔ buf p = b ∧ At buf (p + 1) bs := by
  rw [show b :: bs = [b] ++ bs from rfl, at_append]
  refine and_congr_left fun _ => ⟨fun h => h 0 (by simp), fun h j hj => ?_⟩
  obtain rfl : j = 0 := by simpa using hj
  exact h

theorem At.congr {buf buf' : Buf} {p : Nat} {bs : List UInt8} (h : At buf p bs)
    (hag : ∀ i, p ≤ i → i < p + bs.length → buf' i = buf i) : At buf' p bs := fun j hj => by
  rw [hag _ (by omega) (by omega)]; exact h j hj

/-- The writer stays inside `[op, oend)`; unless it fails it writes `bs`. -/
def Emits (oend : Nat) (w : Writer) (bs : List UInt8) : Prop :=
  ∀ buf op, op ≤ oend →
    (∀ i, i < op ∨ oend ≤ i → (w buf op).1 i = buf i) ∧
    ∀ op', (w buf op).2 = some op' → op' = op + bs.length ∧ op' ≤ oend ∧ At (w buf op).1 op bs

section Emits
variable {oend : Nat} {w w' : Writer} {bs bs' : List UInt8} {src : Buf}

theorem emits_skip : Emits oend .skip [] := fun _ _ h =>
  ⟨fun _ _ => rfl, fun _ h' => ⟨(Option.some.inj h').symm, Option.some.inj h' ▸ h, nofun⟩⟩

theorem Emits.andThen (h : Emits oend w bs) (h' : Emits oend w' bs') :
    Emits oend (w.andThen w') (bs ++ bs') := by
  intro buf op hop
  obtain ⟨h1, h2⟩ := h buf op hop
  unfold Writer.andThen
  obtain ⟨⟨buf₁, r⟩, hr⟩ : ∃ r, w buf op = r := ⟨_, rfl⟩
  rw [hr] at h1 h2 ⊢
  cases r with
  | none => exact ⟨h1, nofun⟩
  | some op₁ =>
    obtain ⟨e, hle, hat⟩ := h2 op₁ rfl
    obtain ⟨h3, h4⟩ := h' buf₁ op₁ hle
    refine ⟨fun i hi => (h3 i (by omega)).trans (h1 i hi), fun op' hop' => ?_⟩
    obtain ⟨e', hle', hat'⟩ := h4 op' hop'
    refine ⟨by rw [List.length_append]; omega, hle',
      at_append.mpr ⟨hat.congr fun i _ hi => h3 i (by omega), ?_⟩⟩
    rw [← e]; exact hat'

theorem emits_putByte (b : UInt8) : Emits oend (putByte oend b) [b] := by
  intro buf op hop
  unfold putByte
  split
  · exact ⟨fun _ _ => rfl, nofun⟩
  · rename_i hlt
    refine ⟨fun i hi => Function.update_of_ne (by omega) _ _, fun op' h' => ?_⟩
    obtain rfl := Option.some.inj h'
    exact ⟨rfl, by omega, at_cons.mpr ⟨Function.update_self .., nofun⟩⟩

/-- The extension bytes of a length. -/
def extBytes : Nat → Nat → List UInt8
  | 0, len => [UInt8.ofNat len]
  | k + 1, len => 255 :: extBytes k (len - 255)

theorem emits_writeExt (k len : Nat) : Emits oend (writeExt oend k len) (extBytes k len) := by
  induction k generalizing len with
  | zero => exact emits_putByte _
  | succ k ih => exact (emits_putByte _).andThen (ih _)

/-- What stands behind a token nibble for the length `v`. -/
def lenBytes (v : Nat) : List UInt8 := if 15 ≤ v then extBytes ((v - 15) / 255) (v - 15) else []

theorem emits_putExt (v : Nat) : Emits oend (putExt oend v) (lenBytes v) := by
  unfold putExt lenBytes
  split
  · exact emits_writeExt _ _
  · exact emits_skip

theorem at_slice {buf : Buf} {p pos n : Nat} : At buf p (slice src pos n) ↔
    ∀ j < n, buf (p + j) = src (pos + j) := by
  unfold At slice
  simp

@[simp] theorem length_slice (src : Buf) (pos n : Nat) : (slice src pos n).length = n := by
  simp [slice]

theorem emits_putRun (pos n : Nat) : Emits oend (putRun oend src pos n) (slice src pos n) := by
  intro buf op hop
  unfold putRun
  split
  · exact ⟨fun _ _ => rfl, nofun⟩
  · refine ⟨fun i hi => if_neg (by omega), fun op' h' => ?_⟩
    obtain rfl := Option.some.inj h'
    refine ⟨by simp, by omega, at_slice.mpr fun j hj => ?_⟩
    show (if _ then _ else _) = _
    rw [if_pos (by omega)]
    congr 1; omega

theorem emits_putOffset (off : Nat) :
    Emits oend (putOffset oend off) [UInt8.ofNat (off % 256), UInt8.ofNat (off / 256)] := by
  intro buf op hop
  unfold putOffset
  split
  · exact ⟨fun _ _ => rfl, nofun⟩
  · refine ⟨fun i hi => ?_, fun op' h' => ?_⟩
    · show Function.update (Function.update _ _ _) _ _ i = _
      rw [Function.update_of_ne (by omega), Function.update_of_ne (by omega)]
    · obtain rfl := Option.some.inj h'
      refine ⟨rfl, by omega, at_cons.mpr ⟨?_, at_cons.mpr ⟨Function.update_self .., nofun⟩⟩⟩
      show Function.update (Function.update _ _ _) _ _ op = _
      rw [Function.update_of_ne (by omega), Function.update_self]

/-- The bytes of one sequence. -/
def seqBytes (src : Buf) (k ip mlen off : Nat) : List UInt8 :=
  [UInt8.ofNat (nibble (ip - k) * 16 + nibble (mlen - 4))] ++ lenBytes (ip - k) ++
    slice src k (ip - k) ++ [UInt8.ofNat (off % 256), UInt8.ofNat (off / 256)] ++
      lenBytes (mlen - 4)

theorem emits_putSeq (k ip mlen off : Nat) :
    Emits oend (putSeq oend src k ip mlen off) (seqBytes src k ip mlen off) := by
  have hrun :
    Emits oend (if 0 < ip - k then putRun oend src k (ip - k) else .skip)
      (slice src k (ip - k)) := by
    split
    · exact emits_putRun _ _
    · rename_i h0
      rw [show ip - k = 0 by omega]
      exact emits_skip
  exact ((((emits_putByte _).andThen (emits_putExt _)).andThen hrun).andThen
    (emits_putOffset _)).andThen
    (emits_putExt _)

/-- The bytes of the trailing literals. -/
def lastBytes (src : Buf) (k n : Nat) : List UInt8 :=
  [UInt8.ofNat (nibble (n - k) * 16)] ++ lenBytes (n - k) ++ slice src k (n - k)

theorem emits_putLast {k n : Nat} (h : k < n) :
    Emits oend (putLast oend src k n) (lastBytes src k n) := by
  unfold putLast
  rw [if_pos h]
  exact ((emits_putByte _).andThen (emits_putExt _)).andThen (emits_putRun _ _)

end Emits

/-! ## The block format -/

/-- `bs` codes the positions from `k` to `n` of `src`, given the ones before. -/
inductive Coded (src : Buf) (n : Nat) : Nat → List UInt8 → Prop where
  | done : Coded src n n []
  | last {k : Nat} : k < n → Coded src n k (lastBytes src k n)
  | seq {k ip mlen off : Nat} {bs : List UInt8} : k ≤ ip → 1 ≤ off → off ≤ ip → off ≤ 0xFFFF →
      4 ≤ mlen → ip + mlen ≤ n → (∀ j < mlen, src (ip - off + j) = src (ip + j)) →
      Coded src n (ip + mlen) bs → Coded src n k (seqBytes src k ip mlen off ++ bs)

section Encoder
variable {src : Buf} {n : Nat}

theorem matchLen_spec (src : Buf) (cand ip left len : Nat)
    (h : ∀ j < len, src (cand + j) = src (ip + j)) : matchLen src cand ip left len ≤ len + left ∧
      ∀ j < matchLen src cand ip left len, src (cand + j) = src (ip + j) := by
  induction left generalizing len with
  | zero => exact ⟨Nat.le_refl _, h⟩
  | succ left ih =>
    unfold matchLen
    split
    · rename_i e
      obtain ⟨h1, h2⟩ := ih (len + 1) fun j hj => by
        rcases Nat.lt_succ_iff_lt_or_eq.mp hj with hj | rfl
        · exact h j hj
        · exact e
      exact ⟨by omega, h2⟩
    · exact ⟨by omega, h⟩

/-- A match that a decoder can copy. -/
def Good (src : Buf) (ip probe maxOff : Nat) (best : Nat × Nat) : Prop :=
  best.1 = 0 ∨
  (1 ≤ best.2 ∧ best.2 ≤ maxOff ∧ best.1 ≤ probe ∧
    ∀ j < best.1, src (ip - best.2 + j) = src (ip + j))

theorem bestMatch_good {ip probe maxOff left off : Nat} {best : Nat × Nat} (hoff : 1 ≤ off)
    (hle : off + left ≤ maxOff + 1) (h : Good src ip probe maxOff best) :
    Good src ip probe maxOff (bestMatch src ip probe left off best) := by
  induction left generalizing off best with
  | zero => exact h
  | succ left ih =>
    have hm := matchLen_spec src (ip - off) ip probe 0 nofun
    have hnew : Good src ip probe maxOff (matchLen src (ip - off) ip probe 0, off) :=
      .inr ⟨hoff, by simp only; omega, by simpa using hm.1, hm.2⟩
    unfold bestMatch
    simp only
    split
    · split
      · exact hnew
      · exact ih (by omega) (by omega) hnew
    · exact ih (by omega) (by omega) h

theorem findMatch_good (src : Buf) (n ip : Nat) :
    Good src ip (min (n - ip) 4096) (min ip 0xFFFF) (findMatch src n ip) := by
  unfold findMatch
  split
  · exact bestMatch_good (Nat.le_refl 1) (by omega) (.inl rfl)
  · exact .inl rfl

theorem putLast_coded {oend k : Nat} (h : k ≤ n) :
    ∃ bs, Emits oend (putLast oend src k n) bs ∧ Coded src n k bs := by
  rcases Nat.lt_or_eq_of_le h with h | rfl
  · exact ⟨_, emits_putLast h, .last h⟩
  · refine ⟨[], ?_, .done⟩
    unfold putLast
    rw [if_neg (Nat.lt_irrefl _)]
    exact emits_skip

/-- The encoder emits coded bytes. -/
theorem encLoop_coded (src : Buf) (n oend fuel : Nat) {ip k : Nat} (hk : k ≤ ip) (hip : ip ≤ n)
    (hf : n - ip ≤ fuel) :
    ∃ bs, Emits oend (encLoop oend src n fuel ip k) bs ∧ Coded src n k bs := by
  induction fuel generalizing ip k with
  | zero => exact putLast_coded (by omega)
  | succ fuel ih =>
    unfold encLoop
    split
    · rename_i hlt
      simp only
      split
      · exact ih (by omega) hlt (by omega)
      · rename_i hlen
        rcases findMatch_good src n ip with h0 | ⟨h1, h2, h3, h4⟩
        · omega
        · have hend : ip + (findMatch src n ip).1 ≤ n := by omega
          obtain ⟨bs, hb, hcoded⟩ := ih (Nat.le_refl _) hend (by omega)
          exact ⟨_, (emits_putSeq _ _ _ _).andThen hb,
            .seq hk h1 (by omega) (by omega) (by omega) hend h4 hcoded⟩
    · exact putLast_coded (by omega)

end Encoder

/-! ## The decoder -/

/-- The first `k` bytes of the output are those of the source. -/
def Agree (out src : Buf) (k : Nat) : Prop := ∀ i < k, out i = src i

section Decoder
variable {src inp : Buf} {n iend oend : Nat}

theorem readExt_spec {k len left ip acc : Nat} (hk : len / 255 = k)
    (hat : At inp ip (extBytes k len)) (hleft : (extBytes k len).length ≤ left) :
    readExt inp left ip acc = some (ip + (extBytes k len).length, acc + len) := by
  induction k generalizing len left ip acc with
  | zero =>
    obtain ⟨left, rfl⟩ : ∃ l, left = l + 1 := ⟨left - 1, by simp [extBytes] at hleft; omega⟩
    have hb : inp ip = UInt8.ofNat len := (at_cons.mp hat).1
    have hv : (inp ip).toNat = len := by rw [hb, UInt8.toNat_ofNat']; omega
    have hne : inp ip ≠ 255 := fun e => by rw [e] at hv; simp at hv; omega
    unfold readExt
    rw [if_pos hne, hv]
    rfl
  | succ k ih =>
    obtain ⟨left, rfl⟩ : ∃ l, left = l + 1 := ⟨left - 1, by simp [extBytes] at hleft; omega⟩
    obtain ⟨hb, hat⟩ := at_cons.mp hat
    unfold readExt
    rw [if_neg (not_not.mpr hb), ih (by omega) hat (by simpa [extBytes] using hleft)]
    simp only [extBytes, List.length_cons, Option.some.injEq, Prod.mk.injEq]
    omega

theorem readLen_spec {v ip : Nat} (hat : At inp ip (lenBytes v))
    (hend : ip + (lenBytes v).length ≤ iend) :
    readLen inp iend (nibble v) ip = some (ip + (lenBytes v).length, v) := by
  unfold readLen
  by_cases h : 15 ≤ v
  · unfold lenBytes at hat hend ⊢
    rw [if_pos h] at hat hend ⊢
    have hnib : nibble v = 15 := if_neg (by omega)
    rw [if_pos hnib, readExt_spec rfl hat (by omega), Nat.add_sub_cancel' h]
  · have hnib : nibble v = v := if_pos (by omega)
    rw [hnib, if_neg (by omega)]
    unfold lenBytes
    rw [if_neg h]
    rfl

theorem copyMatch_agree {out : Buf} {op off len : Nat} (hout : Agree out src op) (h1 : 1 ≤ off)
    (hop : off ≤ op) (hm : ∀ j < len, src (op - off + j) = src (op + j)) :
    Agree (copyMatch out op off len) src (op + len) := by
  induction len with
  | zero => exact hout
  | succ k ih =>
    have ih := ih fun j hj => hm j (by omega)
    intro i hi
    unfold copyMatch
    by_cases e : i = op + k
    · subst e
      rw [Function.update_self, ih _ (by omega), show op + k - off = op - off + k by omega]
      exact hm k (by omega)
    · rw [Function.update_of_ne e]
      exact ih i (by omega)

theorem copy_agree {out : Buf} {op ip len : Nat} (hout : Agree out src op)
    (hat : At inp ip (slice src op len)) : Agree (out.copy inp op ip len) src (op + len) := by
  intro i hi
  unfold Buf.copy
  split
  · rename_i h
    have := at_slice.mp hat (i - op) (by omega)
    rw [this]
    congr 1; omega
  · exact hout i (by omega)

theorem nibble_lt (v : Nat) : nibble v < 16 := by unfold nibble; split <;> omega

theorem token_spec {a c : Nat} (hc : c < 16) :
    (UInt8.ofNat (nibble a * 16 + c)).toNat / 16 = nibble a ∧
    (UInt8.ofNat (nibble a * 16 + c)).toNat % 16 = c := by
  have := nibble_lt a
  rw [UInt8.toNat_ofNat']
  omega

/-- The token and the literals of a sequence. -/
theorem decSeq_spec (inp : Buf) (iend oend : Nat) {d : Dec} {a c : Nat} (hc : c < 16)
    (hat : At inp d.ip ([UInt8.ofNat (nibble a * 16 + c)] ++ lenBytes a ++ slice src d.op a))
    (hend : d.ip + 1 + (lenBytes a).length + a ≤ iend) (hop : d.op + a ≤ oend)
    (hout : Agree d.out src d.op) : ∃ out token, Agree out src (d.op + a) ∧ token % 16 = c ∧
      decSeq inp iend oend d =
        if iend ≤ d.ip + 1 + (lenBytes a).length + a then .stop out (some (d.op + a))
        else decMatch inp iend oend token ⟨d.ip + 1 + (lenBytes a).length + a, d.op + a, out⟩ := by
  obtain ⟨hat, hlit⟩ := at_append.mp hat
  obtain ⟨htok, hlen⟩ := at_append.mp hat
  have htok : inp d.ip = UInt8.ofNat (nibble a * 16 + c) := (at_cons.mp htok).1
  obtain ⟨t1, t2⟩ := token_spec (a := a) hc
  refine ⟨d.out.copy inp d.op (d.ip + 1 + (lenBytes a).length) a, _, copy_agree hout ?_, t2, ?_⟩
  · rw [show d.ip + 1 + (lenBytes a).length =
      d.ip + ([UInt8.ofNat (nibble a * 16 + c)] ++ lenBytes a).length by
      simp only [List.length_append, List.length_singleton]; omega]
    exact hlit
  · have hr : readLen inp iend (nibble a) (d.ip + 1) = some (d.ip + 1 + (lenBytes a).length, a) :=
      readLen_spec hlen (by omega)
    unfold decSeq
    simp only [htok, t1, hr]
    rw [if_neg (by omega)]

/-- The offset and the copy of a sequence. -/
theorem decMatch_spec (inp : Buf) (iend oend : Nat) {d : Dec} {token mlen off : Nat}
    (htok : token % 16 = nibble (mlen - 4)) (h4 : 4 ≤ mlen) (h1 : 1 ≤ off) (hoff : off ≤ 0xFFFF)
    (hle : off ≤ d.op)
    (hat : At inp d.ip ([UInt8.ofNat (off % 256), UInt8.ofNat (off / 256)] ++ lenBytes (mlen - 4)))
    (hend : d.ip + 2 + (lenBytes (mlen - 4)).length ≤ iend) (hop : d.op + mlen ≤ oend) :
    decMatch inp iend oend token d =
      .go ⟨d.ip + 2 + (lenBytes (mlen - 4)).length, d.op + mlen,
        copyMatch d.out d.op off mlen⟩ := by
  obtain ⟨ho, hlen⟩ := at_append.mp hat
  obtain ⟨o1, ho⟩ := at_cons.mp ho
  obtain ⟨o2, -⟩ := at_cons.mp ho
  have hv : (inp d.ip).toNat + (inp (d.ip + 1)).toNat * 256 = off := by
    rw [o1, o2, UInt8.toNat_ofNat', UInt8.toNat_ofNat']; omega
  have hr :
    readLen inp iend (token % 16) (d.ip + 2) =
      some (d.ip + 2 + (lenBytes (mlen - 4)).length, mlen - 4) := by
    rw [htok]; exact readLen_spec hlen hend
  unfold decMatch
  rw [if_neg (by omega)]
  simp only [hv, hr]
  rw [if_neg (by omega), if_neg (by omega), Nat.sub_add_cancel h4]

/-- Coded bytes decode to what they code. -/
theorem decode_coded {k ip fuel : Nat} {out : Buf} {bs : List UInt8} (hc : Coded src n k bs)
    (hat : At inp ip bs) (hend : iend = ip + bs.length) (hf : bs.length < fuel)
    (hout : Agree out src k) : ∃ out', decLoop inp iend n fuel ⟨ip, k, out⟩ = (out', some n) ∧
    Agree out' src n := by
  induction hc generalizing ip fuel out with
  | done =>
    obtain ⟨fuel, rfl⟩ : ∃ f, fuel = f + 1 := ⟨fuel - 1, by omega⟩
    refine ⟨out, ?_, hout⟩
    unfold decLoop
    rw [if_neg (by simpa using Nat.le_of_eq hend)]
  | @last k hk =>
    obtain ⟨fuel, rfl⟩ : ∃ f, fuel = f + 1 := ⟨fuel - 1, by omega⟩
    have hl : iend = ip + 1 + (lenBytes (n - k)).length + (n - k) := by
      simp only [lastBytes, List.length_append, List.length_singleton, length_slice] at hend; omega
    obtain ⟨out', token, ho, -, hd⟩ := decSeq_spec inp iend n (d := ⟨ip, k, out⟩)
      (a := n - k) (c := 0) (by omega) hat (by simp only; omega) (by simp only; omega) hout
    simp only [show k + (n - k) = n by omega] at ho hd
    refine ⟨out', ?_, ho⟩
    unfold decLoop
    rw [if_pos (by simp only; omega), hd, if_pos (by omega)]
  | @seq k ip₁ mlen off bs hk h1 hle hoff h4 hn hm hrest ih =>
    obtain ⟨fuel, rfl⟩ : ∃ f, fuel = f + 1 := ⟨fuel - 1, by omega⟩
    obtain ⟨hseq, hbs⟩ := at_append.mp hat
    have hsplit := hseq
    unfold seqBytes at hsplit
    rw [List.append_assoc] at hsplit
    obtain ⟨hlit, hmat⟩ := at_append.mp hsplit
    have hl : (seqBytes src k ip₁ mlen off).length =
        1 + (lenBytes (ip₁ - k)).length + (ip₁ - k) + 2 + (lenBytes (mlen - 4)).length := by
      simp only [seqBytes, List.length_append, length_slice, List.length_cons, List.length_nil]
    have hlen : ([UInt8.ofNat (nibble (ip₁ - k) * 16 + nibble (mlen - 4))] ++ lenBytes (ip₁ - k) ++
        slice src k (ip₁ - k)).length = 1 + (lenBytes (ip₁ - k)).length + (ip₁ - k) := by
      simp only [List.length_append, List.length_singleton, length_slice]
    rw [List.length_append] at hend hf
    obtain ⟨out₁, token, ho, ht, hd⟩ := decSeq_spec inp iend n (d := ⟨ip, k, out⟩)
      (a := ip₁ - k) (nibble_lt _) hlit (by simp only; omega) (by simp only; omega) hout
    simp only [show k + (ip₁ - k) = ip₁ by omega] at ho hd
    rw [hlen] at hmat
    have hgo := decMatch_spec inp iend n
      (d := ⟨ip + 1 + (lenBytes (ip₁ - k)).length + (ip₁ - k), ip₁, out₁⟩) ht h4 h1 hoff hle
      (by simpa only [Nat.add_assoc] using hmat) (by simp only; omega) hn
    obtain ⟨out', hout', hag⟩ : ∃ out', decLoop inp iend n fuel
        ⟨ip + (seqBytes src k ip₁ mlen off).length, ip₁ + mlen, copyMatch out₁ ip₁ off mlen⟩ =
          (out', some n) ∧
        Agree out' src n := ih hbs (by omega) (by omega) (copyMatch_agree ho h1 hle hm)
    refine ⟨out', ?_, hag⟩
    unfold decLoop
    have hip : ip + (seqBytes src k ip₁ mlen off).length =
        ip + 1 + (lenBytes (ip₁ - k)).length + (ip₁ - k) + 2 + (lenBytes (mlen - 4)).length := by
      omega
    rw [if_pos (by simp only; omega), hd, if_neg (by omega), hgo, ← hout', hip]

/-! The decoder writes inside its destination, whatever it is given. -/

theorem copyMatch_outside {out : Buf} {op off len i : Nat} (h : op + len ≤ i) :
    copyMatch out op off len i = out i := by
  induction len with
  | zero => rfl
  | succ k ih =>
    unfold copyMatch
    rw [Function.update_of_ne (by omega)]
    exact ih (by omega)

def Round.out : Round → Buf
  | .stop out _ => out
  | .go d => d.out

theorem decMatch_outside {token i : Nat} {d : Dec} (h : oend ≤ i) :
    (decMatch inp iend oend token d).out i = d.out i := by
  unfold decMatch
  split
  · rfl
  · simp only
    split
    · rfl
    · split
      · rfl
      · split
        · rfl
        · exact copyMatch_outside (by omega)

theorem decSeq_outside (inp : Buf) (iend : Nat) {i : Nat} {d : Dec} (h : oend ≤ i) :
    (decSeq inp iend oend d).out i = d.out i := by
  unfold decSeq
  simp only
  split
  · rfl
  · split
    · rfl
    · have hcopy : ∀ ip lit, ¬ (oend < d.op + lit ∨ iend < ip + lit) →
        d.out.copy inp d.op ip lit i = d.out i :=
        fun ip lit hn => if_neg (by omega)
      rename_i hn
      split
      · exact hcopy _ _ hn
      · exact (decMatch_outside h).trans (hcopy _ _ hn)

theorem decLoop_outside {fuel i : Nat} {d : Dec} (h : oend ≤ i) :
    (decLoop inp iend oend fuel d).1 i = d.out i := by
  induction fuel generalizing d with
  | zero => rfl
  | succ fuel ih =>
    unfold decLoop
    split
    · have hs := decSeq_outside inp iend (d := d) h
      split
      · rename_i hd
        rw [hd] at hs; exact hs
      · rename_i hd
        rw [hd] at hs; exact ih.trans hs
    · rfl

theorem decompress_outside (inp dst : Buf) (m : Nat) {i : Nat} (h : n ≤ i) :
    (cmemLz4Decompress inp dst m n).1 i = dst i :=
  decLoop_outside h

end Decoder

/-- A successful call writes at least the token of a sequence. -/
theorem Coded.length_pos {src : Buf} {n : Nat} {bs : List UInt8} (h : Coded src n 0 bs)
    (hn : 0 < n) : 0 < bs.length := by
  cases h with
  | done => omega
  | last _ => simp [lastBytes]
  | seq => simp [seqBytes]

/-- What `cmem_lz4_compress` writes and returns. -/
theorem compress_coded (src dst : Buf) (n cap : Nat) :
    (∀ i, cap ≤ i → (cmemLz4Compress src dst n cap).1 i = dst i) ∧
    ∀ m, (cmemLz4Compress src dst n cap).2 = some m →
      0 < m ∧ m ≤ cap ∧ ∃ bs, Coded src n 0 bs ∧ bs.length = m ∧
      At (cmemLz4Compress src dst n cap).1 0 bs := by
  unfold cmemLz4Compress
  split
  · exact ⟨fun _ _ => rfl, nofun⟩
  · rename_i hpos
    obtain ⟨bs, hem, hcoded⟩ := encLoop_coded src n cap n (Nat.le_refl 0)
      (Nat.zero_le n) (by omega)
    obtain ⟨hout, hret⟩ := hem dst 0 (Nat.zero_le cap)
    refine ⟨fun i hi => hout i (.inr hi), fun m hm => ?_⟩
    obtain ⟨hlen, hle, hat⟩ := hret m hm
    have hbs := hcoded.length_pos (by omega)
    exact ⟨by omega, hle, bs, hcoded, by omega, hat⟩

theorem decompress_coded {src : Buf} (inp : Buf) {n : Nat} {bs : List UInt8} (hc : Coded src n 0 bs)
    (hat : At inp 0 bs) (out : Buf) :
    ∃ out', cmemLz4Decompress inp out bs.length n = (out', some n) ∧ ∀ i < n, out' i = src i :=
  decode_coded hc hat (Nat.zero_add _).symm (Nat.lt_succ_self _) nofun

/-- `cmem_lz4_compress` writes inside its destination only, and what it returns
decompresses to the source, into any output buffer. -/
theorem lz4_round_trip (src dst : Buf) (n cap : Nat) :
    (∀ i, cap ≤ i → (cmemLz4Compress src dst n cap).1 i = dst i) ∧
    ∀ m, (cmemLz4Compress src dst n cap).2 = some m →
      0 < m ∧ m ≤ cap ∧
        ∀ out, ∃ out', cmemLz4Decompress (cmemLz4Compress src dst n cap).1 out m n =
          (out', some n) ∧ ∀ i < n, out' i = src i := by
  obtain ⟨hout, hret⟩ := compress_coded src dst n cap
  refine ⟨hout, fun m hm => ?_⟩
  obtain ⟨h0, hle, bs, hc, rfl, hat⟩ := hret m hm
  exact ⟨h0, hle, fun out => decompress_coded _ hc hat out⟩

/-- The ten bytes `abababab` `ab`, coded as two literals and an overlapping match. -/
theorem lz4_round_trip_abab :
    let src : Buf := fun i => if i % 2 = 0 then 97 else 98
    (cmemLz4Compress src (fun _ => 0) 10 32).2 = some 5 ∧
      ∃ out', cmemLz4Decompress (cmemLz4Compress src (fun _ => 0) 10 32).1 (fun _ => 0) 5 10 =
        (out', some 10) ∧ ∀ i < 10, out' i = src i := by
  intro src
  have h : (cmemLz4Compress src (fun _ => 0) 10 32).2 = some 5 := by decide +kernel
  exact ⟨h, ((lz4_round_trip src (fun _ => 0) 10 32).2 5 h).2.2 _⟩

end Cmem.L2.Compress
