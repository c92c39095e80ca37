import Cmem.L2Compress.RoundTrip

/-!
# The decoder on arbitrary input

`cmem_lz4_decompress` (src/src/cmem_compress.c:173-235) once more, with every access to a buffer
and every sum of `int`s checked, for any bytes. A length is an `int` to which extension bytes are
added one by one, and nothing bounds their number but the input. `checked_iff`: the decoder is
safe exactly when no sequence that it comes to has a length above `INT_MAX`; then it is the
decoder of `Cmem.L2Compress.Lz4`.
-/
namespace Cmem.L2.Compress

/-- What must not happen. -/
inductive Fault where
  | readSrc
  | readDst
  | writeDst
  | overflow
  | endless
  deriving DecidableEq

/-- `INT_MAX` -/
def intMax : Nat := 2 ^ 31 - 1

namespace Checked

/-- `*ip` -/
def srcAt (inp : Buf) (iend ip : Nat) : Except Fault UInt8 :=
  if ip < iend then .ok (inp ip) else .error .readSrc

/-- `a + b`, as `int`s -/
def addInt (a b : Nat) : Except Fault Nat :=
  if a + b ≤ intMax then .ok (a + b) else .error .overflow

/-- The loop that adds extension bytes, src/src/cmem_compress.c:184-193 and 214-223. -/
def readExt (inp : Buf) (iend : Nat) : Nat → Nat → Nat → Except Fault (Option (Nat × Nat))
  | 0, _, _ => .error .endless
  | fuel + 1, ip, len =>
    if iend ≤ ip then .ok none
    else do
      let ext ← srcAt inp iend ip
      let len ← addInt len ext.toNat
      if ext ≠ 255 then .ok (some (ip + 1, len)) else readExt inp iend fuel (ip + 1) len

def readLen (inp : Buf) (iend nib ip : Nat) : Except Fault (Option (Nat × Nat)) :=
  if nib = 15 then readExt inp iend (iend - ip + 1) ip 15 else .ok (some (ip, nib))

/-- `memcpy(op, ip, n)` -/
def copyLit (inp out : Buf) (iend oend op ip n : Nat) : Except Fault Buf :=
  if iend < ip + n then .error .readSrc
  else if oend < op + n then .error .writeDst
  else .ok (out.copy inp op ip n)

/-- The match copy; a byte is read from those that are written already. -/
def copyMatch (out : Buf) (oend op off : Nat) : Nat → Except Fault Buf
  | 0 => .ok out
  | k + 1 => do
    let out ← copyMatch out oend op off k
    if off = 0 ∨ op + k < off then .error .readDst
    else if oend ≤ op + k then .error .writeDst
    else .ok (Function.update out (op + k) (out (op + k - off)))

/-- The body of the loop behind the literals, src/src/cmem_compress.c:203-231. -/
def decMatch (inp : Buf) (iend oend token : Nat) (d : Dec) : Except Fault Round :=
  if iend < d.ip + 2 then .ok (.stop d.out none)
  else do
    let lo ← srcAt inp iend d.ip
    let hi ← srcAt inp iend (d.ip + 1)
    let off := lo.toNat + hi.toNat * 256
    if off = 0 ∨ d.op < off then .ok (.stop d.out none)
    else
      match ← readLen inp iend (token % 16) (d.ip + 2) with
      | none => .ok (.stop d.out none)
      | some (ip, len) => do
        let len ← addInt len 4
        if oend < d.op + len then .ok (.stop d.out none)
        else do
          let out ← copyMatch d.out oend d.op off len
          .ok (.go ⟨ip, d.op + len, out⟩)

/-- The body of the loop, src/src/cmem_compress.c:181-231. -/
def decSeq (inp : Buf) (iend oend : Nat) (d : Dec) : Except Fault Round := do
  let token ← srcAt inp iend d.ip
  match ← readLen inp iend (token.toNat / 16) (d.ip + 1) with
  | none => .ok (.stop d.out none)
  | some (ip, lit) =>
    if oend < d.op + lit ∨ iend < ip + lit then .ok (.stop d.out none)
    else do
      let out ← copyLit inp d.out iend oend d.op ip lit
      let d : Dec := ⟨ip + lit, d.op + lit, out⟩
      if iend ≤ d.ip then .ok (.stop d.out (some d.op)) else decMatch inp iend oend token.toNat d

def decLoop (inp : Buf) (iend oend : Nat) : Nat → Dec → Except Fault (Buf × Option Nat)
  | 0, _ => .error .endless
  | fuel + 1, d =>
    if d.ip < iend then do
      match ← decSeq inp iend oend d with
      | .stop out r => .ok (out, r)
      | .go d => decLoop inp iend oend fuel d
    else .ok (d.out, some d.op)

/-- mirrors `cmem_lz4_decompress`, src/src/cmem_compress.c:173-235 -/
def cmemLz4Decompress (src dst : Buf) (srcSize dstSize : Nat) : Except Fault (Buf × Option Nat) :=
  decLoop src srcSize dstSize (srcSize + 1) ⟨0, 0, dst⟩

end Checked

/-! ## The sequences of a block -/

/-- The sum of the extension bytes from `ip` on. -/
def extSum (inp : Buf) : Nat → Nat → Nat
  | 0, _ => 0
  | left + 1, ip => (inp ip).toNat + if inp ip ≠ 255 then 0 else extSum inp left (ip + 1)

/-- What is summed up for a length, whether or not its last byte is there. -/
def lenSum (inp : Buf) (iend nib ip : Nat) : Nat :=
  if nib = 15 then 15 + extSum inp (iend - ip) ip else nib

/-- The distance at `ip`. -/
def offsetAt (inp : Buf) (ip : Nat) : Nat := (inp ip).toNat + (inp (ip + 1)).toNat * 256

/-- Behind the literals: a match begins at `ip` with `op` bytes in front of it. -/
def MatchAt (inp : Buf) (iend ip op : Nat) : Prop :=
  ip + 2 ≤ iend ∧ 0 < offsetAt inp ip ∧ offsetAt inp ip ≤ op

/-- A sequence begins at `ip` when `op` bytes are produced: at the beginning, and behind a sequence
that is well formed and has room. -/
inductive Starts (inp : Buf) (iend oend : Nat) : Nat → Nat → Prop where
  | first : Starts inp iend oend 0 0
  | next {ip op p lit q len : Nat} (h : Starts inp iend oend ip op) (hip : ip < iend)
      (hlit : readLen inp iend ((inp ip).toNat / 16) (ip + 1) = some (p, lit))
      (hroom : op + lit ≤ oend) (hm : MatchAt inp iend (p + lit) (op + lit))
      (hlen : readLen inp iend ((inp ip).toNat % 16) (p + lit + 2) = some (q, len))
      (hroom' : op + lit + (len + 4) ≤ oend) : Starts inp iend oend q (op + lit + (len + 4))

/-- The lengths of the sequence at `ip` are `int`s. -/
def LengthsFit (inp : Buf) (iend oend ip op : Nat) : Prop :=
  lenSum inp iend ((inp ip).toNat / 16) (ip + 1) ≤ intMax ∧
    ∀ p lit, readLen inp iend ((inp ip).toNat / 16) (ip + 1) = some (p, lit) → op + lit ≤ oend →
      MatchAt inp iend (p + lit) (op + lit) →
        lenSum inp iend ((inp ip).toNat % 16) (p + lit + 2) ≤ intMax ∧
          ∀ q len, readLen inp iend ((inp ip).toNat % 16) (p + lit + 2) = some (q, len) →
          len + 4 ≤ intMax

section Safe
variable {inp out dst : Buf} {iend oend ip op n : Nat} {d : Dec}

theorem srcAt_ok (h : ip < iend) : Checked.srcAt inp iend ip = .ok (inp ip) := if_pos h

/-- The loop of the extension bytes overflows exactly when their sum is too large. -/
theorem readExt_checked {fuel len : Nat} (hf : iend - ip < fuel) (hlen : len ≤ intMax) :
    Checked.readExt inp iend fuel ip len =
      if len + extSum inp (iend - ip) ip ≤ intMax then .ok (readExt inp (iend - ip) ip len)
      else .error .overflow := by
  induction fuel generalizing ip len with
  | zero => omega
  | succ fuel ih =>
    rw [Checked.readExt]
    by_cases hend : iend ≤ ip
    · rw [if_pos hend, Nat.sub_eq_zero_of_le hend]
      exact (if_pos hlen).symm
    · rw [if_neg hend, srcAt_ok (by omega), show iend - ip = iend - (ip + 1) + 1 by omega,
        extSum, readExt]
      show (Checked.addInt len (inp ip).toNat >>= _) = _
      rw [Checked.addInt]
      by_cases hb : inp ip = 255
      · -- one more turn
        have h255 : (inp ip).toNat = 255 := by rw [hb]; rfl
        rw [if_neg (not_not_intro hb), if_neg (not_not_intro hb), h255]
        by_cases hsum : len + 255 ≤ intMax
        · rw [if_pos hsum]
          show (if inp ip ≠ 255 then _ else _) = _
          rw [if_neg (not_not_intro hb), ih (by omega) hsum, Nat.add_assoc]
        · rw [if_neg hsum, if_neg (by omega)]
          rfl
      · rw [if_pos hb, if_pos hb]
        show _ = if len + (inp ip).toNat ≤ intMax then _ else _
        by_cases hsum : len + (inp ip).toNat ≤ intMax
        · rw [if_pos hsum, if_pos hsum]
          exact if_pos hb
        · rw [if_neg hsum, if_neg hsum]
          rfl

theorem readLen_checked {nib : Nat} (hn : nib ≤ 15) :
    Checked.readLen inp iend nib ip =
      if lenSum inp iend nib ip ≤ intMax then .ok (readLen inp iend nib ip)
      else .error .overflow := by
  unfold Checked.readLen lenSum readLen
  by_cases h : nib = 15
  · rw [if_pos h, if_pos h, if_pos h, readExt_checked (Nat.lt_succ_self _) (by decide)]
  · rw [if_neg h, if_neg h, if_neg h, if_pos (Nat.le_trans hn (by decide))]

theorem copyMatch_checked {off : Nat} (h0 : 0 < off) (hoff : off ≤ op) (hroom : op + n ≤ oend) :
    Checked.copyMatch out oend op off n = .ok (copyMatch out op off n) := by
  induction n with
  | zero => rfl
  | succ n ih =>
    rw [Checked.copyMatch, ih (by omega)]
    show (if off = 0 ∨ op + n < off then _ else _) = _
    rw [if_neg (by omega), if_neg (by omega)]
    rfl

/-- The match part of a sequence, when its lengths are `int`s and when they are not. -/
theorem decMatch_checked (inp : Buf) (iend oend token : Nat) (d : Dec) :
    ((MatchAt inp iend d.ip d.op → lenSum inp iend (token % 16) (d.ip + 2) ≤ intMax ∧
        ∀ q len, readLen inp iend (token % 16) (d.ip + 2) = some (q, len) → len + 4 ≤ intMax) →
      Checked.decMatch inp iend oend token d = .ok (decMatch inp iend oend token d)) ∧
    (¬(MatchAt inp iend d.ip d.op → lenSum inp iend (token % 16) (d.ip + 2) ≤ intMax ∧
        ∀ q len, readLen inp iend (token % 16) (d.ip + 2) = some (q, len) → len + 4 ≤ intMax) →
      Checked.decMatch inp iend oend token d = .error .overflow) := by
  unfold Checked.decMatch decMatch
  by_cases h2 : iend < d.ip + 2
  · have hno : ¬MatchAt inp iend d.ip d.op := fun h => by
      have := h.1
      omega
    rw [if_pos h2, if_pos h2]
    exact ⟨fun _ => rfl, fun h => absurd (fun hm => absurd hm hno) h⟩
  rw [if_neg h2, if_neg h2, srcAt_ok (by omega), srcAt_ok (by omega)]
  dsimp only
  show (_ → (if offsetAt inp d.ip = 0 ∨ d.op < offsetAt inp d.ip then _ else _) =
    Except.ok (if offsetAt inp d.ip = 0 ∨ d.op < offsetAt inp d.ip then _ else _)) ∧
    (_ → (if offsetAt inp d.ip = 0 ∨ d.op < offsetAt inp d.ip then _ else _) = _)
  by_cases hoff : offsetAt inp d.ip = 0 ∨ d.op < offsetAt inp d.ip
  · have hno : ¬MatchAt inp iend d.ip d.op := fun h => by
      have := h.2
      omega
    rw [if_pos hoff, if_pos hoff]
    exact ⟨fun _ => rfl, fun h => absurd (fun hm => absurd hm hno) h⟩
  have hm : MatchAt inp iend d.ip d.op := ⟨by omega, by omega, by omega⟩
  rw [if_neg hoff, if_neg hoff, readLen_checked (by omega), forall_prop_of_true hm]
  by_cases hsum : lenSum inp iend (token % 16) (d.ip + 2) ≤ intMax
  · rw [if_pos hsum, and_iff_right hsum]
    cases hr : readLen inp iend (token % 16) (d.ip + 2) with
    | none => exact ⟨fun _ => rfl, fun h => absurd nofun h⟩
    | some r =>
      obtain ⟨q, len⟩ := r
      show (_ → (Checked.addInt len 4 >>= _) = _) ∧ (_ → (Checked.addInt len 4 >>= _) = _)
      rw [Checked.addInt]
      by_cases h4 : len + 4 ≤ intMax
      · rw [if_pos h4]
        refine ⟨fun _ => ?_, fun h => absurd (fun q' len' he => ?_) h⟩
        · show (if oend < d.op + (len + 4) then _ else _) =
            Except.ok (if oend < d.op + (len + 4) then _ else _)
          by_cases hroom : oend < d.op + (len + 4)
          · rw [if_pos hroom, if_pos hroom]
          · rw [if_neg hroom, if_neg hroom]
            show (Checked.copyMatch d.out oend d.op (offsetAt inp d.ip) (len + 4) >>= _) = _
            rw [copyMatch_checked hm.2.1 hm.2.2 (by omega)]
            rfl
        · obtain ⟨rfl, rfl⟩ := Prod.mk.inj (Option.some.inj he)
          exact h4
      · rw [if_neg h4]
        exact ⟨fun h => absurd (h q len rfl) h4, fun _ => rfl⟩
  · rw [if_neg hsum]
    exact ⟨fun h => absurd h.1 hsum, fun _ => rfl⟩

/-- One sequence, when its lengths are `int`s and when they are not. -/
theorem decSeq_checked (inp : Buf) (oend : Nat) (hip : d.ip < iend) :
    (LengthsFit inp iend oend d.ip d.op →
      Checked.decSeq inp iend oend d = .ok (decSeq inp iend oend d)) ∧
    (¬LengthsFit inp iend oend d.ip d.op → Checked.decSeq inp iend oend d = .error .overflow) := by
  have hnib : (inp d.ip).toNat / 16 ≤ 15 := by
    have := (inp d.ip).toNat_lt
    omega
  unfold Checked.decSeq decSeq LengthsFit
  dsimp only
  rw [srcAt_ok hip]
  show (_ → (Checked.readLen inp iend ((inp d.ip).toNat / 16) (d.ip + 1) >>= _) = _) ∧
    (_ → (Checked.readLen inp iend ((inp d.ip).toNat / 16) (d.ip + 1) >>= _) = _)
  rw [readLen_checked hnib]
  by_cases hsum : lenSum inp iend ((inp d.ip).toNat / 16) (d.ip + 1) ≤ intMax
  · rw [if_pos hsum, and_iff_right hsum]
    cases hr : readLen inp iend ((inp d.ip).toNat / 16) (d.ip + 1) with
    | none => exact ⟨fun _ => rfl, fun h => absurd nofun h⟩
    | some r =>
      obtain ⟨p, lit⟩ := r
      show (_ → (if oend < d.op + lit ∨ iend < p + lit then _ else _) =
        Except.ok (if oend < d.op + lit ∨ iend < p + lit then _ else _)) ∧
        (_ → (if oend < d.op + lit ∨ iend < p + lit then _ else _) = _)
      by_cases hroom : oend < d.op + lit ∨ iend < p + lit
      · rw [if_pos hroom, if_pos hroom]
        refine ⟨fun _ => rfl, fun h => absurd (fun p' lit' he ho hm => ?_) h⟩
        obtain ⟨rfl, rfl⟩ := Prod.mk.inj (Option.some.inj he)
        have := hm.1
        omega
      · have hcopy :
          Checked.copyLit inp d.out iend oend d.op p lit = .ok (d.out.copy inp d.op p lit) := by
          rw [Checked.copyLit, if_neg (by omega), if_neg (by omega)]
        rw [if_neg hroom, if_neg hroom, hcopy]
        show (_ → (if iend ≤ p + lit then _ else _) = Except.ok (if iend ≤ p + lit then _ else _)) ∧
          (_ → (if iend ≤ p + lit then _ else _) = _)
        by_cases hlast : iend ≤ p + lit
        · rw [if_pos hlast, if_pos hlast]
          refine ⟨fun _ => rfl, fun h => absurd (fun p' lit' he ho hm => ?_) h⟩
          obtain ⟨rfl, rfl⟩ := Prod.mk.inj (Option.some.inj he)
          have := hm.1
          omega
        · rw [if_neg hlast, if_neg hlast]
          have hm := decMatch_checked inp iend oend (inp d.ip).toNat
            ⟨p + lit, d.op + lit, d.out.copy inp d.op p lit⟩
          refine ⟨fun h => hm.1 fun hat => h p lit rfl (by omega) hat,
            fun h => hm.2 fun hat => h ?_⟩
          intro p' lit' he ho
          obtain ⟨rfl, rfl⟩ := Prod.mk.inj (Option.some.inj he)
          exact hat
  · rw [if_neg hsum]
    exact ⟨fun h => absurd h.1 hsum, fun _ => rfl⟩

theorem readExt_le {left len q v : Nat} (h : readExt inp left ip len = some (q, v)) : ip < q := by
  induction left generalizing ip len with
  | zero => cases h
  | succ left ih =>
    unfold readExt at h
    split at h
    · obtain ⟨rfl, -⟩ := Prod.mk.inj (Option.some.inj h)
      exact Nat.lt_succ_self ip
    · exact Nat.lt_of_succ_lt (ih h)

theorem readLen_le {nib q v : Nat} (h : readLen inp iend nib ip = some (q, v)) : ip ≤ q := by
  unfold readLen at h
  split at h
  · exact Nat.le_of_lt (readExt_le h)
  · obtain ⟨rfl, -⟩ := Prod.mk.inj (Option.some.inj h)
    exact Nat.le_refl ip

theorem readExt_sum {left len q v : Nat} (h : readExt inp left ip len = some (q, v)) :
    v = len + extSum inp left ip := by
  induction left generalizing ip len with
  | zero => cases h
  | succ left ih =>
    unfold readExt at h
    unfold extSum
    split at h
    next hb =>
      obtain ⟨-, rfl⟩ := Prod.mk.inj (Option.some.inj h)
      rw [if_pos hb, Nat.add_zero]
    next hb =>
      have h255 : (inp ip).toNat = 255 := by rw [not_not.mp hb]; rfl
      rw [if_neg hb, ih h, h255, Nat.add_assoc]

theorem readLen_le_lenSum {nib q v : Nat} (h : readLen inp iend nib ip = some (q, v)) :
    v ≤ lenSum inp iend nib ip := by
  unfold readLen at h
  unfold lenSum
  split at h
  next hn =>
    rw [if_pos hn]
    exact Nat.le_of_eq (readExt_sum h)
  next hn =>
    obtain ⟨-, rfl⟩ := Prod.mk.inj (Option.some.inj h)
    exact Nat.le_of_eq (if_neg hn).symm

/-- What a sequence comes to: the next one, or an end inside the destination. -/
theorem decSeq_cases (hip : d.ip < iend) (hs : Starts inp iend oend d.ip d.op) :
    (∃ out r, decSeq inp iend oend d = .stop out r ∧ ∀ n, r = some n → n ≤ oend) ∨
    ∃ d', decSeq inp iend oend d = .go d' ∧ Starts inp iend oend d'.ip d'.op ∧ d.ip < d'.ip ∧
    d'.op ≤ oend := by
  unfold decSeq
  dsimp only
  cases hlit : readLen inp iend ((inp d.ip).toNat / 16) (d.ip + 1) with
  | none => exact .inl ⟨_, _, rfl, nofun⟩
  | some r =>
    obtain ⟨p, lit⟩ := r
    dsimp only
    have hp := readLen_le hlit
    by_cases hroom : oend < d.op + lit ∨ iend < p + lit
    · rw [if_pos hroom]
      exact .inl ⟨_, _, rfl, nofun⟩
    rw [if_neg hroom]
    by_cases hlast : iend ≤ p + lit
    · rw [if_pos hlast]
      refine .inl ⟨_, _, rfl, fun n hn => ?_⟩
      obtain rfl := Option.some.inj hn
      omega
    rw [if_neg hlast]
    unfold decMatch
    dsimp only
    by_cases h2 : iend < p + lit + 2
    · rw [if_pos h2]
      exact .inl ⟨_, _, rfl, nofun⟩
    rw [if_neg h2]
    by_cases hoff : (inp (p + lit)).toNat + (inp (p + lit + 1)).toNat * 256 = 0 ∨
        d.op + lit < (inp (p + lit)).toNat + (inp (p + lit + 1)).toNat * 256
    · rw [if_pos hoff]
      exact .inl ⟨_, _, rfl, nofun⟩
    rw [if_neg hoff]
    cases hlen : readLen inp iend ((inp d.ip).toNat % 16) (p + lit + 2) with
    | none => exact .inl ⟨_, _, rfl, nofun⟩
    | some r =>
      obtain ⟨q, len⟩ := r
      dsimp only
      have hq := readLen_le hlen
      by_cases hroom' : oend < d.op + lit + (len + 4)
      · rw [if_pos hroom']
        exact .inl ⟨_, _, rfl, nofun⟩
      · rw [if_neg hroom']
        have hm : MatchAt inp iend (p + lit) (d.op + lit) := by
          unfold MatchAt offsetAt
          omega
        refine .inr ⟨_, rfl, hs.next hip hlit (by omega) hm hlen (by omega), ?_,
          by dsimp only; omega⟩
        dsimp only
        omega

/-- A sequence that has a next one leads to it. -/
theorem decSeq_next (out : Buf) {p lit q len : Nat}
    (hlit : readLen inp iend ((inp ip).toNat / 16) (ip + 1) = some (p, lit))
    (hroom : op + lit ≤ oend) (hm : MatchAt inp iend (p + lit) (op + lit))
    (hlen : readLen inp iend ((inp ip).toNat % 16) (p + lit + 2) = some (q, len))
    (hroom' : op + lit + (len + 4) ≤ oend) :
    ∃ out', decSeq inp iend oend ⟨ip, op, out⟩ = .go ⟨q, op + lit + (len + 4), out'⟩ := by
  obtain ⟨h2, h0, hoff⟩ := hm
  unfold offsetAt at h0 hoff
  unfold decSeq
  dsimp only
  rw [hlit]
  dsimp only
  rw [if_neg (by omega), if_neg (by omega)]
  unfold decMatch
  dsimp only
  rw [if_neg (by omega), if_neg (by omega), hlen]
  dsimp only
  rw [if_neg (by omega)]
  exact ⟨_, rfl⟩

/-- With lengths that are `int`s the checked decoder is the decoder, and ends. -/
theorem loop_ok {fuel : Nat}
    (hfit : ∀ ip op, Starts inp iend oend ip op → ip < iend → LengthsFit inp iend oend ip op)
    (hs : Starts inp iend oend d.ip d.op) (hop : d.op ≤ oend) (hf : iend - d.ip < fuel) : ∃ out r,
    Checked.decLoop inp iend oend fuel d = .ok (out, r) ∧ decLoop inp iend oend fuel d = (out, r) ∧
      ∀ n, r = some n → n ≤ oend := by
  induction fuel generalizing d with
  | zero => omega
  | succ fuel ih =>
    unfold Checked.decLoop decLoop
    by_cases hip : d.ip < iend
    · rw [if_pos hip, if_pos hip, (decSeq_checked inp oend hip).1 (hfit _ _ hs hip)]
      rcases decSeq_cases hip hs with ⟨out, r, he, hr⟩ | ⟨d', he, hs', hlt, hop'⟩
      · rw [he]
        exact ⟨out, r, rfl, rfl, hr⟩
      · rw [he]
        exact ih hs' hop' (by omega)
    · rw [if_neg hip, if_neg hip]
      refine ⟨_, _, rfl, rfl, fun n hn => ?_⟩
      obtain rfl := Option.some.inj hn
      exact hop

/-- The checked decoder comes to every sequence of the block unless it overflows before. -/
theorem loop_reaches (dst : Buf) (h : Starts inp iend oend ip op) :
    Checked.cmemLz4Decompress inp dst iend oend = .error .overflow ∨
      ∃ fuel out, iend - ip < fuel ∧
        Checked.cmemLz4Decompress inp dst iend oend =
          Checked.decLoop inp iend oend fuel ⟨ip, op, out⟩ := by
  induction h with
  | first => exact .inr ⟨iend + 1, dst, Nat.lt_succ_self _, rfl⟩
  | @next ip op p lit q len h hip hlit hroom hm hlen hroom' ih =>
    rcases ih with ih | ⟨fuel, out, hf, ih⟩
    · exact .inl ih
    obtain ⟨fuel, rfl⟩ : ∃ k, fuel = k + 1 := ⟨fuel - 1, by omega⟩
    rw [ih, Checked.decLoop, if_pos hip]
    have hchecked := decSeq_checked (d := ⟨ip, op, out⟩) inp oend hip
    by_cases hfit : LengthsFit inp iend oend ip op
    · obtain ⟨out', he⟩ := decSeq_next out hlit hroom hm hlen hroom'
      rw [hchecked.1 hfit, he]
      have hp := readLen_le hlit
      have hq := readLen_le hlen
      exact .inr ⟨fuel, out', by omega, rfl⟩
    · rw [hchecked.2 hfit]
      exact .inl rfl

/-- **The decoder on arbitrary input** ends without a fault, with -1 or a number of bytes that the
destination has, and writes nothing behind it, exactly when the lengths it comes to are `int`s. -/
theorem checked_iff (src dst : Buf) (srcSize dstSize : Nat) :
    (∃ out r, Checked.cmemLz4Decompress src dst srcSize dstSize = .ok (out, r) ∧
      (∀ n, r = some n → n ≤ dstSize) ∧ ∀ i, dstSize ≤ i → out i = dst i) ↔
    ∀ ip op, Starts src srcSize dstSize ip op → ip < srcSize →
    LengthsFit src srcSize dstSize ip op := by
  constructor
  · rintro ⟨out, r, hok, -⟩ ip op hs hip
    by_contra hfit
    rcases loop_reaches dst hs with he | ⟨fuel, out', hf, he⟩
    · rw [hok] at he
      cases he
    · obtain ⟨fuel, rfl⟩ : ∃ k, fuel = k + 1 := ⟨fuel - 1, by omega⟩
      rw [hok, Checked.decLoop, if_pos hip,
        (decSeq_checked (d := ⟨ip, op, out'⟩) src dstSize hip).2 hfit] at he
      cases he
  · intro hfit
    obtain ⟨out, r, hok, he, hr⟩ :=
      loop_ok (d := ⟨0, 0, dst⟩) hfit .first (Nat.zero_le _) (Nat.lt_succ_self srcSize)
    refine ⟨out, r, hok, hr, fun i hi => ?_⟩
    have hout := decompress_outside src dst srcSize hi
    rw [cmemLz4Decompress, he] at hout
    exact hout

theorem extSum_le (inp : Buf) (left ip : Nat) : extSum inp left ip ≤ 255 * left := by
  induction left generalizing ip with
  | zero => exact Nat.le_refl 0
  | succ left ih =>
    have hb := (inp ip).toNat_lt
    have := ih (ip + 1)
    unfold extSum
    split <;> omega

/-- No length of a block of less than 8 MiB and some 30 KiB is too large. -/
theorem lengthsFit_of_small {inp : Buf} {iend oend ip op : Nat} (h : iend ≤ 8421505) :
    LengthsFit inp iend oend ip op := by
  have hsum : ∀ nib p, nib ≤ 15 → 0 < p → lenSum inp iend nib p + 4 ≤ intMax := by
    intro nib p hn hp
    have := extSum_le inp (iend - p) p
    unfold lenSum intMax
    split <;> omega
  have hnib : (inp ip).toNat / 16 ≤ 15 := by
    have := (inp ip).toNat_lt
    omega
  refine ⟨by have := hsum _ (ip + 1) hnib (by omega); omega, fun p lit hr _ _ => ?_⟩
  have hlit := hsum ((inp ip).toNat % 16) (p + lit + 2) (by omega) (by omega)
  refine ⟨by omega, fun q len hq => ?_⟩
  have hle := readLen_le_lenSum hq
  omega

/-- `INT_MAX` is exceeded by a literal length of 8421505 extension bytes. -/
theorem long_length_overflows :
    Checked.cmemLz4Decompress (fun i => if i = 0 then 0xF0 else 0xFF) (fun _ => 0) 8421506 100 =
      .error .overflow := by
  have hconst :
    ∀ left ip, 0 < ip → extSum (fun i => if i = 0 then 0xF0 else 0xFF) left ip = 255 * left := by
    intro left
    induction left with
    | zero => exact fun _ _ => rfl
    | succ left ih =>
      intro ip hip
      have hb : (if ip = 0 then (0xF0 : UInt8) else 0xFF) = 255 := if_neg (by omega)
      unfold extSum
      rw [hb, ih (ip + 1) (Nat.succ_pos ip), if_neg (by decide)]
      show 255 + 255 * left = _
      omega
  unfold Checked.cmemLz4Decompress
  rw [Checked.decLoop, if_pos (by decide),
    (decSeq_checked (d := ⟨0, 0, fun _ => 0⟩) _ _ (by decide)).2 fun h => ?_]
  · rfl
  · have hsum := h.1
    unfold lenSum at hsum
    rw [if_pos (by decide), hconst _ _ (by decide)] at hsum
    exact absurd hsum (by decide)

end Safe

end Cmem.L2.Compress
