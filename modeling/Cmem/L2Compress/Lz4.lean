import Mathlib

/-!
# The LZ4 block codec

`cmem_lz4_compress` and `cmem_lz4_decompress`, src/src/cmem_compress.c:41-235. A
buffer is a function from offsets to bytes, so that a write outside its bounds
would be seen; pointers are offsets into their buffer. A failed call (`-1`)
returns `none` together with the buffer as it left it. Lengths are natural numbers:
those the encoder writes are `int`s, and what the decoder does with others is in
`Cmem.L2Compress.Safe`.

Loops whose number of rounds is known are recursions on that number; the two main
loops carry fuel, and both advance with every round.
-/
namespace Cmem.L2.Compress

abbrev Buf := Nat → UInt8

/-- `memcpy(buf + op, src + pos, n)` between different buffers. -/
def Buf.copy (buf src : Buf) (op pos n : Nat) : Buf := fun i =>
  if op ≤ i ∧ i < op + n then src (pos + (i - op)) else buf i

/-- The bytes `[pos, pos + n)` of a buffer. -/
def slice (src : Buf) (pos n : Nat) : List UInt8 := List.ofFn fun i : Fin n => src (pos + i)

/-! ## The encoder -/

/-- A piece of the encoder: it is given the buffer and `op` and returns the buffer
and, unless it fails, the new `op`. -/
abbrev Writer := Buf → Nat → Buf × Option Nat

def Writer.skip : Writer := fun buf op => (buf, some op)

def Writer.andThen (w w' : Writer) : Writer := fun buf op =>
  match w buf op with
  | (buf, none) => (buf, none)
  | (buf, some op) => w' buf op

/-- `if (op + 1 > oend) return -1; *op++ = b;` -/
def putByte (oend : Nat) (b : UInt8) : Writer := fun buf op =>
  if oend < op + 1 then (buf, none) else (Function.update buf op b, some (op + 1))

/-- The loop of `cmem_lz4_write_len`, which runs `len / 255` times. -/
def writeExt (oend : Nat) : Nat → Nat → Writer
  | 0, len => putByte oend (UInt8.ofNat len)
  | k + 1, len => (putByte oend 255).andThen (writeExt oend k (len - 255))

/-- mirrors `cmem_lz4_write_len`, src/src/cmem_compress.c:41-57 -/
def cmemLz4WriteLen (oend len : Nat) : Writer := writeExt oend (len / 255) len

/-- `if (op + n > oend) return -1; memcpy(op, src + pos, n); op += n;` -/
def putRun (oend : Nat) (src : Buf) (pos n : Nat) : Writer := fun buf op =>
  if oend < op + n then (buf, none) else (buf.copy src op pos n, some (op + n))

/-- `if (op + 2 > oend) return -1;` and the two bytes of the offset. -/
def putOffset (oend off : Nat) : Writer := fun buf op =>
  if oend < op + 2 then (buf, none)
  else (Function.update (Function.update buf op (UInt8.ofNat (off % 256))) (op + 1)
    (UInt8.ofNat (off / 256)), some (op + 2))

/-- The value of a token nibble. -/
def nibble (v : Nat) : Nat := if v < 15 then v else 15

/-- The extension bytes of a length, if its nibble is 15. -/
def putExt (oend v : Nat) : Writer := if 15 ≤ v then cmemLz4WriteLen oend (v - 15) else .skip

/-- One sequence: the literals `[anchor, ip)` and a match of `mlen` bytes at
distance `off`, src/src/cmem_compress.c:107-143. -/
def putSeq (oend : Nat) (src : Buf) (anchor ip mlen off : Nat) : Writer :=
  ((((putByte oend (UInt8.ofNat (nibble (ip - anchor) * 16 + nibble (mlen - 4)))).andThen
    (putExt oend (ip - anchor))).andThen
    (if 0 < ip - anchor then putRun oend src anchor (ip - anchor) else .skip)).andThen
    (putOffset oend off)).andThen
    (putExt oend (mlen - 4))

/-- The trailing literals, src/src/cmem_compress.c:149-169. -/
def putLast (oend : Nat) (src : Buf) (anchor iend : Nat) : Writer :=
  if anchor < iend then
    ((putByte oend (UInt8.ofNat (nibble (iend - anchor) * 16))).andThen
      (putExt oend (iend - anchor))).andThen
      (putRun oend src anchor (iend - anchor))
  else .skip

/-- The comparison loop: how far `src[cand..]` and `src[ip..]` agree, at most
`left` more bytes. -/
def matchLen (src : Buf) (cand ip : Nat) : Nat → Nat → Nat
  | 0, len => len
  | left + 1, len =>
    if src (cand + len) = src (ip + len) then matchLen src cand ip left (len + 1) else len

/-- The probe loop over the offsets, src/src/cmem_compress.c:87-100. -/
def bestMatch (src : Buf) (ip probe : Nat) : Nat → Nat → Nat × Nat → Nat × Nat
  | 0, _, best => best
  | left + 1, off, best =>
    let len := matchLen src (ip - off) ip probe 0
    if best.1 < len then
      if len = probe then (len, off) else bestMatch src ip probe left (off + 1) (len, off)
    else bestMatch src ip probe left (off + 1) best

/-- `best_len` and `best_off` at `ip`, src/src/cmem_compress.c:73-101. -/
def findMatch (src : Buf) (iend ip : Nat) : Nat × Nat :=
  if 0 < ip then bestMatch src ip (min (iend - ip) 4096) (min ip 0xFFFF) 1 (0, 0) else (0, 0)

/-- The main loop, src/src/cmem_compress.c:71-146, and the trailing literals. -/
def encLoop (oend : Nat) (src : Buf) (iend : Nat) : Nat → Nat → Nat → Writer
  | 0, _, anchor => putLast oend src anchor iend
  | fuel + 1, ip, anchor =>
    if ip < iend then
      let best := findMatch src iend ip
      if best.1 < 4 then encLoop oend src iend fuel (ip + 1) anchor
      else (putSeq oend src anchor ip best.1 best.2).andThen
        (encLoop oend src iend fuel (ip + best.1) (ip + best.1))
    else putLast oend src anchor iend

/-- mirrors `cmem_lz4_compress`, src/src/cmem_compress.c:59-171 -/
def cmemLz4Compress (src dst : Buf) (srcSize dstCap : Nat) : Buf × Option Nat :=
  if srcSize = 0 ∨ dstCap = 0 then (dst, none) else encLoop dstCap src srcSize srcSize 0 0 dst 0

/-! ## The decoder -/

/-- The loop that adds extension bytes, on the `left` bytes before `iend`. -/
def readExt (inp : Buf) : Nat → Nat → Nat → Option (Nat × Nat)
  | 0, _, _ => none
  | left + 1, ip, len =>
    if inp ip ≠ 255 then some (ip + 1, len + (inp ip).toNat)
    else readExt inp left (ip + 1) (len + 255)

/-- A length from its nibble on; returns the new `ip` and the length. -/
def readLen (inp : Buf) (iend nib ip : Nat) : Option (Nat × Nat) :=
  if nib = 15 then readExt inp (iend - ip) ip 15 else some (ip, nib)

/-- The match copy, byte by byte: the source may overlap what it writes. -/
def copyMatch (out : Buf) (op off : Nat) : Nat → Buf
  | 0 => out
  | k + 1 =>
    Function.update (copyMatch out op off k) (op + k) (copyMatch out op off k (op + k - off))

structure Dec where
  ip : Nat
  op : Nat
  out : Buf

/-- One sequence ends the call or leads to the next one. -/
inductive Round where
  | stop (out : Buf) (r : Option Nat)
  | go (d : Dec)

/-- The body of the loop behind the literals, src/src/cmem_compress.c:206-231. -/
def decMatch (inp : Buf) (iend oend token : Nat) (d : Dec) : Round :=
  if iend < d.ip + 2 then .stop d.out none
  else
    let off := (inp d.ip).toNat + (inp (d.ip + 1)).toNat * 256
    if off = 0 ∨ d.op < off then .stop d.out none
    else
      match readLen inp iend (token % 16) (d.ip + 2) with
      | none => .stop d.out none
      | some (ip, len) =>
        if oend < d.op + (len + 4) then .stop d.out none
        else .go ⟨ip, d.op + (len + 4), copyMatch d.out d.op off (len + 4)⟩

/-- The body of the loop, src/src/cmem_compress.c:180-232. -/
def decSeq (inp : Buf) (iend oend : Nat) (d : Dec) : Round :=
  let token := (inp d.ip).toNat
  match readLen inp iend (token / 16) (d.ip + 1) with
  | none => .stop d.out none
  | some (ip, lit) =>
    if oend < d.op + lit ∨ iend < ip + lit then .stop d.out none
    else
      let d := ⟨ip + lit, d.op + lit, d.out.copy inp d.op ip lit⟩
      if iend ≤ d.ip then .stop d.out (some d.op) else decMatch inp iend oend token d

def decLoop (inp : Buf) (iend oend : Nat) : Nat → Dec → Buf × Option Nat
  | 0, d => (d.out, none)
  | fuel + 1, d =>
    if d.ip < iend then
      match decSeq inp iend oend d with
      | .stop out r => (out, r)
      | .go d => decLoop inp iend oend fuel d
    else (d.out, some d.op)

/-- mirrors `cmem_lz4_decompress`, src/src/cmem_compress.c:173-235 -/
def cmemLz4Decompress (src dst : Buf) (srcSize dstSize : Nat) : Buf × Option Nat :=
  decLoop src srcSize dstSize (srcSize + 1) ⟨0, 0, dst⟩

end Cmem.L2.Compress
