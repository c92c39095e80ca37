import Cmem.Core.Owners
import Cmem.L2Slab.PerCpu

/-!
# A slot on its way to the next owner

`mp_free` of a slab block, in the branch of the per-CPU list (src/src/cmem_alloc.c:1299-1322),
publishes the slot first; it reads the size and unlinks the header afterwards. Meanwhile another
thread may pop the slot, stamp its header and link it again (src/src/cmem_alloc.c:218-260 and
405-450). This is the model of any number of threads that allocate and free slab blocks of one
class on a pool with THREAD_SAFE and without FAST_PATH, on one entry of the table of per-CPU
lists, which is the system of `L2.PerCpu`. A step is an atomic operation, a locked section, or
an access to a header. A thread cache, the slab pages and the queue of remote frees keep the slots
that are in nobody's hands.

Nothing but `active_bytes` and the active list is read back here, so the other counters are left
out. `live` are the blocks whose `mp_alloc` has returned and whose `mp_free` has not been called.
When all calls have returned the list is that of the live blocks and the counter is their sum,
if no thread touched what a pending `mp_free` was still to read (`Clear`).
-/
namespace Cmem.L3.Handover

open L2

/-! ## State -/

/-- Where a thread is; `size` is the request. -/
inductive Pc where
  | idle
  /-- In `percpu_pop`, for the second time when `last`. -/
  | pop (size : Nat) (last : Bool)
  | missed (size : Nat)
  /-- In `percpu_refill`. -/
  | refill (size : Nat)
  | refilled (size : Nat)
  /-- The other tiers are asked. -/
  | other (size : Nat)
  | stampSize (a size : Nat)
  | stampPrev (a size : Nat)
  | stampNext (a size : Nat)
  | addList (a size : Nat)
  | addBytes (a size : Nat)
  | ret (a size : Nat)
  /-- In `percpu_push`. -/
  | push (a : Nat)
  | readSize (a : Nat)
  | subBytes (a size : Nat)
  | removeList (a : Nat)
  deriving DecidableEq

structure State (T : Type) where
  /-- The entry, and the first word of the slots. -/
  cpu : PerCpu.State T
  /-- `requested_size` of the headers. -/
  req : Nat → Nat
  /-- `prev` and `next` of the headers, and `active_head`. -/
  list : DL Nat
  activeBytes : Nat
  pc : T → Pc
  live : List (Nat × Nat)

/-- mirrors `active_list_add`, src/src/cmem_lifecycle.c:483-491 -/
def activeListAdd (l : DL Nat) (header : Nat) : DL Nat := l.link header 0 l.head

/-- mirrors `active_list_remove`, src/src/cmem_lifecycle.c:498-513 -/
def activeListRemove (l : DL Nat) (header : Nat) : DL Nat :=
  let l := l.unlink header
  { l with prev := Function.update l.prev header 0, next := Function.update l.next header 0 }

/-- `fetch_add` and `fetch_sub` on a `size_t` -/
def fetchAdd (n k : Nat) : Nat := (n + k) % 2 ^ 64
def fetchSub (n k : Nat) : Nat := (n + (2 ^ 64 - k % 2 ^ 64)) % 2 ^ 64

variable {T : Type} [DecidableEq T]

namespace State

def goto (s : State T) (t : T) (p : Pc) : State T := { s with pc := Function.update s.pc t p }

/-! ## Steps -/

/-- Where `t` goes when its part of the list has moved on from `q` to `q'`. -/
def after (p : Pc) (q q' : PerCpu.Pc) : Pc :=
  match p with
  | .pop size last =>
    match q with
    | .popCount a => .stampSize a size
    | _ => if q' = .idle then (if last then .other size else .missed size) else p
  | .refill size => if q' = .idle then .refilled size else p
  -- the slot is published, or kept for the remote queue when the list is full
  | .push a => if q' = .idle then .readSize a else p
  | p => p

/-- A step of `t` inside the list. -/
def inner (s : State T) (t : T) (l : PerCpu.Act T) : State T :=
  { s with cpu := s.cpu.step l }.goto t (after (s.pc t) (s.cpu.pc t) ((s.cpu.step l).pc t))

def tick (s : State T) (t : T) : State T :=
  match s.pc t with
  | .idle | .missed _ | .other _ => s
  | .pop .. | .refill _ | .push _ => s.inner t (.tick t)
  -- mp_alloc_internal
  | .refilled size => { s with cpu := s.cpu.step (.callPop t) }.goto t (.pop size true)
  | .stampSize a size => { s with req := Function.update s.req a size }.goto t (.stampPrev a size)
  | .stampPrev a size =>
    { s with
      list := { s.list with prev := Function.update s.list.prev a 0 } }.goto t (.stampNext a size)
  | .stampNext a size =>
    { s with
      list := { s.list with next := Function.update s.list.next a 0 } }.goto t (.addList a size)
  | .addList a size => { s with list := activeListAdd s.list a }.goto t (.addBytes a size)
  | .addBytes a size => { s with activeBytes := fetchAdd s.activeBytes size }.goto t (.ret a size)
  | .ret a size => { s with live := (a, size) :: s.live }.goto t .idle
  -- mp_free
  | .readSize a => s.goto t (.subBytes a (s.req a))
  | .subBytes a size => { s with activeBytes := fetchSub s.activeBytes size }.goto t (.removeList a)
  | .removeList a => { s with list := activeListRemove s.list a }.goto t .idle

end State

inductive Act (T : Type) where
  | callAlloc (t : T) (size : Nat)
  /-- `mp_alloc` that finds the slot `a` in the cache of the thread. -/
  | callCached (t : T) (a size : Nat)
  | callFree (t : T) (b : Nat × Nat)
  | tick (t : T)
  /-- A compare-exchange that fails although the head matches. -/
  | spurious (t : T)
  /-- `percpu_refill` has taken the slots `l` from their pages. -/
  | refill (t : T) (l : List Nat)
  /-- `percpu_refill` does nothing. -/
  | again (t : T)
  /-- Another tier gives the slot `a`, or none. -/
  | fresh (t : T) (a : Nat)
  | fail (t : T)
  /-- The first word of a header that `t` stamps, which is the link of a free slot. -/
  | word (t : T) (v : Nat)

namespace Pc

/-- The slot that is stamped and not yet linked. -/
def Draft : Pc → Nat → Prop
  | .stampSize a _, x | .stampPrev a _, x | .stampNext a _, x | .addList a _, x => x = a
  | _, _ => False

/-- The slot that is linked by the `mp_alloc` under way. -/
def Done : Pc → Nat → Prop
  | .addBytes a _, x | .ret a _, x => x = a
  | _, _ => False

/-- The slot whose `mp_free` is still to read the size. -/
def Unread : Pc → Nat → Prop
  | .push a, x | .readSize a, x => x = a
  | _, _ => False

/-- The slot whose `mp_free` is still to unlink it. -/
def Leaving : Pc → Nat → Prop
  | .push a, x | .readSize a, x | .subBytes a _, x | .removeList a, x => x = a
  | _, _ => False

end Pc

namespace State

/-- The slot is in a page, a thread cache or a remote queue. -/
def Spare (s : State T) (a : Nat) : Prop :=
  a ≠ 0 ∧ s.cpu.hand a = true ∧ a ∉ s.live.map (·.1) ∧
    ∀ u, ¬(s.pc u).Draft a ∧ ¬(s.pc u).Done a ∧ ¬(s.pc u).Leaving a

def next (s : State T) : Act T → State T
  | .callAlloc t size => { s with cpu := s.cpu.step (.callPop t) }.goto t (.pop size false)
  | .callCached t a size => s.goto t (.stampSize a size)
  | .callFree t b =>
    { s with cpu := s.cpu.step (.callPush t b.1), live := s.live.erase b }.goto t (.push b.1)
  | .tick t => s.tick t
  | .spurious t => s.inner t (.spurious t)
  | .refill t l =>
    match s.pc t with
    | .missed size => { s with cpu := s.cpu.step (.callRefill t l) }.goto t (.refill size)
    | _ => s
  | .again t =>
    match s.pc t with
    | .missed size => s.goto t (.refilled size)
    | _ => s
  | .fresh t a =>
    match s.pc t with
    | .other size => s.goto t (.stampSize a size)
    | _ => s
  | .fail t =>
    match s.pc t with
    | .other _ => s.goto t .idle
    | _ => s
  | .word t v =>
    match s.pc t with
    | .stampSize a _ | .stampPrev a _ | .stampNext a _ | .addList a _ =>
      { s with cpu := s.cpu.step (.write a v) }
    | _ => s

/-- A block that is freed is live, and slots that come from elsewhere are spare. -/
def pre (s : State T) : Act T → Prop
  | .callAlloc t _ => s.pc t = .idle
  | .callCached t a _ => s.pc t = .idle ∧ s.Spare a
  | .callFree t b => s.pc t = .idle ∧ b ∈ s.live
  | .spurious t => (s.cpu.pc t).spurious ≠ s.cpu.pc t
  | .refill _ l => l ≠ [] ∧ l.Nodup ∧ ∀ a ∈ l, s.Spare a
  | .fresh _ a => s.Spare a
  | .tick _ | .again _ | .fail _ | .word .. => True

/-- No block and no slot on the list. -/
def init (next : Nat → Nat) (req : Nat → Nat) (prev link : Nat → Nat) : State T :=
  ⟨.init next, req, ⟨link, prev, 0⟩, 0, fun _ => .idle, []⟩

end State

variable (T) in
def system : LTS (State T) (Act T) :=
  .det (fun s => ∃ next req prev link, s = State.init next req prev link) State.pre State.next

/-- The active list is that of the live blocks, and `active_bytes` their sum. -/
def State.Settled (s : State T) : Prop :=
  (∃ l, s.list.Is l ∧ ∀ a, a ∈ l ↔ a ∈ s.live.map (·.1)) ∧
    s.activeBytes = (s.live.map (·.2)).sum % 2 ^ 64

/-- What is written into the header of a slot is there already, if the `mp_free` of the slot is
still to read it; and a slot is linked after it was unlinked. -/
def State.Harmless (s : State T) : Pc → Prop
  | .stampSize a size => ∀ u, (s.pc u).Unread a → s.req a = size
  | .stampPrev a _ => ∀ u, (s.pc u).Leaving a → s.list.prev a = 0
  | .stampNext a _ => ∀ u, (s.pc u).Leaving a → s.list.next a = 0
  | .addList a _ => ∀ u, ¬(s.pc u).Leaving a
  | _ => True

/-- No header is touched that a pending `mp_free` is still to read, and the pop that takes a head
takes it with the link it read. -/
def Clear (s : State T) : Act T → Prop
  | .tick t => (s.cpu.pc t).Current s.cpu ∧ s.Harmless (s.pc t)
  | _ => True

/-! ## The invariant -/

namespace Pc

/-- A header that is only in the hands of an `mp_alloc`. -/
def Held (p : Pc) (a : Nat) : Prop := p.Draft a ∨ p.Done a

/-- A header that is on the active list without being that of a live block. -/
def Listed (p : Pc) (a : Nat) : Prop := p.Done a ∨ p.Leaving a

/-- The header has its size. -/
def Sized : Pc → Nat × Nat → Prop
  | .stampPrev a size, b | .stampNext a size, b | .addList a size, b | .addBytes a size, b
  | .ret a size, b =>
    b = (a, size)
  | _, _ => False

/-- What `active_bytes` has of a block that is not live. -/
def Owes (req : Nat → Nat) : Pc → Nat × Nat → Prop
  | .ret a size, b | .subBytes a size, b => b = (a, size)
  | .push a, b | .readSize a, b => b = (a, req a)
  | _, _ => False

/-- Not in an operation of the per-CPU list. -/
def Outside : Pc → Prop
  | .pop .. | .refill _ | .push _ => False
  | _ => True

/-- No slot is involved. -/
def Bare : Pc → Prop
  | .idle | .pop .. | .missed _ | .refill _ | .refilled _ | .other _ => True
  | _ => False

/-- The two are the same to the rest of the system. -/
structure Same (req : Nat → Nat) (p p' : Pc) : Prop where
  held : ∀ a, p'.Held a ↔ p.Held a
  listed : ∀ a, p'.Listed a ↔ p.Listed a
  sized : ∀ b, p'.Sized b ↔ p.Sized b
  owes : ∀ b, p'.Owes req b ↔ p.Owes req b

section
variable {p p' : Pc} {req : Nat → Nat} {a size : Nat} {b : Nat × Nat}

theorem Bare.held (h : p.Bare) : ¬p.Held a := by cases p <;> first | exact h.elim | exact nofun

theorem Bare.listed (h : p.Bare) : ¬p.Listed a := by cases p <;> first | exact h.elim | exact nofun

theorem Bare.sized (h : p.Bare) : ¬p.Sized b := by cases p <;> first | exact h.elim | exact nofun

theorem Bare.owes (h : p.Bare) : ¬p.Owes req b := by cases p <;> first | exact h.elim | exact nofun

theorem Same.bare (h : p.Bare) (h' : p'.Bare) : Same req p p' :=
  ⟨fun _ => iff_of_false h'.held h.held, fun _ => iff_of_false h'.listed h.listed,
    fun _ => iff_of_false h'.sized h.sized, fun _ => iff_of_false h'.owes h.owes⟩

theorem Sized.held (h : p.Sized b) : p.Held b.1 := by
  cases p <;> first | exact h.elim | (cases h; first | exact .inl rfl | exact .inr rfl)

theorem Owes.listed (h : p.Owes req b) : p.Listed b.1 := by
  cases p <;> first | exact h.elim | (cases h; first | exact .inl rfl | exact .inr rfl)

theorem Same.refl : Same req p p := ⟨fun _ => .rfl, fun _ => .rfl, fun _ => .rfl, fun _ => .rfl⟩

theorem Same.read : Same req (.push a) (.readSize a) :=
  ⟨fun _ => .rfl, fun _ => .rfl, fun _ => .rfl, fun _ => .rfl⟩

theorem Same.sub : Same req (.readSize a) (.subBytes a (req a)) :=
  ⟨fun _ => .rfl, fun _ => .rfl, fun _ => .rfl, fun _ => .rfl⟩

theorem Same.prev : Same req (.stampPrev a size) (.stampNext a size) :=
  ⟨fun _ => .rfl, fun _ => .rfl, fun _ => .rfl, fun _ => .rfl⟩

theorem Same.next : Same req (.stampNext a size) (.addList a size) :=
  ⟨fun _ => .rfl, fun _ => .rfl, fun _ => .rfl, fun _ => .rfl⟩

end

end Pc

/-- `a` is the slot of a live block. -/
def State.Live (s : State T) (a : Nat) : Prop := a ∈ s.live.map (·.1)

structure Inv (s : State T) : Prop where
  cpu : PerCpu.Inv s.cpu
  sync : ∀ t, (s.pc t).Outside → s.cpu.pc t = .idle
  keys : (s.live.map (·.1)).Nodup
  held : Owners Pc.Held s.pc s.Live
  listed : Owners Pc.Listed s.pc s.Live
  hand : ∀ a, Has Pc.Held s.pc s.Live a → a ≠ 0 ∧ s.cpu.hand a = true
  size : ∀ b, Has Pc.Sized s.pc (· ∈ s.live) b → s.req b.1 = b.2
  list : ∃ l, s.list.Is l ∧ ∀ a, a ∈ l ↔ Has Pc.Listed s.pc s.Live a
  bytes : ∃ c : List (Nat × Nat), c.Nodup ∧ (∀ b, b ∈ c ↔ Has (Pc.Owes s.req) s.pc (· ∈ s.live) b) ∧
    s.activeBytes = (c.map (·.2)).sum % 2 ^ 64

section Steps
variable {s : State T} {t : T} {p : Pc} {c : PerCpu.State T} {a size : Nat}

theorem sync_update {pc : T → Pc} {f f' : T → PerCpu.Pc} (h : ∀ u, (pc u).Outside → f u = .idle)
    (hf : ∀ u, u ≠ t → f' u = f u) (ht : p.Outside → f' t = .idle) (u : T)
    (hu : (Function.update pc t p u).Outside) : f' u = .idle := by
  by_cases e : u = t
  · subst e
    rw [Function.update_self] at hu
    exact ht hu
  · rw [Function.update_of_ne e] at hu
    rw [hf u e]
    exact h u hu

/-- A step that the other threads do not notice. -/
theorem Inv.move {l' : DL Nat} (h : Inv s) (hsame : (s.pc t).Same s.req p) (hcpu : PerCpu.Inv c)
    (hpc : ∀ u, u ≠ t → c.pc u = s.cpu.pc u) (ht : p.Outside → c.pc t = .idle)
    (hhand : ∀ a, Has Pc.Held s.pc s.Live a → c.hand a = true)
    (hl : ∀ l, s.list.Is l → (∀ a, a ∈ l ↔ Has Pc.Listed s.pc s.Live a) → l'.Is l) :
    Inv ({ s with cpu := c, list := l' }.goto t p) where
  cpu := hcpu
  sync := sync_update h.sync hpc ht
  keys := h.keys
  held := h.held.keep (fun a => (hsame.held a).mp) fun _ => id
  listed := h.listed.keep (fun a => (hsame.listed a).mp) fun _ => id
  hand a ha := by
    have ha := (has_keep (hsame.held a)).mp ha
    exact ⟨(h.hand a ha).1, hhand a ha⟩
  size b hb := h.size b ((has_keep (hsame.sized b)).mp hb)
  list := by
    obtain ⟨l, hl1, hl2⟩ := h.list
    exact ⟨l, hl l hl1 hl2, fun a => (hl2 a).trans (has_keep (hsame.listed a)).symm⟩
  bytes := by
    obtain ⟨c, hn, hc, hb⟩ := h.bytes
    exact ⟨c, hn, fun b => (hc b).trans (has_keep (hsame.owes b)).symm, hb⟩

/-- A thread gets a slot that nobody has. -/
theorem Inv.draft (h : Inv s) (hbare : (s.pc t).Bare) (hcpu : PerCpu.Inv c)
    (hpc : ∀ u, u ≠ t → c.pc u = s.cpu.pc u) (ht : c.pc t = .idle)
    (hhand : ∀ a, Has Pc.Held s.pc s.Live a → c.hand a = true) (h0 : a ≠ 0) (ha : c.hand a = true)
    (hno : ¬Has Pc.Held s.pc s.Live a) : Inv ({ s with cpu := c }.goto t (.stampSize a size)) where
  cpu := hcpu
  sync := sync_update h.sync hpc fun _ => ht
  keys := h.keys
  held := h.held.gain (fun b hb => hb.resolve_right nofun) (fun _ => id) (fun hl => hno (.inl hl))
    fun u _ hu => hno (.inr ⟨u, hu⟩)
  listed := h.listed.keep (fun b hb => nomatch hb) fun _ => id
  hand b hb := by
    have hiff : Has Pc.Held (Function.update s.pc t (.stampSize a size)) s.Live b ↔
      b = a ∨ Has Pc.Held s.pc s.Live b :=
      has_gain (fun _ => hbare.held) (or_iff_left nofun)
    rcases hiff.mp hb with rfl | hb
    · exact ⟨h0, ha⟩
    · exact ⟨(h.hand b hb).1, hhand b hb⟩
  size b hb := h.size b ((has_keep (iff_of_false nofun hbare.sized)).mp hb)
  list := by
    obtain ⟨l, hl1, hl2⟩ := h.list
    exact ⟨l, hl1, fun b => (hl2 b).trans (has_keep (iff_of_false nofun hbare.listed)).symm⟩
  bytes := by
    obtain ⟨c, hn, hc, hb⟩ := h.bytes
    exact ⟨c, hn, fun b => (hc b).trans (has_keep (iff_of_false nofun hbare.owes)).symm, hb⟩

/-- The size is written into a header that no `mp_free` is still to read, or is there
already. -/
theorem Inv.stamp (h : Inv s) (hp : s.pc t = .stampSize a size)
    (hclear : ∀ u, (s.pc u).Unread a → s.req a = size) :
    Inv ({ s with req := Function.update s.req a size }.goto t (.stampPrev a size)) := by
  have hmine : (s.pc t).Held a := by rw [hp]; exact .inl rfl
  -- a pending `mp_free` finds what it would have found
  have howes : ∀ u b, (s.pc u).Owes (Function.update s.req a size) b ↔ (s.pc u).Owes s.req b := by
    intro u b
    have hu := hclear u
    cases hpc : s.pc u with
    | push x | readSize x =>
      rw [hpc] at hu
      have hx : Function.update s.req a size x = s.req x := by
        rw [Function.update_apply]
        split
        next e => rw [← hu e.symm, e]
        next => rfl
      show b = (x, _) ↔ b = (x, _)
      rw [hx]
    | _ => exact .rfl
  refine ⟨h.cpu,
    sync_update h.sync (fun _ _ => rfl) fun _ => h.sync t (by rw [hp]; trivial), h.keys,
    h.held.keep (fun b hb => by rw [hp]; exact hb) fun _ => id,
    h.listed.keep (fun b hb => nomatch hb) fun _ => id, fun b hb => h.hand b ((has_keep ?_).mp hb),
    ?_, ?_, ?_⟩
  · rw [hp]; exact .rfl
  · intro b hb
    have hiff : Has Pc.Sized (Function.update s.pc t (.stampPrev a size)) (· ∈ s.live) b ↔
        b = (a, size) ∨ Has Pc.Sized s.pc (· ∈ s.live) b :=
      has_gain (fun _ => by rw [hp]; exact nofun) .rfl
    rcases hiff.mp hb with rfl | hold
    · exact Function.update_self ..
    · have hne : b.1 ≠ a := by
        intro e
        rw [← e] at hmine hp
        rcases hold with hl | ⟨u, hu⟩
        · exact h.held.apart hmine (List.mem_map_of_mem hl)
        · obtain rfl := h.held.unique hu.held hmine
          rw [hp] at hu
          exact hu
      exact (Function.update_of_ne hne _ _).trans (h.size b hold)
  · obtain ⟨l, hl1, hl2⟩ := h.list
    exact ⟨l, hl1, fun b => (hl2 b).trans (has_keep (by rw [hp]; exact .rfl)).symm⟩
  · obtain ⟨c, hn, hc, hb⟩ := h.bytes
    refine ⟨c, hn, fun b => (hc b).trans ?_, hb⟩
    refine Iff.trans ?_ (has_keep (by rw [hp]; exact .rfl)).symm
    exact or_congr_right (exists_congr fun u => (howes u b).symm)

/-- The header joins the active list when no `mp_free` is still to take it off. -/
theorem Inv.link (h : Inv s) (hp : s.pc t = .addList a size) (hclear : ∀ u, ¬(s.pc u).Leaving a) :
    Inv ({ s with list := activeListAdd s.list a }.goto t (.addBytes a size)) := by
  have hmine : (s.pc t).Held a := by rw [hp]; exact .inl rfl
  have hlive : ¬s.Live a := h.held.apart hmine
  have hother : ∀ u, ¬(s.pc u).Listed a := by
    rintro u (hu | hu)
    · obtain rfl := h.held.unique (.inr hu) hmine
      rw [hp] at hu
      exact hu
    · exact hclear u hu
  refine ⟨h.cpu,
    sync_update h.sync (fun _ _ => rfl) fun _ => h.sync t (by rw [hp]; trivial), h.keys,
    h.held.keep (fun b hb => by rw [hp]; exact .inl (hb.resolve_left id)) fun _ => id,
    h.listed.gain (fun b hb => hb.resolve_right id) (fun _ => id) hlive fun u _ => hother u,
    fun b hb => h.hand b ((has_keep ?_).mp hb), fun b hb => h.size b ((has_keep ?_).mp hb), ?_, ?_⟩
  · rw [hp]; exact or_comm
  · rw [hp]; exact .rfl
  · obtain ⟨l, hl1, hl2⟩ := h.list
    have ha : a ∉ l := fun hm => by
      rcases (hl2 a).mp hm with hl | ⟨u, hu⟩
      · exact hlive hl
      · exact hother u hu
    have hhead : s.list.head = l.head?.getD 0 := by
      obtain ⟨_, hs⟩ := hl1
      exact hs.head_eq
    have hlink : (activeListAdd s.list a).Is ([] ++ a :: l) :=
      DL.Is.link hl1 (h.hand a (.inr ⟨t, hmine⟩)).1 ha rfl hhead
    refine ⟨a :: l, hlink, fun b => ?_⟩
    have hiff : Has Pc.Listed (Function.update s.pc t (.addBytes a size)) s.Live b ↔
        b = a ∨ Has Pc.Listed s.pc s.Live b :=
      has_gain (fun b => by rw [hp]; exact (·.elim id id)) (or_iff_left id)
    rw [List.mem_cons, hl2]
    exact hiff.symm
  · obtain ⟨c, hn, hc, hb⟩ := h.bytes
    exact ⟨c, hn, fun b => (hc b).trans (has_keep (by rw [hp]; exact .rfl)).symm, hb⟩

theorem fetchAdd_mod (n k : Nat) : fetchAdd (n % 2 ^ 64) k = (k + n) % 2 ^ 64 := by
  unfold fetchAdd
  omega

theorem fetchSub_mod (n k : Nat) : fetchSub ((k + n) % 2 ^ 64) k = n % 2 ^ 64 := by
  unfold fetchSub
  omega

/-- The size is counted. -/
theorem Inv.credit (h : Inv s) (hp : s.pc t = .addBytes a size) :
    Inv ({ s with activeBytes := fetchAdd s.activeBytes size }.goto t (.ret a size)) := by
  have hmine : (s.pc t).Listed a := by rw [hp]; exact .inl rfl
  refine ⟨h.cpu,
    sync_update h.sync (fun _ _ => rfl) fun _ => h.sync t (by rw [hp]; trivial), h.keys,
    h.held.keep (fun b hb => by rw [hp]; exact hb) fun _ => id,
    h.listed.keep (fun b hb => by rw [hp]; exact hb) fun _ => id,
    fun b hb => h.hand b ((has_keep ?_).mp hb), fun b hb => h.size b ((has_keep ?_).mp hb), ?_, ?_⟩
  · rw [hp]; exact .rfl
  · rw [hp]; exact .rfl
  · obtain ⟨l, hl1, hl2⟩ := h.list
    exact ⟨l, hl1, fun b => (hl2 b).trans (has_keep (by rw [hp]; exact .rfl)).symm⟩
  · obtain ⟨c, hn, hc, hb⟩ := h.bytes
    have hnot : (a, size) ∉ c := fun hm => by
      rcases (hc _).mp hm with hl | ⟨u, hu⟩
      · exact h.listed.apart hmine (List.mem_map_of_mem hl)
      · obtain rfl := h.listed.unique hu.listed hmine
        rw [hp] at hu
        exact hu
    refine ⟨(a, size) :: c, List.nodup_cons.mpr ⟨hnot, hn⟩, fun b => ?_, ?_⟩
    · have hiff : Has (Pc.Owes s.req) (Function.update s.pc t (.ret a size)) (· ∈ s.live) b ↔
          b = (a, size) ∨ Has (Pc.Owes s.req) s.pc (· ∈ s.live) b :=
        has_gain (fun _ => by rw [hp]; exact nofun) .rfl
      rw [List.mem_cons, hc]
      exact hiff.symm
    · show fetchAdd s.activeBytes size = _
      rw [hb, fetchAdd_mod]
      rfl

/-- `mp_alloc` returns. -/
theorem Inv.give (h : Inv s) (hp : s.pc t = .ret a size) :
    Inv ({ s with live := (a, size) :: s.live }.goto t .idle) := by
  have hheld : (s.pc t).Held a := by rw [hp]; exact .inr rfl
  have hlisted : (s.pc t).Listed a := by rw [hp]; exact .inl rfl
  have hkey : ∀ b, ({ s with live := (a, size) :: s.live } : State T).Live b ↔ b = a ∨ s.Live b :=
    fun b => List.mem_cons
  have hpair : ∀ b, b ∈ (a, size) :: s.live ↔ b = (a, size) ∨ b ∈ s.live := fun b => List.mem_cons
  refine ⟨h.cpu, sync_update h.sync (fun _ _ => rfl) fun _ => h.sync t (by rw [hp]; trivial),
    List.nodup_cons.mpr ⟨h.held.apart hheld, h.keys⟩,
    h.held.give hheld (fun _ => nofun) fun b hb => ((hkey b).mp hb).symm,
    h.listed.give hlisted (fun _ => nofun) fun b hb => ((hkey b).mp hb).symm,
    fun b hb => h.hand b ((has_give (fun _ => ?_) (fun _ => nofun) (hkey b)).mp hb),
    fun b hb => h.size b ((has_give (fun _ => ?_) (fun _ => nofun) (hpair b)).mp hb), ?_, ?_⟩
  · rw [hp]; exact or_iff_right id
  · rw [hp]; exact .rfl
  · obtain ⟨l, hl1, hl2⟩ := h.list
    refine ⟨l, hl1, fun b => (hl2 b).trans (has_give (fun _ => ?_) (fun _ => nofun) (hkey b)).symm⟩
    rw [hp]; exact or_iff_left id
  · obtain ⟨c, hn, hc, hb⟩ := h.bytes
    refine ⟨c, hn,
      fun b => (hc b).trans (has_give (fun _ => ?_) (fun _ => nofun) (hpair b)).symm, hb⟩
    rw [hp]; exact .rfl

/-- The size is no longer counted. -/
theorem Inv.debit (h : Inv s) (hp : s.pc t = .subBytes a size) :
    Inv ({ s with activeBytes := fetchSub s.activeBytes size }.goto t (.removeList a)) := by
  have howes : (s.pc t).Owes s.req (a, size) := by rw [hp]; exact rfl
  have hmine : (s.pc t).Listed a := by rw [hp]; exact .inr rfl
  refine ⟨h.cpu,
    sync_update h.sync (fun _ _ => rfl) fun _ => h.sync t (by rw [hp]; trivial), h.keys,
    h.held.keep (fun b hb => by rw [hp]; exact hb) fun _ => id,
    h.listed.keep (fun b hb => by rw [hp]; exact hb) fun _ => id,
    fun b hb => h.hand b ((has_keep ?_).mp hb), fun b hb => h.size b ((has_keep ?_).mp hb), ?_, ?_⟩
  · rw [hp]; exact .rfl
  · rw [hp]; exact .rfl
  · obtain ⟨l, hl1, hl2⟩ := h.list
    exact ⟨l, hl1, fun b => (hl2 b).trans (has_keep (by rw [hp]; exact .rfl)).symm⟩
  · obtain ⟨c, hn, hc, hb⟩ := h.bytes
    have hm : (a, size) ∈ c := (hc _).mpr (.inr ⟨t, howes⟩)
    have hown : Owners (Pc.Owes s.req) s.pc (· ∈ s.live) :=
      ⟨fun hu hl => h.listed.apart hu.listed (List.mem_map_of_mem hl),
        fun hu hv => h.listed.unique hu.listed hv.listed⟩
    refine ⟨c.erase (a, size), hn.erase _, fun b => ?_, ?_⟩
    · have hiff : Has (Pc.Owes s.req) (Function.update s.pc t (.removeList a)) (· ∈ s.live) b ↔
          Has (Pc.Owes s.req) s.pc (· ∈ s.live) b ∧ b ≠ (a, size) :=
        has_drop hown howes (fun b hb => by rw [hp] at hb; exact hb) fun _ => nofun
      rw [hn.mem_erase_iff, hc, and_comm]
      exact hiff.symm
    · show fetchSub s.activeBytes size = _
      have hsum : (c.map (·.2)).sum = size + ((c.erase (a, size)).map (·.2)).sum :=
        ((List.perm_cons_erase hm).map _).sum_nat
      rw [hb, hsum, fetchSub_mod]

/-- The header leaves the active list, and the slot is with the list of the processor or with
its new owner. -/
theorem Inv.unlink (h : Inv s) (hp : s.pc t = .removeList a) :
    Inv ({ s with list := activeListRemove s.list a }.goto t .idle) := by
  have hmine : (s.pc t).Listed a := by rw [hp]; exact .inr rfl
  refine ⟨h.cpu,
    sync_update h.sync (fun _ _ => rfl) fun _ => h.sync t (by rw [hp]; trivial), h.keys,
    h.held.keep (fun b hb => absurd hb (Pc.Bare.held trivial)) fun _ => id,
    h.listed.keep (fun b hb => absurd hb (Pc.Bare.listed trivial)) fun _ => id,
    fun b hb => h.hand b ((has_keep ?_).mp hb), fun b hb => h.size b ((has_keep ?_).mp hb), ?_, ?_⟩
  · rw [hp]; exact .rfl
  · rw [hp]; exact .rfl
  · obtain ⟨l, hl1, hl2⟩ := h.list
    have hm : a ∈ l := (hl2 a).mpr (.inr ⟨t, hmine⟩)
    obtain ⟨xs, ys, rfl⟩ := List.append_of_mem hm
    have hn := hl1.nodup
    have hno : a ∉ xs ++ ys := (List.nodup_middle.mp hn).notMem
    refine ⟨xs ++ ys, hl1.unlink.congr rfl fun b hb => ?_, fun b => ?_⟩
    · have hne : b ≠ a := fun e => hno (e ▸ hb)
      exact ⟨Function.update_of_ne hne _ _, Function.update_of_ne hne _ _⟩
    · have hiff : Has Pc.Listed (Function.update s.pc t .idle) s.Live b ↔
        Has Pc.Listed s.pc s.Live b ∧ b ≠ a :=
        has_drop h.listed hmine (fun b hb => by rw [hp] at hb; exact hb.resolve_left id)
          fun _ => nofun
      refine Iff.trans ?_ hiff.symm
      rw [← hl2, List.mem_append, List.mem_append, List.mem_cons]
      constructor
      · intro hb
        exact ⟨hb.imp_right .inr, fun e => hno (List.mem_append.mpr (e ▸ hb))⟩
      · rintro ⟨hb | rfl | hb, hne⟩
        · exact .inl hb
        · exact absurd rfl hne
        · exact .inr hb
  · obtain ⟨c, hn, hc, hb⟩ := h.bytes
    exact ⟨c, hn, fun b => (hc b).trans (has_keep (by rw [hp]; exact .rfl)).symm, hb⟩

theorem keys_erase {l : List (Nat × Nat)} {b : Nat × Nat} (hn : (l.map (·.1)).Nodup) (hb : b ∈ l)
    (a : Nat) : a ∈ (l.erase b).map (·.1) ↔ a ∈ l.map (·.1) ∧ a ≠ b.1 := by
  have hperm : (l.map (·.1)).Perm (b.1 :: (l.erase b).map (·.1)) := (List.perm_cons_erase hb).map _
  have hno := (List.nodup_cons.mp (hperm.nodup_iff.mp hn)).1
  rw [hperm.mem_iff, List.mem_cons]
  constructor
  · intro ha
    exact ⟨.inr ha, fun e => hno (e ▸ ha)⟩
  · rintro ⟨rfl | ha, hne⟩
    · exact absurd rfl hne
    · exact ha

/-- `mp_free` is called, and goes on to publish the slot. -/
theorem Inv.take {b : Nat × Nat} (h : Inv s) (hp : s.pc t = .idle) (hb : b ∈ s.live) :
    Inv ({ s with cpu := s.cpu.step (.callPush t b.1), live := s.live.erase b }.goto t
      (.push b.1)) := by
  have hlive : s.Live b.1 := List.mem_map_of_mem hb
  have hkey : ∀ a, ({ s with live := s.live.erase b } : State T).Live a ↔ s.Live a ∧ a ≠ b.1 :=
    keys_erase h.keys hb
  have hpair : ∀ c, c ∈ s.live.erase b ↔ c ∈ s.live ∧ c ≠ b := fun c => by
    rw [(List.Nodup.of_map _ h.keys).mem_erase_iff, and_comm]
  have hinner : s.cpu.pc t = .idle := h.sync t (by rw [hp]; trivial)
  have hpre : s.cpu.pre (.callPush t b.1) := ⟨hinner, h.hand b.1 (.inl hlive)⟩
  have hbare : (s.pc t).Bare := by rw [hp]; trivial
  refine ⟨PerCpu.step_inv h.cpu hpre trivial,
    sync_update h.sync (fun u hu => Function.update_of_ne hu _ _) (fun hu => hu.elim),
    (List.erase_sublist.map _).nodup h.keys,
    h.held.keep (fun a ha => nomatch ha) fun a ha => ((hkey a).mp ha).1,
    h.listed.gain (fun a ha => ha.resolve_left id) (fun a ha => ((hkey a).mp ha).1)
      (fun ha => ((hkey _).mp ha).2 rfl) (fun u _ hu => h.listed.apart hu hlive),
    fun a ha => ?_, fun c hc => ?_, ?_, ?_⟩
  · have hne : a ≠ b.1 := by
      rintro rfl
      rcases ha with ha | ⟨u, hu⟩
      · exact ((hkey _).mp ha).2 rfl
      · by_cases e : u = t
        · subst e
          replace hu : (Function.update s.pc u (Pc.push b.1) u).Held b.1 := hu
          rw [Function.update_self] at hu
          exact hu.elim id id
        · replace hu : (Function.update s.pc t (Pc.push b.1) u).Held b.1 := hu
          rw [Function.update_of_ne e] at hu
          exact h.held.apart hu hlive
    have hold : Has Pc.Held s.pc s.Live a := by
      rcases ha with ha | hu
      · exact .inl ((hkey a).mp ha).1
      · exact (has_keep (iff_of_false (fun h => h.elim id id) hbare.held)).mp (.inr hu)
    refine ⟨(h.hand a hold).1, ?_⟩
    exact (Function.update_of_ne hne _ _).trans (h.hand a hold).2
  · refine h.size c ?_
    rcases hc with hc | hu
    · exact .inl ((hpair c).mp hc).1
    · exact (has_keep (iff_of_false id hbare.sized)).mp (.inr hu)
  · obtain ⟨l, hl1, hl2⟩ := h.list
    refine ⟨l, hl1,
      fun a => (hl2 a).trans (has_take (fun _ => hbare.listed) ?_ hlive (hkey a)).symm⟩
    exact or_iff_right id
  · obtain ⟨c, hn, hc, hs⟩ := h.bytes
    refine ⟨c, hn, fun d => (hc d).trans (has_take (fun _ => hbare.owes) ?_ hb (hpair d)).symm, hs⟩
    show d = (b.1, s.req b.1) ↔ d = b
    rw [h.size b (.inl hb)]

/-! ## Steps inside the list -/

theorem after_pop {last : Bool} {q q' : PerCpu.Pc} (h : ∀ a, q ≠ .popCount a) :
    State.after (.pop size last) q q' =
      if q' = .idle then (if last then .other size else .missed size) else .pop size last := by
  cases q with
  | popCount a => exact absurd rfl (h a)
  | _ => rfl

/-- A thread goes on in the list; a pop may end with a slot. -/
theorem Inv.inner {l : PerCpu.Act T} (h : Inv s) (hp : ¬(s.pc t).Outside)
    (hcpu : PerCpu.Inv (s.cpu.step l)) (hpc : ∀ u, u ≠ t → (s.cpu.step l).pc u = s.cpu.pc u)
    (hhand : ∀ a, s.cpu.hand a = true → (s.cpu.step l).hand a = true)
    (hpop : ∀ a, s.cpu.pc t = .popCount a →
    (s.cpu.step l).pc t = .idle ∧ (s.cpu.step l).hand a = true) : Inv (s.inner t l) := by
  have hmove : ∀ p, (s.pc t).Same s.req p → (p.Outside → (s.cpu.step l).pc t = .idle) →
      Inv ({ s with cpu := s.cpu.step l }.goto t p) := fun p hsame ht =>
    h.move hsame hcpu hpc ht (fun a ha => hhand a (h.hand a ha).2) fun _ hl _ => hl
  unfold State.inner
  cases hs : s.pc t with
  | pop size last =>
    have hbare : (s.pc t).Bare := by rw [hs]; trivial
    by_cases hq : ∃ a, s.cpu.pc t = .popCount a
    · obtain ⟨a, hq⟩ := hq
      have hfree := h.cpu.popped hq
      obtain ⟨hidle, ha⟩ := hpop a hq
      rw [hq]
      refine h.draft hbare hcpu hpc hidle (fun a ha => hhand a (h.hand a ha).2) hfree.1 ha
        fun hno => ?_
      exact absurd ((h.hand a hno).2.symm.trans hfree.2) (by decide)
    · rw [after_pop fun a ha => hq ⟨a, ha⟩]
      split
      next hidle => exact hmove _ (.bare hbare (by split <;> trivial)) fun _ => hidle
      next => exact hmove _ (.bare hbare trivial) fun hout => hout.elim
  | refill size =>
    have hbare : (s.pc t).Bare := by rw [hs]; trivial
    show Inv ({ s with cpu := s.cpu.step l }.goto t (if _ then _ else _))
    split
    next hidle => exact hmove _ (.bare hbare trivial) fun _ => hidle
    next => exact hmove _ (.bare hbare trivial) fun hout => hout.elim
  | push a =>
    show Inv ({ s with cpu := s.cpu.step l }.goto t (if _ then _ else _))
    split
    next hidle => exact hmove _ (by rw [hs]; exact .read) fun _ => hidle
    next => exact hmove _ (by rw [hs]; exact .refl) fun hout => hout.elim
  | _ => rw [hs] at hp; exact absurd trivial hp

theorem Inv.innerTick (h : Inv s) (hp : ¬(s.pc t).Outside) (hcur : (s.cpu.pc t).Current s.cpu) :
    Inv (s.inner t (.tick t)) := by
  refine h.inner hp (PerCpu.step_inv h.cpu trivial hcur) (fun u hu => PerCpu.tick_pc hu)
    (fun a ha => PerCpu.tick_hand ha) fun a ha => ?_
  show (s.cpu.tick t).pc t = _ ∧ (s.cpu.tick t).hand a = true
  unfold PerCpu.State.tick
  rw [ha]
  exact ⟨Function.update_self .., Function.update_self ..⟩

omit [DecidableEq T] in
/-- The header of a slot that is neither linked nor to be unlinked is not on the list. -/
theorem Inv.notLinked (h : Inv s) (hd : (s.pc t).Draft a) (hno : ∀ u, ¬(s.pc u).Leaving a)
    {l : List Nat} (hl : ∀ a, a ∈ l ↔ Has Pc.Listed s.pc s.Live a) : a ∉ l := by
  intro hm
  rcases (hl a).mp hm with hlive | ⟨u, hu | hu⟩
  · exact h.held.apart (.inl hd) hlive
  · obtain rfl := h.held.unique (.inr hu) (.inl hd)
    cases hp : s.pc u <;> rw [hp] at hd hu <;> first | exact hd | exact hu
  · exact hno u hu

/-- What a stamp writes into a link is there already, or the header is not linked. -/
theorem Inv.relink {l' : DL Nat} {p : Pc} (h : Inv s) (hd : (s.pc t).Draft a)
    (hsame : (s.pc t).Same s.req p) (hout : (s.pc t).Outside)
    (heq : (∃ u, (s.pc u).Leaving a) → l' = s.list) (hh : l'.head = s.list.head)
    (hne : ∀ b, b ≠ a → l'.next b = s.list.next b ∧ l'.prev b = s.list.prev b) :
    Inv ({ s with list := l' }.goto t p) := by
  refine h.move hsame h.cpu (fun _ _ => rfl) (fun _ => h.sync t hout) (fun b hb => (h.hand b hb).2)
    fun l hl hm => ?_
  by_cases hex : ∃ u, (s.pc u).Leaving a
  · rwa [heq hex]
  · have ha : a ∉ l := h.notLinked hd (fun u hu => hex ⟨u, hu⟩) hm
    exact hl.congr hh fun b hb => hne b fun e => ha (e ▸ hb)

theorem tick_inv (h : Inv s) (hclear : Clear s (.tick t)) : Inv (s.tick t) := by
  obtain ⟨hcur, hclear⟩ := hclear
  unfold State.tick
  cases hp : s.pc t with
  | idle | missed _ | other _ => exact h
  | pop _ _ | refill _ | push _ => exact h.innerTick (by rw [hp]; exact id) hcur
  | refilled size =>
    have hbare : (s.pc t).Bare := by rw [hp]; trivial
    have hidle : s.cpu.pre (.callPop t) := h.sync t (by rw [hp]; trivial)
    exact h.move (.bare hbare trivial) (PerCpu.step_inv h.cpu hidle trivial)
      (fun u hu => Function.update_of_ne hu _ _) (fun hu => hu.elim) (fun b hb => (h.hand b hb).2)
        fun _ hl _ => hl
  | stampSize a size =>
    rw [hp] at hclear
    exact h.stamp hp hclear
  | stampPrev a size =>
    rw [hp] at hclear
    refine h.relink (a := a) (by rw [hp]; rfl) (by rw [hp]; exact .prev)
      (by rw [hp]; trivial) ?_ rfl
      fun b hb => ⟨rfl, Function.update_of_ne hb _ _⟩
    rintro ⟨u, hu⟩
    rw [← hclear u hu, Function.update_eq_self]
  | stampNext a size =>
    rw [hp] at hclear
    refine h.relink (a := a) (by rw [hp]; rfl) (by rw [hp]; exact .next)
      (by rw [hp]; trivial) ?_ rfl
      fun b hb => ⟨Function.update_of_ne hb _ _, rfl⟩
    rintro ⟨u, hu⟩
    rw [← hclear u hu, Function.update_eq_self]
  | addList a size =>
    rw [hp] at hclear
    exact h.link hp hclear
  | addBytes a size => exact h.credit hp
  | ret a size => exact h.give hp
  | readSize a =>
    exact h.move (by rw [hp]; exact .sub) h.cpu (fun _ _ => rfl)
      (fun _ => h.sync t (by rw [hp]; trivial))
      (fun b hb => (h.hand b hb).2) fun _ hl _ => hl
  | subBytes a size => exact h.debit hp
  | removeList a => exact h.unlink hp

omit [DecidableEq T] in
theorem Spare.notHeld (h : s.Spare a) : ¬Has Pc.Held s.pc s.Live a := by
  rintro (hl | ⟨u, hu | hu⟩)
  · exact h.2.2.1 hl
  · exact (h.2.2.2 u).1 hu
  · exact (h.2.2.2 u).2.1 hu

/-- A slot of another tier is taken. -/
theorem Inv.spare (h : Inv s) (hbare : (s.pc t).Bare) (hout : (s.pc t).Outside) (ha : s.Spare a) :
    Inv (s.goto t (.stampSize a size)) :=
  h.draft hbare h.cpu (fun _ _ => rfl) (h.sync t hout) (fun b hb => (h.hand b hb).2) ha.1 ha.2.1
    (Spare.notHeld ha)

/-- A thread goes on that has no slot. -/
theorem Inv.walk (h : Inv s) (hbare : (s.pc t).Bare) (hout : (s.pc t).Outside) (hp : p.Bare) :
    Inv (s.goto t p) :=
  h.move (.bare hbare hp) h.cpu (fun _ _ => rfl) (fun _ => h.sync t hout)
    (fun b hb => (h.hand b hb).2)
    fun _ hl _ => hl

/-- The first word of a header that is stamped. -/
theorem Inv.word (h : Inv s) (v : Nat) (hd : (s.pc t).Draft a) :
    Inv { s with cpu := s.cpu.step (.write a v) } := by
  have hhand : s.cpu.pre (.write a v) := (h.hand a (.inr ⟨t, .inl hd⟩)).2
  have hm : Inv ({ s with cpu := s.cpu.step (.write a v) }.goto t (s.pc t)) :=
    h.move .refl (PerCpu.step_inv h.cpu hhand trivial)
      (fun _ _ => rfl) (h.sync t) (fun b hb => (h.hand b hb).2) fun _ hl _ => hl
  rwa [State.goto, Function.update_eq_self] at hm

theorem step_inv {l : Act T} (h : Inv s) (hpre : s.pre l) (hclear : Clear s l) :
    Inv (s.next l) := by
  cases l with
  | callAlloc t size =>
    have hbare : (s.pc t).Bare := by rw [show s.pc t = .idle from hpre]; trivial
    have hidle : s.cpu.pre (.callPop t) := h.sync t (by rw [show s.pc t = .idle from hpre]; trivial)
    exact h.move (.bare hbare trivial) (PerCpu.step_inv h.cpu hidle trivial)
      (fun u hu => Function.update_of_ne hu _ _) (fun hu => hu.elim) (fun b hb => (h.hand b hb).2)
        fun _ hl _ => hl
  | callCached t a size =>
    obtain ⟨hp, ha⟩ := hpre
    exact h.spare (by rw [hp]; trivial) (by rw [hp]; trivial) ha
  | callFree t b => exact h.take hpre.1 hpre.2
  | tick t => exact tick_inv h hclear
  | spurious t =>
    have hout : ¬(s.pc t).Outside := fun hout => hpre (by rw [h.sync t hout]; rfl)
    refine h.inner hout (PerCpu.step_inv h.cpu trivial trivial)
      (fun u hu => Function.update_of_ne hu _ _)
      (fun _ ha => ha) fun a ha => absurd ?_ hpre
    rw [ha]
    rfl
  | refill t l =>
    cases hp : s.pc t with
    | missed size =>
      obtain ⟨hne, hnd, hl⟩ := hpre
      have hbare : (s.pc t).Bare := by rw [hp]; trivial
      have hcall : s.cpu.pre (.callRefill t l) :=
        ⟨h.sync t (by rw [hp]; trivial), hne, hnd, fun a ha => ⟨(hl a ha).1, (hl a ha).2.1⟩⟩
      have hm : Inv ({ s with cpu := s.cpu.step (.callRefill t l) }.goto t (.refill size)) := by
        refine h.move (.bare hbare trivial) (PerCpu.step_inv h.cpu hcall trivial)
          (fun u hu => Function.update_of_ne hu _ _) (fun hu => hu.elim) (fun b hb => ?_)
            fun _ hl _ => hl
        exact (if_neg fun hm => Spare.notHeld (hl b hm) hb).trans (h.hand b hb).2
      simpa only [State.next, hp] using hm
    | _ => simpa only [State.next, hp] using h
  | again t =>
    cases hp : s.pc t with
    | missed size =>
      have hm : Inv (s.goto t (.refilled size)) :=
        h.walk (by rw [hp]; trivial) (by rw [hp]; trivial) trivial
      simpa only [State.next, hp] using hm
    | _ => simpa only [State.next, hp] using h
  | fresh t a =>
    cases hp : s.pc t with
    | other size =>
      have hm : Inv (s.goto t (.stampSize a size)) :=
        h.spare (by rw [hp]; trivial) (by rw [hp]; trivial) hpre
      simpa only [State.next, hp] using hm
    | _ => simpa only [State.next, hp] using h
  | fail t =>
    cases hp : s.pc t with
    | other size =>
      have hm : Inv (s.goto t .idle) := h.walk (by rw [hp]; trivial) (by rw [hp]; trivial) trivial
      simpa only [State.next, hp] using hm
    | _ => simpa only [State.next, hp] using h
  | word t v =>
    cases hp : s.pc t with
    | stampSize a _ | stampPrev a _ | stampNext a _ | addList a _ =>
      have hm := h.word (a := a) (t := t) v (by rw [hp]; rfl)
      simpa only [State.next, hp] using hm
    | _ => simpa only [State.next, hp] using h

end Steps

theorem inductive_inv : ((system T).guard Clear).Inductive Inv where
  init s hs := by
    obtain ⟨next, req, prev, link, rfl⟩ := hs
    refine ⟨PerCpu.inductive_inv.init _ ⟨next, rfl⟩, fun _ _ => rfl, List.nodup_nil,
      ⟨fun hu => absurd hu (Pc.Bare.held trivial), fun hu => absurd hu (Pc.Bare.held trivial)⟩,
      ⟨fun hu => absurd hu (Pc.Bare.listed trivial), fun hu => absurd hu (Pc.Bare.listed trivial)⟩,
      ?_, ?_, ⟨[], DL.is_nil_iff.mpr rfl, fun a => ?_⟩, ⟨[], List.nodup_nil, fun b => ?_, rfl⟩⟩
    · rintro a (ha | ⟨u, ha | ha⟩)
      · exact absurd ha List.not_mem_nil
      · exact ha.elim
      · exact ha.elim
    · rintro b (hb | ⟨u, hb⟩)
      · exact absurd hb List.not_mem_nil
      · exact hb.elim
    · refine iff_of_false List.not_mem_nil ?_
      rintro (ha | ⟨u, ha | ha⟩)
      · exact absurd ha List.not_mem_nil
      · exact ha.elim
      · exact ha.elim
    · refine iff_of_false List.not_mem_nil ?_
      rintro (hb | ⟨u, hb⟩)
      · exact absurd hb List.not_mem_nil
      · exact hb.elim
  step s l s' h hs := by
    obtain ⟨⟨hpre, rfl⟩, hclear⟩ := hs
    exact step_inv h hpre hclear

instance decDraft (p : Pc) (a : Nat) : Decidable (p.Draft a) := by
  cases p <;>
    first | exact inferInstanceAs (Decidable (a = _)) | exact inferInstanceAs (Decidable False)

instance decDone (p : Pc) (a : Nat) : Decidable (p.Done a) := by
  cases p <;>
    first | exact inferInstanceAs (Decidable (a = _)) | exact inferInstanceAs (Decidable False)

instance decUnread (p : Pc) (a : Nat) : Decidable (p.Unread a) := by
  cases p <;>
    first | exact inferInstanceAs (Decidable (a = _)) | exact inferInstanceAs (Decidable False)

instance decLeaving (p : Pc) (a : Nat) : Decidable (p.Leaving a) := by
  cases p <;>
    first | exact inferInstanceAs (Decidable (a = _)) | exact inferInstanceAs (Decidable False)

instance decSpare (s : State Bool) (a : Nat) : Decidable (s.Spare a) := by
  unfold State.Spare; exact inferInstance

instance decPre (s : State Bool) : (l : Act Bool) → Decidable (s.pre l)
  | .callAlloc .. => inferInstanceAs (Decidable (_ = Pc.idle))
  | .callCached _ a _ => inferInstanceAs (Decidable (_ = Pc.idle ∧ s.Spare a))
  | .callFree .. => inferInstanceAs (Decidable (_ = Pc.idle ∧ _ ∈ _))
  | .spurious _ => inferInstanceAs (Decidable (_ ≠ _))
  | .refill _ l => inferInstanceAs (Decidable (_ ≠ [] ∧ _ ∧ ∀ a ∈ l, s.Spare a))
  | .fresh _ a => inferInstanceAs (Decidable (s.Spare a))
  | .tick _ | .again _ | .fail _ | .word .. => inferInstanceAs (Decidable True)

instance decHarmless (s : State Bool) (p : Pc) : Decidable (s.Harmless p) := by
  unfold State.Harmless; cases p <;> exact inferInstance

instance decClear (s : State Bool) : (l : Act Bool) → Decidable (Clear s l)
  | .tick t => inferInstanceAs (Decidable (_ ∧ s.Harmless (s.pc t)))
  | .callAlloc .. | .callCached .. | .callFree .. | .spurious _ | .refill .. | .again _ | .fresh ..
  | .fail _ | .word .. =>
    inferInstanceAs (Decidable True)

/-- **Handover of a slot.** When all calls have returned the active list is that of the live
blocks and `active_bytes` their sum, in every interleaving in which no thread writes to a
header, or links it, before the `mp_free` that published the slot is done with that. -/
theorem handover_settled {s : State T} (hr : ((system T).guard Clear).Reachable s)
    (hidle : ∀ t, s.pc t = .idle) :
    s.Settled := by
  have h := inductive_inv.reachable hr
  have hnone : ∀ {α : Type} {R : Pc → α → Prop} {live : α → Prop} (_ : ∀ a, ¬R .idle a) (a : α),
      Has R s.pc live a ↔ live a := by
    intro α R live hR a
    refine or_iff_left ?_
    rintro ⟨u, hu⟩
    rw [hidle u] at hu
    exact hR a hu
  obtain ⟨l, hl1, hl2⟩ := h.list
  obtain ⟨c, hn, hc, hb⟩ := h.bytes
  refine ⟨⟨l, hl1, fun a => (hl2 a).trans (hnone (fun _ => nofun) a)⟩, ?_⟩
  have hperm : c.Perm s.live :=
    (List.perm_ext_iff_of_nodup hn (List.Nodup.of_map _ h.keys)).mpr fun b =>
    (hc b).trans (hnone (fun _ => nofun) b)
  rw [hb, (hperm.map _).sum_nat]

def emptyPool : State Bool := .init (fun _ => 0) (fun _ => 0) (fun _ => 0) fun _ => 0

/-- One thread has two blocks and publishes the slot of the one; the other pops it. -/
def popPublished : List (Act Bool) :=
  .callCached true 0x10200 24 :: List.replicate 6 (.tick true) ++
    .callCached true 0x10100 16 :: List.replicate 6 (.tick true) ++
    .callFree true (0x10100, 16) :: List.replicate 5 (.tick true) ++
    .callAlloc false 32 :: List.replicate 4 (.tick false)

/-- The `mp_free` goes on first. -/
def freeFirst : List (Act Bool) :=
  popPublished ++ List.replicate 3 (.tick true) ++ List.replicate 6 (.tick false)

/-- The `mp_alloc` goes on first. -/
def allocFirst : List (Act Bool) :=
  popPublished ++ List.replicate 6 (.tick false) ++ List.replicate 3 (.tick true)

theorem handover_settled_free_first : (freeFirst.foldl State.next emptyPool).Settled := by
  have hr : ((system Bool).guard Clear).Reachable (freeFirst.foldl State.next emptyPool) :=
    LTS.Reachable.run (.init ⟨_, _, _, _, rfl⟩) (by decide +kernel)
  exact handover_settled hr (by decide +kernel)

/-- **Defect.** The new owner stamps and links the header before the old one is done: the
`mp_free` subtracts the new size, and takes the other block off the list. -/
theorem handover_unsettled : ∃ s : State Bool, (system Bool).Reachable s ∧ (∀ t, s.pc t = .idle) ∧
    s.live = [(0x10100, 32), (0x10200, 24)] ∧ s.activeBytes = 40 ∧
    (∀ l, s.list.Is l → 0x10200 ∉ l) ∧ ¬s.Settled := by
  have hr :
    ((system Bool).guard fun _ _ => True).Reachable (allocFirst.foldl State.next emptyPool) :=
    LTS.Reachable.run (.init ⟨_, _, _, _, rfl⟩) (by decide +kernel)
  have hlive : (allocFirst.foldl State.next emptyPool).live = [(0x10100, 32), (0x10200, 24)] := by
    decide +kernel
  have hbytes : (allocFirst.foldl State.next emptyPool).activeBytes = 40 := by decide +kernel
  refine ⟨_, hr.of_guard, by decide +kernel, hlive, hbytes, fun l hl hm => ?_, fun h => ?_⟩
  · have hhead : (allocFirst.foldl State.next emptyPool).list.head = 0x10100 := by decide +kernel
    have hnext : (allocFirst.foldl State.next emptyPool).list.next 0x10100 = 0 := by decide +kernel
    have hc := hl.chain
    rw [hhead] at hc
    obtain ⟨l, rfl, hrest⟩ := hc.exists_cons (by decide)
    rw [hnext] at hrest
    rw [hrest.eq_nil_of_zero] at hm
    exact absurd hm (by decide)
  · have := h.2
    rw [hbytes, hlive] at this
    exact absurd this (by decide)

end Cmem.L3.Handover
