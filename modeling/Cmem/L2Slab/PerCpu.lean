import Cmem.Core.Boxes
import Cmem.Core.LTS

/-!
# One per-CPU freelist, shared by several threads

`percpu_pop`, `percpu_push` and the publishing loop of `percpu_refill`
(src/src/cmem_slab.c:1504-1526, 1935-1958 and 1615-1635) on one `(cpu, class)`
entry. A CPU index may be stale (src/src/cmem_sys.c:31-45), so any number of
threads use the entry at once; one `tick` is one atomic operation or the plain
access to a link between two of them. The compare-exchange may fail spuriously.

`hand` tells which slots are outside the list and with their page or a user: such
a slot may be written at any time. `pushed` counts how often a slot was
published, `popped` how often a pop took it.

A pop reads the link of the head it loaded and then compares the head alone. If
that slot has been popped and pushed back in between, the compare-exchange
succeeds with a link of the past (`aba`). `HeadStays` excludes this.
-/
namespace Cmem.L2.PerCpu

/-- `MP_PERCPU_MAX_BATCH`. -/
def maxBatch : Nat := 16

inductive Pc where
  | idle
  | popLoad
  | popRead (h : Nat)
  | popCas (h n : Nat)
  | popCount (h : Nat)
  | pushLoad (slot : Nat)
  | pushFull (slot old : Nat)
  | pushLink (slot old : Nat)
  | pushCas (slot old : Nat)
  | fillLoad (slots : List Nat)
  | fillLink (slots : List Nat) (old : Nat)
  | fillCas (slots : List Nat) (old : Nat)
  | addCount (k : Nat)
  deriving DecidableEq

structure State (T : Type) where
  head : Nat
  count : Nat
  next : Nat → Nat
  pc : T → Pc
  hand : Nat → Bool
  pushed : Nat → Nat
  popped : Nat → Nat

/-- `entry->count`, a `size_t`: `fetch_sub` of one and `fetch_add`. -/
def decCount (c : Nat) : Nat := (c + (2 ^ 64 - 1)) % 2 ^ 64
def incCount (c k : Nat) : Nat := (c + k) % 2 ^ 64

/-- Chain the slots up and hang `old` behind the last one. The inner links are
private to the thread; only the last one changes when the loop goes round. -/
def linkRun (next : Nat → Nat) : List Nat → Nat → Nat → Nat
  | [], _ => next
  | [a], old => Function.update next a old
  | a :: b :: l, old => Function.update (linkRun next (b :: l) old) a b

/-- `f` is increased on the members of `l`. -/
def bump (f : Nat → Nat) (l : List Nat) : Nat → Nat := fun a => if a ∈ l then f a + 1 else f a

variable {T : Type} [DecidableEq T]

def State.goto (s : State T) (t : T) (p : Pc) : State T := { s with pc := Function.update s.pc t p }

/-- One step of thread `t`. -/
def State.tick (s : State T) (t : T) : State T :=
  match s.pc t with
  | .idle => s
  -- percpu_pop
  | .popLoad => s.goto t (if s.head = 0 then .idle else .popRead s.head)
  | .popRead h => s.goto t (.popCas h (s.next h))
  | .popCas h n =>
    if s.head = h then { s with head := n, popped := bump s.popped [h] }.goto t (.popCount h)
    else s.goto t .idle
  | .popCount h =>
    { s with count := decCount s.count, hand := Function.update s.hand h true }.goto t .idle
  -- percpu_push
  | .pushLoad a => s.goto t (.pushFull a s.head)
  | .pushFull a old =>
    if maxBatch ≤ s.count then { s with hand := Function.update s.hand a true }.goto t .idle
    else s.goto t (.pushLink a old)
  | .pushLink a old => { s with next := Function.update s.next a old }.goto t (.pushCas a old)
  | .pushCas a old =>
    if s.head = old then { s with head := a, pushed := bump s.pushed [a] }.goto t (.addCount 1)
    else s.goto t (.pushLoad a)
  -- percpu_refill
  | .fillLoad l => s.goto t (.fillLink l s.head)
  | .fillLink l old => { s with next := linkRun s.next l old }.goto t (.fillCas l old)
  | .fillCas l old =>
    if s.head = old then
      { s with head := l.headD 0, pushed := bump s.pushed l }.goto t (.addCount l.length)
    else s.goto t (.fillLoad l)
  | .addCount k => { s with count := incCount s.count k }.goto t .idle

inductive Act (T : Type) where
  | callPop (t : T)
  | callPush (t : T) (slot : Nat)
  | callRefill (t : T) (slots : List Nat)
  | tick (t : T)
  | spurious (t : T)
  | write (slot v : Nat)

/-- A compare-exchange that fails although the head matches. -/
def Pc.spurious : Pc → Pc
  | .popCas _ _ => .idle
  | .pushCas a _ => .pushLoad a
  | .fillCas l _ => .fillLoad l
  | p => p

/-- A pushed slot, and the slots a refill took from pages, are in nobody else's
hands; only slots outside the list are written. -/
def State.pre (s : State T) : Act T → Prop
  | .callPop t => s.pc t = .idle
  | .callPush t a => s.pc t = .idle ∧ a ≠ 0 ∧ s.hand a = true
  | .callRefill t l => s.pc t = .idle ∧ l ≠ [] ∧ l.Nodup ∧ ∀ a ∈ l, a ≠ 0 ∧ s.hand a = true
  | .tick _ => True
  | .spurious _ => True
  | .write a _ => s.hand a = true

instance decPre (s : State T) : (l : Act T) → Decidable (s.pre l)
  | .callPop t => inferInstanceAs (Decidable (s.pc t = .idle))
  | .callPush t a => inferInstanceAs (Decidable (s.pc t = .idle ∧ a ≠ 0 ∧ s.hand a = true))
  | .callRefill t l =>
    inferInstanceAs (Decidable (s.pc t = .idle ∧ l ≠ [] ∧ l.Nodup ∧ ∀ a ∈ l, a ≠ 0 ∧
      s.hand a = true))
  | .tick _ => inferInstanceAs (Decidable True)
  | .spurious _ => inferInstanceAs (Decidable True)
  | .write a _ => inferInstanceAs (Decidable (s.hand a = true))

def State.step (s : State T) : Act T → State T
  | .callPop t => s.goto t .popLoad
  | .callPush t a => { s with hand := Function.update s.hand a false }.goto t (.pushLoad a)
  | .callRefill t l =>
    { s with hand := fun a => if a ∈ l then false else s.hand a }.goto t (.fillLoad l)
  | .tick t => s.tick t
  | .spurious t => s.goto t (s.pc t).spurious
  | .write a v => { s with next := Function.update s.next a v }

/-- `percpu_init`: an empty list. -/
def State.init (next : Nat → Nat) : State T :=
  ⟨0, 0, next, fun _ => .idle, fun _ => true, fun _ => 0, fun _ => 0⟩

variable (T) in
def system : LTS (State T) (Act T) :=
  .det (fun s => ∃ next, s = State.init next) State.pre State.step

/-- The link a pop has read is still the link of the head it is about to take. -/
def Pc.Current (s : State T) : Pc → Prop
  | .popCas h n => s.head = h → s.next h = n
  | _ => True

/-- A pop whose compare-exchange finds the head it loaded finds it with the link it
read: the slot has not left the list and come back in between. -/
def HeadStays (s : State T) : Act T → Prop
  | .tick t => (s.pc t).Current s
  | _ => True

instance decCurrent (s : State T) : (p : Pc) → Decidable (p.Current s)
  | .popCas h n => inferInstanceAs (Decidable (s.head = h → s.next h = n))
  | .idle | .popLoad | .popRead .. | .popCount .. | .pushLoad .. | .pushFull .. | .pushLink ..
  | .pushCas ..
  | .fillLoad .. | .fillLink .. | .fillCas .. | .addCount .. => .isTrue trivial

instance decHeadStays (s : State T) : (l : Act T) → Decidable (HeadStays s l)
  | .tick t => decCurrent s (s.pc t)
  | .callPop .. | .callPush .. | .callRefill .. | .spurious .. | .write .. => .isTrue trivial

/-! ## Private runs -/

/-- The slots are linked in order and `old` hangs behind the last. -/
def Links (next : Nat → Nat) : List Nat → Nat → Prop
  | [], _ => False
  | [a], old => next a = old
  | a :: b :: l, old => next a = b ∧ Links next (b :: l) old

theorem Links.congr {next next' : Nat → Nat} {l : List Nat} {old : Nat} (h : Links next l old)
    (hag : ∀ a ∈ l, next' a = next a) : Links next' l old := by
  induction l with
  | nil => exact h
  | cons a l ih =>
    cases l with
    | nil => exact (hag a (by simp)).trans h
    | cons b l =>
      exact ⟨(hag a (by simp)).trans h.1, ih h.2 fun c hc => hag c (List.mem_cons_of_mem _ hc)⟩

theorem linkRun_of_notMem {next : Nat → Nat} {l : List Nat} {old a : Nat} (ha : a ∉ l) :
    linkRun next l old a = next a := by
  induction l with
  | nil => rfl
  | cons b l ih =>
    obtain ⟨h1, h2⟩ := not_or.mp (mt List.mem_cons.mpr ha)
    cases l with
    | nil => exact Function.update_of_ne h1 _ _
    | cons c l => exact (Function.update_of_ne h1 _ _).trans (ih h2)

theorem linkRun_links (next : Nat → Nat) {l : List Nat} (old : Nat) (hl : l ≠ []) (hnd : l.Nodup) :
    Links (linkRun next l old) l old := by
  induction l with
  | nil => exact absurd rfl hl
  | cons a l ih =>
    obtain ⟨ha, hnd⟩ := List.nodup_cons.mp hnd
    cases l with
    | nil => exact Function.update_self ..
    | cons b l =>
      refine ⟨Function.update_self .., (ih (by simp) hnd).congr fun c hc => ?_⟩
      exact Function.update_of_ne (fun e => ha (by rw [← e]; exact hc)) _ _

/-- A private run in front of a chain. -/
theorem Links.chain {next : Nat → Nat} {l q : List Nat} {old : Nat} (h : Links next l old)
    (h0 : ∀ a ∈ l, a ≠ 0) (hq : Chain next old q) : Chain next (l.headD 0) (l ++ q) := by
  induction l with
  | nil => exact h.elim
  | cons a l ih =>
    refine ⟨rfl, h0 a (by simp), ?_⟩
    cases l with
    | nil => rw [show next a = old from h]; exact hq
    | cons b l =>
      rw [h.1]
      exact ih h.2 fun c hc => h0 c (List.mem_cons_of_mem _ hc)

/-! ## Where the slots are -/

/-- The slots a thread holds at a program counter. -/
def Pc.Work (next : Nat → Nat) (l : List Nat) : Pc → Prop
  | .popRead h | .popCas h _ => l = [] ∧ h ≠ 0
  | .popCount a | .pushLoad a | .pushFull a _ | .pushLink a _ => l = [a]
  | .pushCas a old => l = [a] ∧ next a = old
  | .fillLoad ls | .fillLink ls _ => l = ls ∧ ls ≠ []
  | .fillCas ls old => l = ls ∧ Links next ls old
  | _ => l = []

structure Placed (s : State T) (q : List Nat) (W : T → List Nat)
    (loc : Nat → Box Unit T) : Prop where
  boxed : Boxed s.next (fun _ : Unit => s.head) (fun _ => q) W loc
  hand : ∀ a, s.hand a = true ↔ loc a = .hand
  work : ∀ t, (s.pc t).Work s.next (W t)
  nonzero : ∀ a, loc a ≠ .hand → a ≠ 0
  count : ∀ a, s.pushed a = s.popped a + if a ∈ q then 1 else 0

section Placed
variable {s s' : State T} {q : List Nat} {W : T → List Nat} {loc : Nat → Box Unit T}
  {t : T} {p : Pc}

theorem Pc.Work.congr {next next' : Nat → Nat} {l : List Nat} (h : p.Work next l)
    (hag : ∀ a ∈ l, next' a = next a) : p.Work next' l := by
  cases p with
  | pushCas a old =>
    obtain ⟨rfl, h⟩ := h
    exact ⟨rfl, (hag a (by simp)).trans h⟩
  | fillCas ls old =>
    obtain ⟨rfl, h⟩ := h
    exact ⟨rfl, h.congr hag⟩
  | _ => exact h

omit [DecidableEq T] in
theorem Placed.owner (h : Placed s q W loc) {u : T} {a : Nat} (ha : a ∈ W u) : loc a = .thread u :=
  (h.boxed.inW u a).mp ha

/-- The work of all threads after `t` has moved on to `p`. -/
theorem work_update {next : Nat → Nat} {pc : T → Pc} {W : T → List Nat} {l : List Nat}
    (h : ∀ u, (pc u).Work next (W u)) (hp : p.Work next l) (u : T) :
    (Function.update pc t p u).Work next (Function.update W t l u) := by
  by_cases e : u = t
  · subst e; rw [Function.update_self, Function.update_self]; exact hp
  · rw [Function.update_of_ne e, Function.update_of_ne e]; exact h u

/-- A step of `t` that moves no slot. -/
theorem Placed.goto (h : Placed s q W loc) (hpc : s'.pc = Function.update s.pc t p)
    (hh : s'.head = s.head) (hn : s'.next = s.next) (hha : s'.hand = s.hand)
    (hp : s'.pushed = s.pushed) (ho : s'.popped = s.popped) (hw : p.Work s.next (W t)) :
    Placed s' q W loc := by
  refine ⟨by rw [hn, hh]; exact h.boxed, by rw [hha]; exact h.hand, fun u => ?_, h.nonzero,
    by rw [hp, ho]; exact h.count⟩
  rw [hpc, hn]
  have := work_update (t := t) h.work hw u
  rwa [Function.update_eq_self] at this

/-- `t` writes links of its own slots. -/
theorem Placed.link {next' : Nat → Nat} (h : Placed s q W loc)
    (hn : ∀ a, a ∉ W t → next' a = s.next a) (hw : p.Work next' (W t)) :
    Placed ({ s with next := next' }.goto t p) q W loc := by
  have hother : ∀ {a : Nat} {x : Box Unit T}, loc a = x → x ≠ .thread t → next' a = s.next a := by
    rintro a x ha hx
    refine hn a fun hm => hx ?_
    rw [← ha]; exact h.owner hm
  refine ⟨h.boxed.write fun b i hb => hother hb nofun, h.hand, fun u => ?_, h.nonzero, h.count⟩
  show (Function.update s.pc t p u).Work next' (W u)
  by_cases e : u = t
  · subst e; rw [Function.update_self]; exact hw
  · rw [Function.update_of_ne e]
    exact (h.work u).congr fun b hb => hother (h.owner hb) fun e' => e (Box.thread.inj e')

/-- `t` hands its one slot to a user. -/
theorem Placed.give {a : Nat} (h : Placed s q W loc) (hW : W t = [a]) (hh : s'.head = s.head)
    (hn : s'.next = s.next) (hha : s'.hand = Function.update s.hand a true)
    (hpc : s'.pc = Function.update s.pc t .idle) (hp : s'.pushed = s.pushed)
    (ho : s'.popped = s.popped) : ∃ W' loc', Placed s' q W' loc' := by
  refine ⟨_, _, by rw [hn, hh]; exact h.boxed.give hW, fun b => ?_, fun u => ?_, fun b hb => ?_,
    by rw [hp, ho]; exact h.count⟩
  · rw [hha]
    by_cases e : b = a
    · subst e; simp
    · rw [Function.update_of_ne e, Function.update_of_ne e]; exact h.hand b
  · rw [hpc, hn]
    exact work_update (t := t) (p := .idle) (l := []) h.work rfl u
  · by_cases e : b = a
    · subst e; exact absurd (Function.update_self ..) hb
    · rw [Function.update_of_ne e] at hb; exact h.nonzero b hb

theorem unit_update {α : Type} (x y : α) :
    Function.update (fun _ : Unit => x) () y = fun _ => y := by
  funext u; simp

/-- A successful publication of the slots `l` of `t`. -/
theorem Placed.publish {l : List Nat} (h : Placed s q W loc) (hW : W t = l)
    (hl : Links s.next l s.head) {k : Nat} :
    ∃ loc', Placed ({ s with head := l.headD 0, pushed := bump s.pushed l }.goto t (.addCount k))
      (l ++ q) (Function.update W t []) loc' := by
  have hloc : ∀ a ∈ l, loc a = .thread t := fun a ha => h.owner (by rw [hW]; exact ha)
  have h0 : ∀ a ∈ l, a ≠ 0 := fun a ha => h.nonzero a (by rw [hloc a ha]; exact nofun)
  have hc : Chain s.next (l.headD 0) (l ++ q) := hl.chain h0 (h.boxed.chain ())
  have hb := h.boxed.publish (i := ()) hW hc
  rw [unit_update, unit_update] at hb
  refine ⟨_, hb, fun b => ?_,
    fun u => work_update (t := t) (p := .addCount k) (l := []) h.work rfl u,
    fun b hb => ?_, fun b => ?_⟩
  · show s.hand b = true ↔ _
    by_cases e : b ∈ l
    · rw [if_pos e, h.hand, hloc b e]; simp
    · rw [if_neg e, h.hand]
  · by_cases e : b ∈ l
    · exact h0 b e
    · rw [if_neg e] at hb; exact h.nonzero b hb
  · show bump s.pushed l b = s.popped b + _
    have hcount := h.count b
    unfold bump
    by_cases e : b ∈ l
    · have hq : b ∉ q := fun hm => by
        have := (h.boxed.inQ () b).mp hm
        rw [hloc b e] at this; cases this
      rw [if_neg hq] at hcount
      rw [if_pos e, if_pos (List.mem_append_left _ e)]; omega
    · rw [if_neg e, hcount]
      simp [e]

/-- A successful pop, when the link read is the head's link. -/
theorem Placed.pop {a : Nat} (h : Placed s q W loc) (hpc : s.pc t = .popCas a (s.next a))
    (hh : s.head = a) : ∃ q' loc',
    Placed ({ s with head := s.next a, popped := bump s.popped [a] }.goto t (.popCount a))
      q' (Function.update W t [a]) loc' := by
  have hw := h.work t
  rw [hpc] at hw
  obtain ⟨hW, h0⟩ := hw
  have hchain := h.boxed.chain ()
  rw [hh] at hchain
  obtain ⟨q', rfl, -⟩ := hchain.exists_cons h0
  have hnd := hchain.nodup
  have hb := h.boxed.pop (i := ()) rfl hW
  rw [unit_update, unit_update] at hb
  have ha : loc a = .queue () := (h.boxed.inQ () a).mp (by simp)
  refine ⟨q', _, hb, fun b => ?_,
    fun u => work_update (t := t) (p := .popCount a) (l := [a]) h.work rfl u,
    fun b hb => ?_, fun b => ?_⟩
  · show s.hand b = true ↔ _
    by_cases e : b = a
    · subst e; rw [h.hand, ha]; simp
    · rw [Function.update_of_ne e, h.hand]
  · by_cases e : b = a
    · rw [e]; exact h0
    · rw [Function.update_of_ne e] at hb; exact h.nonzero b hb
  · show s.pushed b = bump s.popped [a] b + _
    have hcount := h.count b
    unfold bump
    by_cases e : b = a
    · subst e
      have hn : b ∉ q' := (List.nodup_cons.mp hnd).1
      simp only [List.mem_cons, true_or, if_true] at hcount
      simp [hn, hcount]
    · simp only [List.mem_cons, e, false_or] at hcount
      simp [e, hcount]

/-- `t` takes slots from their pages or users. -/
theorem Placed.take {l : List Nat} (h : Placed s q W loc) (hpc : s.pc t = .idle) (hnd : l.Nodup)
    (hl : ∀ a ∈ l, a ≠ 0 ∧ s.hand a = true) (hh : s'.head = s.head) (hn : s'.next = s.next)
    (hha : ∀ a, s'.hand a = if a ∈ l then false else s.hand a)
    (hp : s'.pc = Function.update s.pc t p) (hpu : s'.pushed = s.pushed) (ho : s'.popped = s.popped)
    (hw : p.Work s.next l) : ∃ W' loc', Placed s' q W' loc' := by
  have hW := h.work t
  rw [hpc] at hW
  refine ⟨_, _, by rw [hn, hh]; exact h.boxed.take hW hnd fun a ha => (h.hand a).mp (hl a ha).2,
    fun b => ?_,
    fun u => ?_, fun b hb => ?_, by rw [hpu, ho]; exact h.count⟩
  · rw [hha]
    by_cases e : b ∈ l
    · rw [if_pos e, if_pos e]; simp
    · rw [if_neg e, if_neg e]; exact h.hand b
  · rw [hp, hn]
    exact work_update (t := t) h.work hw u
  · by_cases e : b ∈ l
    · exact (hl b e).1
    · rw [if_neg e] at hb; exact h.nonzero b hb

/-- The invariant of all interleavings in which the head a pop takes is the one it
read. -/
def Inv (s : State T) : Prop := ∃ q W loc, Placed s q W loc

theorem Placed.give_inv {a : Nat} (h : Placed s q W loc) (hW : W t = [a]) (c : Nat) :
    Inv ({ s with count := c, hand := Function.update s.hand a true }.goto t .idle) :=
  ⟨q, h.give hW rfl rfl rfl rfl rfl rfl⟩

theorem tick_inv (h : Inv s) (hcur : HeadStays s (.tick t)) : Inv (s.tick t) := by
  obtain ⟨q, W, loc, h⟩ := h
  have hw := h.work t
  unfold State.tick
  cases hpc : s.pc t with
  | idle => exact ⟨q, W, loc, h⟩
  | popLoad =>
    rw [hpc] at hw
    simp only
    split
    · exact ⟨q, W, loc, h.goto (t := t) rfl rfl rfl rfl rfl rfl hw⟩
    · rename_i h0
      exact ⟨q, W, loc, h.goto (t := t) rfl rfl rfl rfl rfl rfl ⟨hw, h0⟩⟩
  | popRead a =>
    rw [hpc] at hw
    exact ⟨q, W, loc, h.goto (t := t) rfl rfl rfl rfl rfl rfl hw⟩
  | popCas a n =>
    rw [hpc] at hw
    simp only
    split
    · rename_i hh
      have hn : s.next a = n := by
        simp only [HeadStays, hpc] at hcur
        exact hcur hh
      subst hn
      obtain ⟨q', loc', h'⟩ := h.pop hpc hh
      exact ⟨q', _, loc', h'⟩
    · exact ⟨q, W, loc, h.goto (t := t) rfl rfl rfl rfl rfl rfl hw.1⟩
  | popCount a =>
    rw [hpc] at hw
    exact h.give_inv hw _
  | pushLoad a =>
    rw [hpc] at hw
    exact ⟨q, W, loc, h.goto (t := t) rfl rfl rfl rfl rfl rfl hw⟩
  | pushFull a old =>
    rw [hpc] at hw
    simp only
    split
    · exact ⟨q, h.give hw rfl rfl rfl rfl rfl rfl⟩
    · exact ⟨q, W, loc, h.goto (t := t) rfl rfl rfl rfl rfl rfl hw⟩
  | pushLink a old =>
    rw [hpc] at hw
    refine ⟨q, W, loc, h.link (fun b hb => Function.update_of_ne (fun e => hb ?_) _ _)
      ⟨hw, Function.update_self ..⟩⟩
    rw [e, show W t = [a] from hw]; simp
  | pushCas a old =>
    rw [hpc] at hw
    simp only
    split
    · rename_i hh
      obtain ⟨hW, hn⟩ := hw
      obtain ⟨loc', h'⟩ := h.publish (k := 1) hW (show s.next a = s.head from hn.trans hh.symm)
      exact ⟨_, _, loc', h'⟩
    · exact ⟨q, W, loc, h.goto (t := t) rfl rfl rfl rfl rfl rfl hw.1⟩
  | fillLoad l =>
    rw [hpc] at hw
    exact ⟨q, W, loc, h.goto (t := t) rfl rfl rfl rfl rfl rfl hw⟩
  | fillLink l old =>
    rw [hpc] at hw
    obtain ⟨hW, hl⟩ := hw
    refine ⟨q, W, loc, h.link (fun b hb => linkRun_of_notMem ?_) ⟨hW, linkRun_links _ _ hl ?_⟩⟩
    · rw [← hW]; exact hb
    · rw [← hW]; exact h.boxed.nodup t
  | fillCas l old =>
    rw [hpc] at hw
    simp only
    split
    · rename_i hh
      obtain ⟨hW, hl⟩ := hw
      obtain ⟨loc', h'⟩ := h.publish (k := l.length) hW (by rw [hh]; exact hl)
      exact ⟨_, _, loc', h'⟩
    · refine ⟨q, W, loc, h.goto (t := t) rfl rfl rfl rfl rfl rfl ⟨hw.1, fun e => ?_⟩⟩
      have := hw.2
      rw [e] at this; exact this
  | addCount k =>
    rw [hpc] at hw
    simp only
    generalize incCount s.count k = c
    exact ⟨q, W, loc, h.goto (t := t) rfl rfl rfl rfl rfl rfl hw⟩

theorem step_inv {l : Act T} (h : Inv s) (hpre : s.pre l) (hcur : HeadStays s l) :
    Inv (s.step l) := by
  cases l with
  | tick t => exact tick_inv h hcur
  | callPop t =>
    obtain ⟨q, W, loc, h⟩ := h
    have hw := h.work t
    rw [show s.pc t = .idle from hpre] at hw
    exact ⟨q, W, loc, h.goto (t := t) rfl rfl rfl rfl rfl rfl hw⟩
  | callPush t a =>
    obtain ⟨q, W, loc, h⟩ := h
    obtain ⟨hpc, h0, ha⟩ := hpre
    refine ⟨q,
      h.take (p := .pushLoad a) (l := [a]) hpc (List.nodup_singleton a) (fun b hb => ?_) rfl rfl
      (fun b => ?_) rfl rfl rfl rfl⟩
    · rw [List.mem_singleton.mp hb]; exact ⟨h0, ha⟩
    · simp [State.step, State.goto, Function.update_apply]
  | callRefill t l =>
    obtain ⟨q, W, loc, h⟩ := h
    obtain ⟨hpc, hne, hnd, hl⟩ := hpre
    exact ⟨q, h.take hpc hnd hl rfl rfl (fun _ => rfl) rfl rfl rfl ⟨rfl, hne⟩⟩
  | spurious t =>
    obtain ⟨q, W, loc, h⟩ := h
    refine ⟨q, W, loc, h.goto (t := t) rfl rfl rfl rfl rfl rfl ?_⟩
    have hw := h.work t
    cases hpc : s.pc t with
    | popCas a n => rw [hpc] at hw; exact hw.1
    | pushCas a old => rw [hpc] at hw; exact hw.1
    | fillCas l old =>
      rw [hpc] at hw
      refine ⟨hw.1, fun e => ?_⟩
      have := hw.2
      rw [e] at this; exact this
    | _ => rw [hpc] at hw; exact hw
  | write a v =>
    obtain ⟨q, W, loc, h⟩ := h
    have hl := (h.hand a).mp hpre
    have hne : ∀ {b : Nat} {x : Box Unit T}, loc b = x → x ≠ .hand →
      Function.update s.next a v b = s.next b := by
      rintro b x hb hx
      refine Function.update_of_ne (fun e => hx ?_) _ _
      rw [← hb, e]; exact hl
    exact ⟨q, W, loc, h.boxed.write fun b i hb => hne hb nofun, h.hand,
      fun u => (h.work u).congr fun b hb => hne (h.owner hb) nofun, h.nonzero, h.count⟩

theorem inductive_inv : ((system T).guard HeadStays).Inductive Inv where
  init s hs := by
    obtain ⟨next, rfl⟩ := hs
    refine ⟨[], fun _ => [], fun _ => .hand, ⟨fun _ => rfl, ?_, ?_, fun _ => List.nodup_nil⟩, ?_,
      fun _ => rfl,
      fun a ha => absurd rfl ha, fun _ => rfl⟩
    · intro i a; simp
    · intro t a; simp
    · intro a; simp [State.init]
  step s l s' h hs := by
    obtain ⟨⟨hpre, rfl⟩, hcur⟩ := hs
    exact step_inv h hpre hcur

omit [DecidableEq T] in
/-- The slot that a pop has taken is in nobody's hands. -/
theorem Inv.popped {a : Nat} (h : Inv s) (hpc : s.pc t = .popCount a) :
    a ≠ 0 ∧ s.hand a = false := by
  obtain ⟨q, W, loc, h⟩ := h
  have hw := h.work t
  rw [hpc] at hw
  have hl : loc a = .thread t :=
    h.owner (by rw [show W t = [a] from hw]; exact List.mem_singleton_self a)
  refine ⟨h.nonzero a (by rw [hl]; exact nofun), ?_⟩
  rw [← Bool.not_eq_true, h.hand, hl]
  exact nofun

theorem tick_pc {u : T} (hu : u ≠ t) : (s.tick t).pc u = s.pc u := by
  have hup : ∀ p, Function.update s.pc t p u = s.pc u := fun p => Function.update_of_ne hu _ _
  unfold State.tick
  cases s.pc t with
  | idle => rfl
  | popCas | pushFull | pushCas | fillCas => dsimp only; split <;> exact hup _
  | _ => exact hup _

/-- A slot in somebody's hands stays there while a thread is in the list. -/
theorem tick_hand {a : Nat} (ha : s.hand a = true) : (s.tick t).hand a = true := by
  have hup : ∀ b, Function.update s.hand b true a = true := by
    intro b
    rw [Function.update_apply]
    split
    · rfl
    · exact ha
  unfold State.tick
  cases s.pc t with
  | popCount => exact hup _
  | pushFull => dsimp only; split; exacts [hup _, ha]
  | popCas | pushCas | fillCas => dsimp only; split <;> exact ha
  | _ => exact ha

end Placed

/-! ## Linearity -/

/-- The list from `head` ends, and its members are exactly the slots that were
published once more than they were popped; all other slots were popped as often
as published. -/
def Linear (s : State T) : Prop :=
  ∃ q, Chain s.next s.head q ∧
    ∀ a, (a ∈ q ∧ s.pushed a = s.popped a + 1) ∨ (a ∉ q ∧ s.pushed a = s.popped a)

/-- **Linearity of the freelist**, in every interleaving in which the head a pop
takes is the head it read. -/
theorem freelist_linear {s : State T} (hr : ((system T).guard HeadStays).Reachable s) :
    Linear s := by
  obtain ⟨q, W, loc, h⟩ := inductive_inv.reachable hr
  refine ⟨q, h.boxed.chain (), fun a => ?_⟩
  have hc := h.count a
  by_cases e : a ∈ q
  · rw [if_pos e] at hc; exact .inl ⟨e, hc⟩
  · rw [if_neg e] at hc; exact .inr ⟨e, hc⟩

/-- Two slots are refilled; a pop by one thread is stopped before its
compare-exchange. -/
def stoppedPop : List (Act Bool) :=
  [.callRefill true [0x10100, 0x10200], .tick true, .tick true, .tick true, .tick true,
   .callPop false, .tick false, .tick false]

/-- The other thread pops both slots and pushes the first one back. -/
def popPopPush : List (Act Bool) :=
  [.callPop true, .tick true, .tick true, .tick true, .tick true,
   .callPop true, .tick true, .tick true, .tick true, .tick true,
   .callPush true 0x10100, .tick true, .tick true, .tick true, .tick true, .tick true]

def abaRun : List (Act Bool) := stoppedPop ++ popPopPush ++ [.tick false]

def popRun : List (Act Bool) := stoppedPop ++ [.tick false, .tick false] ++ popPopPush.take 5

theorem freelist_linear_after_pops : Linear (popRun.foldl State.step (State.init fun _ => 0)) :=
  freelist_linear (LTS.Reachable.run (.init ⟨fun _ => 0, rfl⟩) (by decide +kernel))

/-- **Defect.** The stopped pop goes on: the head is the slot it loaded, and it
installs the link it read long ago, a slot that is in a user's hands. -/
theorem aba : ∃ s : State Bool, (system Bool).Reachable s ∧ ¬ Linear s := by
  refine ⟨abaRun.foldl State.step (State.init fun _ => 0), ?_, ?_⟩
  · refine LTS.Reachable.of_guard (C := fun _ _ => True)
      (LTS.Reachable.run (.init ⟨fun _ => 0, rfl⟩) ?_)
    decide +kernel
  · rintro ⟨q, hc, hq⟩
    have hhead : (abaRun.foldl State.step (State.init fun _ => 0)).head = 0x10200 := by
      decide +kernel
    have hcount : (abaRun.foldl State.step (State.init fun _ => 0)).pushed 0x10200 =
        (abaRun.foldl State.step (State.init fun _ => 0)).popped 0x10200 := by decide +kernel
    rw [hhead] at hc
    obtain ⟨l, rfl, -⟩ := hc.exists_cons (by decide)
    rcases hq 0x10200 with ⟨-, h1⟩ | ⟨h1, -⟩
    · omega
    · exact h1 List.mem_cons_self

end Cmem.L2.PerCpu
