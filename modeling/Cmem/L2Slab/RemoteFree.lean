import Mathlib
import Cmem.Core.Boxes
import Cmem.Core.LTS

/-!
# The remote-free queues of a pool

`remote_free_push`, `remote_free_harvest_all` and `remote_free_harvest`
(src/src/cmem_slab.c:583-724) by any number of threads, broken up at their atomic
operations: one `tick` is one load, store, exchange or compare-exchange, or the
return of one slot to its page. The compare-exchange is the weak one and may fail
spuriously. The class lock that harvesters hold only removes interleavings and is
left out; so are the page lists a returned slot goes to.

A slot is an address, its link the word at it. `hand` tells which slots are with
their page or a user; such a slot may be written at any time. `pushes` and
`returns` count, for each slot, the calls of `remote_free_push` and of
`slab_free_nolock`.

A push raises `remote_free_pending` before the flag of its class. A
`remote_free_harvest_all` between the two lowers the first and skips the class:
the slot stays in its queue with `remote_free_pending` down (`wakeup_lost`).
-/
namespace Cmem.L2.RemoteFree

/-- `SLAB_CLASS_COUNT`. -/
def classCount : Nat := 12

/-- What the loops accept as a slot: `slot & CMEM_SLAB_ALIGN_MASK == 0` and not
below `0x10000`. -/
def ValidSlot (a : Nat) : Prop := a % 8 = 0 ∧ 0x10000 ≤ a

instance (a : Nat) : Decidable (ValidSlot a) := inferInstanceAs (Decidable (_ ∧ _))

/-- Program counters; `all` tells `remote_free_harvest_all` from
`remote_free_harvest`. -/
inductive Pc where
  | idle
  | pushLoad (c slot : Nat)
  | pushLink (c slot old : Nat)
  | pushCas (c slot old : Nat)
  | pushPend (c : Nat)
  | pushClass (c : Nat)
  | allLoad
  | allClear
  | visit (i : Nat)
  | oneLoad (c : Nat)
  | clearClass (c : Nat) (all : Bool)
  | exch (c : Nat) (all : Bool)
  | walk (c slot : Nat) (all : Bool)
  deriving DecidableEq

structure State (T : Type) where
  queue : Nat → Nat
  pending : Bool
  pendingClass : Nat → Bool
  next : Nat → Nat
  pc : T → Pc
  hand : Nat → Bool
  pushes : Nat → Nat
  returns : Nat → Nat

variable {T : Type} [DecidableEq T]

def State.goto (s : State T) (t : T) (p : Pc) : State T := { s with pc := Function.update s.pc t p }

/-- Behind the last slot of class `c`. -/
def Pc.done (c : Nat) (all : Bool) : Pc := if all then .visit (c + 1) else .idle

/-- One step of thread `t`. -/
def State.tick (s : State T) (t : T) : State T :=
  match s.pc t with
  | .idle => s
  -- remote_free_push
  | .pushLoad c a => s.goto t (.pushLink c a (s.queue c))
  | .pushLink c a old => { s with next := Function.update s.next a old }.goto t (.pushCas c a old)
  | .pushCas c a old =>
    if s.queue c = old then { s with queue := Function.update s.queue c a }.goto t (.pushPend c)
    else s.goto t (.pushLink c a (s.queue c))
  | .pushPend c => { s with pending := true }.goto t (.pushClass c)
  | .pushClass c => { s with pendingClass := Function.update s.pendingClass c true }.goto t .idle
  -- remote_free_harvest_all
  | .allLoad => s.goto t (if s.pending then .allClear else .idle)
  | .allClear => { s with pending := false }.goto t (.visit 0)
  | .visit i =>
    s.goto t
      (if i < classCount then (if s.pendingClass i then .clearClass i true else .visit (i + 1))
      else .idle)
  -- remote_free_harvest
  | .oneLoad c => s.goto t (if s.pendingClass c then .clearClass c false else .idle)
  -- both
  | .clearClass c all =>
    { s with pendingClass := Function.update s.pendingClass c false }.goto t (.exch c all)
  | .exch c all => { s with queue := Function.update s.queue c 0 }.goto t (.walk c (s.queue c) all)
  | .walk c a all =>
    if a = 0 ∨ ¬ ValidSlot a then s.goto t (.done c all)
    else { s with hand := Function.update s.hand a true,
                  returns := Function.update s.returns a (s.returns a + 1) }.goto t
      (.walk c (s.next a) all)

inductive Act (T : Type) where
  | callPush (t : T) (c slot : Nat)
  | callHarvestAll (t : T)
  | callHarvest (t : T) (c : Nat)
  | tick (t : T)
  | spurious (t : T)
  | write (slot v : Nat)

/-- About to perform the compare-exchange. -/
def Pc.atCas : Pc → Bool
  | .pushCas _ _ _ => true
  | _ => false

theorem Pc.eq_of_atCas {p : Pc} (h : p.atCas = true) : ∃ c a old, p = .pushCas c a old := by
  cases p <;> first | exact ⟨_, _, _, rfl⟩ | cases h

/-- A pushed slot is a slot of the caller; only slots outside the queues are
written. -/
def State.pre (s : State T) : Act T → Prop
  | .callPush t c a => s.pc t = .idle ∧ c < classCount ∧ s.hand a = true ∧ ValidSlot a
  | .callHarvestAll t => s.pc t = .idle
  | .callHarvest t c => s.pc t = .idle ∧ c < classCount
  | .tick _ => True
  | .spurious t => (s.pc t).atCas = true
  | .write a _ => s.hand a = true

instance decPre (s : State T) : (l : Act T) → Decidable (s.pre l)
  | .callPush t c a =>
    inferInstanceAs (Decidable (s.pc t = .idle ∧ c < classCount ∧ s.hand a = true ∧ ValidSlot a))
  | .callHarvestAll t => inferInstanceAs (Decidable (s.pc t = .idle))
  | .callHarvest t c => inferInstanceAs (Decidable (s.pc t = .idle ∧ c < classCount))
  | .tick _ => inferInstanceAs (Decidable True)
  | .spurious t => inferInstanceAs (Decidable ((s.pc t).atCas = true))
  | .write a _ => inferInstanceAs (Decidable (s.hand a = true))

def State.step (s : State T) : Act T → State T
  | .callPush t c a =>
    { s with hand := Function.update s.hand a false,
             pushes := Function.update s.pushes a (s.pushes a + 1) }.goto t (.pushLoad c a)
  | .callHarvestAll t => s.goto t .allLoad
  | .callHarvest t c => s.goto t (.oneLoad c)
  | .tick t => s.tick t
  | .spurious t =>
    match s.pc t with
    | .pushCas c a _ => s.goto t (.pushLink c a (s.queue c))
    | _ => s
  | .write a v => { s with next := Function.update s.next a v }

/-- `slab_init_classes`: empty queues, flags down. -/
def State.init (next : Nat → Nat) : State T :=
  ⟨fun _ => 0, false, fun _ => false, next, fun _ => .idle, fun _ => true, fun _ => 0, fun _ => 0⟩

variable (T) in
def system : LTS (State T) (Act T) :=
  .det (fun s => ∃ next, s = State.init next) State.pre State.step

/-- A thread that finds the flag of class `c` down, and skips the class, does so
while no push of that class is between its two flag stores, or with
`remote_free_pending` up again. -/
def Pc.SkipOk (s : State T) : Pc → Prop
  | .visit c => s.pendingClass c = false → (∃ u, s.pc u = .pushClass c) → s.pending = true
  | _ => True

def SkipTimely (s : State T) : Act T → Prop
  | .tick t => (s.pc t).SkipOk s
  | _ => True

instance decSkipOk [Fintype T] (s : State T) : (p : Pc) → Decidable (p.SkipOk s)
  | .visit c =>
    inferInstanceAs (Decidable (s.pendingClass c = false → (∃ u, s.pc u = .pushClass c) →
      s.pending = true))
  | .idle | .pushLoad .. | .pushLink .. | .pushCas .. | .pushPend .. | .pushClass .. | .allLoad
  | .allClear
  | .oneLoad .. | .clearClass .. | .exch .. | .walk .. => .isTrue trivial

instance decSkipTimely [Fintype T] (s : State T) : (l : Act T) → Decidable (SkipTimely s l)
  | .tick t => decSkipOk s (s.pc t)
  | .callPush .. | .callHarvestAll .. | .callHarvest .. | .spurious .. | .write .. =>
    .isTrue trivial

/-! ## Where the slots are -/

/-- The slots a thread holds at a program counter. -/
def Pc.Work (next : Nat → Nat) (l : List Nat) : Pc → Prop
  | .pushLoad _ a | .pushLink _ a _ => l = [a]
  | .pushCas _ a old => l = [a] ∧ next a = old
  | .walk _ p _ => Chain next p l
  | _ => l = []

/-- Class indices are in range. -/
def Pc.InRange : Pc → Prop
  | .pushLoad c _ | .pushLink c _ _ | .pushCas c _ _ => c < classCount
  | _ => True

structure Placed (s : State T) (Q : Nat → List Nat) (W : T → List Nat)
    (loc : Nat → Box Nat T) : Prop where
  boxed : Boxed s.next s.queue Q W loc
  hand : ∀ a, s.hand a = true ↔ loc a = .hand
  work : ∀ t, (s.pc t).Work s.next (W t)
  valid : ∀ a, loc a ≠ .hand → ValidSlot a
  inRange : ∀ t, (s.pc t).InRange
  range : ∀ c a, loc a = .queue c → c < classCount
  count : ∀ a, s.pushes a = s.returns a + if s.hand a then 0 else 1

section Placed
variable {s s' : State T} {Q : Nat → List Nat} {W : T → List Nat} {loc : Nat → Box Nat T}
  {t : T} {p : Pc}

theorem Pc.Work.congr {next next' : Nat → Nat} {l : List Nat} (h : p.Work next l)
    (hag : ∀ a ∈ l, next' a = next a) : p.Work next' l := by
  cases p with
  | pushCas c a old =>
    obtain ⟨rfl, h⟩ := h
    exact ⟨rfl, (hag a (by simp)).trans h⟩
  | walk c q all => exact Chain.congr h hag
  | _ => exact h

/-- A step of `t` that moves no slot. -/
theorem Placed.goto (h : Placed s Q W loc) (hpc : s'.pc = Function.update s.pc t p)
    (hq : s'.queue = s.queue) (hn : s'.next = s.next) (hh : s'.hand = s.hand)
    (hp : s'.pushes = s.pushes) (hr : s'.returns = s.returns) (hw : p.Work s.next (W t))
    (hi : p.InRange) :
    Placed s' Q W loc := by
  refine ⟨by rw [hn, hq]; exact h.boxed, by rw [hh]; exact h.hand, fun u => ?_, h.valid,
    fun u => ?_, h.range, by rw [hh, hp, hr]; exact h.count⟩ <;> rw [hpc] <;> by_cases e : u = t
  · subst e; rw [Function.update_self, hn]; exact hw
  · rw [Function.update_of_ne e, hn]; exact h.work u
  · subst e; rw [Function.update_self]; exact hi
  · rw [Function.update_of_ne e]; exact h.inRange u

omit [DecidableEq T] in
theorem Placed.owner (h : Placed s Q W loc) {u : T} {a : Nat} (ha : a ∈ W u) : loc a = .thread u :=
  (h.boxed.inW u a).mp ha

/-- A thread links the slot it holds. -/
theorem Placed.link {c a old : Nat} (h : Placed s Q W loc) (hpc : s.pc t = .pushLink c a old) :
    Placed ({ s with next := Function.update s.next a old }.goto t (.pushCas c a old)) Q W loc := by
  have hw := h.work t
  rw [hpc] at hw
  have ha : loc a = .thread t := h.owner (by rw [show W t = [a] from hw]; simp)
  have hi := h.inRange t
  rw [hpc] at hi
  refine ⟨h.boxed.write fun b i hb => ?_, h.hand, fun u => ?_, h.valid, fun u => ?_,
    h.range, h.count⟩
  · exact Function.update_of_ne (fun e => by rw [e, ha] at hb; cases hb) _ _
  · simp only [State.goto]
    by_cases e : u = t
    · subst e
      rw [Function.update_self]
      exact ⟨hw, Function.update_self ..⟩
    · rw [Function.update_of_ne e]
      refine (h.work u).congr fun b hb => Function.update_of_ne (fun eb => ?_) _ _
      have := h.owner hb
      rw [eb, ha] at this
      exact e (Box.thread.inj this).symm
  · simp only [State.goto]
    by_cases e : u = t
    · subst e; rw [Function.update_self]; exact hi
    · rw [Function.update_of_ne e]; exact h.inRange u

/-- A successful compare-exchange puts the slot in front of its queue. -/
theorem Placed.push {c a : Nat} (h : Placed s Q W loc) (hpc : s.pc t = .pushCas c a (s.queue c)) :
    ∃ loc', Placed ({ s with queue := Function.update s.queue c a }.goto t (.pushPend c))
      (Function.update Q c (a :: Q c)) (Function.update W t []) loc' := by
  have hw := h.work t
  rw [hpc] at hw
  obtain ⟨hW, hn⟩ := hw
  have ha : loc a = .thread t := h.owner (by rw [hW]; simp)
  have hv := h.valid a (by rw [ha]; exact nofun)
  have hi := h.inRange t
  rw [hpc] at hi
  have hc : Chain s.next a ([a] ++ Q c) := by
    refine ⟨rfl, ?_, ?_⟩
    · rintro rfl; exact absurd hv.2 (by decide)
    · rw [hn]; exact h.boxed.chain c
  refine ⟨_, h.boxed.publish hW hc, fun b => ?_, fun u => ?_, fun b hb => ?_, fun u => ?_,
    fun d b hb => ?_, h.count⟩
  · show s.hand b = true ↔ _
    by_cases e : b ∈ [a]
    · rw [if_pos e, h.hand, List.mem_singleton.mp e, ha]; simp
    · rw [if_neg e, h.hand]
  · simp only [State.goto]
    by_cases e : u = t
    · subst e; rw [Function.update_self, Function.update_self]; rfl
    · rw [Function.update_of_ne e, Function.update_of_ne e]; exact h.work u
  · by_cases e : b ∈ [a]
    · rw [List.mem_singleton.mp e]; exact hv
    · rw [if_neg e] at hb; exact h.valid b hb
  · simp only [State.goto]
    by_cases e : u = t
    · subst e; rw [Function.update_self]; trivial
    · rw [Function.update_of_ne e]; exact h.inRange u
  · by_cases e : b ∈ [a]
    · rw [if_pos e] at hb
      rw [← Box.queue.inj hb]; exact hi
    · rw [if_neg e] at hb; exact h.range d b hb

/-- The exchange hands the whole queue to the harvester. -/
theorem Placed.exch {c : Nat} {all : Bool} (h : Placed s Q W loc) (hpc : s.pc t = .exch c all) :
    ∃ loc',
    Placed ({ s with queue := Function.update s.queue c 0 }.goto t (.walk c (s.queue c) all))
      (Function.update Q c []) (Function.update W t (Q c)) loc' := by
  have hw := h.work t
  rw [hpc] at hw
  have hW : W t = [] := hw
  refine ⟨_, h.boxed.exchange hW, fun b => ?_, fun u => ?_, fun b hb => ?_, fun u => ?_,
    fun d b hb => ?_, h.count⟩
  · show s.hand b = true ↔ _
    by_cases e : b ∈ Q c
    · rw [if_pos e, h.hand, (h.boxed.inQ c b).mp e]; simp
    · rw [if_neg e, h.hand]
  · simp only [State.goto]
    by_cases e : u = t
    · subst e; rw [Function.update_self, Function.update_self]; exact h.boxed.chain c
    · rw [Function.update_of_ne e, Function.update_of_ne e]; exact h.work u
  · by_cases e : b ∈ Q c
    · exact h.valid b (by rw [(h.boxed.inQ c b).mp e]; exact nofun)
    · rw [if_neg e] at hb; exact h.valid b hb
  · simp only [State.goto]
    by_cases e : u = t
    · subst e; rw [Function.update_self]; trivial
    · rw [Function.update_of_ne e]; exact h.inRange u
  · by_cases e : b ∈ Q c
    · rw [if_pos e] at hb; cases hb
    · rw [if_neg e] at hb; exact h.range d b hb

/-- The harvester returns the first slot of its list. -/
theorem Placed.giveBack {c a : Nat} {all : Bool} (h : Placed s Q W loc)
    (hpc : s.pc t = .walk c a all) (h0 : a ≠ 0) :
    ∃ W' loc', Placed ({ s with hand := Function.update s.hand a true,
                                returns := Function.update s.returns a (s.returns a + 1) }.goto t
      (.walk c (s.next a) all)) Q W' loc' := by
  have hw := h.work t
  rw [hpc] at hw
  obtain ⟨l, hl, hc⟩ := Chain.exists_cons hw h0
  have ha : loc a = .thread t := h.owner (by rw [hl]; simp)
  have hha : s.hand a = false := by
    cases e : s.hand a with
    | false => rfl
    | true => rw [(h.hand a).mp e] at ha; cases ha
  refine ⟨_, _, h.boxed.give hl, fun b => ?_, fun u => ?_, fun b hb => ?_, fun u => ?_,
    fun d b hb => ?_,
    fun b => ?_⟩
  · show Function.update s.hand a true b = true ↔ _
    by_cases e : b = a
    · subst e; simp
    · rw [Function.update_of_ne e, Function.update_of_ne e]; exact h.hand b
  · simp only [State.goto]
    by_cases e : u = t
    · subst e; rw [Function.update_self, Function.update_self]; exact hc
    · rw [Function.update_of_ne e, Function.update_of_ne e]; exact h.work u
  · by_cases e : b = a
    · subst e; exact absurd (Function.update_self ..) hb
    · rw [Function.update_of_ne e] at hb; exact h.valid b hb
  · simp only [State.goto]
    by_cases e : u = t
    · subst e; rw [Function.update_self]; trivial
    · rw [Function.update_of_ne e]; exact h.inRange u
  · by_cases e : b = a
    · subst e; rw [Function.update_self] at hb; cases hb
    · rw [Function.update_of_ne e] at hb; exact h.range d b hb
  · show s.pushes b = Function.update s.returns a (s.returns a + 1) b + _
    have := h.count b
    by_cases e : b = a
    · subst e
      rw [hha] at this
      simp [State.goto, this]
    · simp only [State.goto, Function.update_of_ne e]
      exact this

end Placed

/-! ## Who sees to a queue -/

/-- The thread raises the flag of class `c`, or empties its queue. -/
def Pc.SeesClass (c : Nat) : Pc → Prop
  | .pushPend d | .pushClass d | .exch d _ => d = c
  | _ => False

/-- The thread raises `remote_free_pending` for its push to `c`, or comes to the
queue of `c` in its harvest. -/
def Pc.SeesAll (c : Nat) : Pc → Prop
  | .pushPend d => d = c
  | .visit i => i ≤ c
  | .clearClass i all | .exch i all => i = c ∨ all = true ∧ i < c
  | .walk i _ all => all = true ∧ i < c
  | _ => False

structure Flagged (s : State T) (Q : Nat → List Nat) : Prop where
  cls : ∀ c, Q c ≠ [] → s.pendingClass c = true ∨ ∃ t, (s.pc t).SeesClass c
  all : ∀ c, Q c ≠ [] → s.pending = true ∨ ∃ t, (s.pc t).SeesAll c

section Flagged
variable {s s' : State T} {Q Q' : Nat → List Nat} {W : T → List Nat} {loc : Nat → Box Nat T}
  {t : T} {p : Pc}

theorem Flagged.move (h : Flagged s Q) (hpc : s'.pc = Function.update s.pc t p)
    (hQ : ∀ c, Q' c ≠ [] → Q c ≠ [] ∨ p.SeesClass c ∧ p.SeesAll c)
    (h1 : ∀ c, Q' c ≠ [] → s.pendingClass c = true → s'.pendingClass c = true ∨ p.SeesClass c)
    (h2 : ∀ c, Q' c ≠ [] → (s.pc t).SeesClass c → s'.pendingClass c = true ∨ p.SeesClass c)
    (h3 : ∀ c, Q' c ≠ [] → s.pending = true → s'.pending = true ∨ p.SeesAll c)
    (h4 : ∀ c, Q c ≠ [] → Q' c ≠ [] → (s.pc t).SeesAll c →
      s'.pending = true ∨ p.SeesAll c ∨ ∃ u, u ≠ t ∧ (s.pc u).SeesAll c) : Flagged s' Q' := by
  have hself : ∀ {f : Pc → Prop}, f p → ∃ u, f (s'.pc u) := fun hp =>
    ⟨t, by rw [hpc, Function.update_self]; exact hp⟩
  have hother : ∀ {f : Pc → Prop} {u : T}, u ≠ t → f (s.pc u) → ∃ u, f (s'.pc u) := fun hu hp =>
    ⟨_, by rw [hpc, Function.update_of_ne hu]; exact hp⟩
  refine ⟨fun c hc => ?_, fun c hc => ?_⟩
  · rcases hQ c hc with hq | hq
    · rcases h.cls c hq with hf | ⟨u, hu⟩
      · exact (h1 c hc hf).imp id hself
      · by_cases e : u = t
        · exact (h2 c hc (e ▸ hu)).imp id hself
        · exact .inr (hother e hu)
    · exact .inr (hself hq.1)
  · rcases hQ c hc with hq | hq
    · rcases h.all c hq with hf | ⟨u, hu⟩
      · exact (h3 c hc hf).imp id hself
      · by_cases e : u = t
        · rcases h4 c hq hc (e ▸ hu) with h5 | h5 | ⟨v, hv, h5⟩
          · exact .inl h5
          · exact .inr (hself h5)
          · exact .inr (hother hv h5)
        · exact .inr (hother e hu)
    · exact .inr (hself hq.2)

/-- A step that leaves queues and flags alone. -/
theorem Flagged.goto (h : Flagged s Q) (hpc : s'.pc = Function.update s.pc t p)
    (hfl : s'.pending = s.pending ∧ s'.pendingClass = s.pendingClass)
    (h1 : ∀ c, (s.pc t).SeesClass c → p.SeesClass c) (h2 : ∀ c, (s.pc t).SeesAll c → p.SeesAll c) :
    Flagged s' Q := by
  refine h.move hpc (fun _ hc => .inl hc) (fun _ _ hf => .inl ?_) (fun c _ hc => .inr (h1 c hc))
    (fun _ _ hf => .inl ?_) fun c _ _ hc => .inr (.inl (h2 c hc))
  · rw [hfl.2]; exact hf
  · rw [hfl.1]; exact hf

/-- `remote_free_harvest_all` passes a class whose flag is down: whoever has put
something into its queue will still raise `remote_free_pending`, or has done so. -/
theorem Flagged.skip {i : Nat} (h : Flagged s Q) (hpc : s.pc t = .visit i)
    (hf : s.pendingClass i = false) (htime : SkipTimely s (.tick t)) :
    Flagged (s.goto t (.visit (i + 1))) Q := by
  have htime : (∃ u, s.pc u = .pushClass i) → s.pending = true := by
    simp only [SkipTimely, hpc] at htime
    exact htime hf
  refine h.move rfl (fun _ hc => .inl hc) (fun _ _ hf => .inl hf) (fun c _ hc => ?_)
    (fun _ _ hf => .inl hf)
    fun c hc _ hs => ?_
  · rw [hpc] at hc; exact hc.elim
  · rw [hpc] at hs
    by_cases e : c = i
    · subst e
      rcases h.cls c hc with h1 | ⟨u, hu⟩
      · rw [hf] at h1; cases h1
      · have hne : u ≠ t := by
          rintro rfl
          rw [hpc] at hu; exact hu.elim
        cases hpu : s.pc u <;> rw [hpu] at hu <;> first | exact hu.elim | (obtain rfl := hu)
        · exact .inr (.inr ⟨u, hne, by rw [hpu]; rfl⟩)
        · exact .inl (htime ⟨u, hpu⟩)
        · exact .inr (.inr ⟨u, hne, by rw [hpu]; exact .inl rfl⟩)
    · have hle : i ≤ c := hs
      exact .inr (.inl (show i + 1 ≤ c by omega))

/-- The invariant of all interleavings in which no harvest skips a class too
early. -/
def Inv (s : State T) : Prop := ∃ Q W loc, Placed s Q W loc ∧ Flagged s Q

/-- A step that only moves a thread on. -/
theorem Inv.goto {q : Pc} (h : Inv s) (hpc : s.pc t = q)
    (hw : ∀ l, q.Work s.next l → p.Work s.next l) (hi : q.InRange → p.InRange)
    (h1 : ∀ c, q.SeesClass c → p.SeesClass c) (h2 : ∀ c, q.SeesAll c → p.SeesAll c) :
    Inv (s.goto t p) := by
  obtain ⟨Q, W, loc, hp, hf⟩ := h
  subst hpc
  exact ⟨Q, W, loc, hp.goto (t := t) rfl rfl rfl rfl rfl rfl (hw _ (hp.work t)) (hi (hp.inRange t)),
    hf.goto (t := t) rfl ⟨rfl, rfl⟩ h1 h2⟩

theorem Inv.pushCas {c a old : Nat} (h : Inv s) (hpc : s.pc t = .pushCas c a old) :
    Inv (s.tick t) := by
  unfold State.tick
  simp only [hpc]
  split
  · rename_i e
    rw [← e] at hpc
    obtain ⟨Q, W, loc, hp, hf⟩ := h
    obtain ⟨loc', hp'⟩ := hp.push hpc
    refine ⟨_, _, loc', hp',
      hf.move rfl (fun d hd => ?_) (fun _ _ h1 => .inl h1) (by rw [hpc]; exact nofun)
      (fun _ _ h1 => .inl h1) (by rw [hpc]; exact nofun)⟩
    by_cases e : d = c
    · exact .inr ⟨e.symm, e.symm⟩
    · rw [Function.update_of_ne e] at hd
      exact .inl hd
  · exact h.goto hpc (fun _ hw => hw.1) id nofun nofun

/-- The pusher raises `remote_free_pending`, and has the flag of its class to raise. -/
theorem Inv.pushPend {c : Nat} (h : Inv s) (hpc : s.pc t = .pushPend c) : Inv (s.tick t) := by
  obtain ⟨Q, W, loc, hp, hf⟩ := h
  have hw := hp.work t
  rw [hpc] at hw
  unfold State.tick
  simp only [hpc]
  refine ⟨Q, W, loc, hp.goto (t := t) rfl rfl rfl rfl rfl rfl hw trivial,
    hf.move rfl (fun _ hc => .inl hc) (fun _ _ h1 => .inl h1) (fun d _ hd => .inr ?_)
      (fun _ _ _ => .inl rfl) fun _ _ _ _ => .inl rfl⟩
  rw [hpc] at hd
  exact hd

theorem Inv.pushClass {c : Nat} (h : Inv s) (hpc : s.pc t = .pushClass c) : Inv (s.tick t) := by
  obtain ⟨Q, W, loc, hp, hf⟩ := h
  have hw := hp.work t
  rw [hpc] at hw
  unfold State.tick
  simp only [hpc]
  refine ⟨Q, W, loc, hp.goto (t := t) rfl rfl rfl rfl rfl rfl hw trivial,
    hf.move rfl (fun _ hc => .inl hc) (fun d _ h1 => .inl ?_) (fun d _ hd => .inl ?_)
      (fun _ _ h1 => .inl h1) (by rw [hpc]; exact nofun)⟩
  · show Function.update s.pendingClass c true d = true
    by_cases e : d = c
    · subst e
      exact Function.update_self ..
    · rw [Function.update_of_ne e]
      exact h1
  · rw [hpc] at hd
    obtain rfl : c = d := hd
    exact Function.update_self ..

/-- The harvester lowers `remote_free_pending`: it comes to every queue. -/
theorem Inv.allClear (h : Inv s) (hpc : s.pc t = .allClear) : Inv (s.tick t) := by
  obtain ⟨Q, W, loc, hp, hf⟩ := h
  have hw := hp.work t
  rw [hpc] at hw
  unfold State.tick
  simp only [hpc]
  exact ⟨Q, W, loc, hp.goto (t := t) rfl rfl rfl rfl rfl rfl hw trivial,
    hf.move rfl (fun _ hc => .inl hc) (fun _ _ h1 => .inl h1) (by rw [hpc]; exact nofun)
      (fun d _ _ => .inr (Nat.zero_le d)) (by rw [hpc]; exact nofun)⟩

theorem Inv.visit {i : Nat} (h : Inv s) (hpc : s.pc t = .visit i)
    (htime : SkipTimely s (.tick t)) : Inv (s.tick t) := by
  unfold State.tick
  simp only [hpc]
  split
  · split
    · refine h.goto hpc (fun _ hw => hw) id nofun fun c hc => ?_
      exact (Nat.eq_or_lt_of_le hc).imp id fun e => ⟨rfl, e⟩
    · rename_i hcl
      obtain ⟨Q, W, loc, hp, hf⟩ := h
      have hw := hp.work t
      rw [hpc] at hw
      exact ⟨Q, W, loc, hp.goto (t := t) rfl rfl rfl rfl rfl rfl hw trivial,
        hf.skip hpc (by simpa using hcl) htime⟩
  · -- the queues end with the last class
    rename_i hge
    obtain ⟨Q, W, loc, hp, hf⟩ := h
    have hw := hp.work t
    rw [hpc] at hw
    refine ⟨Q, W, loc, hp.goto (t := t) rfl rfl rfl rfl rfl rfl hw trivial,
      hf.move rfl (fun _ hc => .inl hc) (fun _ _ h1 => .inl h1) (by rw [hpc]; exact nofun)
        (fun _ _ h1 => .inl h1) fun c hc _ hs => ?_⟩
    rw [hpc] at hs
    have hle : i ≤ c := hs
    obtain ⟨a, ha⟩ := List.exists_mem_of_ne_nil _ hc
    have := hp.range c a ((hp.boxed.inQ c a).mp ha)
    omega

/-- The harvester lowers the flag of a class whose queue it is about to empty. -/
theorem Inv.clearClass {c : Nat} {all : Bool} (h : Inv s) (hpc : s.pc t = .clearClass c all) :
    Inv (s.tick t) := by
  obtain ⟨Q, W, loc, hp, hf⟩ := h
  have hw := hp.work t
  rw [hpc] at hw
  unfold State.tick
  simp only [hpc]
  refine ⟨Q, W, loc, hp.goto (t := t) rfl rfl rfl rfl rfl rfl hw trivial,
    hf.move rfl (fun _ hc => .inl hc) (fun d _ h1 => ?_) (by rw [hpc]; exact nofun)
      (fun _ _ h1 => .inl h1) fun d _ _ hd => .inr (.inl ?_)⟩
  · by_cases e : d = c
    · exact .inr e.symm
    · left
      show Function.update s.pendingClass c false d = true
      rw [Function.update_of_ne e]
      exact h1
  · rw [hpc] at hd
    exact hd

theorem Inv.exch {c : Nat} {all : Bool} (h : Inv s) (hpc : s.pc t = .exch c all) :
    Inv (s.tick t) := by
  obtain ⟨Q, W, loc, hp, hf⟩ := h
  obtain ⟨loc', hp'⟩ := hp.exch hpc
  unfold State.tick
  simp only [hpc]
  have hQ : ∀ d, Function.update Q c [] d ≠ [] → d ≠ c ∧ Q d ≠ [] := by
    intro d hd
    by_cases e : d = c
    · subst e
      exact absurd (Function.update_self ..) hd
    · rw [Function.update_of_ne e] at hd
      exact ⟨e, hd⟩
  refine ⟨_, _, loc', hp',
    hf.move rfl (fun d hd => .inl (hQ d hd).2) (fun _ _ h1 => .inl h1) (fun d hd h1 => ?_)
      (fun _ _ h1 => .inl h1) fun d _ hd h1 => .inr (.inl ?_)⟩
  · rw [hpc] at h1
    exact absurd (show c = d from h1).symm (hQ d hd).1
  · rw [hpc] at h1
    exact h1.resolve_left fun e => (hQ d hd).1 e.symm

/-- The slots of a harvested list are valid, so that it is walked to its end. -/
theorem Inv.walk {c a : Nat} {all : Bool} (h : Inv s) (hpc : s.pc t = .walk c a all) :
    Inv (s.tick t) := by
  obtain ⟨Q, W, loc, hp, hf⟩ := h
  have hw := hp.work t
  rw [hpc] at hw
  have hok : a = 0 ∨ ¬ ValidSlot a → a = 0 := by
    rintro (h0 | h0)
    · exact h0
    · by_contra hne
      obtain ⟨l, hl, -⟩ := Chain.exists_cons hw hne
      have ha := hp.owner (u := t) (a := a) (by rw [hl]; simp)
      exact h0 (hp.valid a (by rw [ha]; exact nofun))
  unfold State.tick
  simp only [hpc]
  split
  · rename_i h0
    have hW : W t = [] := by
      rw [hok h0] at hw
      exact Chain.eq_nil_of_zero hw
    have hdone : (Pc.done c all).Work s.next (W t) := by
      rw [hW]
      cases all <;> rfl
    have hrange : (Pc.done c all).InRange := by cases all <;> trivial
    refine ⟨Q, W, loc, hp.goto (t := t) rfl rfl rfl rfl rfl rfl hdone hrange,
      hf.goto (t := t) rfl ⟨rfl, rfl⟩ (by rw [hpc]; exact nofun) fun d hd => ?_⟩
    rw [hpc] at hd
    obtain ⟨rfl, hlt⟩ := hd
    exact hlt
  · rename_i h0
    obtain ⟨W', loc', hp'⟩ := hp.giveBack hpc fun e => h0 (.inl e)
    refine ⟨Q, W', loc', hp',
      hf.goto (t := t) rfl ⟨rfl, rfl⟩ (by rw [hpc]; exact nofun) fun d hd => ?_⟩
    rw [hpc] at hd
    exact hd

theorem tick_inv (h : Inv s) (htime : SkipTimely s (.tick t)) : Inv (s.tick t) := by
  cases hpc : s.pc t with
  | idle =>
    rw [State.tick, hpc]
    exact h
  | pushLoad c a =>
    rw [State.tick, hpc]
    exact h.goto hpc (fun _ hw => hw) id nofun nofun
  | pushLink c a old =>
    obtain ⟨Q, W, loc, hp, hf⟩ := h
    rw [State.tick, hpc]
    exact ⟨Q, W, loc, hp.link hpc,
      hf.goto (t := t) rfl ⟨rfl, rfl⟩ (by rw [hpc]; exact nofun) (by rw [hpc]; exact nofun)⟩
  | pushCas c a old => exact h.pushCas hpc
  | pushPend c => exact h.pushPend hpc
  | pushClass c => exact h.pushClass hpc
  | allLoad =>
    rw [State.tick, hpc]
    dsimp only
    split <;> exact h.goto hpc (fun _ hw => hw) id nofun nofun
  | allClear => exact h.allClear hpc
  | visit i => exact h.visit hpc htime
  | oneLoad c =>
    rw [State.tick, hpc]
    dsimp only
    split <;> exact h.goto hpc (fun _ hw => hw) id nofun nofun
  | clearClass c all => exact h.clearClass hpc
  | exch c all => exact h.exch hpc
  | walk c a all => exact h.walk hpc

theorem Placed.call {c a : Nat} (h : Placed s Q W loc) (hpc : s.pc t = .idle) (hc : c < classCount)
    (ha : s.hand a = true) (hv : ValidSlot a) :
    ∃ W' loc', Placed (s.step (.callPush t c a)) Q W' loc' := by
  have hw := h.work t
  rw [hpc] at hw
  have hW : W t = [] := hw
  have hl := (h.hand a).mp ha
  have hmem : ∀ b, b ∈ [a] ↔ b = a := fun b => List.mem_singleton
  refine ⟨_, _, h.boxed.take hW (List.nodup_singleton a) fun b hb => (hmem b).mp hb ▸ hl,
    fun b => ?_, fun u => ?_,
    fun b hb => ?_, fun u => ?_, fun d b hb => ?_, fun b => ?_⟩
  · show Function.update s.hand a false b = true ↔ _
    by_cases e : b = a
    · subst e; simp
    · rw [Function.update_of_ne e, if_neg (mt (hmem b).mp e)]; exact h.hand b
  · simp only [State.step, State.goto]
    by_cases e : u = t
    · subst e
      rw [Function.update_self, Function.update_self]; rfl
    · rw [Function.update_of_ne e, Function.update_of_ne e]; exact h.work u
  · by_cases e : b = a
    · subst e; exact hv
    · rw [if_neg (mt (hmem b).mp e)] at hb; exact h.valid b hb
  · simp only [State.step, State.goto]
    by_cases e : u = t
    · subst e; rw [Function.update_self]; exact hc
    · rw [Function.update_of_ne e]; exact h.inRange u
  · by_cases e : b = a
    · subst e; rw [if_pos ((hmem b).mpr rfl)] at hb; cases hb
    · rw [if_neg (mt (hmem b).mp e)] at hb; exact h.range d b hb
  · show Function.update s.pushes a (s.pushes a + 1) b = s.returns b + _
    have := h.count b
    by_cases e : b = a
    · subst e
      rw [ha] at this
      simp [State.step, State.goto, this]
    · simp only [State.step, State.goto, Function.update_of_ne e]
      exact this

theorem Placed.write {a v : Nat} (h : Placed s Q W loc) (ha : s.hand a = true) :
    Placed (s.step (.write a v)) Q W loc := by
  have hl := (h.hand a).mp ha
  refine ⟨h.boxed.write fun b i hb => ?_, h.hand, fun u => (h.work u).congr fun b hb => ?_, h.valid,
    h.inRange, h.range, h.count⟩ <;> refine Function.update_of_ne (fun e => ?_) _ _
  · rw [e, hl] at hb; cases hb
  · have := h.owner hb
    rw [e, hl] at this; cases this

theorem step_inv {l : Act T} (h : Inv s) (hpre : s.pre l) (htime : SkipTimely s l) :
    Inv (s.step l) := by
  cases l with
  | tick t => exact tick_inv h htime
  | callPush t c a =>
    obtain ⟨Q, W, loc, hp, hf⟩ := h
    obtain ⟨hpc, hc, ha, hv⟩ := hpre
    obtain ⟨W', loc', hp'⟩ := hp.call hpc hc ha hv
    exact ⟨Q, W', loc', hp',
      hf.goto (t := t) rfl ⟨rfl, rfl⟩ (by rw [hpc]; exact nofun) (by rw [hpc]; exact nofun)⟩
  | callHarvestAll t => exact h.goto hpre (fun _ hw => hw) id nofun nofun
  | callHarvest t c => exact h.goto hpre.1 (fun _ hw => hw) id nofun nofun
  | spurious t =>
    obtain ⟨c, a, old, hpc⟩ := Pc.eq_of_atCas hpre
    simp only [State.step, hpc]
    exact h.goto hpc (fun _ hw => hw.1) id nofun nofun
  | write a v =>
    obtain ⟨Q, W, loc, hp, hf⟩ := h
    exact ⟨Q, W, loc, hp.write hpre, hf.cls, hf.all⟩

theorem inductive_inv : ((system T).guard SkipTimely).Inductive Inv where
  init s hs := by
    obtain ⟨next, rfl⟩ := hs
    refine ⟨fun _ => [], fun _ => [], fun _ => .hand,
      ⟨⟨fun _ => rfl, ?_, ?_, fun _ => List.nodup_nil⟩, ?_, fun _ => rfl,
      fun a ha => absurd rfl ha, fun _ => trivial, nofun, fun _ => rfl⟩, nofun, nofun⟩
    · intro i a; simp
    · intro t a; simp
    · intro a; simp [State.init]
  step s l s' h hs := by
    obtain ⟨⟨hpre, rfl⟩, htime⟩ := hs
    exact step_inv h hpre htime

end Flagged

/-! ## A harvest on its own -/

section Solo
variable {s : State T} {Q : Nat → List Nat} {W : T → List Nat} {loc : Nat → Box Nat T} {t : T}
  {c a i : Nat}
  {all : Bool}

/-- `s'` is reached from `s` by steps of `t` alone. -/
def Solo (t : T) (s s' : State T) : Prop := ∃ n, (fun s => s.tick t)^[n] s = s'

theorem Solo.refl : Solo t s s := ⟨0, rfl⟩

theorem Solo.head {s' : State T} (h : Solo t (s.tick t) s') : Solo t s s' := by
  obtain ⟨n, hn⟩ := h
  exact ⟨n + 1, hn⟩

theorem Solo.trans {s' s'' : State T} (h : Solo t s s') (h' : Solo t s' s'') : Solo t s s'' := by
  obtain ⟨n, rfl⟩ := h
  obtain ⟨k, rfl⟩ := h'
  exact ⟨k + n, Function.iterate_add_apply ..⟩

/-- Where a solo stretch of a harvest ends. -/
structure Reaches (t : T) (s : State T) (p : Pc) (s' : State T) : Prop where
  solo : Solo t s s'
  pc : s'.pc t = p
  flags : s'.pendingClass = s.pendingClass
  placed : ∃ Q W loc, Placed s' Q W loc

theorem walk_solo {l : List Nat} (hp : Placed s Q W loc) (hpc : s.pc t = .walk c a all)
    (hl : Chain s.next a l) : ∃ s', Reaches t s (.done c all) s' ∧ s'.queue = s.queue := by
  induction l generalizing s W loc a with
  | nil =>
    obtain rfl : a = 0 := hl
    have hw := hp.work t
    rw [hpc] at hw
    have hW : W t = [] := Chain.eq_nil_of_zero hw
    have htick : s.tick t = s.goto t (.done c all) := by
      unfold State.tick
      simp only [hpc, true_or, if_true]
    refine ⟨s.tick t, ⟨Solo.head Solo.refl, ?_, ?_, Q, W, loc, ?_⟩, ?_⟩ <;> rw [htick]
    · simp [State.goto]
    · rfl
    · refine hp.goto (t := t) rfl rfl rfl rfl rfl rfl ?_ ?_
      · rw [hW]; cases all <;> rfl
      · cases all <;> trivial
    · rfl
  | cons b l ih =>
    obtain ⟨rfl, h0, hl⟩ := hl
    have hw := hp.work t
    rw [hpc] at hw
    obtain ⟨l', hl', -⟩ := Chain.exists_cons hw h0
    have ha := hp.owner (u := t) (a := a) (by rw [hl']; simp)
    have hv := hp.valid a (by rw [ha]; exact nofun)
    have htick : s.tick t =
        { s with
          hand := Function.update s.hand a true,
          returns := Function.update s.returns a (s.returns a + 1) }.goto t
          (.walk c (s.next a) all) := by
      unfold State.tick
      simp only [hpc, h0, hv, not_true_eq_false, or_self, if_false]
    obtain ⟨W', loc', hp'⟩ := hp.giveBack hpc h0
    rw [← htick] at hp'
    obtain ⟨s', ⟨h1, h2, h3, h4⟩, h5⟩ :=
      ih (a := s.next a) hp' (by rw [htick]; simp [State.goto]) (by rw [htick]; exact hl)
    refine ⟨s', ⟨h1.head, h2, h3.trans ?_, h4⟩, h5.trans ?_⟩ <;> rw [htick] <;> rfl

/-- One class of a harvest: its queue is empty afterwards. -/
theorem class_solo (hp : Placed s Q W loc) (hpc : s.pc t = .clearClass c all) :
    ∃ s', Solo t s s' ∧ s'.pc t = .done c all ∧
    s'.pendingClass = Function.update s.pendingClass c false ∧
      s'.queue = Function.update s.queue c 0 ∧ ∃ Q W loc, Placed s' Q W loc := by
  have hw := hp.work t
  rw [hpc] at hw
  have h1 :
    s.tick t = { s with pendingClass := Function.update s.pendingClass c false }.goto t
      (.exch c all) := by
    unfold State.tick; simp only [hpc]
  have hp₁ : Placed (s.tick t) Q W loc := by
    rw [h1]; exact hp.goto (t := t) rfl rfl rfl rfl rfl rfl hw trivial
  have hpc₁ : (s.tick t).pc t = .exch c all := by rw [h1]; simp [State.goto]
  have h2 :
      (s.tick t).tick t = { s.tick t with queue := Function.update (s.tick t).queue c 0 }.goto t
      (.walk c ((s.tick t).queue c) all) := by
    rw [State.tick, hpc₁]
  obtain ⟨loc', hp₂⟩ := hp₁.exch hpc₁
  rw [← h2] at hp₂
  have hchain : Chain ((s.tick t).tick t).next ((s.tick t).queue c) (Q c) := by
    rw [h2]; exact hp₁.boxed.chain c
  have hpc₂ : ((s.tick t).tick t).pc t = .walk c ((s.tick t).queue c) all := by
    rw [h2]; simp [State.goto]
  obtain ⟨s', ⟨h3, h4, h5, h6⟩, h7⟩ := walk_solo hp₂ hpc₂ hchain
  refine ⟨s', h3.head.head, h4, h5.trans ?_, h7.trans ?_, h6⟩
  · rw [h2, h1]; rfl
  · rw [h2, h1]; rfl

/-- The rest of a `remote_free_harvest_all`: every class from `i` on whose flag is
up is emptied, and no queue fills. -/
theorem visit_solo (hp : Placed s Q W loc) (hpc : s.pc t = .visit i) (hi : i ≤ classCount) :
    ∃ s', Solo t s s' ∧ s'.pc t = .idle ∧ (∀ c, s.queue c = 0 → s'.queue c = 0) ∧
      ∀ c, i ≤ c → c < classCount → s.pendingClass c = true → s'.queue c = 0 := by
  obtain ⟨n, hn⟩ : ∃ n, classCount - i = n := ⟨_, rfl⟩
  induction n generalizing s Q W loc i with
  | zero =>
    have e : i = classCount := by omega
    have h1 : s.tick t = s.goto t .idle := by
      unfold State.tick; simp only [hpc, e, Nat.lt_irrefl, if_false]
    refine ⟨s.tick t, Solo.head Solo.refl, ?_, fun c hc => ?_, fun c h1 h2 => by omega⟩ <;> rw [h1]
    · simp [State.goto]
    · exact hc
  | succ n ih =>
    have hlt : i < classCount := by omega
    have hw := hp.work t
    rw [hpc] at hw
    cases hf : s.pendingClass i with
    | false =>
      have h1 : s.tick t = s.goto t (.visit (i + 1)) := by
        unfold State.tick; simp only [hpc, hlt, hf, if_true, Bool.false_eq_true, if_false]
      have hp₁ : Placed (s.tick t) Q W loc := by
        rw [h1]; exact hp.goto (t := t) rfl rfl rfl rfl rfl rfl hw trivial
      have hpc₁ : (s.tick t).pc t = .visit (i + 1) := by rw [h1]; simp [State.goto]
      obtain ⟨s', h2, h3, h4, h5⟩ := ih hp₁ hpc₁ hlt (by omega)
      rw [h1] at h4 h5
      refine ⟨s', h2.head, h3, h4, fun c hc1 hc2 hc => h5 c ?_ hc2 hc⟩
      refine Nat.lt_of_le_of_ne hc1 fun e => ?_
      rw [← e, hf] at hc; cases hc
    | true =>
      have h1 : s.tick t = s.goto t (.clearClass i true) := by
        unfold State.tick; simp only [hpc, hlt, hf, if_true]
      have hp₁ : Placed (s.tick t) Q W loc := by
        rw [h1]; exact hp.goto (t := t) rfl rfl rfl rfl rfl rfl hw trivial
      have hpc₁ : (s.tick t).pc t = .clearClass i true := by rw [h1]; simp [State.goto]
      obtain ⟨s₂, h2, h3, h4, h5, Q₂, W₂, loc₂, hp₂⟩ := class_solo hp₁ hpc₁
      rw [h1] at h4 h5
      have hzero : ∀ c, c = i ∨ s.queue c = 0 → s₂.queue c = 0 := by
        intro c hc
        rw [h5]
        by_cases e : c = i
        · subst e; exact Function.update_self ..
        · rw [Function.update_of_ne e]; exact hc.resolve_left e
      obtain ⟨s', h6, h7, h8, h9⟩ := ih hp₂ h3 hlt (by omega)
      refine ⟨s', h2.head.trans h6, h7, fun c hc => h8 c (hzero c (.inr hc)),
        fun c hc1 hc2 hc => ?_⟩
      rcases Nat.eq_or_lt_of_le hc1 with e | hlt'
      · exact h8 c (hzero c (.inl e.symm))
      · refine h9 c hlt' hc2 ?_
        rw [h4, Function.update_of_ne (by omega)]; exact hc

/-- What `mp_alloc` of a slab size does when it finds `remote_free_pending` up. -/
theorem harvest_solo (hp : Placed s Q W loc) (hpc : s.pc t = .idle) (hpend : s.pending = true) :
    ∃ s', Solo t (s.step (.callHarvestAll t)) s' ∧ s'.pc t = .idle ∧
      ∀ c < classCount, s.pendingClass c = true → s'.queue c = 0 := by
  have hw := hp.work t
  rw [hpc] at hw
  let s₁ := s.step (.callHarvestAll t)
  have hp₁ : Placed s₁ Q W loc := hp.goto (t := t) rfl rfl rfl rfl rfl rfl hw trivial
  have hpc₁ : s₁.pc t = .allLoad := Function.update_self ..
  have hw₁ := hp₁.work t
  rw [hpc₁] at hw₁
  have h1 : s₁.tick t = s₁.goto t .allClear := by
    rw [State.tick, hpc₁]; simp only [show s₁.pending = true from hpend, if_true]
  have hp₂ : Placed (s₁.tick t) Q W loc := by
    rw [h1]; exact hp₁.goto (t := t) rfl rfl rfl rfl rfl rfl hw₁ trivial
  have hpc₂ : (s₁.tick t).pc t = .allClear := by rw [h1]; simp [State.goto]
  have hw₂ := hp₂.work t
  rw [hpc₂] at hw₂
  have h2 : (s₁.tick t).tick t = { s₁.tick t with pending := false }.goto t (.visit 0) := by
    rw [State.tick, hpc₂]
  have hp₃ : Placed ((s₁.tick t).tick t) Q W loc := by
    rw [h2]; exact hp₂.goto (t := t) rfl rfl rfl rfl rfl rfl hw₂ trivial
  have hpc₃ : ((s₁.tick t).tick t).pc t = .visit 0 := by rw [h2]; simp [State.goto]
  obtain ⟨s', h3, h4, -, h5⟩ := visit_solo hp₃ hpc₃ (Nat.zero_le _)
  refine ⟨s', h3.head.head, h4, fun c hc hf => h5 c (Nat.zero_le c) hc ?_⟩
  rw [h2, h1]
  exact hf

end Solo

/-! ## No slot is stranded or returned twice -/

/-- In every state a slot has been returned as often as pushed, or once less. When
no call is in progress, the slots of the second kind are exactly those in the
queues, each in one; and both flags of a non-empty queue are up, so that the next
`remote_free_harvest_all` of any thread empties it. -/
def NothingLost (s : State T) : Prop :=
  (∀ a, s.returns a ≤ s.pushes a ∧ s.pushes a ≤ s.returns a + 1) ∧
  ((∀ t, s.pc t = .idle) →
    (∃ Q : Nat → List Nat, (∀ c, Chain s.next (s.queue c) (Q c)) ∧
      ∀ a, (s.pushes a = s.returns a ∧ ∀ c, a ∉ Q c) ∨
      (s.pushes a = s.returns a + 1 ∧ ∃! c, a ∈ Q c)) ∧
    ∀ c, s.queue c ≠ 0 → s.pending = true ∧ s.pendingClass c = true ∧
      ∀ t, ∃ s', Solo t (s.step (.callHarvestAll t)) s' ∧ s'.pc t = .idle ∧ s'.queue c = 0)

/-- **Remote frees are neither stranded nor duplicated**, in every interleaving in
which no harvest skips a class between the two flag stores of a push. -/
theorem remote_frees_kept {s : State T} (hr : ((system T).guard SkipTimely).Reachable s) :
    NothingLost s := by
  obtain ⟨Q, W, loc, hp, hf⟩ := inductive_inv.reachable hr
  refine ⟨fun a => ?_, fun hidle => ⟨⟨Q, hp.boxed.chain, fun a => ?_⟩, fun c hc => ?_⟩⟩
  · have := hp.count a
    split at this <;> omega
  · have hcount := hp.count a
    cases hl : loc a with
    | hand =>
      rw [if_pos ((hp.hand a).mpr hl)] at hcount
      refine .inl ⟨hcount, fun c hm => ?_⟩
      rw [hp.boxed.inQ, hl] at hm; cases hm
    | queue c =>
      have hn : s.hand a ≠ true := fun e => by
        rw [hp.hand, hl] at e; cases e
      rw [if_neg hn] at hcount
      refine .inr ⟨hcount, c, (hp.boxed.inQ c a).mpr hl, fun d hd => ?_⟩
      have hd := (hp.boxed.inQ d a).mp hd
      rw [hl] at hd
      exact (Box.queue.inj hd).symm
    | thread t =>
      have hm := (hp.boxed.inW t a).mpr hl
      have hw := hp.work t
      rw [hidle t] at hw
      rw [show W t = [] from hw] at hm; cases hm
  · have hQ : Q c ≠ [] := fun e => by
      have := hp.boxed.chain c
      rw [e] at this
      exact hc this
    obtain ⟨a, ha⟩ := List.exists_mem_of_ne_nil _ hQ
    have hlt := hp.range c a ((hp.boxed.inQ c a).mp ha)
    have hcls : s.pendingClass c = true := by
      refine (hf.cls c hQ).resolve_right fun ⟨t, ht⟩ => ?_
      rw [hidle t] at ht; exact ht
    have hall : s.pending = true := by
      refine (hf.all c hQ).resolve_right fun ⟨t, ht⟩ => ?_
      rw [hidle t] at ht; exact ht
    refine ⟨hall, hcls, fun t => ?_⟩
    obtain ⟨s', h1, h2, h3⟩ := harvest_solo hp (hidle t) hall
    exact ⟨s', h1, h2, h3 c hlt hcls⟩

/-- A push of class 0, stopped between its flag stores. -/
def pushHalf : List (Act Bool) :=
  [.callPush true 0 0x10000, .tick true, .tick true, .tick true, .tick true]

def pushDone : List (Act Bool) := pushHalf ++ [.tick true]

/-- A whole `remote_free_harvest_all` that finds every class flag down. -/
def harvestNothing : List (Act Bool) := .callHarvestAll false :: List.replicate 15 (.tick false)

def lostRun : List (Act Bool) := pushHalf ++ harvestNothing ++ [.tick true]

theorem remote_frees_kept_after_push :
    NothingLost (pushDone.foldl State.step (State.init fun _ => 0)) :=
  remote_frees_kept (LTS.Reachable.run (.init ⟨fun _ => 0, rfl⟩) (by decide +kernel))

/-- **Defect.** The harvest runs between the two stores: afterwards nobody is in a
call, the slot is queued, and `remote_free_pending` is down. -/
theorem wakeup_lost :
    ∃ s : State Bool, (system Bool).Reachable s ∧ ¬ NothingLost s := by
  refine ⟨lostRun.foldl State.step (State.init fun _ => 0), ?_, fun h => ?_⟩
  · refine LTS.Reachable.of_guard (C := fun _ _ => True)
      (LTS.Reachable.run (.init ⟨fun _ => 0, rfl⟩) ?_)
    decide +kernel
  · have hidle : ∀ t, (lostRun.foldl State.step
        (State.init fun _ => 0)).pc t = .idle := by decide +kernel
    have hq : (lostRun.foldl State.step
        (State.init fun _ => 0)).queue 0 ≠ 0 := by decide +kernel
    exact absurd ((h.2 hidle).2 0 hq).1 (by decide +kernel)

end Cmem.L2.RemoteFree
