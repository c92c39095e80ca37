import Mathlib

/-!
# Intrusive linked lists

Nodes of a type `α` whose `0` is the null pointer. `Chain next h l`: the
singly linked list from `h` visits exactly `l`. `Seg next prev p h l q t`: a
doubly linked segment from `h`, entered from `p`, visits `l`, leaves with the
pointer `q`, and its last node is `t` (`p` when it is empty). `DL` bundles the
two link functions with a head; `link` and `unlink` are the usual splice and
removal, and `DL.Is.link` / `DL.Is.unlink` say what they do to the list. `push`
and `pop` are the two at the front, for lists that share their link functions.
-/
namespace Cmem

variable {α : Type*} [Zero α]

/-! ## Singly linked -/

def Chain (next : α → α) : α → List α → Prop
  | h, [] => h = 0
  | h, a :: l => h = a ∧ a ≠ 0 ∧ Chain next (next a) l

namespace Chain

variable {next next' : α → α} {h : α} {l l' : List α}

@[simp] theorem nil_iff : Chain next h [] ↔ h = 0 := Iff.rfl

@[simp] theorem cons_iff {a : α} :
    Chain next h (a :: l) ↔ h = a ∧ a ≠ 0 ∧ Chain next (next a) l := Iff.rfl

theorem eq_nil_of_zero (hc : Chain next 0 l) : l = [] := by
  cases l with
  | nil => rfl
  | cons a l => exact absurd hc.1.symm hc.2.1

theorem exists_cons (hc : Chain next h l) (h0 : h ≠ 0) :
    ∃ t, l = h :: t ∧ Chain next (next h) t := by
  cases l with
  | nil => exact absurd hc h0
  | cons a l => obtain ⟨rfl, -, hl⟩ := hc; exact ⟨l, rfl, hl⟩

theorem congr (hc : Chain next h l) (hag : ∀ a ∈ l, next' a = next a) : Chain next' h l := by
  induction l generalizing h with
  | nil => exact hc
  | cons a l ih =>
    obtain ⟨rfl, h0, hl⟩ := hc
    refine ⟨rfl, h0, ?_⟩
    rw [hag h List.mem_cons_self]
    exact ih hl fun b hb => hag b (List.mem_cons_of_mem _ hb)

theorem unique (hc : Chain next h l) (hc' : Chain next h l') : l = l' := by
  induction l generalizing h l' with
  | nil => cases hc; exact (hc'.eq_nil_of_zero).symm
  | cons a l ih =>
    obtain ⟨rfl, h0, hl⟩ := hc
    obtain ⟨t, rfl, ht⟩ := hc'.exists_cons h0
    rw [ih hl ht]

theorem head_eq (hc : Chain next h l) : h = l.head?.getD 0 := by
  cases l with
  | nil => exact hc
  | cons a l => exact hc.1

theorem zero_notMem (hc : Chain next h l) : (0 : α) ∉ l := by
  induction l generalizing h with
  | nil => simp
  | cons a l ih =>
    obtain ⟨rfl, h0, hl⟩ := hc
    simp only [List.mem_cons, not_or]
    exact ⟨Ne.symm h0, ih hl⟩

/-- A suffix of a chain is the chain from its own first node. -/
theorem of_append {xs : List α} (hc : Chain next h (xs ++ l)) : ∃ h', Chain next h' l := by
  induction xs generalizing h with
  | nil => exact ⟨h, hc⟩
  | cons a xs ih => exact ih hc.2.2

/-- A chain that ends visits no node twice: a repeated node would make two
suffixes of different lengths start at the same pointer. -/
theorem nodup (hc : Chain next h l) : l.Nodup := by
  induction l generalizing h with
  | nil => exact List.nodup_nil
  | cons a l ih =>
    obtain ⟨rfl, h0, hl⟩ := hc
    refine List.nodup_cons.mpr ⟨fun hm => ?_, ih hl⟩
    obtain ⟨xs, ys, rfl⟩ := List.append_of_mem hm
    obtain ⟨h', hy⟩ := of_append hl
    have hy' := hy.1; subst hy'
    have := hy.2.2.unique hl
    have := congrArg List.length this
    simp at this
    omega

/-- Where a link is cleared the chain ends. -/
theorem cut (hc : Chain next h l) (P : α → Bool) :
    Chain (fun a => if P a then 0 else next a) h (l.take (l.findIdx P + 1)) := by
  induction l generalizing h with
  | nil => exact hc
  | cons a l ih =>
    obtain ⟨rfl, h0, hl⟩ := hc
    rw [List.findIdx_cons, List.take_succ_cons]
    refine ⟨rfl, h0, ?_⟩
    dsimp only
    cases P h with
    | true => exact if_pos rfl
    | false =>
      rw [if_neg Bool.false_ne_true]
      exact ih hl

variable [DecidableEq α]

theorem update (hc : Chain next h l) {a v : α} (ha : a ∉ l) :
    Chain (Function.update next a v) h l :=
  hc.congr fun _ hb => Function.update_of_ne (ne_of_mem_of_not_mem hb ha) _ _

theorem push (hc : Chain next h l) {a : α} (h0 : a ≠ 0) (ha : a ∉ l) :
    Chain (Function.update next a h) a (a :: l) :=
  ⟨rfl, h0, by rw [Function.update_self]; exact hc.update ha⟩

/-- Nodes that are linked in order. -/
theorem range {next f : Nat → Nat} {n : Nat} (hn : ∀ i, i + 1 < n → next (f i) = f (i + 1))
    (hlast : ∀ i, i + 1 = n → next (f i) = 0) (h0 : ∀ i, i < n → f i ≠ 0) :
    ∀ k i, i + (k + 1) = n → Chain next (f i) ((List.range' i (k + 1)).map f) := by
  intro k
  induction k with
  | zero => exact fun i hi => ⟨rfl, h0 i (by omega), hlast i (by omega)⟩
  | succ k ih =>
    intro i hi
    refine ⟨rfl, h0 i (by omega), ?_⟩
    rw [hn i (by omega)]
    exact ih (i + 1) (by omega)

end Chain

/-! ## Doubly linked -/

def Seg (next prev : α → α) : α → α → List α → α → α → Prop
  | p, h, [], q, t => h = q ∧ t = p
  | p, h, a :: l, q, t => h = a ∧ a ≠ 0 ∧ prev a = p ∧ Seg next prev a (next a) l q t

namespace Seg

variable {next prev next' prev' : α → α} {p h q t : α} {l xs ys : List α}

@[simp] theorem nil_iff : Seg next prev p h [] q t ↔ h = q ∧ t = p := Iff.rfl

@[simp] theorem cons_iff {a : α} : Seg next prev p h (a :: l) q t ↔
    h = a ∧ a ≠ 0 ∧ prev a = p ∧ Seg next prev a (next a) l q t := Iff.rfl

theorem append_iff : Seg next prev p h (xs ++ ys) q t ↔
    ∃ h' t', Seg next prev p h xs h' t' ∧ Seg next prev t' h' ys q t := by
  induction xs generalizing p h with
  | nil =>
    constructor
    · intro hs; exact ⟨h, p, ⟨rfl, rfl⟩, hs⟩
    · rintro ⟨h', t', ⟨rfl, rfl⟩, hs⟩; exact hs
  | cons a xs ih =>
    constructor
    · rintro ⟨h1, h2, h3, hs⟩
      obtain ⟨h', t', hx, hy⟩ := ih.mp hs
      exact ⟨h', t', ⟨h1, h2, h3, hx⟩, hy⟩
    · rintro ⟨h', t', ⟨h1, h2, h3, hx⟩, hy⟩
      exact ⟨h1, h2, h3, ih.mpr ⟨h', t', hx, hy⟩⟩

theorem congr (hs : Seg next prev p h l q t)
    (hag : ∀ a ∈ l, next' a = next a ∧ prev' a = prev a) : Seg next' prev' p h l q t := by
  induction l generalizing p h with
  | nil => exact hs
  | cons a l ih =>
    obtain ⟨rfl, h0, hp, hl⟩ := hs
    have ha := hag h List.mem_cons_self
    refine ⟨rfl, h0, ha.2.trans hp, ?_⟩
    rw [ha.1]
    exact ih hl fun b hb => hag b (List.mem_cons_of_mem _ hb)

theorem chain (hs : Seg next prev p h l 0 t) : Chain next h l := by
  induction l generalizing p h with
  | nil => exact hs.1
  | cons a l ih => obtain ⟨h1, h2, -, h4⟩ := hs; exact ⟨h1, h2, ih h4⟩

theorem zero_notMem (hs : Seg next prev p h l q t) : (0 : α) ∉ l := by
  induction l generalizing p h with
  | nil => simp
  | cons a l ih =>
    obtain ⟨rfl, h0, -, hl⟩ := hs
    simp only [List.mem_cons, not_or]
    exact ⟨Ne.symm h0, ih hl⟩

/-- The last node: the entry pointer of an empty segment, else a member. -/
theorem last_eq_or_mem (hs : Seg next prev p h l q t) : (l = [] ∧ t = p ∧ h = q) ∨ t ∈ l := by
  induction l generalizing p h with
  | nil => exact .inl ⟨rfl, hs.2, hs.1⟩
  | cons a l ih =>
    rcases ih hs.2.2.2 with ⟨-, rfl, -⟩ | hm
    · exact .inr List.mem_cons_self
    · exact .inr (List.mem_cons_of_mem _ hm)

theorem last_eq (hs : Seg next prev p h l q t) : t = l.getLast?.getD p := by
  induction l generalizing p h with
  | nil => exact hs.2
  | cons a l ih =>
    rw [ih hs.2.2.2, List.getLast?_cons]
    rfl

theorem head_eq (hs : Seg next prev p h l q t) : h = l.head?.getD q := by
  cases l with
  | nil => exact hs.1
  | cons a l => exact hs.1

theorem head_eq_or_mem (hs : Seg next prev p h l q t) : (l = [] ∧ t = p ∧ h = q) ∨ h ∈ l := by
  cases l with
  | nil => exact .inl ⟨rfl, hs.2, hs.1⟩
  | cons a l => obtain ⟨rfl, -⟩ := hs; exact .inr List.mem_cons_self

variable [DecidableEq α]

/-- Redirecting the `next` field of the last node. -/
theorem retarget (hs : Seg next prev p h l q t) (hn : l.Nodup) (hne : l ≠ []) (v : α) :
    Seg (Function.update next t v) prev p h l v t := by
  induction l generalizing p h with
  | nil => exact absurd rfl hne
  | cons a l ih =>
    obtain ⟨rfl, h0, hp, hl⟩ := hs
    obtain ⟨ha, hn'⟩ := List.nodup_cons.mp hn
    refine ⟨rfl, h0, hp, ?_⟩
    by_cases he : l = []
    · subst he; obtain ⟨-, rfl⟩ := hl; simp
    · have ht : t ∈ l := by
        rcases hl.last_eq_or_mem with ⟨e, -⟩ | hm
        · exact absurd e he
        · exact hm
      rw [Function.update_of_ne (ne_of_mem_of_not_mem ht ha).symm]
      exact ih hl hn' he

/-- Redirecting the `prev` field of the first node. -/
theorem rehead (hs : Seg next prev p h l q t) (hn : l.Nodup) (hne : l ≠ []) (v : α) :
    Seg next (Function.update prev h v) v h l q t := by
  cases l with
  | nil => exact absurd rfl hne
  | cons a l =>
    obtain ⟨rfl, h0, hp, hl⟩ := hs
    obtain ⟨ha, -⟩ := List.nodup_cons.mp hn
    refine ⟨rfl, h0, Function.update_self .., hl.congr fun b hb => ⟨rfl, ?_⟩⟩
    exact Function.update_of_ne (ne_of_mem_of_not_mem hb ha) _ _

end Seg

/-- Link functions and head of one doubly linked list. -/
structure DL (α : Type*) where
  next : α → α
  prev : α → α
  head : α

namespace DL

/-- `L` is the null-terminated list `l`. -/
def Is (L : DL α) (l : List α) : Prop := ∃ t, Seg L.next L.prev 0 L.head l 0 t

variable {L L' : DL α} {l xs ys : List α}

theorem Is.chain (h : L.Is l) : Chain L.next L.head l := by
  obtain ⟨t, hs⟩ := h; exact hs.chain

theorem Is.nodup (h : L.Is l) : l.Nodup := h.chain.nodup

theorem Is.zero_notMem (h : L.Is l) : (0 : α) ∉ l := h.chain.zero_notMem

theorem Is.congr (h : L.Is l) (hh : L'.head = L.head)
    (hag : ∀ a ∈ l, L'.next a = L.next a ∧ L'.prev a = L.prev a) : L'.Is l := by
  obtain ⟨t, hs⟩ := h
  exact ⟨t, hh ▸ hs.congr hag⟩

theorem is_nil_iff : L.Is [] ↔ L.head = 0 := by
  constructor
  · rintro ⟨t, hs⟩; exact hs.1
  · intro h; exact ⟨0, h, rfl⟩

theorem Is.head_eq_zero_iff (h : L.Is l) : L.head = 0 ↔ l = [] := by
  constructor
  · intro h0; have hc := h.chain; rw [h0] at hc; exact hc.eq_nil_of_zero
  · rintro rfl; exact is_nil_iff.mp h

variable [DecidableEq α]

/-- Splice `a` between `p` and `c` (either may be null). -/
def link (L : DL α) (a p c : α) : DL α :=
  let L₁ := { L with next := Function.update L.next a c, prev := Function.update L.prev a p }
  let L₂ := if p ≠ 0 then { L₁ with next := Function.update L₁.next p a } else { L₁ with head := a }
  if c ≠ 0 then { L₂ with prev := Function.update L₂.prev c a } else L₂

/-- Remove `a`, whose own fields are left as they are. -/
def unlink (L : DL α) (a : α) : DL α :=
  let L₁ := if L.prev a ≠ 0 then { L with next := Function.update L.next (L.prev a) (L.next a) }
    else { L with head := L.next a }
  if L₁.next a ≠ 0 then { L₁ with prev := Function.update L₁.prev (L₁.next a) (L₁.prev a) } else L₁

theorem Is.unlink {a : α} (h : L.Is (xs ++ a :: ys)) : (L.unlink a).Is (xs ++ ys) := by
  have hnd := h.nodup
  obtain ⟨t, hs⟩ := h
  obtain ⟨h', t', hx, rfl, h0, hp, hy⟩ := Seg.append_iff.mp hs
  obtain ⟨hnx, hna, -⟩ := List.nodup_append.mp hnd
  obtain ⟨hay, hny⟩ := List.nodup_cons.mp hna
  -- the first half: the predecessor (or the head) now points past the node
  have h1 : ∃ L₁ : DL α, L₁ = (if L.prev h' ≠ 0 then
        { L with next := Function.update L.next (L.prev h') (L.next h') }
        else { L with head := L.next h' }) ∧ L₁.prev = L.prev ∧ L₁.next h' = L.next h' ∧
      Seg L₁.next L₁.prev 0 L₁.head xs (L.next h') t' ∧
      Seg L₁.next L₁.prev h' (L.next h') ys 0 t := by
    refine ⟨_, rfl, ?_⟩
    by_cases he : xs = []
    · subst he
      obtain ⟨-, rfl⟩ := hx
      simp [hp, hy]
    · have htm : t' ∈ xs := by
        rcases hx.last_eq_or_mem with ⟨e, -⟩ | hm
        · exact absurd e he
        · exact hm
      have ht0 : t' ≠ 0 := fun e => hx.zero_notMem (e ▸ htm)
      have hty : t' ∉ h' :: ys := fun hm =>
        (List.disjoint_of_nodup_append hnd) htm hm
      rw [hp, if_pos ht0]
      refine ⟨rfl, ?_, hx.retarget hnx he _, hy.congr fun b hb => ⟨?_, rfl⟩⟩
      · exact Function.update_of_ne (ne_of_mem_of_not_mem List.mem_cons_self hty) _ _
      · exact Function.update_of_ne (ne_of_mem_of_not_mem (List.mem_cons_of_mem _ hb) hty) _ _
  obtain ⟨L₁, hL, hpv, hnv, hx₁, hy₁⟩ := h1
  -- the second half: the successor, if any, now points back past the node
  have hun : L.unlink h' = if L₁.next h' ≠ 0 then
      { L₁ with prev := Function.update L₁.prev (L₁.next h') (L₁.prev h') } else L₁ := by
    rw [hL]; rfl
  rw [hun, hnv]
  by_cases he : ys = []
  · subst he
    obtain ⟨hn, -⟩ := hy₁
    rw [hn] at hx₁ ⊢
    simp only [ne_eq, not_true_eq_false, if_false, List.append_nil]
    exact ⟨t', hx₁⟩
  · have hmem : L.next h' ∈ ys := by
      rcases hy₁.head_eq_or_mem with ⟨e, -⟩ | hm
      · exact absurd e he
      · exact hm
    have hn0 : L.next h' ≠ 0 := fun e => hy.zero_notMem (e ▸ hmem)
    rw [if_pos hn0]
    refine ⟨t, Seg.append_iff.mpr ⟨L.next h', t', ?_, ?_⟩⟩
    · refine hx₁.congr fun b hb => ⟨rfl, ?_⟩
      refine Function.update_of_ne (fun e => ?_) _ _
      exact (List.disjoint_of_nodup_append hnd) hb (List.mem_cons_of_mem _ (e ▸ hmem))
    · rw [hpv, hp, ← hpv]
      exact hy₁.rehead hny he _

theorem Is.link {a p c : α} (h : L.Is (xs ++ ys)) (h0 : a ≠ 0) (ha : a ∉ xs ++ ys)
    (hp : p = xs.getLast?.getD 0) (hc : c = ys.head?.getD 0) :
    (L.link a p c).Is (xs ++ a :: ys) := by
  have hnd := h.nodup
  have hz := h.zero_notMem
  obtain ⟨t, hs⟩ := h
  obtain ⟨h', t', hx, hy⟩ := Seg.append_iff.mp hs
  have hp' : p = t' := hp.trans hx.last_eq.symm
  have hc' : c = h' := hc.trans hy.head_eq.symm
  subst hp' hc'
  simp only [List.mem_append, not_or] at ha hz
  have hdisj := List.disjoint_of_nodup_append hnd
  obtain ⟨hnx, hny, -⟩ := List.nodup_append.mp hnd
  -- fields of `a` first; they are read by no other node
  have hx₁ : Seg (Function.update L.next a c) (Function.update L.prev a p) 0 L.head xs c p :=
    hx.congr fun b hb => ⟨Function.update_of_ne (ne_of_mem_of_not_mem hb ha.1) _ _,
      Function.update_of_ne (ne_of_mem_of_not_mem hb ha.1) _ _⟩
  have hy₁ : Seg (Function.update L.next a c) (Function.update L.prev a p) p c ys 0 t :=
    hy.congr fun b hb => ⟨Function.update_of_ne (ne_of_mem_of_not_mem hb ha.2) _ _,
      Function.update_of_ne (ne_of_mem_of_not_mem hb ha.2) _ _⟩
  -- then the predecessor or the head
  have h2 : ∃ L₂ : DL α, L₂ = (if p ≠ 0 then
        ({ next := Function.update (Function.update L.next a c) p a,
           prev := Function.update L.prev a p, head := L.head } : DL α)
        else
          { next := Function.update L.next a c, prev := Function.update L.prev a p, head := a }) ∧
      L₂.prev = Function.update L.prev a p ∧ L₂.next a = c ∧
      Seg L₂.next L₂.prev 0 L₂.head xs a p ∧ Seg L₂.next L₂.prev p c ys 0 t := by
    refine ⟨_, rfl, ?_⟩
    by_cases he : xs = []
    · subst he
      obtain ⟨-, rfl⟩ := hx₁
      simpa using hy₁
    · have hpm : p ∈ xs := by
        rcases hx.last_eq_or_mem with ⟨e, -⟩ | hm
        · exact absurd e he
        · exact hm
      rw [if_pos (ne_of_mem_of_not_mem hpm hz.1)]
      refine ⟨rfl, ?_, hx₁.retarget hnx he _, hy₁.congr fun b hb => ⟨?_, rfl⟩⟩
      · simp only
        rw [Function.update_of_ne (ne_of_mem_of_not_mem hpm ha.1).symm, Function.update_self]
      · exact Function.update_of_ne (ne_of_mem_of_not_mem hb (hdisj hpm)) _ _
  obtain ⟨L₂, hL, hpv, hna, hx₂, hy₂⟩ := h2
  have hlk : L.link a p c = if c ≠ 0 then
      { L₂ with prev := Function.update L₂.prev c a } else L₂ := by
    rw [hL]; rfl
  rw [hlk]
  by_cases he : ys = []
  · subst he
    obtain ⟨rfl, -⟩ := hy₂
    simp only [ne_eq, not_true_eq_false, if_false]
    exact ⟨a, Seg.append_iff.mpr ⟨a, p, hx₂, rfl, h0, by simp [hpv], hna, rfl⟩⟩
  · have hcm : c ∈ ys := by
      rcases hy.head_eq_or_mem with ⟨e, -⟩ | hm
      · exact absurd e he
      · exact hm
    rw [if_pos (ne_of_mem_of_not_mem hcm hz.2)]
    refine ⟨t, Seg.append_iff.mpr ⟨a, p, ?_, rfl, h0, ?_, ?_⟩⟩
    · refine hx₂.congr fun b hb => ⟨rfl, ?_⟩
      exact Function.update_of_ne (fun e => hdisj (e ▸ hb) hcm) _ _
    · simp only
      rw [Function.update_of_ne (ne_of_mem_of_not_mem hcm ha.2).symm, hpv, Function.update_self]
    · rw [hna]
      exact hy₂.rehead hny he _

/-- `a` becomes the first node. -/
def push (L : DL α) (a : α) : DL α :=
  let L₁ : DL α := ⟨Function.update L.next a L.head, Function.update L.prev a 0, a⟩
  if L.head ≠ 0 then { L₁ with prev := Function.update L₁.prev L.head a } else L₁

/-- The list goes on behind `a`. -/
def pop (L : DL α) (a : α) : DL α :=
  if L.next a ≠ 0 then ⟨L.next, Function.update L.prev (L.next a) 0, L.next a⟩
  else ⟨L.next, L.prev, L.next a⟩

variable {a x : α}

theorem Is.push (h : L.Is l) (h0 : a ≠ 0) (ha : a ∉ l) : (L.push a).Is (a :: l) := by
  obtain ⟨t, hs⟩ := h
  have hl : L.push a = L.link a 0 L.head := by
    unfold DL.push DL.link
    simp only [ne_eq, not_true_eq_false, if_false]
  rw [hl]
  exact (show L.Is ([] ++ l) from ⟨t, hs⟩).link h0 ha rfl hs.head_eq

theorem Is.pop_eq (h : L.Is (a :: l)) : L.pop a = L.unlink a := by
  have hp : L.prev a = 0 := by
    obtain ⟨t, hs⟩ := h
    exact hs.2.2.1
  unfold DL.pop DL.unlink
  simp only [hp, ne_eq, not_true_eq_false, if_false]

theorem Is.pop (h : L.Is (a :: l)) : (L.pop a).Is l := by
  rw [h.pop_eq]
  exact (show L.Is ([] ++ a :: l) from h).unlink

theorem push_next (hx : x ≠ a) : (L.push a).next x = L.next x := by
  unfold DL.push
  split <;> exact Function.update_of_ne hx _ _

/-- Only the first node of the list points back to the new one. -/
theorem Is.push_prev (h : L.Is l) (hx : x ≠ a) (hl : x ∉ l) : (L.push a).prev x = L.prev x := by
  unfold DL.push
  split
  next h0 =>
    obtain ⟨t, rfl, -⟩ := h.chain.exists_cons h0
    exact (Function.update_of_ne (List.ne_of_not_mem_cons hl) _ _).trans
      (Function.update_of_ne hx _ _)
  next => exact Function.update_of_ne hx _ _

/-- Only the neighbours of a node in its list are written when it is removed. -/
theorem Is.unlink_other (h : L.Is (xs ++ a :: ys)) (hx : x ∉ xs ++ a :: ys) :
    (L.unlink a).next x = L.next x ∧ (L.unlink a).prev x = L.prev x := by
  obtain ⟨t, hs⟩ := h
  obtain ⟨h', t', hl, rfl, -, hp, hr⟩ := Seg.append_iff.mp hs
  have hprev : L.prev h' ≠ 0 → x ≠ L.prev h' := by
    rw [hp]
    intro h0
    rcases hl.last_eq_or_mem with ⟨-, e, -⟩ | hm
    · exact absurd e h0
    · exact (ne_of_mem_of_not_mem (List.mem_append_left _ hm) hx).symm
  have hnext : L.next h' ≠ 0 → x ≠ L.next h' := by
    intro h0
    rcases hr.head_eq_or_mem with ⟨-, -, e⟩ | hm
    · exact absurd e h0
    · exact (ne_of_mem_of_not_mem (List.mem_append_right _ (List.mem_cons_of_mem _ hm)) hx).symm
  have hself : Function.update L.next (L.prev h') (L.next h') h' = L.next h' := by
    by_cases he : h' = L.prev h'
    · rw [← he, Function.update_self]
    · exact Function.update_of_ne he _ _
  unfold DL.unlink
  dsimp only
  split
  next h0 =>
    dsimp only
    split
    next h1 =>
      have hne := hnext (hself ▸ h1)
      exact ⟨Function.update_of_ne (hprev h0) _ _,
        Function.update_of_ne (fun e => hne (e.trans hself)) _ _⟩
    next => exact ⟨Function.update_of_ne (hprev h0) _ _, rfl⟩
  next =>
    split
    next h1 => exact ⟨rfl, Function.update_of_ne (hnext h1) _ _⟩
    next => exact ⟨rfl, rfl⟩

/-- A node of one list becomes the first of another, `h`, with the same link functions. -/
theorem Is.moveFrom {h : α} (ha : L.Is (xs ++ a :: ys)) (hb : (⟨L.next, L.prev, h⟩ : DL α).Is l)
    (hn : (xs ++ a :: ys ++ l).Nodup) {F : DL α}
    (hF : F = (⟨(L.unlink a).next, (L.unlink a).prev, h⟩ : DL α).push a) :
    (⟨F.next, F.prev, (L.unlink a).head⟩ : DL α).Is (xs ++ ys) ∧ F.Is (a :: l) ∧
      ∀ x, x ∉ xs ++ a :: ys ++ l → F.next x = L.next x ∧ F.prev x = L.prev x := by
  subst hF
  have hdisj := List.disjoint_of_nodup_append hn
  have hmem : a ∈ xs ++ a :: ys := List.mem_append_right _ List.mem_cons_self
  have hnot : a ∉ xs ++ ys := (List.nodup_middle.mp (List.nodup_append.mp hn).1).notMem
  have hsub : ∀ x ∈ xs ++ ys, x ∈ xs ++ a :: ys := fun x hx =>
    (List.Sublist.append_left (List.sublist_cons_self a ys) xs).subset hx
  have h0 : a ≠ 0 := fun e => ha.zero_notMem (e ▸ hmem)
  have hb' : (⟨(L.unlink a).next, (L.unlink a).prev, h⟩ : DL α).Is l :=
    hb.congr rfl fun x hx => ha.unlink_other fun hm => hdisj hm hx
  refine ⟨ha.unlink.congr rfl fun x hx => ?_, hb'.push h0 fun hm => hdisj hmem hm, fun x hx => ?_⟩
  · have hxa := ne_of_mem_of_not_mem hx hnot
    exact ⟨push_next hxa, hb'.push_prev hxa fun hm => hdisj (hsub x hx) hm⟩
  · rw [List.mem_append, not_or] at hx
    obtain ⟨h1, h2⟩ := ha.unlink_other hx.1
    have hxa : x ≠ a := (ne_of_mem_of_not_mem hmem hx.1).symm
    exact ⟨(push_next hxa).trans h1, (hb'.push_prev hxa hx.2).trans h2⟩

/-- The first node of one list becomes that of another. -/
theorem Is.move {h : α} (ha : L.Is (a :: l)) (hb : (⟨L.next, L.prev, h⟩ : DL α).Is xs)
    (hn : (a :: l ++ xs).Nodup) {F : DL α}
    (hF : F = (⟨(L.pop a).next, (L.pop a).prev, h⟩ : DL α).push a) :
    (⟨F.next, F.prev, (L.pop a).head⟩ : DL α).Is l ∧ F.Is (a :: xs) ∧
      ∀ x, x ∉ a :: l ++ xs → F.next x = L.next x ∧ F.prev x = L.prev x := by
  rw [ha.pop_eq] at hF ⊢
  exact (show L.Is ([] ++ a :: l) from ha).moveFrom hb hn hF

theorem link_fields (L : DL α) (b p c : α) : L.link b p c =
    ⟨if p ≠ 0 then Function.update (Function.update L.next b c) p b else Function.update L.next b c,
      if c ≠ 0 then Function.update (Function.update L.prev b p) c b
      else Function.update L.prev b p,
      if p ≠ 0 then L.head else b⟩ := by
  unfold DL.link
  split <;> split <;> rfl

theorem unlink_fields (L : DL α) (a : α) : L.unlink a =
    ⟨if L.prev a ≠ 0 then Function.update L.next (L.prev a) (L.next a) else L.next,
      if L.next a ≠ 0 then Function.update L.prev (L.next a) (L.prev a) else L.prev,
      if L.prev a ≠ 0 then L.head else L.next a⟩ := by
  have hself : Function.update L.next (L.prev a) (L.next a) a = L.next a := by
    by_cases he : a = L.prev a
    · rw [← he, Function.update_self]
    · exact Function.update_of_ne he _ _
  unfold DL.unlink
  dsimp only
  by_cases hp : L.prev a = 0
  · simp only [hp, ne_eq, not_true_eq_false, if_false]
    split <;> rfl
  · simp only [hp, hself, ne_eq, not_false_eq_true, if_true]
    split <;> rfl

/-- A node takes the place of another, with the fields that node has. -/
theorem Is.replace {b : α} (h : L.Is (xs ++ a :: ys)) (h0 : b ≠ 0) (hb : b ∉ xs ++ ys) :
    (L.link b (L.prev a) (L.next a)).Is (xs ++ b :: ys) := by
  have hends : L.prev a = xs.getLast?.getD 0 ∧ L.next a = ys.head?.getD 0 := by
    obtain ⟨t, hs⟩ := h
    obtain ⟨h', t', hx, rfl, -, hp, hy⟩ := Seg.append_iff.mp hs
    exact ⟨hp.trans hx.last_eq, hy.head_eq⟩
  -- what the removal writes, the splice writes again
  have hl : L.link b (L.prev a) (L.next a) = (L.unlink a).link b (L.prev a) (L.next a) := by
    rw [link_fields, link_fields, unlink_fields, DL.mk.injEq]
    refine ⟨?_, ?_, ?_⟩
    · split
      · funext x
        simp only [Function.update_apply]
        split <;> rfl
      · rfl
    · split
      · funext x
        simp only [Function.update_apply]
        split <;> rfl
      · rfl
    · split <;> rfl
  rw [hl]
  exact h.unlink.link h0 hb hends.1 hends.2

end DL

end Cmem
