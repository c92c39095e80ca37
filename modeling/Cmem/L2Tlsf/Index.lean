import Cmem.L2Tlsf.Model

/-!
# The two-level index

`Indexed m T fs L`: the list of bucket `(fl, sl)` is `L fl sl`, doubly linked;
together the lists hold exactly the blocks `fs`, each in the bucket
`tlsf_mapping_insert` gives for its size; a bitmap bit is set exactly for the
lists that are not empty. Insertion and removal keep this for a set with one
block more or less and change nothing but list links (`insert_spec`,
`remove_spec`). The search returns a member that is large enough (`find_spec`),
and nothing only if no member has the size it looks for (`find_complete`).
-/
namespace Cmem.L2.SharedTlsf

/-! ## Buckets -/

theorem tlsfFls_of_lt {n : Nat} (h : n < 2 ^ 32) : tlsfFls n = Nat.log2 n := by
  unfold tlsfFls
  rw [Nat.mod_eq_of_lt h]

/-- The bucket of a size: its top bit, and the four bits below it. -/
theorem mappingInsert_eq {n : Nat} (h : 16 ≤ n) (hn : n < 2 ^ 32) :
    ∃ j < 16, tlsfMappingInsert n = (Nat.log2 n, j) ∧ n >>> (Nat.log2 n - 4) = 16 + j := by
  obtain ⟨j, hj, e⟩ := shiftRight_top (n := n) (k := 4) h
  refine ⟨j, hj, ?_, e⟩
  have hx : (2 ^ 4 + j) ^^^ 2 ^ 4 = j := two_pow_add_xor hj
  unfold tlsfMappingInsert
  rw [if_neg (by omega), tlsfFls_of_lt hn, e, hx]

theorem log2_bounds {n : Nat} (h : n ≠ 0) : 2 ^ Nat.log2 n ≤ n ∧ n < 2 ^ (Nat.log2 n + 1) :=
  ⟨Nat.log2_self_le h, Nat.lt_log2_self⟩

/-- Sizes the code admits have buckets inside the tables. -/
theorem mappingInsert_lt {n : Nat} (h : 32 ≤ n) (hn : n < 2 ^ 30) :
    (tlsfMappingInsert n).1 < 30 ∧ (tlsfMappingInsert n).2 < 16 := by
  obtain ⟨j, hj, e, -⟩ := mappingInsert_eq (n := n) (by omega) (by omega)
  rw [e]
  exact ⟨(Nat.log2_lt (by omega)).mpr hn, hj⟩

/-- A bucket above the first level 0 says the size up to its segment. -/
theorem mappingInsert_bucket {n fl sl : Nat} (hn : n < 2 ^ 32) (hfl : fl ≠ 0)
    (hk : tlsfMappingInsert n = (fl, sl)) :
    16 ≤ n ∧ fl = Nat.log2 n ∧ sl < 16 ∧ n >>> (Nat.log2 n - 4) = 16 + sl := by
  by_cases h : 16 ≤ n
  · obtain ⟨j, hj, e, e'⟩ := mappingInsert_eq h hn
    rw [hk] at e
    obtain ⟨rfl, rfl⟩ := Prod.mk.inj e
    exact ⟨h, rfl, hj, e'⟩
  · unfold tlsfMappingInsert at hk
    rw [if_pos (by omega)] at hk
    exact absurd (Prod.mk.inj hk).1.symm hfl

/-- What the search asks for: bucket `log2 n`, and the segment of `n` rounded up
to the next segment boundary. -/
theorem mappingSearch_eq {n : Nat} (h : 16 ≤ n) (hn : n < 2 ^ 31) :
    tlsfMappingSearch n = (Nat.log2 n,
      ((n + (2 ^ (Nat.log2 n - 4) - 1)) >>> (Nat.log2 n - 4)) ^^^ 2 ^ 4) := by
  have hl : Nat.log2 n < 31 := (Nat.log2_lt (by omega)).mpr hn
  have h0 : Nat.log2 n ≠ 0 := by
    have := (Nat.le_log2 (n := n) (by omega) (k := 4)).mpr h
    omega
  have hp : 2 ^ (Nat.log2 n - 4) ≤ 2 ^ 27 := Nat.pow_le_pow_right (by decide) (by omega)
  unfold tlsfMappingSearch
  rw [if_pos (by omega)]
  simp only [tlsfFls_of_lt (n := n) (by omega), if_neg h0]
  rw [sizeAdd_of_lt (by unfold sizeMod; omega)]

/-- The number of segments `n` takes, rounded up: 16 to 32 of them. At 32 the segment is past
the last one, and the masked shift count is 16. -/
theorem searchSegment {n : Nat} (h : 16 ≤ n) :
    16 ≤ (n + (2 ^ (Nat.log2 n - 4) - 1)) / 2 ^ (Nat.log2 n - 4) ∧
      n ≤ (n + (2 ^ (Nat.log2 n - 4) - 1)) / 2 ^ (Nat.log2 n - 4) * 2 ^ (Nat.log2 n - 4) ∧
      (((n + (2 ^ (Nat.log2 n - 4) - 1)) >>> (Nat.log2 n - 4)) ^^^ 2 ^ 4) % 32 + 16 =
        (n + (2 ^ (Nat.log2 n - 4) - 1)) / 2 ^ (Nat.log2 n - 4) := by
  have hl : 4 ≤ Nat.log2 n := (Nat.le_log2 (n := n) (by omega)).mpr h
  obtain ⟨h1, h2⟩ := log2_bounds (n := n) (by omega)
  generalize hk : Nat.log2 n - 4 = k
  have hp := Nat.two_pow_pos k
  have e1 : 2 ^ Nat.log2 n = 16 * 2 ^ k := by
    rw [show Nat.log2 n = 4 + k by omega, Nat.pow_add]
  rw [Nat.pow_succ, e1] at h2
  rw [e1] at h1
  rw [Nat.shiftRight_eq_div_pow]
  have hq1 : 16 ≤ (n + (2 ^ k - 1)) / 2 ^ k := (Nat.le_div_iff_mul_le hp).mpr (by omega)
  have hq2 : (n + (2 ^ k - 1)) / 2 ^ k < 33 := (Nat.div_lt_iff_lt_mul hp).mpr (by omega)
  have hround : n ≤ (n + (2 ^ k - 1)) / 2 ^ k * 2 ^ k := by
    have h3 := Nat.div_add_mod' (n + (2 ^ k - 1)) (2 ^ k)
    have h4 := Nat.mod_lt (n + (2 ^ k - 1)) hp
    omega
  refine ⟨hq1, hround, ?_⟩
  generalize (n + (2 ^ k - 1)) / 2 ^ k = q at *
  by_cases hlt : q < 32
  · obtain ⟨i, rfl⟩ : ∃ i, q = 2 ^ 4 + i := ⟨q - 16, by omega⟩
    rw [two_pow_add_xor (by omega)]
    omega
  · obtain rfl : q = 32 := by omega
    decide

/-- `n` rounded up to its segment boundary: what the search looks for. -/
def searchSize (n : Nat) : Nat :=
  (n + (2 ^ (Nat.log2 n - 4) - 1)) / 2 ^ (Nat.log2 n - 4) * 2 ^ (Nat.log2 n - 4)

/-- The segments of `log2 n` from the searched one on are those of the sizes from `searchSize n`
on. -/
theorem segment_le_iff {n s j sl : Nat} (h : 16 ≤ n) (hs : s >>> (Nat.log2 n - 4) = 16 + j)
    (hsl : sl = ((n + (2 ^ (Nat.log2 n - 4) - 1)) >>> (Nat.log2 n - 4)) ^^^ 2 ^ 4) :
    sl % 32 ≤ j ↔ searchSize n ≤ s := by
  obtain ⟨-, -, hq⟩ := searchSegment h
  rw [← hsl] at hq
  rw [searchSize, ← Nat.le_div_iff_mul_le (Nat.two_pow_pos _), ← Nat.shiftRight_eq_div_pow s, hs]
  omega

theorem le_searchSize {n : Nat} (h : 16 ≤ n) : n ≤ searchSize n := (searchSegment h).2.1

/-! ## The index -/

/-- Any two different blocks of the set are at least a `tlsf_block_t` apart. -/
def ApartSet (p : Nat → Prop) : Prop := ∀ a, p a → ∀ c, p c → a = c ∨ a + 32 ≤ c ∨ c + 32 ≤ a

structure Indexed (m : Mem) (T : TPool) (fs : Nat → Prop) (L : Nat → Nat → List Nat) : Prop where
  list : ∀ fl sl, (freeDL m (T.blocks fl sl)).Is (L fl sl)
  mem : ∀ fl sl b, b ∈ L fl sl ↔ fs b ∧ tlsfMappingInsert (span m b) = (fl, sl)
  slBit : ∀ fl sl, (T.slBitmap fl).getLsbD sl = true ↔ L fl sl ≠ []
  flBit : ∀ fl, T.flBitmap.getLsbD fl = true ↔ T.slBitmap fl ≠ 0#32

section Index
variable {m m' : Mem} {T : TPool} {fs gs : Nat → Prop} {L : Nat → Nat → List Nat} {b : Nat}

theorem Indexed.head_mem (h : Indexed m T fs L) {fl sl : Nat} (h0 : T.blocks fl sl ≠ 0) :
    fs (T.blocks fl sl) ∧ tlsfMappingInsert (span m (T.blocks fl sl)) = (fl, sl) := by
  obtain ⟨t, hl, -⟩ := (h.list fl sl).chain.exists_cons h0
  refine (h.mem fl sl _).mp ?_
  rw [hl]
  exact List.mem_cons_self

/-- The index reads sizes and links of its members only. -/
theorem Indexed.congr (h : Indexed m T fs L) (hset : ∀ c, gs c ↔ fs c)
    (hag : ∀ c, fs c → span m' c = span m c ∧ nextFree m' c = nextFree m c ∧
      prevFree m' c = prevFree m c) : Indexed m' T gs L := by
  refine ⟨fun fl sl => ?_, fun fl sl c => ?_, h.slBit, h.flBit⟩
  · exact (h.list fl sl).congr rfl fun a ha => (hag a ((h.mem ..).mp ha).1).2
  · rw [h.mem, hset]
    refine and_congr_right fun hc => ?_
    rw [(hag c hc).1]

/-- The words a list operation over `fs` may change. -/
def LinkWord (fs : Nat → Prop) (x : Nat) : Prop := ∃ c, fs c ∧ (x = c + 16 ∨ x = c + 24)

theorem linkWord_not {p : Nat → Prop} (hap : ApartSet p) {a : Nat} (ha : p a)
    (hsub : ∀ c, fs c → p c) {i : Nat} (hi : i < 16) : ¬ LinkWord fs (a + i) := by
  rintro ⟨c, hc, hx⟩
  have := hap a ha c (hsub c hc)
  omega

theorem apart_list (hap : ApartSet fs) {l : List Nat} (hl : ∀ a ∈ l, fs a) : Apart l :=
  fun a ha c hc => hap a (hl a ha) c (hl c hc)

theorem insert_eq {fl sl : Nat} (hk : tlsfMappingInsert (span m b) = (fl, sl)) :
    tlsfInsertFreeBlock m T b =
      ((linkBlock m (T.blocks fl sl) b 0 (T.blocks fl sl)).1,
        (T.setHead fl sl (linkBlock m (T.blocks fl sl) b 0 (T.blocks fl sl)).2).mark fl sl) := by
  simp only [tlsfInsertFreeBlock, hk]

theorem remove_eq {fl sl : Nat} (hk : tlsfMappingInsert (span m b) = (fl, sl)) :
    tlsfRemoveFreeBlock m T b =
      ((unlinkBlock m (T.blocks fl sl) b).1,
        if (unlinkBlock m (T.blocks fl sl) b).2 = 0
        then (T.setHead fl sl (unlinkBlock m (T.blocks fl sl) b).2).unmark fl sl
        else T.setHead fl sl (unlinkBlock m (T.blocks fl sl) b).2) := by
  simp only [tlsfRemoveFreeBlock, hk]

theorem insert_frame (h : Indexed m T fs L) {x : Nat} (hx : ¬ LinkWord (fun c => fs c ∨ c = b) x) :
    (tlsfInsertFreeBlock m T b).1 x = m x := by
  obtain ⟨⟨fl, sl⟩, hk⟩ : ∃ k, tlsfMappingInsert (span m b) = k := ⟨_, rfl⟩
  rw [insert_eq hk]
  have hbx : x ≠ b + 16 ∧ x ≠ b + 24 :=
    ⟨fun e => hx ⟨b, .inr rfl, .inl e⟩, fun e => hx ⟨b, .inr rfl, .inr e⟩⟩
  show (linkBlock m (T.blocks fl sl) b 0 (T.blocks fl sl)).1 x = m x
  refine linkBlock_frame hbx (fun h0 => absurd rfl h0) fun h0 e => ?_
  exact hx ⟨_, .inl (h.head_mem h0).1, .inr e⟩

theorem remove_frame (h : Indexed m T fs L) (hb : fs b) {x : Nat} (hx : ¬ LinkWord fs x) :
    (tlsfRemoveFreeBlock m T b).1 x = m x := by
  obtain ⟨⟨fl, sl⟩, hk⟩ : ∃ k, tlsfMappingInsert (span m b) = k := ⟨_, rfl⟩
  rw [remove_eq hk]
  obtain ⟨xs, ys, e⟩ := List.append_of_mem ((h.mem fl sl b).mpr ⟨hb, hk⟩)
  have hl := h.list fl sl
  rw [e] at hl
  refine unlinkBlock_frame hl fun c hc => ?_
  have hm : c ∈ L fl sl := by
    rw [e]
    simp only [List.mem_append, List.mem_cons] at hc ⊢
    tauto
  have hf := ((h.mem _ _ _).mp hm).1
  exact ⟨fun e => hx ⟨c, hf, .inl e⟩, fun e => hx ⟨c, hf, .inr e⟩⟩

/-- An entry of the head table after one write. -/
theorem setHead_blocks (fl sl v fl' sl' : Nat) :
    (T.setHead fl sl v).blocks fl' sl' = if fl' = fl ∧ sl' = sl then v else T.blocks fl' sl' := by
  unfold TPool.setHead
  by_cases h1 : fl' = fl
  · subst h1
    by_cases h2 : sl' = sl
    · subst h2; simp
    · simp [h2]
  · simp [h1]

theorem mark_slBit {fl sl : Nat} (hs : sl < 32) (fl' sl' : Nat) :
    ((T.mark fl sl).slBitmap fl').getLsbD sl' =
      ((T.slBitmap fl').getLsbD sl' || decide (fl' = fl ∧ sl' = sl)) := by
  unfold TPool.mark
  by_cases h1 : fl' = fl
  · subst h1; simp [getLsbD_setBit _ _ _ hs]
  · simp [h1]

theorem mark_ne_zero (fl : Nat) {sl : Nat} (hs : sl < 32) : (T.mark fl sl).slBitmap fl ≠ 0#32 :=
  ne_zero_of_getLsbD (i := sl) (by rw [mark_slBit hs]; simp)

/-- `mark` keeps the two bitmap levels in step. -/
theorem mark_flBit {fl sl : Nat} (hf : fl < 32) (hs : sl < 32)
    (h : ∀ fl, T.flBitmap.getLsbD fl = true ↔ T.slBitmap fl ≠ 0#32) (fl' : Nat) :
    (T.mark fl sl).flBitmap.getLsbD fl' = true ↔ (T.mark fl sl).slBitmap fl' ≠ 0#32 := by
  by_cases h1 : fl' = fl
  · subst h1
    have := mark_ne_zero (T := T) fl' hs
    simp only [TPool.mark, getLsbD_setBit _ _ _ hf, Bool.or_eq_true, decide_true, or_true, true_iff]
      at this ⊢
    exact this
  · simp only [TPool.mark, getLsbD_setBit _ _ _ hf, h1, decide_false, Bool.or_false,
      Function.update_of_ne h1]
    exact h fl'

theorem unmark_slBit {fl sl : Nat} (fl' sl' : Nat) :
    ((T.unmark fl sl).slBitmap fl').getLsbD sl' =
      ((T.slBitmap fl').getLsbD sl' && !decide (fl' = fl ∧ sl' = sl)) := by
  unfold TPool.unmark
  by_cases h1 : fl' = fl
  · subst h1
    simp only [Function.update_self, getLsbD_clearBit, true_and]
  · simp [h1]

theorem unmark_flBit {fl sl : Nat}
    (h : ∀ fl, T.flBitmap.getLsbD fl = true ↔ T.slBitmap fl ≠ 0#32) (fl' : Nat) :
    (T.unmark fl sl).flBitmap.getLsbD fl' = true ↔ (T.unmark fl sl).slBitmap fl' ≠ 0#32 := by
  unfold TPool.unmark
  by_cases h1 : fl' = fl
  · subst h1
    by_cases h0 : T.slBitmap fl' &&& ~~~(1#32 <<< sl) = 0#32
    · simp [h0]
    · simp only [h0, if_false, Function.update_self, ne_eq, not_false_eq_true, iff_true]
      refine (h fl').mpr fun e => h0 ?_
      rw [e]; simp
  · simp only [Function.update_of_ne h1]
    rw [← h fl']
    split
    · rw [getLsbD_clearBit]; simp [h1]
    · rfl

/-- **Insertion.** -/
theorem insert_spec (h : Indexed m T fs L) (hap : ApartSet fun c => fs c ∨ c = b) (h0 : b ≠ 0)
    (hb : ¬ fs b) (hsz : 32 ≤ span m b ∧ span m b < 2 ^ 30) :
    ∃ L', Indexed (tlsfInsertFreeBlock m T b).1 (tlsfInsertFreeBlock m T b).2
      (fun c => fs c ∨ c = b) L' := by
  have hfr := fun x hx => insert_frame (b := b) h (x := x) hx
  obtain ⟨⟨fl, sl⟩, hk⟩ : ∃ k, tlsfMappingInsert (span m b) = k := ⟨_, rfl⟩
  have hlt := mappingInsert_lt hsz.1 hsz.2
  rw [hk] at hlt
  simp only at hlt
  have hspan : ∀ c, fs c ∨ c = b → span (tlsfInsertFreeBlock m T b).1 c = span m c := fun c hc =>
    congrArg blockSize (hfr c (linkWord_not hap hc (fun _ h => h) (i := 0) (by omega)))
  rw [insert_eq hk] at hfr hspan ⊢
  refine ⟨fun fl' sl' => if fl' = fl ∧ sl' = sl then b :: L fl sl else L fl' sl', ?_⟩
  have hother : ∀ fl' sl' c, ¬ (fl' = fl ∧ sl' = sl) → c ∈ L fl' sl' → ∀ i, i = 16 ∨ i = 24 →
      (linkBlock m (T.blocks fl sl) b 0 (T.blocks fl sl)).1 (c + i) = m (c + i) := by
    -- members of the other lists are neither `b` nor the head it is pushed on
    intro fl' sl' c hne hc i hi
    have hcm := (h.mem _ _ _).mp hc
    have hcb : c ≠ b := fun e => hb (e ▸ hcm.1)
    have hs := hap c (.inl hcm.1) b (.inr rfl)
    refine linkBlock_frame (by omega) (fun h => absurd rfl h) fun hh e => ?_
    have hhm := h.head_mem hh
    have hch : c ≠ T.blocks fl sl := by
      intro e
      rw [← e, hcm.2] at hhm
      exact hne (Prod.mk.inj hhm.2)
    have := hap c (.inl hcm.1) _ (.inl hhm.1)
    omega
  refine ⟨fun fl' sl' => ?_, fun fl' sl' c => ?_, fun fl' sl' => ?_,
    mark_flBit (by omega) (by omega) ?_⟩
  · show (freeDL _ ((T.setHead fl sl _).blocks fl' sl')).Is _
    rw [setHead_blocks]
    by_cases hc : fl' = fl ∧ sl' = sl
    · obtain ⟨rfl, rfl⟩ := hc
      simp only [and_self, if_true]
      have hhead := (h.list fl' sl').chain
      have hl : (freeDL m (T.blocks fl' sl')).Is ([] ++ L fl' sl') := h.list fl' sl'
      refine linkBlock_is hl (apart_list hap fun a ha => ?_) h0 (fun hm => ?_) rfl ?_
      · rcases List.mem_cons.mp ha with rfl | ha
        · exact .inr rfl
        · exact .inl ((h.mem _ _ _).mp ha).1
      · exact hb ((h.mem _ _ _).mp hm).1
      · obtain ⟨t, hs⟩ := h.list fl' sl'
        exact hs.head_eq
    · simp only [hc, if_false]
      exact (h.list fl' sl').congr rfl fun a ha =>
        ⟨hother _ _ _ hc ha 16 (.inl rfl), hother _ _ _ hc ha 24 (.inr rfl)⟩
  · by_cases hc : fl' = fl ∧ sl' = sl
    · obtain ⟨rfl, rfl⟩ := hc
      simp only [and_self, if_true, List.mem_cons, h.mem]
      constructor
      · rintro (rfl | ⟨h1, h2⟩)
        · exact ⟨.inr rfl, by rw [hspan _ (.inr rfl)]; exact hk⟩
        · exact ⟨.inl h1, by rw [hspan _ (.inl h1)]; exact h2⟩
      · rintro ⟨h1 | h1, h2⟩
        · exact .inr ⟨h1, by rw [← hspan _ (.inl h1)]; exact h2⟩
        · exact .inl h1
    · simp only [hc, if_false, h.mem]
      constructor
      · rintro ⟨h1, h2⟩
        exact ⟨.inl h1, by rw [hspan _ (.inl h1)]; exact h2⟩
      · rintro ⟨h1 | rfl, h2⟩
        · exact ⟨h1, by rw [← hspan _ (.inl h1)]; exact h2⟩
        · rw [hspan _ (.inr rfl), hk] at h2
          obtain ⟨rfl, rfl⟩ := Prod.mk.inj h2
          exact absurd ⟨rfl, rfl⟩ hc
  · rw [mark_slBit (by omega)]
    by_cases hc : fl' = fl ∧ sl' = sl
    · simp [hc]
    · simp only [hc, decide_false, Bool.or_false, if_false]
      exact h.slBit fl' sl'
  · exact h.flBit

/-- **Removal.** -/
theorem remove_spec (h : Indexed m T fs L) (hap : ApartSet fs) (hb : fs b) :
    ∃ L', Indexed (tlsfRemoveFreeBlock m T b).1 (tlsfRemoveFreeBlock m T b).2
      (fun c => fs c ∧ c ≠ b) L' := by
  have hfr := fun x hx => remove_frame h hb (x := x) hx
  obtain ⟨⟨fl, sl⟩, hk⟩ : ∃ k, tlsfMappingInsert (span m b) = k := ⟨_, rfl⟩
  have hspan : ∀ c, fs c → span (tlsfRemoveFreeBlock m T b).1 c = span m c := fun c hc =>
    congrArg blockSize (hfr c (linkWord_not hap hc (fun _ h => h) (i := 0) (by omega)))
  obtain ⟨xs, ys, e⟩ := List.append_of_mem ((h.mem fl sl b).mpr ⟨hb, hk⟩)
  have hl := h.list fl sl
  rw [e] at hl
  have hin : ∀ a ∈ xs ++ b :: ys, fs a := fun a ha => ((h.mem fl sl a).mp (e ▸ ha)).1
  have hnew := unlinkBlock_is hl (apart_list hap hin)
  rw [remove_eq hk] at hfr hspan ⊢
  refine ⟨fun fl' sl' => if fl' = fl ∧ sl' = sl then xs ++ ys else L fl' sl', ?_⟩
  have hother : ∀ fl' sl' c, ¬ (fl' = fl ∧ sl' = sl) → c ∈ L fl' sl' → ∀ i, i = 16 ∨ i = 24 →
      (unlinkBlock m (T.blocks fl sl) b).1 (c + i) = m (c + i) := by
    intro fl' sl' c hne hc i hi
    have hcm := (h.mem _ _ _).mp hc
    refine unlinkBlock_frame hl fun d hd => ?_
    have hd' : d ∈ L fl sl := by
      rw [e]
      simp only [List.mem_append, List.mem_cons] at hd ⊢
      tauto
    have hdm := (h.mem fl sl d).mp hd'
    have hcd : c ≠ d := by
      rintro rfl
      rw [hcm.2] at hdm
      exact hne (Prod.mk.inj hdm.2)
    have := hap c hcm.1 d hdm.1
    omega
  have hmem : ∀ c, c ∈ xs ++ ys ↔ fs c ∧ c ≠ b ∧ tlsfMappingInsert (span m c) = (fl, sl) := by
    intro c
    have hnd := hl.nodup
    have hbn : b ∉ xs ++ ys := (List.nodup_middle.mp hnd).notMem
    have hc := h.mem fl sl c
    rw [e] at hc
    simp only [List.mem_append, List.mem_cons] at hc hbn ⊢
    constructor
    · intro hm
      obtain ⟨h1, h2⟩ := hc.mp (by tauto)
      exact ⟨h1, fun e => hbn (e ▸ hm), h2⟩
    · rintro ⟨h1, h2, h3⟩
      have := hc.mpr ⟨h1, h3⟩
      tauto
  generalize hu : unlinkBlock m (T.blocks fl sl) b = u at *
  have hempty : u.2 = 0 ↔ xs ++ ys = [] := hnew.head_eq_zero_iff
  refine ⟨fun fl' sl' => ?_, fun fl' sl' c => ?_, fun fl' sl' => ?_, ?_⟩
  · have hblk :
        (if u.2 = 0 then (T.setHead fl sl u.2).unmark fl sl else T.setHead fl sl u.2).blocks fl' sl'
        = if fl' = fl ∧ sl' = sl then u.2 else T.blocks fl' sl' := by
      rw [← setHead_blocks]; split <;> rfl
    rw [hblk]
    by_cases hc : fl' = fl ∧ sl' = sl
    · simp only [hc, and_self, if_true]; exact hnew
    · simp only [hc, if_false]
      exact (h.list fl' sl').congr rfl fun a ha =>
        ⟨hother _ _ _ hc ha 16 (.inl rfl), hother _ _ _ hc ha 24 (.inr rfl)⟩
  · by_cases hc : fl' = fl ∧ sl' = sl
    · obtain ⟨rfl, rfl⟩ := hc
      simp only [and_self, if_true, hmem]
      constructor
      · rintro ⟨h1, h2, h3⟩
        exact ⟨⟨h1, h2⟩, by rw [hspan _ h1]; exact h3⟩
      · rintro ⟨⟨h1, h2⟩, h3⟩
        exact ⟨h1, h2, by rw [← hspan _ h1]; exact h3⟩
    · simp only [hc, if_false, h.mem]
      constructor
      · rintro ⟨h1, h2⟩
        refine ⟨⟨h1, ?_⟩, by rw [hspan _ h1]; exact h2⟩
        rintro rfl
        rw [hk] at h2
        obtain ⟨rfl, rfl⟩ := Prod.mk.inj h2
        exact hc ⟨rfl, rfl⟩
      · rintro ⟨⟨h1, -⟩, h2⟩
        exact ⟨h1, by rw [← hspan _ h1]; exact h2⟩
  · have hsl := h.slBit fl' sl'
    by_cases he : u.2 = 0
    · simp only [he, if_true]
      rw [unmark_slBit]
      by_cases hc : fl' = fl ∧ sl' = sl
      · simp [hc, hempty.mp he]
      · simp only [hc, decide_false, Bool.not_false, Bool.and_true, if_false]
        exact hsl
    · simp only [he, if_false]
      by_cases hc : fl' = fl ∧ sl' = sl
      · obtain ⟨rfl, rfl⟩ := hc
        simp only [and_self, if_true]
        exact iff_of_true (hsl.mpr (by rw [e]; simp)) fun h => he (hempty.mpr h)
      · simp only [hc, if_false]
        exact hsl
  · intro fl'
    by_cases he : u.2 = 0
    · simp only [he, if_true]
      exact unmark_flBit h.flBit fl'
    · simp only [he, if_false]
      exact h.flBit fl'

theorem Indexed.head_of_bit (h : Indexed m T fs L) {fl sl : Nat}
    (hbit : (T.slBitmap fl).getLsbD sl = true) : T.blocks fl sl ≠ 0 ∧ fs (T.blocks fl sl) ∧
    tlsfMappingInsert (span m (T.blocks fl sl)) = (fl, sl) := by
  have h0 : T.blocks fl sl ≠ 0 :=
    fun e => (h.slBit fl sl).mp hbit ((h.list fl sl).head_eq_zero_iff.mp e)
  exact ⟨h0, h.head_mem h0⟩

theorem Indexed.bit (h : Indexed m T fs L) {c : Nat} (hc : fs c) {fl sl : Nat}
    (hk : tlsfMappingInsert (span m c) = (fl, sl)) : (T.slBitmap fl).getLsbD sl = true :=
  (h.slBit fl sl).mpr (List.ne_nil_of_mem ((h.mem fl sl c).mpr ⟨hc, hk⟩))

/-- **The search.** What it returns is in the index and large enough. -/
theorem find_spec (h : Indexed m T fs L) (hsz : ∀ c, fs c → span m c < 2 ^ 30)
    {total : Nat} (ht : 16 ≤ total) (ht' : total < 2 ^ 31)
    (hb : tlsfFindSuitableBlock T total ≠ 0) :
    fs (tlsfFindSuitableBlock T total) ∧ total ≤ span m (tlsfFindSuitableBlock T total) := by
  have htn : total ≠ 0 := by omega
  have hlog : Nat.log2 total < 31 := (Nat.log2_lt htn).mpr ht'
  have hlog4 : 4 ≤ Nat.log2 total := (Nat.le_log2 htn).mpr ht
  unfold tlsfFindSuitableBlock at hb ⊢
  rw [mappingSearch_eq ht ht'] at hb ⊢
  generalize hsl :
    ((total + (2 ^ (Nat.log2 total - 4) - 1)) >>> (Nat.log2 total - 4)) ^^^ 2 ^ 4 = sl
    at hb ⊢
  simp only at hb ⊢
  by_cases h1 : T.slBitmap (Nat.log2 total) &&& BitVec.allOnes 32 <<< (sl % 32) = 0#32
  · simp only [h1, ne_eq, not_true_eq_false, if_false] at hb ⊢
    by_cases h2 : T.flBitmap &&& BitVec.allOnes 32 <<< ((Nat.log2 total + 1) % 32) = 0#32
    · simp only [h2, not_true_eq_false, if_false] at hb
    · -- a higher first-level class
      simp only [h2, not_false_eq_true, if_true] at hb ⊢
      have hfl := (ctz_spec h2).1
      rw [getLsbD_maskFrom, Bool.and_eq_true, decide_eq_true_iff] at hfl
      unfold tlsfFfs
      generalize ctz (T.flBitmap &&& BitVec.allOnes 32 <<< ((Nat.log2 total + 1) % 32)) =
        fl at hfl ⊢
      obtain ⟨-, hc, hm⟩ := h.head_of_bit (ctz_spec ((h.flBit fl).mp hfl.1)).1
      refine ⟨hc, ?_⟩
      have hs := hsz _ hc
      obtain ⟨h16, hfl', -, -⟩ := mappingInsert_bucket (by omega) (by omega) hm
      have h3 := (log2_bounds (n := span m (T.blocks fl (ctz (T.slBitmap fl)))) (by omega)).1
      rw [← hfl'] at h3
      have h4 : 2 ^ (Nat.log2 total + 1) ≤ 2 ^ fl := Nat.pow_le_pow_right (by decide) (by omega)
      have h5 := (log2_bounds htn).2
      omega
  · -- the class of the request itself
    simp only [h1, ne_eq, not_false_eq_true, if_true] at hb ⊢
    have hbit := (ctz_spec h1).1
    rw [getLsbD_maskFrom, Bool.and_eq_true, decide_eq_true_iff] at hbit
    unfold tlsfFfs
    generalize ctz (T.slBitmap (Nat.log2 total) &&& BitVec.allOnes 32 <<< (sl % 32)) = i at hbit ⊢
    obtain ⟨-, hc, hm⟩ := h.head_of_bit hbit.1
    refine ⟨hc, ?_⟩
    obtain ⟨-, e1, -, hj⟩ :=
      mappingInsert_bucket (Nat.lt_trans (hsz _ hc) (by decide)) (by omega) hm
    rw [← e1] at hj
    exact Nat.le_trans (le_searchSize ht) ((segment_le_iff ht hj hsl.symm).mp hbit.2)

/-- **The search is complete.** It finds nothing only if every block is smaller than the request
rounded up to its segment boundary. -/
theorem find_complete (h : Indexed m T fs L) (hsz : ∀ c, fs c → span m c < 2 ^ 30)
    {total : Nat} (ht : 16 ≤ total) (ht' : total < 2 ^ 31)
    (hb : tlsfFindSuitableBlock T total = 0) {c : Nat} (hc : fs c) :
    span m c < searchSize total := by
  by_contra hge
  have hge : searchSize total ≤ span m c := Nat.not_lt.mp hge
  have hle := Nat.le_trans (le_searchSize ht) hge
  have hs := hsz c hc
  obtain ⟨j, hj, hk, hseg⟩ := mappingInsert_eq (n := span m c) (by omega) (by omega)
  have hbit := h.bit hc hk
  have hlog : Nat.log2 total ≤ Nat.log2 (span m c) :=
    (Nat.le_log2 (by omega)).mpr (Nat.le_trans (log2_bounds (by omega)).1 hle)
  have hlog30 : Nat.log2 (span m c) < 30 := (Nat.log2_lt (by omega)).mpr hs
  unfold tlsfFindSuitableBlock at hb
  rw [mappingSearch_eq ht ht'] at hb
  generalize hsl :
    ((total + (2 ^ (Nat.log2 total - 4) - 1)) >>> (Nat.log2 total - 4)) ^^^ 2 ^ 4 = sl at hb
  simp only at hb
  by_cases h1 : T.slBitmap (Nat.log2 total) &&& BitVec.allOnes 32 <<< (sl % 32) = 0#32
  · -- the request's own class has nothing from the segment on, so `c` is in a higher one
    have hlt : Nat.log2 total < Nat.log2 (span m c) := by
      refine Nat.lt_of_le_of_ne hlog fun e => ?_
      rw [← e] at hseg hbit
      refine ne_zero_of_getLsbD
        (v := T.slBitmap (Nat.log2 total) &&& BitVec.allOnes 32 <<< (sl % 32)) (i := j) ?_ h1
      rw [getLsbD_maskFrom, hbit, Bool.true_and, decide_eq_true_iff]
      exact (segment_le_iff ht hseg hsl.symm).mpr hge
    have h2 : T.flBitmap &&& BitVec.allOnes 32 <<< ((Nat.log2 total + 1) % 32) ≠ 0#32 := by
      refine ne_zero_of_getLsbD (i := Nat.log2 (span m c)) ?_
      rw [getLsbD_maskFrom, (h.flBit _).mpr (ne_zero_of_getLsbD hbit), Bool.true_and,
        decide_eq_true_iff]
      omega
    simp only [h1, ne_eq, not_true_eq_false, if_false, h2, not_false_eq_true, if_true] at hb
    have hfl := (ctz_spec h2).1
    rw [getLsbD_maskFrom, Bool.and_eq_true] at hfl
    exact (h.head_of_bit (ctz_spec ((h.flBit _).mp hfl.1)).1).1 hb
  · simp only [h1, ne_eq, not_false_eq_true, if_true] at hb
    have hbit' := (ctz_spec h1).1
    rw [getLsbD_maskFrom, Bool.and_eq_true] at hbit'
    exact (h.head_of_bit hbit'.1).1 hb

end Index

end Cmem.L2.SharedTlsf
