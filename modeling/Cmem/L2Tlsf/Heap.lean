import Cmem.L2Tlsf.Ops
import Cmem.L2Tlsf.Pool

/-!
# Arenas side by side

`Wf k H hs as`: the arenas of `H` are sound, do not overlap, and their blocks in
use are exactly the handles `hs`. A change that an `Outcome` describes in one
arena is one in the heap (`Wf.update`); writes behind the `tlsf_block_t` of a
block in use change nothing (`Wf.write`). `Keeps` says that handles keep their
spans and their bytes.
-/
namespace Cmem.L2.SharedTlsf

structure Wf (k : Prop) (H : Heap) (hs : List (Nat × Nat)) (as : Nat → List Nat) : Prop where
  nodup : H.arenas.Nodup
  sound : ∀ t ∈ H.arenas, Sound k H.mem (H.tp t) (as t)
  geo : ∀ t ∈ H.arenas, (H.tp t).raw = t + tpoolHdr ∧ 8 ∣ t ∧ 8 ∣ (H.tp t).size ∧ (H.tp t).owner ≠ 0
  space : ∀ t ∈ H.arenas, H.fin t < sizeMod
  disj : ∀ t ∈ H.arenas, ∀ u ∈ H.arenas, t ≠ u → H.fin t ≤ u ∨ H.fin u ≤ t
  handles : hs.Nodup
  used : ∀ t ∈ H.arenas, ∀ b, Used H.mem (as t) b ↔ (t, b) ∈ hs
  known : ∀ p ∈ hs, p.1 ∈ H.arenas

structure Keeps (H H' : Heap) (hs : List (Nat × Nat)) : Prop where
  arenas : ∀ t ∈ H.arenas, t ∈ H'.arenas ∧ SameRegion (H.tp t) (H'.tp t)
  words : ∀ p ∈ hs, span H'.mem p.2 = span H.mem p.2 ∧
    ∀ i, 32 ≤ i → i < span H.mem p.2 → H'.mem (p.2 + i) = H.mem (p.2 + i)

/-- `x` belongs to no arena. -/
def Heap.Outside (H : Heap) (x : Nat) : Prop := ∀ t ∈ H.arenas, x < t ∨ H.fin t ≤ x

/-- ... and nothing is written outside the arenas. -/
structure Stays (H H' : Heap) (hs : List (Nat × Nat)) : Prop extends Keeps H H' hs where
  out : ∀ x, H'.Outside x → H'.mem x = H.mem x

section Heap
variable {k k' : Prop} {m m' : Mem} {T : TPool} {H H' H'' : Heap} {hs hs' : List (Nat × Nat)}
  {as : Nat → List Nat} {bs as' : List Nat} {t b : Nat}

theorem Keeps.refl : Keeps H H hs :=
  ⟨fun _ ht => ⟨ht, rfl, rfl, rfl⟩, fun _ _ => ⟨rfl, fun _ _ _ => rfl⟩⟩

theorem Keeps.trans (h : Keeps H H' hs) (h' : Keeps H' H'' hs) : Keeps H H'' hs := by
  refine ⟨fun t ht => ?_, fun p hp => ?_⟩
  · obtain ⟨h1, h2⟩ := h.arenas t ht
    obtain ⟨h3, h4⟩ := h'.arenas t h1
    exact ⟨h3, h2.trans h4⟩
  · obtain ⟨h1, h2⟩ := h.words p hp
    obtain ⟨h3, h4⟩ := h'.words p hp
    exact ⟨h3.trans h1, fun i hi1 hi2 => (h4 i hi1 (by omega)).trans (h2 i hi1 hi2)⟩

theorem Keeps.mono (h : Keeps H H' hs) (hsub : ∀ p ∈ hs', p ∈ hs) : Keeps H H' hs' :=
  ⟨h.arenas, fun p hp => h.words p (hsub p hp)⟩

theorem Keeps.root (h : Keeps H H' hs) (ha : H'.arenas = H.arenas) (P : Nat) :
    H'.root P = H.root P := by
  unfold Heap.root
  rw [ha]
  refine List.filter_congr fun t ht => ?_
  rw [(h.arenas t ht).2.2.2]

theorem Keeps.fin (h : Keeps H H' hs) (ht : t ∈ H.arenas) : H'.fin t = H.fin t := by
  obtain ⟨-, h1, h2, -⟩ := h.arenas t ht
  unfold Heap.fin
  rw [h1, h2]

theorem Stays.refl : Stays H H hs := ⟨Keeps.refl, fun _ _ => rfl⟩

theorem Keeps.outside (h : Keeps H H' hs) {x : Nat} (hx : H'.Outside x) : H.Outside x :=
  fun t ht => by
  rw [← h.fin ht]
  exact hx t (h.arenas t ht).1

theorem Stays.trans (h : Stays H H' hs) (h' : Stays H' H'' hs) : Stays H H'' hs :=
  ⟨h.toKeeps.trans h'.toKeeps, fun x hx => (h'.out x hx).trans (h.out x (h'.outside hx))⟩

theorem Stays.mono (h : Stays H H' hs) (hsub : ∀ p ∈ hs', p ∈ hs) : Stays H H' hs' :=
  ⟨h.toKeeps.mono hsub, h.out⟩

theorem Sound.mono (h : Sound k m T bs) (hk : k' → k) : Sound k' m T bs :=
  ⟨h.region, h.walk, h.sent, h.idx, fun hk' => h.flags (hk hk')⟩

/-- An arena is sound by the sizes, state bits and links of its blocks. -/
theorem Sound.of_bits (h : Sound k m T bs)
    (hb : ∀ a ∈ bs ++ [T.sentinel], blockSize (m' a) = blockSize (m a) ∧
    freeBit (m' a) = freeBit (m a) ∧
      prevFreeBit (m' a) = prevFreeBit (m a))
    (hw : ∀ a ∈ bs ++ [T.sentinel], m' (a + 8) = m (a + 8) ∧ m' (a + 16) = m (a + 16) ∧
      m' (a + 24) = m (a + 24)) : Sound k m' T bs := by
  obtain ⟨L, hi⟩ := h.idx
  have hm : ∀ a ∈ bs, a ∈ bs ++ [T.sentinel] := fun a ha => List.mem_append_left _ ha
  have hs : T.sentinel ∈ bs ++ [T.sentinel] := by simp
  refine ⟨h.region, ?_, ?_, ⟨L, hi.congr (fun c => ?_) fun c hc => ?_⟩, fun hk => ?_⟩
  · exact h.walk.congr (fun a ha => ⟨(hb a (hm a ha)).1, (hw a (hm a ha)).1⟩) (hw _ hs).1
  · exact ⟨(hb _ hs).1.trans h.sent.1, (hb _ hs).2.1.trans h.sent.2⟩
  · refine and_congr_right fun hc => ?_
    rw [show isFree m' c = isFree m c from (hb c (hm c hc)).2.1]
  · exact ⟨(hb c (hm c hc.1)).1, (hw c (hm c hc.1)).2⟩
  · exact (h.flags hk).of_bits fun a ha => (hb a (hm a ha)).2

/-- An arena is sound by its block headers. -/
theorem Sound.congr (h : Sound k m T bs)
    (hw : ∀ a ∈ bs ++ [T.sentinel], ∀ i < 32, m' (a + i) = m (a + i)) : Sound k m' T bs := by
  refine h.of_bits (fun a ha => ?_) fun a ha =>
    ⟨hw a ha 8 (by omega), hw a ha 16 (by omega), hw a ha 24 (by omega)⟩
  have h0 : m' a = m a := hw a ha 0 (by omega)
  rw [h0]
  exact ⟨rfl, rfl, rfl⟩

theorem Sound.header_in (h : Sound k m T bs) {a : Nat} (ha : a ∈ bs ++ [T.sentinel]) :
    T.raw ≤ a ∧ a + 32 ≤ T.raw + T.size := by
  have hend := h.region.end
  have hlo := h.region.lo
  rcases List.mem_append.mp ha with ha | ha
  · have := h.bounds ha; omega
  · rw [List.mem_singleton.mp ha]; omega

/-- ... hence by the words of its region. -/
theorem Sound.of_region (h : Sound k m T bs)
    (hw : ∀ x, T.raw ≤ x → x < T.raw + T.size → m' x = m x) : Sound k m' T bs :=
  h.congr fun a ha i hi => by
    have := h.header_in ha
    exact hw _ (by omega) (by omega)

theorem Wf.mono (h : Wf k H hs as) (hk : k' → k) : Wf k' H hs as :=
  ⟨h.nodup, fun t ht => (h.sound t ht).mono hk, h.geo, h.space, h.disj, h.handles, h.used, h.known⟩

theorem Wf.perm (h : Wf k H hs as) (hp : hs.Perm hs') : Wf k H hs' as :=
  ⟨h.nodup, h.sound, h.geo, h.space, h.disj, hp.nodup_iff.mp h.handles,
    fun t ht b => (h.used t ht b).trans hp.mem_iff, fun p hm => h.known p (hp.mem_iff.mpr hm)⟩

theorem Wf.used_of (h : Wf k H hs as) (hp : (t, b) ∈ hs) : t ∈ H.arenas ∧ Used H.mem (as t) b :=
  ⟨h.known _ hp, (h.used t (h.known _ hp) b).mpr hp⟩

theorem Wf.aligned (h : Wf k H hs as) (hp : (t, b) ∈ hs) :
    8 ∣ b ∧ 32 ≤ span H.mem b ∧ 8 ∣ span H.mem b ∧ span H.mem b < 2 ^ 30 ∧
      t + tpoolHdr ≤ b ∧ b + span H.mem b + 32 ≤ H.fin t ∧ H.fin t < sizeMod := by
  obtain ⟨ht, hu⟩ := h.used_of hp
  have hg := h.geo t ht
  have hb := (h.sound t ht).bounds hu.1
  have hend := (h.sound t ht).region.end
  have h8 : 8 ∣ (H.tp t).raw := by
    rw [hg.1]; unfold tpoolHdr; omega
  refine ⟨(h.sound t ht).walk.aligned h8 hu.1, hb.2.2.1, hb.2.2.2,
    (h.sound t ht).span_lt hu.1, ?_, ?_, h.space t ht⟩
  · omega
  · unfold Heap.fin; omega

/-- Regions of different arenas have no word in common. -/
theorem Wf.outside (h : Wf k H hs as) {u : Nat} (ht : t ∈ H.arenas) (hu : u ∈ H.arenas)
    (hne : u ≠ t) {x : Nat} (hx : (H.tp u).raw ≤ x) (hx' : x < (H.tp u).raw + (H.tp u).size) :
    x < (H.tp t).raw ∨ (H.tp t).raw + (H.tp t).size ≤ x := by
  have h1 := (h.geo t ht).1
  have h2 := (h.geo u hu).1
  have h3 := h.disj u hu t ht hne
  unfold Heap.fin at h3
  omega

/-- A mutation of one arena. -/
theorem Wf.update (h : Wf k H hs as) (ht : t ∈ H.arenas) (hk : k' → k) {r : Mem × TPool}
    (ho : Outcome k' H.mem (H.tp t) (as t) r.1 r.2 as' b) (hnd : hs'.Nodup)
    (hother : ∀ p, p ≠ (t, b) → (p ∈ hs' ↔ p ∈ hs)) (hb : Used r.1 as' b ↔ (t, b) ∈ hs') :
    Wf k' (H.put t r) hs' (Function.update as t as') := by
  have hr := ho.same
  have hfin : ∀ u, (H.put t r).fin u = H.fin u := by
    intro u
    unfold Heap.fin Heap.put
    by_cases e : u = t
    · subst e; simp only [Function.update_self]; rw [hr.1, hr.2.1]
    · simp only [Function.update_of_ne e]
  refine ⟨h.nodup, fun u hu => ?_, fun u hu => ?_, fun u hu => ?_, fun u hu v hv hne => ?_, hnd,
    fun u hu c => ?_, fun p hp => ?_⟩
  · show Sound k' r.1 (Function.update H.tp t r.2 u) (Function.update as t as' u)
    by_cases e : u = t
    · subst e; simp only [Function.update_self]; exact ho.sound
    · simp only [Function.update_of_ne e]
      exact ((h.sound u hu).mono hk).of_region fun x h1 h2 => ho.out x (h.outside ht hu e h1 h2)
  · show (Function.update H.tp t r.2 u).raw = _ ∧ _
    have hg := h.geo u hu
    by_cases e : u = t
    · subst e
      simp only [Heap.put, Function.update_self]
      rw [hr.1, hr.2.1, hr.2.2]; exact hg
    · simp only [Heap.put, Function.update_of_ne e]; exact hg
  · rw [hfin]; exact h.space u hu
  · rw [hfin, hfin]; exact h.disj u hu v hv hne
  · show Used r.1 (Function.update as t as' u) c ↔ _
    by_cases e : u = t
    · subst e
      simp only [Function.update_self]
      by_cases ec : c = b
      · subst ec; exact hb
      · rw [ho.used c ec, hother _ (by simp [ec])]
        exact h.used u hu c
    · simp only [Function.update_of_ne e]
      rw [hother _ (by simp [e]), ← h.used u hu c]
      refine and_congr_right fun hc => ?_
      have hin := (h.sound u hu).header_in (List.mem_append_left _ hc)
      rw [show isFree r.1 c = isFree H.mem c from
        congrArg freeBit (ho.out c (h.outside ht hu e (by omega) (by omega)))]
  · by_cases e : p = (t, b)
    · rw [e]; exact ht
    · exact h.known p ((hother p e).mp hp)

theorem Wf.keeps (h : Wf k H hs as) (ht : t ∈ H.arenas) {r : Mem × TPool}
    (ho : Outcome k' H.mem (H.tp t) (as t) r.1 r.2 as' b) (hsub : ∀ p ∈ hs', p ∈ hs ∧ p ≠ (t, b)) :
    Stays H (H.put t r) hs' := by
  refine ⟨⟨fun u hu => ⟨hu, ?_⟩, fun p hp => ?_⟩, fun x hx => ho.out x ?_⟩
  · show SameRegion _ (Function.update H.tp t r.2 u)
    by_cases e : u = t
    · subst e; simp only [Function.update_self]; exact ho.same
    · simp only [Function.update_of_ne e]; exact ⟨rfl, rfl, rfl⟩
  · obtain ⟨hm, hne⟩ := hsub p hp
    obtain ⟨hu, hused⟩ := h.used_of (t := p.1) (b := p.2) hm
    by_cases e : p.1 = t
    · have hpb : p.2 ≠ b := fun e' => hne (Prod.ext e e')
      rw [e] at hused
      exact ho.keep p.2 hpb hused
    · have hin := (h.sound _ hu).bounds hused.1
      have hend := (h.sound _ hu).region.end
      have hout : ∀ i, i < span H.mem p.2 → (r.1) (p.2 + i) = H.mem (p.2 + i) := fun i hi =>
        ho.out _ (h.outside ht hu e (by omega) (by omega))
      refine ⟨congrArg blockSize (hout 0 (by omega)), fun i _ hi => hout i hi⟩
  · have hx := hx t ht
    have hg := (h.geo t ht).1
    have hr := ho.same
    unfold Heap.fin Heap.put at hx
    simp only [Function.update_self] at hx
    rw [hr.1, hr.2.1] at hx
    omega

/-- Writes behind the `tlsf_block_t` of one handle. -/
theorem Wf.write (h : Wf k H hs as) (hp : (t, b) ∈ hs)
    (hw : ∀ x, x < b + 32 ∨ b + span H.mem b ≤ x → m' x = H.mem x) :
    Wf k { H with mem := m' } hs as := by
  obtain ⟨ht, hu⟩ := h.used_of hp
  have hb := h.aligned hp
  have hhead :
    ∀ u ∈ H.arenas, ∀ a ∈ as u ++ [(H.tp u).sentinel], ∀ i < 32, m' (a + i) = H.mem (a + i) := by
    intro u hu' a ha i hi
    refine hw _ ?_
    have hin := (h.sound u hu').header_in ha
    by_cases e : u = t
    · subst e
      by_cases h1 : 32 ≤ i
      · omega
      · rcases List.mem_append.mp ha with ha' | ha'
        · by_cases e' : a = b
          · omega
          · have := (h.sound u hu').disjoint ha' hu.1 e'
            have := (h.sound u hu').bounds ha'
            omega
        · have := (h.sound u hu').bounds hu.1
          rw [List.mem_singleton.mp ha']
          omega
    · have := h.disj u hu' t ht e
      have := (h.geo u hu').1
      have := (h.geo t ht).1
      unfold Heap.fin at *
      omega
  refine ⟨h.nodup, fun u hu' => (h.sound u hu').congr (hhead u hu'), h.geo, h.space, h.disj,
    h.handles,
    fun u hu' c => ?_, h.known⟩
  rw [← h.used u hu' c]
  refine and_congr_right fun hc => ?_
  rw [show isFree m' c = isFree H.mem c from
    congrArg freeBit (hhead u hu' c (List.mem_append_left _ hc) 0 (by omega))]

/-- A handle's size word may be written anew, as long as it says the same. -/
theorem Wf.restamp (h : Wf k H hs as) (hp : (t, b) ∈ hs) {v : Nat} (h1 : blockSize v = span H.mem b)
    (h2 : freeBit v = false) (h3 : prevFreeBit v = prevFreeBit (H.mem b)) :
    Wf k { H with mem := setSize H.mem b v } hs as := by
  obtain ⟨ht, hu⟩ := h.used_of hp
  have hbits : ∀ x, blockSize (setSize H.mem b v x) = blockSize (H.mem x) ∧
      freeBit (setSize H.mem b v x) = freeBit (H.mem x) ∧
      prevFreeBit (setSize H.mem b v x) = prevFreeBit (H.mem x) := by
    intro x
    unfold setSize
    by_cases e : x = b
    · rw [e, Mem.set_self]
      exact ⟨h1, h2.trans hu.2.symm, h3⟩
    · rw [Mem.set_ne _ _ e]
      exact ⟨rfl, rfl, rfl⟩
  have hne : ∀ u ∈ H.arenas, ∀ a ∈ as u ++ [(H.tp u).sentinel], ∀ i < 32, 0 < i → a + i ≠ b := by
    intro u hu' a ha i hi h0
    have hin := (h.sound u hu').header_in ha
    by_cases e : u = t
    · subst e
      rcases (h.sound u hu').apart a ha b (List.mem_append_left _ hu.1) with e' | e' | e' <;> omega
    · have h4 := h.disj u hu' t ht e
      have h5 := (h.geo u hu').1
      have h6 := h.aligned hp
      unfold Heap.fin at *
      omega
  refine ⟨h.nodup, fun u hu' => (h.sound u hu').of_bits (fun a _ => hbits a) fun a ha => ?_,
    h.geo, h.space, h.disj, h.handles, fun u hu' c => ?_, h.known⟩
  · exact ⟨Mem.set_ne _ _ (hne u hu' a ha 8 (by omega) (by omega)),
      Mem.set_ne _ _ (hne u hu' a ha 16 (by omega) (by omega)),
      Mem.set_ne _ _ (hne u hu' a ha 24 (by omega) (by omega))⟩
  · rw [← h.used u hu' c]
    refine and_congr_right fun hc => ?_
    rw [show isFree (setSize H.mem b v) c = isFree H.mem c from (hbits c).2.1]

/-- Two handles have no byte in common. -/
theorem Wf.apart (h : Wf k H hs as) {p q : Nat × Nat} (hp : p ∈ hs) (hq : q ∈ hs) (hne : p ≠ q) :
    p.2 + span H.mem p.2 ≤ q.2 ∨ q.2 + span H.mem q.2 ≤ p.2 := by
  obtain ⟨h1, h2⟩ := h.used_of (t := p.1) (b := p.2) hp
  obtain ⟨h3, h4⟩ := h.used_of (t := q.1) (b := q.2) hq
  by_cases e : p.1 = q.1
  · rw [e] at h2
    exact (h.sound _ h3).disjoint h2.1 h4.1 fun e' => hne (Prod.ext e e')
  · have ha := h.aligned (t := p.1) (b := p.2) hp
    have hb := h.aligned (t := q.1) (b := q.2) hq
    have := h.disj _ h1 _ h3 e
    omega

/-- Writing a handle's size word leaves the others alone. -/
theorem Wf.restamp_keeps (h : Wf k H hs as) (hp : (t, b) ∈ hs) {v : Nat}
    (hsub : ∀ p ∈ hs', p ∈ hs ∧ p ≠ (t, b)) : Stays H { H with mem := setSize H.mem b v } hs' := by
  obtain ⟨ht, -⟩ := h.used_of hp
  have hb := h.aligned hp
  refine ⟨⟨fun u hu => ⟨hu, rfl, rfl, rfl⟩, fun p hp' => ?_⟩, fun x hx => Mem.set_ne _ _ ?_⟩
  · obtain ⟨h1, h2⟩ := hsub p hp'
    have h3 := h.apart h1 hp h2
    have h4 := h.aligned (t := p.1) (b := p.2) h1
    have hword : ∀ i, i < span H.mem p.2 → setSize H.mem b v (p.2 + i) = H.mem (p.2 + i) :=
      fun i hi =>
      Mem.set_ne _ _ (by simp only at h3; omega)
    exact ⟨congrArg blockSize (hword 0 (by omega)), fun i _ hi => hword i hi⟩
  · have hx : x < t ∨ H.fin t ≤ x := hx t ht
    omega

/-! ## The operations -/

theorem take_wf (h : Wf k H hs as) (ht : t ∈ H.arenas) {total : Nat} (h32 : 32 ≤ total)
    (h31 : total < 2 ^ 31) (h8 : 8 ∣ total) (hb : tlsfFindSuitableBlock (H.tp t) total = b)
    (h0 : b ≠ 0) {r : Mem × TPool} (hr : takeBlock H.mem (H.tp t) b total = r) :
    ∃ as', Wf k (H.put t r) ((t, b) :: hs) as' ∧ Stays H (H.put t r) hs ∧
      total ≤ span r.1 b ∧ span r.1 b < total + 64 ∧
      (Splits H.mem total b → span r.1 b = total) := by
  have hs' := h.sound t ht
  obtain ⟨L, hi⟩ := hs'.idx
  obtain ⟨⟨hm, hf⟩, hle⟩ :=
    find_spec hi (fun c hc => hs'.span_lt hc.1) (Nat.le_trans (by decide) h32) h31
    (by rw [hb]; exact h0)
  rw [hb] at hm hf hle
  obtain ⟨as', ho, hu, h1, h2⟩ := take_spec hs' hm hf h32 h8 hle
  rw [hr] at ho hu h1 h2
  have hn : (t, b) ∉ hs := fun hc => by
    have := ((h.used t ht b).mpr hc).2
    rw [hf] at this; cases this
  refine ⟨_, h.update ht id ho (List.nodup_cons.mpr ⟨hn, h.handles⟩) (fun p hp => by simp [hp])
    (by simp [hu]), h.keeps ht ho fun p hp => ⟨hp, fun e => hn (e ▸ hp)⟩, h1, h2⟩

theorem searchChain_cons (H : Heap) (total u : Nat) (ts : List Nat) :
    searchChain H total (u :: ts) =
      if tlsfFindSuitableBlock (H.tp u) total ≠ 0 then
        some (H.put u (takeBlock H.mem (H.tp u) (tlsfFindSuitableBlock (H.tp u) total) total), u,
          tlsfFindSuitableBlock (H.tp u) total)
      else searchChain H total ts := rfl

/-- If the walk over a chain finds a block, that block is cut or fits. -/
def ChainSplits (H : Heap) (total : Nat) : List Nat → Prop
  | [] => True
  | t :: ts =>
    if tlsfFindSuitableBlock (H.tp t) total ≠ 0 then
      Splits H.mem total (tlsfFindSuitableBlock (H.tp t) total)
    else ChainSplits H total ts

instance decChainSplits (H : Heap) (total : Nat) : ∀ ts, Decidable (ChainSplits H total ts)
  | [] => .isTrue trivial
  | t :: ts =>
    have := decChainSplits H total ts
    inferInstanceAs (Decidable (if tlsfFindSuitableBlock (H.tp t) total ≠ 0 then
      Splits H.mem total (tlsfFindSuitableBlock (H.tp t) total) else ChainSplits H total ts))

/-- The walk over a chain of sound arenas. -/
theorem searchChain_spec (h : Wf k H hs as) {total : Nat} (h32 : 32 ≤ total) (h31 : total < 2 ^ 31)
    (h8 : 8 ∣ total) {ts : List Nat} (hts : ∀ t ∈ ts, t ∈ H.arenas)
    (hr : searchChain H total ts = some (H', t, b)) :
    ∃ as', Wf k H' ((t, b) :: hs) as' ∧ Stays H H' hs ∧ H'.arenas = H.arenas ∧
      total ≤ span H'.mem b ∧ span H'.mem b < total + 64 ∧ t ∈ ts ∧
      (ChainSplits H total ts → span H'.mem b = total) := by
  induction ts with
  | nil => cases hr
  | cons u ts ih =>
    rw [searchChain_cons] at hr
    obtain ⟨c, hc⟩ : ∃ c, tlsfFindSuitableBlock (H.tp u) total = c := ⟨_, rfl⟩
    rw [hc] at hr
    obtain ⟨r, hr'⟩ : ∃ r, takeBlock H.mem (H.tp u) c total = r := ⟨_, rfl⟩
    rw [hr'] at hr
    by_cases h0 : c = 0
    · rw [if_neg (fun h => h h0)] at hr
      obtain ⟨as', h1, h2, h3, h4, h5, h6, h7⟩ :=
        ih (fun t ht => hts t (List.mem_cons_of_mem _ ht)) hr
      refine ⟨as', h1, h2, h3, h4, h5, List.mem_cons_of_mem _ h6, fun hsp => h7 ?_⟩
      rw [ChainSplits, hc, if_neg (fun h => h h0)] at hsp
      exact hsp
    · rw [if_pos h0] at hr
      obtain ⟨e1, e2⟩ := Prod.mk.inj (Option.some.inj hr)
      obtain ⟨e2, e3⟩ := Prod.mk.inj e2
      obtain ⟨as', h1, h2, h3, h4, h5⟩ := take_wf h (hts u List.mem_cons_self) h32 h31 h8 hc h0 hr'
      rw [← e1, ← e2, ← e3]
      refine ⟨as', h1, h2, rfl, h3, h4, List.mem_cons_self, fun hsp => h5 ?_⟩
      rw [ChainSplits, hc, if_pos h0] at hsp
      exact hsp

/-- A fresh arena joins the heap as one FREE block. -/
theorem addArena_wf (h : Wf k H hs as) {P size self : Nat} (hP : P ≠ 0) (hf : Fresh H size self) :
    Wf k (H.addArena P size self) hs (Function.update as self [self + tpoolHdr]) ∧
      Stays H (H.addArena P size self) hs := by
  obtain ⟨h0, h8, hlo, hhi, hmod, hdisj⟩ := hf
  have hnew : self ∉ H.arenas := fun hm => by
    have h1 := hdisj self hm
    have h2 := (h.geo self hm).1
    have h3 := (h.sound self hm).region.lo
    unfold Heap.fin at h1
    omega
  have hne : ∀ u ∈ H.arenas, u ≠ self := fun u hu e => hnew (e ▸ hu)
  let T₀ := emptyIndex (self + tpoolHdr) (sizeAlign8 size) P
  have hreg : Region T₀ := ⟨Nat.lt_of_lt_of_le h0 (Nat.le_add_right _ _), hlo, hhi⟩
  obtain ⟨s1, s2, s3, s4⟩ := reseed_spec (k := k) (m := H.mem) hreg (sizeAlign8_dvd size)
  have hadd : H.addArena P size self =
      ⟨(reseed H.mem T₀).1, Function.update H.tp self (reseed H.mem T₀).2, self :: H.arenas⟩ := by
    unfold Heap.addArena
    rw [create_eq hlo hhi]
  rw [hadd]
  generalize reseed H.mem T₀ = r at *
  have hraw : r.2.raw = self + tpoolHdr := s2.1
  have hsz : r.2.size = sizeAlign8 size := s2.2.1
  have hout : ∀ u ∈ H.arenas, ∀ x, u ≤ x → x < H.fin u → r.1 x = H.mem x := by
    intro u hu x h1 h2
    refine s3 x ?_
    show x < self + tpoolHdr ∨ self + tpoolHdr + sizeAlign8 size ≤ x
    have := hdisj u hu
    omega
  have hregion : ∀ u ∈ H.arenas, ∀ x, (H.tp u).raw ≤ x → x < (H.tp u).raw + (H.tp u).size →
      r.1 x = H.mem x := fun u hu x h1 h2 => by
    refine hout u hu x ?_ h2
    have := (h.geo u hu).1
    omega
  refine ⟨⟨List.nodup_cons.mpr ⟨hnew, h.nodup⟩, fun u hu => ?_, fun u hu => ?_, fun u hu => ?_,
    fun u hu v hv huv => ?_, h.handles, fun u hu c => ?_,
      fun p hp => List.mem_cons_of_mem _ (h.known p hp)⟩,
    ⟨fun u hu => ?_, fun p hp => ?_⟩, fun x hx => s3 x ?_⟩
  · rcases List.mem_cons.mp hu with rfl | hu
    · simp only [Function.update_self]; exact s1
    · simp only [Function.update_of_ne (hne u hu)]
      exact (h.sound u hu).of_region (hregion u hu)
  · rcases List.mem_cons.mp hu with rfl | hu
    · simp only [Function.update_self]
      refine ⟨hraw, h8, ?_, ?_⟩
      · rw [hsz]; exact sizeAlign8_dvd size
      · rw [s2.2.2]; exact hP
    · simp only [Function.update_of_ne (hne u hu)]; exact h.geo u hu
  · unfold Heap.fin
    rcases List.mem_cons.mp hu with rfl | hu
    · simp only [Function.update_self, hraw, hsz]; exact hmod
    · simp only [Function.update_of_ne (hne u hu)]; exact h.space u hu
  · unfold Heap.fin
    simp only
    rcases List.mem_cons.mp hu with eu | hu' <;> rcases List.mem_cons.mp hv with ev | hv'
    · exact absurd (eu.trans ev.symm) huv
    · simp only [eu, Function.update_self, Function.update_of_ne (hne v hv'), hraw, hsz]
      have := hdisj v hv'
      unfold Heap.fin at this
      omega
    · simp only [ev, Function.update_self, Function.update_of_ne (hne u hu'), hraw, hsz]
      have := hdisj u hu'
      unfold Heap.fin at this
      omega
    · simp only [Function.update_of_ne (hne u hu'), Function.update_of_ne (hne v hv')]
      exact h.disj u hu' v hv' huv
  · rcases List.mem_cons.mp hu with rfl | hu
    · simp only [Function.update_self]
      refine iff_of_false ?_ fun hc => hnew (h.known _ hc)
      rintro ⟨h1, h2⟩
      rw [List.mem_singleton.mp h1, show isFree r.1 (u + tpoolHdr) = true from s4] at h2
      cases h2
    · simp only [Function.update_of_ne (hne u hu)]
      rw [← h.used u hu c]
      refine and_congr_right fun hc => ?_
      have := (h.sound u hu).header_in (List.mem_append_left _ hc)
      rw [show isFree r.1 c = isFree H.mem c from
        congrArg freeBit (hregion u hu c (by omega) (by omega))]
  · simp only [Function.update_of_ne (hne u hu)]
    exact ⟨List.mem_cons_of_mem _ hu, rfl, rfl, rfl⟩
  · obtain ⟨hu, hused⟩ := h.used_of (t := p.1) (b := p.2) hp
    have ha := h.aligned (t := p.1) (b := p.2) hp
    have hw : ∀ i, i < span H.mem p.2 → r.1 (p.2 + i) = H.mem (p.2 + i) := fun i hi =>
      hout p.1 hu _ (by omega) (by omega)
    exact ⟨congrArg blockSize (hw 0 (by omega)), fun i _ hi => hw i hi⟩
  · have hx := hx self List.mem_cons_self
    unfold Heap.fin at hx
    simp only [Function.update_self, hraw, hsz] at hx
    show x < self + tpoolHdr ∨ self + tpoolHdr + sizeAlign8 size ≤ x
    omega

/-- The header stamp of an allocation stays behind the `tlsf_block_t` and inside
the block. -/
theorem stampBlock_frame {cfg : Cfg} {req total flags x : Nat} (hb : 8 ∣ b) (h8 : 8 ∣ total)
    (hroom : 184 + req + cfg.canary.toNat ≤ total) (hmod : b + total < sizeMod)
    (hx : x < b + 32 ∨ b + total ≤ x) : stampBlock cfg m t b req total flags x = m x := by
  unfold stampBlock blockHdr hdrSize
  have e1 :
      ∀ w0 w1 w2 w3 w4, (((((((((m.set (b + 32) w0).set (b + 32 + 8) w1).set (b + 32 + 16) w2).set
      (b + 32 + 24) w3).set (b + 32 + 32) w4).set (b + 32 + 40) 0).set (b + 32 + 48) 0).set
      (b + 32 + 56) 0).set (b + 32 + 128) 0) x = m x := by
    intro w0 w1 w2 w3 w4
    repeat rw [Mem.set_ne _ _ (by omega)]
  have e2 : sizeAdd (b + 32 + 152) req = b + 184 + req := by
    rw [sizeAdd_of_lt (by omega)]
  rw [e2]
  cases hc : cfg.canary <;> cases hz : cfg.zeroOnAlloc <;> rw [hc] at hroom <;>
    simp only [Bool.toNat_true, Bool.toNat_false] at hroom <;>
    simp only [if_true, if_false, Bool.false_eq_true]
  · exact e1 ..
  · rw [Mem.fill_of_outside _ (b + 184) (b + total) (by omega) (by omega) (by omega) (by omega)
      (by omega)]
    exact e1 ..
  · rw [Mem.setByte_ne _ _ (by omega)]
    exact e1 ..
  · rw [Mem.fill_of_outside _ (b + 184) (b + total) (by omega) (by omega) (by omega) (by omega)
      (by omega), Mem.setByte_ne _ _ (by omega)]
    exact e1 ..

/-- The two sizes an allocation stamps. -/
theorem stampBlock_sizes (cfg : Cfg) (flags : Nat) {req total : Nat} (hb : 8 ∣ b) (h8 : 8 ∣ total)
    (hroom : 184 + req + cfg.canary.toNat ≤ total) (hmod : b + total < sizeMod) :
    requestedSize (stampBlock cfg m t b req total flags) b = req ∧
      usableSize (stampBlock cfg m t b req total flags) b = total - (blockHdr + hdrSize) := by
  have e2 : sizeAdd (b + 32 + 152) req = b + 184 + req := by
    rw [sizeAdd_of_lt (by omega)]
  have e3 : sizeSub total (32 + 152) = total - (32 + 152) := sizeSub_of_le (by omega) (by omega)
  -- what is written behind the header
  have hpay : ∀ (m₁ : Mem) x, x < b + 184 →
      (if cfg.zeroOnAlloc = true then
          (if cfg.canary = true then m₁.setByte (b + 184 + req) canaryByte else m₁).fill
            (b + 184) 0 req
        else if cfg.canary = true then m₁.setByte (b + 184 + req) canaryByte else m₁) x = m₁ x := by
    intro m₁ x hx
    have hbyte :
      (if cfg.canary = true then m₁.setByte (b + 184 + req) canaryByte else m₁) x = m₁ x := by
      split
      · exact Mem.setByte_ne _ _ (by omega)
      · rfl
    split
    · rw [Mem.fill_of_outside _ (b + 184) (b + total) (by omega) (by omega) (by omega) (by omega)
        (by omega)]
      exact hbyte
    · exact hbyte
  unfold requestedSize usableSize stampBlock blockHdr hdrSize
  rw [e2, e3, show b + 32 + 152 = b + 184 from rfl, hpay _ _ (by omega), hpay _ _ (by omega)]
  constructor
  · repeat rw [Mem.set_ne _ _ (by omega)]
    exact Mem.set_self ..
  · repeat rw [Mem.set_ne _ _ (by omega)]
    exact Mem.set_self ..

/-- Writes into one handle leave the others alone. -/
theorem Wf.write_keeps (h : Wf k H hs as) (hp : (t, b) ∈ hs)
    (hw : ∀ x, x < b + 32 ∨ b + span H.mem b ≤ x → m' x = H.mem x)
    (hsub : ∀ p ∈ hs', p ∈ hs ∧ p ≠ (t, b)) : Stays H { H with mem := m' } hs' := by
  obtain ⟨ht, -⟩ := h.used_of hp
  refine ⟨⟨fun u hu => ⟨hu, rfl, rfl, rfl⟩, fun p hp' => ?_⟩, fun x hx => hw x ?_⟩
  swap
  · have hx : x < t ∨ H.fin t ≤ x := hx t ht
    have := h.aligned hp
    omega
  obtain ⟨h1, h2⟩ := hsub p hp'
  have h3 := h.apart h1 hp h2
  have h4 := h.aligned (t := p.1) (b := p.2) h1
  have hword : ∀ i, i < span H.mem p.2 → m' (p.2 + i) = H.mem (p.2 + i) := fun i hi =>
    hw _ (by simp only at h3; omega)
  exact ⟨congrArg blockSize (hword 0 (by omega)), fun i _ hi => hword i hi⟩

/-- A handle's own span survives writes behind its `tlsf_block_t`. -/
theorem span_of_write (hw : ∀ x, x < b + 32 ∨ b + span m b ≤ x → m' x = m x) :
    span m' b = span m b :=
  congrArg blockSize (hw b (by omega))

/-- What a request must satisfy: its total does not wrap, and is in the range the
search is made for. -/
def SaneRequest (size canary : Nat) : Prop :=
  184 + size + canary + 7 < sizeMod ∧ totalNeeded size canary < 2 ^ 31

instance (size canary : Nat) : Decidable (SaneRequest size canary) :=
  inferInstanceAs (Decidable (184 + size + canary + 7 < sizeMod ∧ totalNeeded size canary < 2 ^ 31))

/-- A block handed out for `req` bytes; `p`: it was cut, or it fits. -/
structure Stamped (m : Mem) (b req total : Nat) (p : Prop) : Prop where
  requested : requestedSize m b = req
  usable : usableSize m b = total - (blockHdr + hdrSize)
  exact : p → span m b = total

/-- Search, split and header stamp over a chain of arenas. -/
theorem serve_spec (flags : Nat) (h : Wf k H hs as) {cfg : Cfg} {req : Nat}
    (hs₀ : SaneRequest req cfg.canary.toNat) {ts : List Nat} (hts : ∀ t ∈ ts, t ∈ H.arenas)
    (hr : searchChain H (totalNeeded req cfg.canary.toNat) ts = some (H', t, b)) :
    ∃ as',
    Wf k { H' with mem := stampBlock cfg H'.mem t b req (totalNeeded req cfg.canary.toNat) flags }
        ((t, b) :: hs) as' ∧
      Stays H { H' with
        mem := stampBlock cfg H'.mem t b req (totalNeeded req cfg.canary.toNat) flags } hs ∧
      t ∈ ts ∧ H'.arenas = H.arenas ∧
      totalNeeded req cfg.canary.toNat ≤
        span (stampBlock cfg H'.mem t b req (totalNeeded req cfg.canary.toNat) flags) b ∧
      span (stampBlock cfg H'.mem t b req (totalNeeded req cfg.canary.toNat) flags) b <
        totalNeeded req cfg.canary.toNat + 64 ∧
      Stamped (stampBlock cfg H'.mem t b req (totalNeeded req cfg.canary.toNat) flags) b req
        (totalNeeded req cfg.canary.toNat)
          (ChainSplits H (totalNeeded req cfg.canary.toNat) ts) := by
  have hd := totalNeeded_dvd req cfg.canary.toNat
  have h32 := le_totalNeeded req cfg.canary.toNat
  have hroom := (totalNeeded_bounds hs₀.1).1
  have h31 := hs₀.2
  generalize totalNeeded req cfg.canary.toNat = total at *
  obtain ⟨as', w, kp, ha, h1, h2, h3, h4⟩ := searchChain_spec h h32 h31 hd hts hr
  have hal := w.aligned (t := t) (b := b) List.mem_cons_self
  have hn : (t, b) ∉ hs := (List.nodup_cons.mp w.handles).1
  have hw : ∀ x, x < b + 32 ∨ b + span H'.mem b ≤ x →
      stampBlock cfg H'.mem t b req total flags x = H'.mem x := fun x hx =>
    stampBlock_frame hal.1 hd hroom (by omega) (by omega)
  have hsp := span_of_write hw
  obtain ⟨z1, z2⟩ := stampBlock_sizes (m := H'.mem) (t := t) cfg flags hal.1 hd hroom (by omega)
  refine ⟨as', w.write List.mem_cons_self hw,
    kp.trans (w.write_keeps List.mem_cons_self hw fun p hp =>
    ⟨List.mem_cons_of_mem _ hp, fun e => hn (e ▸ hp)⟩), h3, ha, by omega, by
    omega, z1, z2, fun hc => ?_⟩
  exact hsp.trans (h4 hc)

theorem mem_root {P : Nat} : t ∈ H.root P ↔ t ∈ H.arenas ∧ (H.tp t).owner = P := by
  simp [Heap.root]

/-- If `tlsf_alloc` finds a block, in an arena of the pool or in a new one, that block is cut or
fits. -/
def AllocSplits (cfg : Cfg) (H : Heap) (P req os₀ os₁ : Nat) : Prop :=
  let total := totalNeeded req cfg.canary.toNat
  let H := firstArena H P os₀
  ChainSplits H total (H.root P) ∧
    ((searchChain H total (H.root P)).isNone →
      ChainSplits (H.addArena P (expandSize total) os₁) total [os₁])

instance (cfg : Cfg) (H : Heap) (P req os₀ os₁ : Nat) :
    Decidable (AllocSplits cfg H P req os₀ os₁) :=
  inferInstanceAs (Decidable (_ ∧ (_ → _)))

/-- **`tlsf_alloc`** of a sane request. -/
theorem alloc_spec (h : Wf k H hs as) {cfg : Cfg} {P req os₀ os₁ : Nat} (hP : P ≠ 0)
    (hs₀ : SaneRequest req cfg.canary.toNat)
    (hf : FreshPair H P (totalNeeded req cfg.canary.toNat) os₀ os₁) :
    ∃ as',
    Wf k (tlsfAlloc cfg H P req os₀ os₁).1 (consOpt (tlsfAlloc cfg H P req os₀ os₁).2 hs) as' ∧
      Stays H (tlsfAlloc cfg H P req os₀ os₁).1 hs ∧
      ∀ p, (tlsfAlloc cfg H P req os₀ os₁).2 = some p →
        ((tlsfAlloc cfg H P req os₀ os₁).1.tp p.1).owner = P ∧
        totalNeeded req cfg.canary.toNat ≤ span (tlsfAlloc cfg H P req os₀ os₁).1.mem p.2 ∧
        span (tlsfAlloc cfg H P req os₀ os₁).1.mem p.2 < totalNeeded req cfg.canary.toNat + 64 ∧
        Stamped (tlsfAlloc cfg H P req os₀ os₁).1.mem p.2 req (totalNeeded req cfg.canary.toNat)
          (AllocSplits cfg H P req os₀ os₁) := by
  obtain ⟨as₁, w₁, k₁⟩ :
    ∃ as', Wf k (firstArena H P os₀) hs as' ∧ Stays H (firstArena H P os₀) hs := by
    unfold firstArena
    split
    · rename_i hc
      exact ⟨_, addArena_wf h hP (hf.1 hc.2)⟩
    · exact ⟨as, h, Stays.refl⟩
  have hf₁ := hf.2
  unfold tlsfAlloc AllocSplits
  generalize firstArena H P os₀ = H₁ at *
  by_cases hnil : H₁.root P = []
  · simp only [hnil, if_true]
    exact ⟨as₁, w₁, k₁, fun p hp => by cases hp⟩
  simp only [hnil, if_false]
  have hroot : ∀ t ∈ H₁.root P, t ∈ H₁.arenas := fun t ht => (mem_root.mp ht).1
  cases e : searchChain H₁ (totalNeeded req cfg.canary.toNat) (H₁.root P) with
  | some r =>
    obtain ⟨H', t, b⟩ := r
    obtain ⟨as', w, kp, h1, -, h2, h3, z1, z2, z3⟩ := serve_spec 0 w₁ hs₀ hroot e
    refine ⟨as', w, k₁.trans kp, fun p hp => ?_⟩
    cases hp
    exact ⟨((kp.arenas t (hroot t h1)).2.2.2).trans (mem_root.mp h1).2, h2, h3, z1, z2,
      fun hc => z3 hc.1⟩
  | none =>
    simp only
    by_cases hno : cfg.staticBuffer = true ∨ os₁ = 0
    · simp only [hno, if_true]
      exact ⟨as₁, w₁, k₁, fun p hp => by cases hp⟩
    simp only [hno, if_false]
    obtain ⟨w₂, k₂⟩ := addArena_wf w₁ hP (hf₁ fun h0 => hno (.inr h0))
    have how :
      ((H₁.addArena P (expandSize (totalNeeded req cfg.canary.toNat)) os₁).tp os₁).owner = P := by
      simp only [Heap.addArena, Function.update_self]; rfl
    have hmem : ∀ t ∈ [os₁],
      t ∈ (H₁.addArena P (expandSize (totalNeeded req cfg.canary.toNat)) os₁).arenas := by
      intro t ht
      rw [List.mem_singleton.mp ht]
      exact List.mem_cons_self
    generalize H₁.addArena P (expandSize (totalNeeded req cfg.canary.toNat)) os₁ = H₂ at *
    cases e' : searchChain H₂ (totalNeeded req cfg.canary.toNat) [os₁] with
    | some r =>
      obtain ⟨H', t, b⟩ := r
      obtain ⟨as', w, kp, h1, -, h2, h3, z1, z2, z3⟩ := serve_spec 0 w₂ hs₀ hmem e'
      refine ⟨as', w, (k₁.trans k₂).trans kp, fun p hp => ?_⟩
      cases hp
      refine ⟨?_, h2, h3, z1, z2, fun hc => z3 (hc.2 rfl)⟩
      rw [List.mem_singleton.mp h1]
      exact ((kp.arenas os₁ (hmem os₁ (by simp))).2.2.2).trans how
    | none => exact ⟨_, w₂, k₁.trans k₂, fun p hp => by cases hp⟩

theorem free_wf (h : Wf k H ((t, b) :: hs) as) :
    ∃ as', Wf k (H.put t (tlsfFree H.mem (H.tp t) b)) hs as' ∧
      Stays H (H.put t (tlsfFree H.mem (H.tp t) b)) hs := by
  obtain ⟨ht, hu⟩ := h.used_of (t := t) (b := b) List.mem_cons_self
  obtain ⟨hn, hnd⟩ := List.nodup_cons.mp h.handles
  obtain ⟨as', ho, hnu⟩ := free_spec (h.sound t ht) hu
  generalize tlsfFree H.mem (H.tp t) b = r at *
  exact ⟨_, h.update ht id ho hnd (fun p hp => by simp [hp]) (iff_of_false hnu hn),
    h.keeps ht ho fun p hp => ⟨List.mem_cons_of_mem _ hp, fun e => hn (e ▸ hp)⟩⟩

theorem reinsert_wf (h : Wf k H ((t, b) :: hs) as) :
    ∃ as', Wf False (H.put t (reinsert H.mem (H.tp t) b)) hs as' ∧
      Stays H (H.put t (reinsert H.mem (H.tp t) b)) hs := by
  obtain ⟨ht, hu⟩ := h.used_of (t := t) (b := b) List.mem_cons_self
  obtain ⟨hn, hnd⟩ := List.nodup_cons.mp h.handles
  obtain ⟨ho, hnu⟩ := reinsert_spec (h.sound t ht) hu
  generalize reinsert H.mem (H.tp t) b = r at *
  exact ⟨_, h.update ht False.elim ho hnd (fun p hp => by simp [hp]) (iff_of_false hnu hn),
    h.keeps ht ho fun p hp => ⟨List.mem_cons_of_mem _ hp, fun e => hn (e ▸ hp)⟩⟩

theorem expand_eq {cfg : Cfg} {h newSize : Nat} {r : Mem × TPool}
    (hr : expandBlock H.mem (H.tp t) b (totalNeeded newSize cfg.canary.toNat) = some r) :
    tlsfTryInplaceExpand cfg H t b h newSize =
      ({ H.put t r with mem :=
          if cfg.canary = true then ((r.1.set (h + 8) newSize).set (h + 16)
            (sizeSub (sizeSub (span r.1 b) blockHdr) hdrSize)).setByte (sizeAdd
              (h + hdrSize) newSize) canaryByte
          else (r.1.set (h + 8) newSize).set (h + 16) (sizeSub (sizeSub (span r.1 b) blockHdr)
            hdrSize) },
        true) := by
  unfold tlsfTryInplaceExpand
  rw [hr]
  rfl

/-- **`tlsf_try_inplace_expand`** of a sane request whose canary lands in the block. -/
theorem expand_wf (h : Wf k H hs as) (hp : (t, b) ∈ hs) {cfg : Cfg} {hd newSize : Nat}
    (hin : HeaderIn H b hd newSize) (hsane : 184 + newSize + cfg.canary.toNat + 7 < sizeMod)
    (hcan : cfg.canary = true → (tlsfTryInplaceExpand cfg H t b hd newSize).2 = true →
      b + blockHdr ≤ sizeAdd (hd + hdrSize) newSize ∧
      sizeAdd (hd + hdrSize) newSize <
        b + span (tlsfTryInplaceExpand cfg H t b hd newSize).1.mem b) :
    ∃ as', Wf k (tlsfTryInplaceExpand cfg H t b hd newSize).1 hs as' ∧
      Stays H (tlsfTryInplaceExpand cfg H t b hd newSize).1 (hs.erase (t, b)) ∧
      ((tlsfTryInplaceExpand cfg H t b hd newSize).2 = true →
        totalNeeded newSize cfg.canary.toNat ≤
          span (tlsfTryInplaceExpand cfg H t b hd newSize).1.mem b ∧
        span (tlsfTryInplaceExpand cfg H t b hd newSize).1.mem b <
          totalNeeded newSize cfg.canary.toNat + 64) ∧
      ((tlsfTryInplaceExpand cfg H t b hd newSize).2 = false →
        (tlsfTryInplaceExpand cfg H t b hd newSize).1 = H) := by
  obtain ⟨ht, hu⟩ := h.used_of hp
  have hsub : ∀ p ∈ hs.erase (t, b), p ∈ hs ∧ p ≠ (t, b) := fun p hm => by
    have := (List.Nodup.mem_erase_iff h.handles).mp hm
    exact ⟨this.2, this.1⟩
  cases hr : expandBlock H.mem (H.tp t) b (totalNeeded newSize cfg.canary.toNat) with
  | none =>
    have e : tlsfTryInplaceExpand cfg H t b hd newSize = (H, false) := by
      unfold tlsfTryInplaceExpand; rw [hr]
    rw [e]
    exact ⟨as, h, Stays.refl, nofun, fun _ => rfl⟩
  | some r =>
    have h32 := le_totalNeeded newSize cfg.canary.toNat
    have hroom := (totalNeeded_bounds hsane).1
    obtain ⟨as', ho, hu', h1, h2⟩ := expand_spec (h.sound t ht) hu h32 (totalNeeded_dvd ..) hr
    rw [expand_eq hr] at hcan ⊢
    have w : Wf k (H.put t r) hs _ :=
      h.update ht id ho h.handles (fun _ _ => Iff.rfl) (iff_of_true hu' hp)
    have kp := h.keeps ht ho hsub
    have hal := w.aligned hp
    obtain ⟨i1, i2, i3, -⟩ := hin
    have hB : blockHdr = 32 := rfl
    change _ ∧ 32 ≤ span r.1 b ∧ 8 ∣ span r.1 b ∧ _ at hal
    have e1 : ∀ v x, x < b + 32 ∨ b + span r.1 b ≤ x →
      ((r.1.set (hd + 8) newSize).set (hd + 16) v) x = r.1 x :=
      fun v x hx => (Mem.set_ne _ _ (by omega)).trans (Mem.set_ne _ _ (by omega))
    have hw : ∀ x, x < b + 32 ∨ b + span r.1 b ≤ x →
        (if cfg.canary = true then ((r.1.set (hd + 8) newSize).set (hd + 16)
            (sizeSub (sizeSub (span r.1 b) blockHdr) hdrSize)).setByte
              (sizeAdd (hd + hdrSize) newSize) canaryByte
          else (r.1.set (hd + 8) newSize).set (hd + 16)
            (sizeSub (sizeSub (span r.1 b) blockHdr) hdrSize)) x = r.1 x := by
      intro x hx
      split
      · rename_i hc
        -- the claim about the canary is about the span after its own write
        have hc' := hcan hc rfl
        simp only [hc, if_true] at hc'
        have hne : b ≠ sizeAdd (hd + hdrSize) newSize / 8 * 8 := by omega
        have hsp : span (((r.1.set (hd + 8) newSize).set (hd + 16)
            (sizeSub
              (sizeSub (span r.1 b) blockHdr) hdrSize)).setByte (sizeAdd (hd + hdrSize) newSize)
            canaryByte) b = span r.1 b :=
          congrArg blockSize ((Mem.setByte_ne _ _ hne).trans (e1 _ b (by omega)))
        rw [hsp] at hc'
        exact (Mem.setByte_ne _ _ (by omega)).trans (e1 _ x hx)
      · exact e1 _ x hx
    generalize (if cfg.canary = true then _ else _ : Mem) = m₁ at hw hcan ⊢
    have hsp : span m₁ b = span r.1 b := span_of_write hw
    refine ⟨_, w.write hp hw, kp.trans (w.write_keeps hp hw hsub), fun _ => ?_, nofun⟩
    show _ ≤ span m₁ b ∧ span m₁ b < _
    rw [hsp]
    exact ⟨h1, h2⟩

/-- The arena loop of `mp_reset`: the blocks of the re-seeded arenas are gone. -/
theorem reseedAll_wf (h : Wf k H hs as) {ts : List Nat} (hts : ∀ t ∈ ts, t ∈ H.arenas) :
    ∃ as', Wf k (reseedAll H ts) (hs.filter fun p => p.1 ∉ ts) as' ∧
      Stays H (reseedAll H ts) (hs.filter fun p => p.1 ∉ ts) ∧
      (reseedAll H ts).arenas = H.arenas := by
  induction ts generalizing H hs as with
  | nil => exact ⟨as, by simpa [reseedAll] using h, Stays.refl, rfl⟩
  | cons t ts ih =>
    have ht := hts t List.mem_cons_self
    have hg := h.geo t ht
    have hsd := h.sound t ht
    obtain ⟨s1, s2, s3, s4⟩ := reseed_spec (k := k) (m := H.mem) hsd.region hg.2.2.1
    have hflt : ∀ p, p ∈ hs.filter (fun p => p.1 ≠ t) ↔ p ∈ hs ∧ p.1 ≠ t := fun p => by simp
    -- not one block but all of the arena's blocks are affected
    have w : Wf k (H.put t (reseed H.mem (H.tp t))) (hs.filter fun p => p.1 ≠ t)
        (Function.update as t [(H.tp t).raw]) ∧
        Stays H (H.put t (reseed H.mem (H.tp t))) (hs.filter fun p => p.1 ≠ t) := by
      generalize reseed H.mem (H.tp t) = r at *
      have hfin : ∀ u, (H.put t r).fin u = H.fin u := by
        intro u
        unfold Heap.fin Heap.put
        by_cases e : u = t
        · subst e; simp only [Function.update_self]; rw [s2.1, s2.2.1]
        · simp only [Function.update_of_ne e]
      have hout : ∀ u ∈ H.arenas, u ≠ t → ∀ x, (H.tp u).raw ≤ x → x < (H.tp u).raw + (H.tp u).size →
          r.1 x = H.mem x := fun u hu e x h1 h2 => s3 x (h.outside ht hu e h1 h2)
      refine ⟨⟨h.nodup, fun u hu => ?_, fun u hu => ?_, fun u hu => ?_, fun u hu v hv hne => ?_,
        h.handles.filter _, fun u hu c => ?_, fun p hp => h.known p ((hflt p).mp hp).1⟩,
        ⟨fun u hu => ⟨hu, ?_⟩, fun p hp => ?_⟩, fun x hx => s3 x ?_⟩
      · show Sound k r.1 (Function.update H.tp t r.2 u) (Function.update as t _ u)
        by_cases e : u = t
        · subst e; simp only [Function.update_self]; exact s1
        · simp only [Function.update_of_ne e]
          exact (h.sound u hu).of_region (hout u hu e)
      · show (Function.update H.tp t r.2 u).raw = _ ∧ _
        have hg := h.geo u hu
        by_cases e : u = t
        · subst e
          simp only [Heap.put, Function.update_self]
          rw [s2.1, s2.2.1, s2.2.2]; exact hg
        · simp only [Heap.put, Function.update_of_ne e]; exact hg
      · rw [hfin]; exact h.space u hu
      · rw [hfin, hfin]; exact h.disj u hu v hv hne
      · show Used r.1 (Function.update as t _ u) c ↔ _
        rw [hflt]
        by_cases e : u = t
        · subst e
          simp only [Function.update_self]
          refine iff_of_false ?_ (by simp)
          rintro ⟨h1, h2⟩
          rw [List.mem_singleton.mp h1, s4] at h2; cases h2
        · simp only [Function.update_of_ne e]
          rw [← h.used u hu c, and_iff_left e]
          refine and_congr_right fun hc => ?_
          have := (h.sound u hu).header_in (List.mem_append_left _ hc)
          rw [show isFree r.1 c = isFree H.mem c
            from congrArg freeBit (hout u hu e c (by omega) (by omega))]
      · show SameRegion _ (Function.update H.tp t r.2 u)
        by_cases e : u = t
        · subst e; simp only [Function.update_self]; exact s2
        · simp only [Function.update_of_ne e]; exact ⟨rfl, rfl, rfl⟩
      · obtain ⟨h1, h2⟩ := (hflt p).mp hp
        obtain ⟨hu, hused⟩ := h.used_of (t := p.1) (b := p.2) h1
        have hb := (h.sound _ hu).bounds hused.1
        have hend := (h.sound _ hu).region.end
        have hw : ∀ i, i < span H.mem p.2 → r.1 (p.2 + i) = H.mem (p.2 + i) := fun i hi =>
          hout p.1 hu h2 _ (by omega) (by omega)
        exact ⟨congrArg blockSize (hw 0 (by omega)), fun i _ hi => hw i hi⟩
      · have hx := hx t ht
        rw [hfin] at hx
        have := hg.1
        unfold Heap.fin at hx
        omega
    obtain ⟨as', h1, h2, h3⟩ := ih w.1 fun u hu => hts u (List.mem_cons_of_mem _ hu)
    have hcomb :
      (hs.filter fun p => p.1 ≠ t).filter (fun p => p.1 ∉ ts) =
        hs.filter fun p => p.1 ∉ t :: ts := by
      rw [List.filter_filter]
      refine List.filter_congr fun p _ => ?_
      simp [Bool.and_comm]
    rw [hcomb] at h1 h2
    refine ⟨as', h1, (w.2.mono fun p hp => ?_).trans h2, h3⟩
    simp only [List.mem_filter, List.mem_cons, not_or, decide_eq_true_eq] at hp ⊢
    exact ⟨hp.1, hp.2.1⟩

end Heap

end Cmem.L2.SharedTlsf
