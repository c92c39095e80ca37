import Mathlib

/-!
# Id lists of sysfs

`cmem_parse_idlist` (src/src/cmem_sys.c:88-119) reads lists such as `0-3,8`. The cursor of its
loop moves behind a comma and behind the dash of a range; at the end of the string it stays
where it is, and the loop goes on with the last number until the output is full.

A string is given by its pieces between the commas, the good ones and the malformed ones, and by
the newline at its end.
-/
namespace Cmem.L1.IdList

/-! ## `strtol` -/

/-- `isspace` in the C locale. -/
def isSpace (c : Char) : Bool := c = ' ' || (9 ≤ c.toNat && c.toNat ≤ 13)

def digitValue (c : Char) : Nat := c.toNat - '0'.toNat

/-- The value of the digits at the front of a string, behind those read before, and the rest. -/
def readDigits : Nat → List Char → Nat × List Char
  | v, [] => (v, [])
  | v, c :: s => if c.isDigit then readDigits (10 * v + digitValue c) s else (v, c :: s)

/-- Values outside `long` are clamped. -/
def clampLong (v : Int) : Int := max (-2 ^ 63) (min v (2 ^ 63 - 1))

/-- The digits behind the sign; without a digit nothing is read. -/
def strtolDigits (s : List Char) (sign : Int) : List Char → Int × List Char
  | [] => (0, s)
  | c :: t =>
    if c.isDigit then (clampLong (sign * (readDigits 0 (c :: t)).1), (readDigits 0 (c :: t)).2)
    else (0, s)

/-- `strtol` in base ten: the value, and the string at `end`. -/
def strtol (s : List Char) : Int × List Char :=
  match s.dropWhile isSpace with
  | '-' :: t => strtolDigits s (-1) t
  | '+' :: t => strtolDigits s 1 t
  | t => strtolDigits s 1 t

/-! ## The parser -/

/-- A conversion to `int`. -/
def toInt32 (v : Int) : Int := v.bmod (2 ^ 32)

/-- What a call returns, and the ids it has written. -/
structure Parsed where
  ret : Int
  ids : List Int
  deriving DecidableEq, Repr

/-- The inner loop, with room for so many ids, src/src/cmem_sys.c:108-110. -/
def expand (first last : Int) : Nat → List Int
  | 0 => []
  | room + 1 => if first ≤ last then toInt32 first :: expand (first + 1) last room else []

/-- A turn of the loop returns, or leaves the cursor and the ids for the next one. -/
inductive Turn where
  | done (r : Parsed)
  | next (cursor : List Char) (ids : List Int)

section Parser
variable (maxIds : Int)

/-- The second half of a turn, src/src/cmem_sys.c:105-116; the cursor moves behind a comma only. -/
def closeItem (first last : Int) (tail cursor : List Char) (ids : List Int) : Turn :=
  if first < 0 ∨ last < first then .done ⟨-1, ids⟩
  else
    let ids := ids ++ expand first last (maxIds - ids.length).toNat
    match tail with
    | ',' :: cursor => .next cursor ids
    | [] => .next cursor ids
    | _ => .done ⟨-1, ids⟩

/-- A turn, src/src/cmem_sys.c:93-116. -/
def turn (cursor : List Char) (ids : List Int) : Turn :=
  let (first, tail) := strtol cursor
  if tail = cursor then .done ⟨-1, ids⟩
  else
    match tail with
    | '-' :: cursor =>
      let (last, tail) := strtol cursor
      if tail = cursor then .done ⟨-1, ids⟩ else closeItem maxIds first last tail cursor ids
    | _ => closeItem maxIds first first tail cursor ids

/-- The loop; `none` when there are more turns than fuel. -/
def parseLoop (fuel : Nat) (cursor : List Char) (ids : List Int) : Option Parsed :=
  if cursor = [] ∨ maxIds ≤ ids.length then some ⟨ids.length, ids⟩
  else
    match fuel with
    | 0 => none
    | fuel + 1 =>
      match turn maxIds cursor ids with
      | .done r => some r
      | .next cursor ids => parseLoop fuel cursor ids

end Parser

/-- mirrors `cmem_parse_idlist`, src/src/cmem_sys.c:88-119 -/
def cmemParseIdlist (list : List Char) (maxIds : Int) : Option Parsed :=
  parseLoop maxIds maxIds.toNat list []

/-! ## Lists -/

def numeralValue (l : List Char) : Nat := l.foldl (fun v c => 10 * v + digitValue c) 0

/-- A decimal number that fits an `int`. -/
structure Numeral where
  text : List Char
  digits : ∀ c ∈ text, c.isDigit = true
  nonempty : text ≠ []
  fits : numeralValue text < 2 ^ 31

def Numeral.value (n : Numeral) : Nat := numeralValue n.text

/-- What may stand between two commas. -/
inductive Piece where
  | single (n : Numeral)
  | range (n m : Numeral) (le : n.value ≤ m.value)
  | empty
  | noFirst (m : Numeral)
  | noLast (n : Numeral)
  | dash
  | descending (n m : Numeral) (lt : m.value < n.value)

def Piece.text : Piece → List Char
  | .single n => n.text
  | .range n m _ | .descending n m _ => n.text ++ '-' :: m.text
  | .empty => []
  | .noFirst m => '-' :: m.text
  | .noLast n => n.text ++ ['-']
  | .dash => ['-']

/-- The ids from `lo` to `hi`. -/
def idsFrom (lo hi : Nat) : List Int := (List.range' lo (hi + 1 - lo)).map Int.ofNat

/-- The ids of an item; a malformed piece has none. -/
def Piece.ids : Piece → Option (List Int)
  | .single n => some (idsFrom n.value n.value)
  | .range n m _ => some (idsFrom n.value m.value)
  | _ => none

def Piece.Good (p : Piece) : Prop := p.ids.isSome = true

/-- The concatenation of the expansions. -/
def idsOf (ps : List Piece) : List Int := ps.flatMap fun p => p.ids.getD []

/-- The list with these pieces. -/
def listText (newline : Bool) (p : Piece) : List Piece → List Char
  | [] => p.text ++ if newline then ['\n'] else []
  | q :: ps => p.text ++ ',' :: listText newline q ps

/-- **The documented result**: all ids of a well formed list, as far as they fit, and `-1` when
there is a malformed piece before the output is full. -/
structure Documented (ps : List Piece) (maxIds : Int) (r : Option Parsed) : Prop where
  good : (∀ p ∈ ps, p.Good) →
    r = some ⟨((idsOf ps).take maxIds.toNat).length, (idsOf ps).take maxIds.toNat⟩
  bad : ∀ pre p post, ps = pre ++ p :: post → (∀ q ∈ pre, q.Good) → ¬p.Good →
    (idsOf pre).length < maxIds → ∃ ids, r = some ⟨-1, ids⟩

/-- What the parser makes of a piece: `-0` is the id 0. -/
def Piece.taken : Piece → Option (List Int)
  | .noFirst m => if m.value = 0 then some (idsFrom 0 0) else none
  | p => p.ids

/-- The pieces make the parser return `-1` before there is no more room: one that it does not take
and that is not the empty end of the string, or a newline. -/
def Rejects (newline : Bool) : Nat → List Piece → Prop
  | _, [] => False
  | room, p :: ps =>
    0 < room ∧
      match p.taken with
      | none => p.text ≠ [] ∨ ps ≠ [] ∨ newline = true
      | some l => if ps = [] then newline = true else Rejects newline (room - l.length) ps

/-- The output is full before the last item of a list, or with it and there is no newline; a
malformed piece is rejected. -/
structure Handled (newline : Bool) (ps : List Piece) (maxIds : Int) : Prop where
  good : (∀ p ∈ ps, p.Good) →
    maxIds ≤ (idsOf ps.dropLast).length ∨ newline = false ∧ maxIds ≤ (idsOf ps).length
  bad : ∀ pre p post, ps = pre ++ p :: post → (∀ q ∈ pre, q.Good) → ¬p.Good →
    (idsOf pre).length < maxIds → Rejects newline (maxIds - (idsOf pre).length).toNat (p :: post)

/-! ## Reading numbers -/

/-- A string that does not go on with a digit. -/
def Stops (r : List Char) : Prop := ∀ c t, r = c :: t → c.isDigit = false

theorem readDigits_append {l r : List Char} (hl : ∀ c ∈ l, c.isDigit = true) (hr : Stops r)
    (v : Nat) : readDigits v (l ++ r) = (l.foldl (fun v c => 10 * v + digitValue c) v, r) := by
  induction l generalizing v with
  | nil =>
    cases r with
    | nil => rfl
    | cons c t =>
      have hc := hr c t rfl
      rw [List.nil_append, readDigits, hc]
      rfl
  | cons c l ih =>
    rw [List.cons_append, readDigits, if_pos (hl c List.mem_cons_self)]
    exact ih (fun x hx => hl x (List.mem_cons_of_mem _ hx)) _

theorem digit_code {c : Char} (h : c.isDigit = true) : 48 ≤ c.toNat ∧ c.toNat ≤ 57 :=
  Char.isDigit_iff_toNat.mp h

theorem not_space_of_digit {c : Char} (h : c.isDigit = true) : isSpace c = false := by
  have := digit_code h
  have hne : c ≠ ' ' := by
    rintro rfl
    exact absurd h (by decide)
  simp only [isSpace, hne, decide_false, Bool.false_or, Bool.and_eq_false_imp, decide_eq_true_eq,
    decide_eq_false_iff_not]
  omega

theorem strtolDigits_append {l r : List Char} (hl : ∀ c ∈ l, c.isDigit = true) (hne : l ≠ [])
    (hr : Stops r) (s : List Char) (sign : Int) :
    strtolDigits s sign (l ++ r) = (clampLong (sign * numeralValue l), r) := by
  have hread := readDigits_append hl hr 0
  cases l with
  | nil => exact absurd rfl hne
  | cons c l =>
    rw [List.cons_append] at hread ⊢
    rw [strtolDigits, if_pos (hl c List.mem_cons_self), hread]
    rfl

theorem clampLong_of_int {v : Int} (h1 : -2 ^ 31 ≤ v) (h2 : v < 2 ^ 31) : clampLong v = v := by
  unfold clampLong
  omega

variable {n m : Numeral} {r : List Char}

theorem strtol_numeral (n : Numeral) (hr : Stops r) :
    strtol (n.text ++ r) = ((n.value : Int), r) := by
  have hfits := n.fits
  have hval := strtolDigits_append n.digits n.nonempty hr (n.text ++ r) 1
  rw [Int.one_mul, clampLong_of_int (by omega) (by omega)] at hval
  obtain ⟨c, t, ht⟩ := List.exists_cons_of_ne_nil n.nonempty
  have hd := n.digits c (by rw [ht]; exact List.mem_cons_self)
  have hdrop : (n.text ++ r).dropWhile isSpace = n.text ++ r := by
    rw [ht, List.cons_append,
      List.dropWhile_cons_of_neg (by rw [not_space_of_digit hd]; exact nofun)]
  unfold strtol
  rw [hdrop]
  split
  · rename_i heq
    rw [ht] at heq
    obtain ⟨rfl, -⟩ := List.cons.inj heq
    exact absurd hd (by decide)
  · rename_i heq
    rw [ht] at heq
    obtain ⟨rfl, -⟩ := List.cons.inj heq
    exact absurd hd (by decide)
  · exact hval

theorem strtol_minus (m : Numeral) (hr : Stops r) :
    strtol ('-' :: m.text ++ r) = (-(m.value : Int), r) := by
  have hfits := m.fits
  have hval := strtolDigits_append m.digits m.nonempty hr ('-' :: m.text ++ r) (-1)
  rw [Int.neg_one_mul, clampLong_of_int (by omega) (by omega)] at hval
  exact hval

theorem strtolDigits_none {s t : List Char} (sign : Int) (ht : Stops t) :
    strtolDigits s sign t = (0, s) := by
  cases t with
  | nil => rfl
  | cons c t =>
    rw [strtolDigits, ht c t rfl]
    rfl

/-- What follows a piece: the end, the comma or the newline. -/
inductive Ends : List Char → Prop
  | stop : Ends []
  | comma (s : List Char) : Ends (',' :: s)
  | newline : Ends ['\n']

theorem Ends.stops (h : Ends r) : Stops r := by
  rintro c t rfl
  cases h <;> rfl

theorem Ends.strtol (h : Ends r) : strtol r = (0, r) := by
  cases h with
  | stop | newline => rfl
  | comma s => exact strtolDigits_none 1 (Ends.comma s).stops

theorem Ends.strtol_dash (h : Ends r) : IdList.strtol ('-' :: r) = (0, '-' :: r) :=
  strtolDigits_none (-1) h.stops

theorem stops_dash {s : List Char} : Stops ('-' :: s) := by
  rintro c t heq
  obtain ⟨rfl, -⟩ := List.cons.inj heq
  rfl

/-! ## A turn -/

/-- The inner loop writes the ids as far as there is room. -/
theorem expand_eq {lo hi : Nat} (hhi : hi < 2 ^ 31) (room : Nat) :
    expand lo hi room = (idsFrom lo hi).take room := by
  induction room generalizing lo with
  | zero => rfl
  | succ room ih =>
    rw [expand]
    by_cases hle : lo ≤ hi
    · have hlen : hi + 1 - lo = (hi + 1 - (lo + 1)) + 1 := by omega
      have hsplit : idsFrom lo hi = (lo : Int) :: idsFrom (lo + 1) hi := by
        unfold idsFrom
        rw [hlen, List.range'_succ]
        rfl
      have hint : toInt32 lo = lo := Int.bmod_eq_of_le (by omega) (by omega)
      rw [if_pos (by omega), hint, hsplit, List.take_succ_cons]
      have hrec : expand ((lo + 1 : Nat) : Int) hi room = _ := ih
      exact congrArg _ hrec
    · have hlen : hi + 1 - lo = 0 := by omega
      rw [if_neg (by omega), idsFrom, hlen]
      rfl

theorem idsFrom_self (v : Nat) : idsFrom v v = [(v : Int)] := by
  unfold idsFrom
  rw [Nat.add_sub_cancel_left]
  rfl

/-- Where the cursor stays at the end of the string. -/
def Piece.stay : Piece → List Char
  | .range _ m _ => m.text
  | p => p.text

/-- The id that is read there. -/
def Piece.last : Piece → Int
  | .single n => n.value
  | .range _ m _ => m.value
  | _ => 0

section Turn
variable {maxIds : Int} {p : Piece} {l : List Int} {ids : List Int}

/-- What the second half of a turn does with ids that are taken. -/
def closeTaken (maxIds : Int) (l : List Int) (stay r : List Char) (ids : List Int) : Turn :=
  let ids := ids ++ l.take (maxIds - ids.length).toNat
  match r with
  | ',' :: cursor => .next cursor ids
  | [] => .next stay ids
  | _ => .done ⟨-1, ids⟩

theorem closeItem_taken {lo hi : Nat} (hle : lo ≤ hi) (hhi : hi < 2 ^ 31) (r cursor : List Char) :
    closeItem maxIds lo hi r cursor ids = closeTaken maxIds (idsFrom lo hi) cursor r ids := by
  unfold closeItem closeTaken
  rw [if_neg (by omega), expand_eq hhi]

theorem closeItem_refused {first last : Int} (h : first < 0 ∨ last < first) (r cursor : List Char) :
    closeItem maxIds first last r cursor ids = .done ⟨-1, ids⟩ := if_pos h

theorem ne_append {t r : List Char} (h : t ≠ []) : r ≠ t ++ r := fun he => by
  have := congrArg List.length he
  have := List.length_pos_iff.mpr h
  rw [List.length_append] at *
  omega

/-- A turn at a single number. -/
theorem turn_number {t : List Char} {v : Int} (ht : t ≠ []) (hv : strtol (t ++ r) = (v, r))
    (hr : Ends r) : turn maxIds (t ++ r) ids = closeItem maxIds v v r (t ++ r) ids := by
  unfold turn
  rw [hv]
  dsimp only
  rw [if_neg (ne_append ht)]
  cases hr <;> rfl

/-- A turn at a number, a dash and a number. -/
theorem turn_range (hr : Ends r) : turn maxIds (n.text ++ '-' :: m.text ++ r) ids =
    closeItem maxIds n.value m.value r (m.text ++ r) ids := by
  have h1 := strtol_numeral n (r := '-' :: (m.text ++ r)) stops_dash
  have h2 := strtol_numeral m hr.stops
  rw [List.append_assoc, List.cons_append]
  unfold turn
  rw [h1]
  dsimp only
  rw [if_neg (ne_append n.nonempty)]
  show (if (strtol (m.text ++ r)).2 = m.text ++ r then _ else closeItem maxIds n.value
    (strtol (m.text ++ r)).1
    (strtol (m.text ++ r)).2 (m.text ++ r) ids) = _
  rw [h2, if_neg (ne_append m.nonempty)]

/-- The ids of a piece are written, and the cursor moves on. -/
theorem turn_taken (maxIds : Int) (ids : List Int) (hp : p.taken = some l) (hr : Ends r) :
    turn maxIds (p.text ++ r) ids = closeTaken maxIds l (p.stay ++ r) r ids := by
  cases p with
  | single n =>
    obtain rfl := Option.some.inj hp
    exact (turn_number n.nonempty (strtol_numeral n hr.stops) hr).trans
      (closeItem_taken (Nat.le_refl _) n.fits r _)
  | range n m le =>
    obtain rfl := Option.some.inj hp
    exact (turn_range hr).trans (closeItem_taken le m.fits r _)
  | noFirst m =>
    change (if m.value = 0 then some (idsFrom 0 0) else none) = _ at hp
    split at hp
    · rename_i h0
      obtain rfl := Option.some.inj hp
      have hread := strtol_minus m hr.stops
      rw [h0] at hread
      exact (turn_number (List.cons_ne_nil '-' m.text) hread hr).trans
        (closeItem_taken (Nat.le_refl 0) (by decide) r _)
    · cases hp
  | _ => cases hp

/-- A piece that is not taken ends the call. -/
theorem turn_refused (hp : p.taken = none) (hr : Ends r) :
    turn maxIds (p.text ++ r) ids = .done ⟨-1, ids⟩ := by
  cases p with
  | single n => cases hp
  | range n m le => cases hp
  | empty =>
    show turn maxIds r ids = _
    unfold turn
    rw [hr.strtol]
    exact if_pos rfl
  | noFirst m =>
    change (if m.value = 0 then some (idsFrom 0 0) else none) = _ at hp
    split at hp
    · cases hp
    · have hneg : -(m.value : Int) < 0 := by omega
      exact (turn_number (List.cons_ne_nil '-' m.text) (strtol_minus m hr.stops) hr).trans
        (closeItem_refused (.inl hneg) _ _)
  | noLast n =>
    have h1 := strtol_numeral n (r := '-' :: r) stops_dash
    show turn maxIds (n.text ++ ['-'] ++ r) ids = _
    rw [List.append_assoc, List.singleton_append]
    unfold turn
    rw [h1]
    dsimp only
    rw [if_neg (ne_append n.nonempty)]
    show (if (strtol r).2 = r then _ else closeItem maxIds n.value (strtol r).1 (strtol r).2
      r ids) = _
    rw [hr.strtol]
    exact if_pos rfl
  | dash =>
    show turn maxIds ('-' :: r) ids = _
    unfold turn
    rw [hr.strtol_dash]
    exact if_pos rfl
  | descending n m lt => exact (turn_range hr).trans (closeItem_refused (.inr (by omega)) _ _)

end Turn

/-! ## The loop -/

section Loop
variable {maxIds : Int} {newline : Bool} {p : Piece} {ps pre : List Piece} {l ids : List Int}
  {fuel : Nat}

theorem parseLoop_full (h : maxIds ≤ ids.length) (cursor : List Char) :
    parseLoop maxIds fuel cursor ids = some ⟨ids.length, ids⟩ := by
  unfold parseLoop
  exact if_pos (.inr h)

theorem parseLoop_turn {cursor : List Char} (hc : cursor ≠ []) (hroom : ¬maxIds ≤ ids.length)
    (hf : (maxIds - ids.length).toNat ≤ fuel) :
    ∃ f, fuel = f + 1 ∧ parseLoop maxIds fuel cursor ids =
      match turn maxIds cursor ids with
      | .done r => some r
      | .next cursor ids => parseLoop maxIds f cursor ids := by
  obtain ⟨f, rfl⟩ : ∃ f, fuel = f + 1 := ⟨fuel - 1, by omega⟩
  refine ⟨f, rfl, ?_⟩
  rw [parseLoop]
  exact if_neg (not_or.mpr ⟨hc, hroom⟩)

theorem taken_of_ids (h : p.ids = some l) : p.taken = some l := by
  cases p with
  | noFirst m => cases h
  | _ => exact h

theorem ids_length_pos (h : p.taken = some l) : 0 < l.length := by
  have hlen : ∀ lo hi, lo ≤ hi → 0 < (idsFrom lo hi).length := fun lo hi hle => by
    rw [idsFrom, List.length_map, List.length_range']
    omega
  cases p with
  | single n => exact Option.some.inj h ▸ hlen _ _ (Nat.le_refl _)
  | range n m le => exact Option.some.inj h ▸ hlen _ _ le
  | noFirst m =>
    change (if m.value = 0 then some (idsFrom 0 0) else none) = _ at h
    split at h
    · exact Option.some.inj h ▸ hlen 0 0 (Nat.le_refl _)
    · cases h
  | _ => cases h

theorem text_ne_nil (h : p.taken = some l) : p.text ≠ [] := by
  cases p with
  | single n => exact n.nonempty
  | range n m le => exact List.append_ne_nil_of_right_ne_nil _ (List.cons_ne_nil _ _)
  | noFirst m => exact List.cons_ne_nil _ _
  | _ => cases h

/-- The piece that is read at the end of the string, once more. -/
def Piece.again : Piece → Piece
  | .range _ m _ => .single m
  | p => p

theorem again_spec (h : p.taken = some l) :
    p.again.text = p.stay ∧ p.again.stay = p.stay ∧ p.again.taken = some [p.last] ∧
    p.stay ≠ [] := by
  cases p with
  | single n => exact ⟨rfl, rfl, congrArg some (idsFrom_self _), n.nonempty⟩
  | range n m le => exact ⟨rfl, rfl, congrArg some (idsFrom_self _), m.nonempty⟩
  | noFirst m =>
    refine ⟨rfl, rfl, ?_, List.cons_ne_nil _ _⟩
    change (if m.value = 0 then some (idsFrom 0 0) else none) = _ at h
    show (if m.value = 0 then some (idsFrom 0 0) else none) = _
    split at h
    · rw [if_pos ‹_›, idsFrom_self]
      rfl
    · cases h
  | _ => cases h

/-- The output is filled up with the last id. -/
def filled (maxIds last : Int) (ids : List Int) : Parsed :=
  let ids := ids ++ List.replicate (maxIds - ids.length).toNat last
  ⟨ids.length, ids⟩

/-- **At the end of the string** the loop reads the last number until there is no more room. -/
theorem parseLoop_stay (h : p.taken = some l) (hf : (maxIds - ids.length).toNat ≤ fuel) :
    parseLoop maxIds fuel p.stay ids = some (filled maxIds p.last ids) := by
  obtain ⟨htext, hstay, htaken, hne⟩ := again_spec h
  induction fuel generalizing ids with
  | zero =>
    rw [parseLoop_full (by omega), filled, show (maxIds - ids.length).toNat = 0 by omega]
    simp
  | succ fuel ih =>
    by_cases hroom : maxIds ≤ ids.length
    · rw [parseLoop_full hroom, filled, show (maxIds - ids.length).toNat = 0 by omega]
      simp
    · obtain ⟨f, hf', hstep⟩ := parseLoop_turn hne hroom hf
      obtain rfl := Nat.succ.inj hf'
      have hturn := turn_taken maxIds ids htaken .stop
      obtain ⟨k, hk⟩ : ∃ k, (maxIds - ids.length).toNat = k + 1 :=
        ⟨(maxIds - ids.length).toNat - 1, by omega⟩
      rw [List.append_nil, htext, List.append_nil, hstay, closeTaken] at hturn
      rw [hk, List.take_succ_cons, List.take_nil] at hturn
      rw [hstep, hturn]
      dsimp only
      rw [ih (by rw [List.length_append, List.length_singleton]; omega)]
      unfold filled
      rw [List.length_append, List.length_singleton, hk,
        show (maxIds - ((ids.length + 1 : Nat) : Int)).toNat = k by
          omega, List.append_assoc, List.singleton_append,
        List.replicate_succ]

/-- What a call makes of a list of pieces behind the ids written before. -/
def outcome (maxIds : Int) (newline : Bool) : List Piece → List Int → Parsed
  | [], ids => ⟨ids.length, ids⟩
  | p :: ps, ids =>
    if maxIds ≤ ids.length then ⟨ids.length, ids⟩
    else
      match p.taken with
      | none => if p.text = [] ∧ ps = [] ∧ newline = false then ⟨ids.length, ids⟩ else ⟨-1, ids⟩
      | some l =>
        let ids := ids ++ l.take (maxIds - ids.length).toNat
        if ps ≠ [] then outcome maxIds newline ps ids
        else if newline = true then ⟨-1, ids⟩
        else filled maxIds p.last ids

theorem parseLoop_eq (hf : (maxIds - ids.length).toNat ≤ fuel) :
    parseLoop maxIds fuel (listText newline p ps) ids =
      some (outcome maxIds newline (p :: ps) ids) := by
  induction ps generalizing p ids fuel with
  | nil =>
    rw [outcome]
    by_cases hroom : maxIds ≤ ids.length
    · rw [parseLoop_full hroom, if_pos hroom]
    rw [if_neg hroom]
    have hr : Ends (if newline then ['\n'] else []) := by
      cases newline
      · exact .stop
      · exact .newline
    cases ht : p.taken with
    | none =>
      dsimp only
      by_cases hc : listText newline p [] = []
      · obtain ⟨h1, h2⟩ := List.append_eq_nil_iff.mp hc
        have hn : newline = false := by
          cases newline
          · rfl
          · cases h2
        rw [if_pos ⟨h1, rfl, hn⟩, hc]
        unfold parseLoop
        exact if_pos (.inl rfl)
      · obtain ⟨f, rfl, hstep⟩ := parseLoop_turn hc hroom hf
        rw [hstep, listText, turn_refused ht hr]
        have hno : ¬(p.text = [] ∧ ([] : List Piece) = [] ∧ newline = false) := by
          rintro ⟨h1, -, rfl⟩
          exact hc (List.append_eq_nil_iff.mpr ⟨h1, rfl⟩)
        rw [if_neg hno]
    | some l =>
      dsimp only
      have hpos := ids_length_pos ht
      have hc : listText newline p [] ≠ [] := List.append_ne_nil_of_left_ne_nil (text_ne_nil ht) _
      obtain ⟨f, rfl, hstep⟩ := parseLoop_turn hc hroom hf
      rw [hstep, listText, turn_taken _ _ ht hr, if_neg (not_not_intro rfl)]
      cases newline with
      | true => rfl
      | false =>
        show parseLoop maxIds f (p.stay ++ []) _ = _
        rw [List.append_nil, parseLoop_stay ht, if_neg nofun]
        rw [List.length_append, List.length_take]
        omega
  | cons q ps ih =>
    rw [outcome]
    by_cases hroom : maxIds ≤ ids.length
    · rw [parseLoop_full hroom, if_pos hroom]
    rw [if_neg hroom]
    have hc : listText newline p (q :: ps) ≠ [] :=
      List.append_ne_nil_of_right_ne_nil _ (List.cons_ne_nil _ _)
    obtain ⟨f, rfl, hstep⟩ := parseLoop_turn hc hroom hf
    rw [hstep, listText]
    cases ht : p.taken with
    | none =>
      rw [turn_refused ht (.comma _)]
      exact (congrArg some (if_neg fun h => absurd h.2.1 (List.cons_ne_nil _ _))).symm
    | some l =>
      have hpos := ids_length_pos ht
      rw [turn_taken _ _ ht (.comma _)]
      dsimp only [closeTaken]
      rw [if_pos (List.cons_ne_nil _ _)]
      refine ih ?_
      rw [List.length_append, List.length_take]
      omega

theorem idsOf_cons (h : p.ids = some l) : idsOf (p :: ps) = l ++ idsOf ps := by
  unfold idsOf
  rw [List.flatMap_cons, h]
  rfl

theorem outcome_full (h : maxIds ≤ ids.length) :
    outcome maxIds newline ps ids = ⟨ids.length, ids⟩ := by
  cases ps with
  | nil => rfl
  | cons p ps => exact if_pos h

theorem outcome_taken (h : p.taken = some l) (hroom : ¬maxIds ≤ ids.length) (hps : ps ≠ []) :
    outcome maxIds newline (p :: ps) ids =
      outcome maxIds newline ps (ids ++ l.take (maxIds - ids.length).toNat) := by
  rw [outcome, if_neg hroom, h]
  exact if_pos hps

theorem outcome_last (h : p.taken = some l) (hroom : ¬maxIds ≤ ids.length) :
    outcome maxIds newline [p] ids =
      if newline = true then ⟨-1, ids ++ l.take (maxIds - ids.length).toNat⟩
      else filled maxIds p.last (ids ++ l.take (maxIds - ids.length).toNat) := by
  rw [outcome, if_neg hroom, h]
  exact if_neg (not_not_intro rfl)

theorem take_append_toNat {l l' : List Int} (hroom : ¬maxIds ≤ ids.length) :
    ids ++ (l ++ l').take (maxIds - ids.length).toNat =
      ids ++ l.take (maxIds - ids.length).toNat ++
        l'.take (maxIds - (ids ++ l.take (maxIds - ids.length).toNat).length).toNat := by
  rw [List.take_append, List.append_assoc, List.length_append, List.length_take]
  congr 3
  omega

/-- The ids of a well formed list are written as documented when the output is full before the
string ends, and only then. -/
theorem outcome_good (hps : ps ≠ []) (hg : ∀ p ∈ ps, p.Good) :
    outcome maxIds newline ps ids =
        ⟨(ids ++ (idsOf ps).take (maxIds - ids.length).toNat).length,
          ids ++ (idsOf ps).take (maxIds - ids.length).toNat⟩ ↔
      maxIds ≤ ids.length + (idsOf ps.dropLast).length ∨
        newline = false ∧ maxIds ≤ ids.length + (idsOf ps).length := by
  induction ps generalizing ids with
  | nil => exact absurd rfl hps
  | cons p ps ih =>
    by_cases hroom : maxIds ≤ ids.length
    · rw [outcome_full hroom, show (maxIds - ids.length).toNat = 0 by omega, List.take_zero,
        List.append_nil]
      exact iff_of_true rfl (.inl (by omega))
    obtain ⟨l, hl⟩ := Option.isSome_iff_exists.mp (hg p List.mem_cons_self)
    have ht := taken_of_ids hl
    rw [idsOf_cons hl]
    cases ps with
    | nil =>
      rw [outcome_last ht hroom, show idsOf [] = [] from rfl, List.append_nil,
        List.dropLast_singleton]
      show _ ↔ maxIds ≤ ids.length + 0 ∨ _
      rw [Int.add_zero, or_iff_right hroom]
      cases newline with
      | true =>
        exact iff_of_false
          (fun h => absurd (congrArg Parsed.ret h) (by simp only [reduceIte]; omega)) nofun
      | false =>
        rw [if_neg nofun, filled]
        have hfit : maxIds ≤ ids.length + l.length ↔
            (maxIds - (ids ++ l.take (maxIds - ids.length).toNat).length).toNat = 0 := by
          rw [List.length_append, List.length_take]
          omega
        rw [and_iff_right rfl, hfit]
        constructor
        · intro h
          simpa using congrArg Parsed.ids h
        · intro h
          rw [h, List.replicate_zero, List.append_nil]
    | cons q ps =>
      have ih' := @ih (ids ++ l.take (maxIds - ids.length).toNat) (List.cons_ne_nil _ _)
        fun p hp => hg p (List.mem_cons_of_mem _ hp)
      rw [outcome_taken ht hroom (List.cons_ne_nil _ _), take_append_toNat hroom, ih',
        List.dropLast_cons_of_ne_nil
        (List.cons_ne_nil _ _), idsOf_cons hl]
      have hlen :
        ((ids ++ l.take (maxIds - ids.length).toNat).length : Int) =
          min maxIds (ids.length + l.length) := by
        rw [List.length_append, List.length_take]
        omega
      rw [hlen, List.length_append, List.length_append]
      cases newline <;> simp only [reduceCtorEq, true_and, false_and, or_false] <;> omega

theorem outcome_pre (hg : ∀ q ∈ pre, q.Good) (hps : ps ≠ [])
    (hlt : ids.length + (idsOf pre).length < maxIds) :
    outcome maxIds newline (pre ++ ps) ids = outcome maxIds newline ps (ids ++ idsOf pre) := by
  induction pre generalizing ids with
  | nil => exact congrArg _ (List.append_nil ids).symm
  | cons q pre ih =>
    obtain ⟨l, hl⟩ := Option.isSome_iff_exists.mp (hg q List.mem_cons_self)
    rw [idsOf_cons hl, List.length_append] at hlt
    rw [List.cons_append,
      outcome_taken (taken_of_ids hl) (by omega) (List.append_ne_nil_of_right_ne_nil _ hps),
      List.take_of_length_le (by omega), ih (fun p hp => hg p (List.mem_cons_of_mem _ hp)),
      idsOf_cons hl, List.append_assoc]
    rw [List.length_append]
    omega

theorem outcome_rejects : (outcome maxIds newline ps ids).ret = -1 ↔
    Rejects newline (maxIds - ids.length).toNat ps := by
  have hlen : ∀ l : List Int, (l.length : Int) ≠ -1 := fun l => by omega
  induction ps generalizing ids with
  | nil => exact iff_of_false (hlen ids) id
  | cons p ps ih =>
    unfold Rejects
    by_cases hroom : maxIds ≤ ids.length
    · rw [outcome_full hroom]
      exact iff_of_false (hlen ids) fun h => absurd h.1 (by omega)
    rw [and_iff_right (by omega)]
    cases ht : p.taken with
    | none =>
      rw [outcome, if_neg hroom, ht]
      dsimp only
      split
      · rename_i h
        refine iff_of_false (hlen ids) ?_
        rw [h.1, h.2.1, h.2.2]
        simp
      · rename_i h
        refine iff_of_true rfl ?_
        rw [not_and_or, not_and_or, Bool.not_eq_false] at h
        exact h
    | some l =>
      dsimp only
      by_cases hps : ps = []
      · subst hps
        rw [outcome_last ht hroom, if_pos rfl]
        cases newline
        · exact iff_of_false (hlen _) nofun
        · exact iff_of_true rfl rfl
      · have hrest : (maxIds - (ids ++ l.take (maxIds - ids.length).toNat).length).toNat =
            (maxIds - ids.length).toNat - l.length := by
          rw [List.length_append, List.length_take]
          omega
        rw [outcome_taken ht hroom hps, if_neg hps, ← hrest]
        exact ih

end Loop

/-! ## Results -/

section Results
variable {maxIds : Int} {cursor cursor' tail : List Char} {ids ids' : List Int} {first last : Int}

theorem closeItem_writes (hroom : ¬maxIds ≤ ids.length)
    (h : closeItem maxIds first last tail cursor ids = .next cursor' ids') :
    ids.length < ids'.length := by
  obtain ⟨room, hr⟩ : ∃ room, (maxIds - ids.length).toNat = room + 1 :=
    ⟨(maxIds - ids.length).toNat - 1, by omega⟩
  unfold closeItem at h
  split at h
  · cases h
  · rename_i hle
    rw [hr, expand, if_pos (by omega)] at h
    dsimp only at h
    split at h <;> cases h <;> simp

theorem turn_writes (hroom : ¬maxIds ≤ ids.length)
    (h : turn maxIds cursor ids = .next cursor' ids') : ids.length < ids'.length := by
  unfold turn at h
  dsimp only at h
  split at h
  · cases h
  · split at h
    · split at h
      · cases h
      · exact closeItem_writes hroom h
    · exact closeItem_writes hroom h

theorem parseLoop_returns {fuel : Nat} (hf : (maxIds - ids.length).toNat ≤ fuel) :
    ∃ r, parseLoop maxIds fuel cursor ids = some r := by
  induction fuel generalizing cursor ids with
  | zero => exact ⟨_, parseLoop_full (by omega) cursor⟩
  | succ fuel ih =>
    by_cases hroom : maxIds ≤ ids.length
    · exact ⟨_, parseLoop_full hroom cursor⟩
    by_cases hc : cursor = []
    · unfold parseLoop
      exact ⟨_, if_pos (.inl hc)⟩
    obtain ⟨f, hf', hstep⟩ := parseLoop_turn hc hroom hf
    obtain rfl := Nat.succ.inj hf'
    rw [hstep]
    cases ht : turn maxIds cursor ids with
    | done r => exact ⟨r, rfl⟩
    | next cursor' ids' =>
      have := turn_writes hroom ht
      exact ih (by omega)

/-- **The loop ends** on every string: each turn writes an id or returns. -/
theorem parse_returns (list : List Char) (maxIds : Int) :
    ∃ r, cmemParseIdlist list maxIds = some r :=
  parseLoop_returns (by rw [List.length_nil]; omega)

end Results

/-- **Id lists.** The result is as documented when the output is full before the string ends and
the malformed pieces are rejected, and only then. -/
theorem parse_idlist_iff (p : Piece) (ps : List Piece) (newline : Bool) (maxIds : Int) :
    Documented (p :: ps) maxIds (cmemParseIdlist (listText newline p ps) maxIds) ↔
      Handled newline (p :: ps) maxIds := by
  have hres :
    cmemParseIdlist (listText newline p ps) maxIds = some (outcome maxIds newline (p :: ps) []) :=
    parseLoop_eq (by rw [List.length_nil]; omega)
  have hgood := @outcome_good maxIds newline (p :: ps) [] (List.cons_ne_nil p ps)
  simp only [List.length_nil, List.nil_append, Int.natCast_zero, Int.sub_zero, Int.zero_add]
    at hgood
  have hbad : ∀ pre q post, p :: ps = pre ++ q :: post → (∀ q ∈ pre, q.Good) →
      (idsOf pre).length < maxIds →
      ((∃ ids, some (outcome maxIds newline (p :: ps) []) = some ⟨-1, ids⟩) ↔
        Rejects newline (maxIds - (idsOf pre).length).toNat (q :: post)) := by
    intro pre q post heq hpre hlt
    rw [heq, outcome_pre hpre (List.cons_ne_nil _ _) (by rw [List.length_nil]; omega),
      List.nil_append, ← outcome_rejects]
    constructor
    · rintro ⟨ids, h⟩
      rw [Option.some.inj h]
    · intro h
      exact ⟨_, congrArg some (congrArg₂ Parsed.mk h rfl)⟩
  rw [hres]
  constructor
  · rintro ⟨h1, h2⟩
    refine ⟨fun hg => (hgood hg).mp (Option.some.inj (h1 hg)), fun pre q post heq hpre hq hlt => ?_⟩
    exact (hbad pre q post heq hpre hlt).mp (h2 pre q post heq hpre hq hlt)
  · rintro ⟨h1, h2⟩
    refine ⟨fun hg => congrArg some ((hgood hg).mpr (h1 hg)), fun pre q post heq hpre hq hlt => ?_⟩
    exact (hbad pre q post heq hpre hlt).mpr (h2 pre q post heq hpre hq hlt)

/-- The list `0`. -/
def zero : Numeral := ⟨['0'], fun _ hc => List.mem_singleton.mp hc ▸ rfl, nofun, by decide⟩

/-- **Defect.** The last id is repeated until the output is full. -/
theorem last_id_repeated : cmemParseIdlist ['0'] 4 = some ⟨4, [0, 0, 0, 0]⟩ ∧
    ¬ ∀ p ps newline maxIds,
    Documented (p :: ps) maxIds (cmemParseIdlist (listText newline p ps) maxIds) := by
  have hres : cmemParseIdlist ['0'] 4 = some ⟨4, [0, 0, 0, 0]⟩ := by decide
  refine ⟨hres, fun h => ?_⟩
  have hdoc := (h (.single zero) [] false 4).good fun p hp => List.mem_singleton.mp hp ▸ rfl
  exact absurd (hres.symm.trans hdoc) (by decide)

end Cmem.L1.IdList
