/-
# Ids in the order of the calls

The time and the sequence number of a call are later than those of the call before (`tick_later`), and an id is ordered by
its time and then by its sequence number (`uuid_lt`), as long as the time has 48 bits. Where the sequence number overflows
at the last time, the time in the id starts again at zero. So the ids of a run increase exactly when this does not happen
(`uuids_increasing_iff`).
-/
import Trek.Harness.Uuid
import Trek.Lib.ListOrder
import Mathlib.Data.String.Basic

namespace Trek

/-- The ids of successive calls. -/
def uuids : UuidState → List UuidDraw → List String
  | _, [] => []
  | st, d :: draws => (uuidv7 st d).1 :: uuids (uuidv7 st d).2 draws

/-- No call starts at the last time and the last sequence number. -/
def TimeFits : UuidState → List UuidDraw → Prop
  | _, [] => True
  | st, d :: draws =>
    ¬(st.lastTimestamp = some (2 ^ 48 - 1) ∧ st.sequence = 2 ^ 32 - 1) ∧ TimeFits (uuidv7 st d).2 draws

/-- The bits of an id that say it is a UUID of version 7. -/
structure HasVersion7Bits (id : String) : Prop where
  version : id.toList[14]? = some '7'
  variant : ∃ c ∈ ['8', '9', 'a', 'b'], id.toList[19]? = some c

/-! ### The text of an id -/

theorem digitChar_lt : ∀ x < 16, ∀ y < 16, x < y → Nat.digitChar x < Nat.digitChar y := by decide

theorem hexByte_lt {x y : ℕ} (hx : x < 256) (hy : y < 256) (h : x < y) : hexByte x < hexByte y := by
  unfold hexByte
  rw [List.cons_lt_cons_iff, List.cons_lt_cons_iff]
  rcases Nat.lt_or_ge (x / 16) (y / 16) with hdiv | hdiv
  · exact .inl (digitChar_lt _ (by omega) _ (by omega) hdiv)
  · have hsame : x / 16 = y / 16 := by omega
    exact .inr ⟨by rw [hsame], .inl (digitChar_lt _ (by omega) _ (by omega) (by omega))⟩

/-- Bytes in groups of some sizes, with a dash after each. -/
def dashed : List ℕ → List ℕ → List Char
  | [], bytes => bytes.flatMap hexByte
  | n :: sizes, bytes => (bytes.take n).flatMap hexByte ++ '-' :: dashed sizes (bytes.drop n)

theorem formatUuid_toList (bytes : List ℕ) : (formatUuid bytes).toList = dashed [4, 2, 2, 2] bytes := by
  simp [formatUuid, dashed, List.flatMap, List.map_take, List.map_drop, List.drop_drop]

theorem flatMap_hexByte_lt {a b : List ℕ} (ha : ∀ x ∈ a, x < 256) (hb : ∀ y ∈ b, y < 256) (hlen : a.length = b.length)
    (h : a < b) : a.flatMap hexByte < b.flatMap hexByte :=
  flatMap_lt_flatMap (fun _ _ => rfl) (fun _ _ hx hy => hexByte_lt hx hy) ha hb hlen h

theorem flatMap_hexByte_length (a : List ℕ) : (a.flatMap hexByte).length = 2 * a.length := by
  induction a with
  | nil => rfl
  | cons x a ih =>
    rw [List.flatMap_cons, List.length_append, ih, List.length_cons]
    simp only [hexByte, List.length_cons, List.length_nil]
    omega

theorem dashed_lt : ∀ (sizes : List ℕ) {a b : List ℕ}, (∀ x ∈ a, x < 256) → (∀ y ∈ b, y < 256) → a.length = b.length →
    a < b → dashed sizes a < dashed sizes b
  | [], _, _, ha, hb, hlen, h => flatMap_hexByte_lt ha hb hlen h
  | n :: sizes, a, b, ha, hb, hlen, h => by
    have htake : (a.take n).length = (b.take n).length := by simp [hlen]
    unfold dashed
    rcases take_lt_or_drop_lt n hlen h with hfirst | ⟨hsame, hrest⟩
    · apply append_lt_append
      · rw [flatMap_hexByte_length, flatMap_hexByte_length, htake]
      · exact flatMap_hexByte_lt (fun x hx => ha x (List.mem_of_mem_take hx)) (fun y hy => hb y (List.mem_of_mem_take hy))
          htake hfirst
    · rw [hsame]
      apply List.append_left_lt
      rw [List.cons_lt_cons_iff]
      exact .inr ⟨rfl, dashed_lt sizes (fun x hx => ha x (List.mem_of_mem_drop hx))
        (fun y hy => hb y (List.mem_of_mem_drop hy)) (by simp [hlen]) hrest⟩

/-! ### The bytes of an id -/

theorem or_low (n a b : ℕ) (h : b < 2 ^ n) : (2 ^ n * a) ||| b = 2 ^ n * a + b := (Nat.two_pow_add_eq_or_of_lt h a).symm

/-- The bytes, by arithmetic. -/
theorem uuidBytes_eq (t s : ℕ) (random : Fin 16 → Fin 256) : uuidBytes t s random =
    [t / 2 ^ 40 % 256, t / 2 ^ 32 % 256, t / 2 ^ 24 % 256, t / 2 ^ 16 % 256, t / 2 ^ 8 % 256, t % 256,
      112 + s / 2 ^ 28 % 16, s / 2 ^ 20 % 256, 128 + s / 2 ^ 14 % 64, s / 2 ^ 6 % 256, 4 * (s % 64) + (random 10).val % 4,
      random 11, random 12, random 13, random 14, random 15] := by
  have h16 : ∀ n, n &&& 0x0f = n % 16 := fun n => Nat.and_two_pow_sub_one_eq_mod n 4
  have h256 : ∀ n, n &&& 0xff = n % 256 := fun n => Nat.and_two_pow_sub_one_eq_mod n 8
  have h64 : ∀ n, n &&& 0x3f = n % 64 := fun n => Nat.and_two_pow_sub_one_eq_mod n 6
  have h4 : ∀ n, n &&& 0x03 = n % 4 := fun n => Nat.and_two_pow_sub_one_eq_mod n 2
  have hversion : ∀ n, 0x70 ||| (n % 16) = 112 + n % 16 := fun n => or_low 4 7 _ (Nat.mod_lt _ (by decide))
  have hvariant : ∀ n, 0x80 ||| (n % 64) = 128 + n % 64 := fun n => or_low 6 2 _ (Nat.mod_lt _ (by decide))
  have hlow : ∀ a n, (a <<< 2) ||| (n % 4) = 4 * a + n % 4 := fun a n => by
    rw [Nat.shiftLeft_eq, Nat.mul_comm]
    exact or_low 2 a _ (Nat.mod_lt _ (by decide))
  simp only [uuidBytes, h16, h256, h64, h4, hversion, hvariant, hlow, Nat.shiftRight_eq_div_pow]
  rfl

theorem uuidBytes_length (t s : ℕ) (random : Fin 16 → Fin 256) : (uuidBytes t s random).length = 16 := rfl

theorem uuidBytes_lt_256 {t s : ℕ} {random : Fin 16 → Fin 256} {x : ℕ} (h : x ∈ uuidBytes t s random) : x < 256 := by
  rw [uuidBytes_eq] at h
  simp only [List.mem_cons, List.not_mem_nil, or_false] at h
  rcases h with h | h | h | h | h | h | h | h | h | h | h | h | h | h | h | h
  all_goals
    rw [h]
    omega

/-- An earlier time, or the same time and a smaller sequence number. -/
def Earlier (t s t' s' : ℕ) : Prop := t < t' ∨ (t = t' ∧ s < s')

/-- The digits of a number below a power of two: the first one, and those of what it leaves. -/
theorem digit_eq (t k n : ℕ) : t / 2 ^ k % 2 ^ n = t % 2 ^ (k + n) / 2 ^ k := by
  rw [Nat.pow_add, Nat.mod_mul_right_div_self]

theorem mod_pow_mod_pow (k m : ℕ) (h : m ≤ k) (n : ℕ) : n % 2 ^ k % 2 ^ m = n % 2 ^ m :=
  Nat.mod_mod_of_dvd n (Nat.pow_dvd_pow 2 h)

theorem timeBytes_lt {t t' : ℕ} (ht' : t' < 2 ^ 48) (h : t < t') :
    [t / 2 ^ 40 % 256, t / 2 ^ 32 % 256, t / 2 ^ 24 % 256, t / 2 ^ 16 % 256, t / 2 ^ 8 % 256, t % 256] <
      [t' / 2 ^ 40 % 256, t' / 2 ^ 32 % 256, t' / 2 ^ 24 % 256, t' / 2 ^ 16 % 256, t' / 2 ^ 8 % 256, t' % 256] := by
  have hbyte : ∀ k n, n / 2 ^ k % 256 = n % 2 ^ (k + 8) / 2 ^ k := fun k n => digit_eq n k 8
  have hlast : ∀ n, n % 256 = n % 2 ^ 8 := fun _ => rfl
  rw [hbyte 40, hbyte 32, hbyte 24, hbyte 16, hbyte 8, hlast, hbyte 40, hbyte 32, hbyte 24, hbyte 16, hbyte 8, hlast,
    Nat.mod_eq_of_lt (Nat.lt_trans h ht'), Nat.mod_eq_of_lt ht']
  refine cons_lt_cons_of_div (m := 2 ^ 40) h id id fun h => ?_
  refine cons_lt_cons_of_div (m := 2 ^ 32) h id id fun h => ?_
  rw [mod_pow_mod_pow 40 32 (by decide), mod_pow_mod_pow 40 32 (by decide)] at h
  refine cons_lt_cons_of_div (m := 2 ^ 24) h id id fun h => ?_
  rw [mod_pow_mod_pow 32 24 (by decide), mod_pow_mod_pow 32 24 (by decide)] at h
  refine cons_lt_cons_of_div (m := 2 ^ 16) h id id fun h => ?_
  rw [mod_pow_mod_pow 24 16 (by decide), mod_pow_mod_pow 24 16 (by decide)] at h
  refine cons_lt_cons_of_div (m := 2 ^ 8) h id id fun h => ?_
  rw [mod_pow_mod_pow 16 8 (by decide), mod_pow_mod_pow 16 8 (by decide)] at h
  exact List.cons_lt_cons_iff.mpr (.inl h)

theorem sequenceBytes_lt {s s' : ℕ} (hs' : s' < 2 ^ 32) (h : s < s') (r r' : ℕ) (rest rest' : List ℕ) :
    (112 + s / 2 ^ 28 % 16) :: (s / 2 ^ 20 % 256) :: (128 + s / 2 ^ 14 % 64) :: (s / 2 ^ 6 % 256) ::
        (4 * (s % 64) + r % 4) :: rest <
      (112 + s' / 2 ^ 28 % 16) :: (s' / 2 ^ 20 % 256) :: (128 + s' / 2 ^ 14 % 64) :: (s' / 2 ^ 6 % 256) ::
        (4 * (s' % 64) + r' % 4) :: rest' := by
  have h28 : ∀ n, n / 2 ^ 28 % 16 = n % 2 ^ 32 / 2 ^ 28 := fun n => digit_eq n 28 4
  have h20 : ∀ n, n / 2 ^ 20 % 256 = n % 2 ^ 28 / 2 ^ 20 := fun n => digit_eq n 20 8
  have h14 : ∀ n, n / 2 ^ 14 % 64 = n % 2 ^ 20 / 2 ^ 14 := fun n => digit_eq n 14 6
  have h6 : ∀ n, n / 2 ^ 6 % 256 = n % 2 ^ 14 / 2 ^ 6 := fun n => digit_eq n 6 8
  rw [h28, h20, h14, h6, h28, h20, h14, h6, Nat.mod_eq_of_lt (Nat.lt_trans h hs'), Nat.mod_eq_of_lt hs']
  refine cons_lt_cons_of_div (m := 2 ^ 28) h (Nat.add_lt_add_left · 112) (congrArg (112 + ·)) fun h => ?_
  refine cons_lt_cons_of_div (m := 2 ^ 20) h id id fun h => ?_
  rw [mod_pow_mod_pow 28 20 (by decide), mod_pow_mod_pow 28 20 (by decide)] at h
  refine cons_lt_cons_of_div (m := 2 ^ 14) h (Nat.add_lt_add_left · 128) (congrArg (128 + ·)) fun h => ?_
  rw [mod_pow_mod_pow 20 14 (by decide), mod_pow_mod_pow 20 14 (by decide)] at h
  refine cons_lt_cons_of_div (m := 2 ^ 6) h id id fun h => ?_
  rw [mod_pow_mod_pow 14 6 (by decide), mod_pow_mod_pow 14 6 (by decide)] at h
  -- the last bits are random
  have hlast : 4 * (s % 64) + r % 4 < 4 * (s' % 64) + r' % 4 := by
    have h64 : s % 64 < s' % 64 := h
    omega
  exact List.cons_lt_cons_iff.mpr (.inl hlast)

/-- Ids are ordered by their times, and then by their sequence numbers. -/
theorem uuid_lt {t s t' s' : ℕ} (ht' : t' < 2 ^ 48) (hs' : s' < 2 ^ 32) (h : Earlier t s t' s')
    (random random' : Fin 16 → Fin 256) :
    formatUuid (uuidBytes t s random) < formatUuid (uuidBytes t' s' random') := by
  rw [String.lt_iff_toList_lt, formatUuid_toList, formatUuid_toList]
  apply dashed_lt _ (fun _ hx => uuidBytes_lt_256 hx) (fun _ hx => uuidBytes_lt_256 hx)
  · rw [uuidBytes_length, uuidBytes_length]
  · rw [uuidBytes_eq, uuidBytes_eq]
    rcases h with ht | ⟨rfl, hs⟩
    · have hlt := timeBytes_lt ht' ht
      exact append_lt_append (by rfl) hlt _ _
    · exact @List.append_left_lt _ _ [_, _, _, _, _, _] _ _ (sequenceBytes_lt hs' hs _ _ _ _)

theorem hasVersion7Bits (t s : ℕ) (random : Fin 16 → Fin 256) : HasVersion7Bits (formatUuid (uuidBytes t s random)) where
  version := by
    have hdigit : Nat.digitChar ((112 + s / 2 ^ 28 % 16) / 16) = '7' := by
      have : (112 + s / 2 ^ 28 % 16) / 16 = 7 := by omega
      rw [this]
      rfl
    rw [formatUuid_toList, uuidBytes_eq]
    simpa [dashed, hexByte] using hdigit
  variant := by
    have hdigit : ∀ n < 4, Nat.digitChar (8 + n) ∈ ['8', '9', 'a', 'b'] := by decide
    have hhigh : (128 + s / 2 ^ 14 % 64) / 16 = 8 + s / 2 ^ 14 % 64 / 16 := by omega
    refine ⟨_, hdigit (s / 2 ^ 14 % 64 / 16) (by omega), ?_⟩
    rw [formatUuid_toList, uuidBytes_eq, ← hhigh]
    simp [dashed, hexByte]

/-! ### A run -/

/-- What a state of a run keeps: the time has 48 bits, and the sequence number 32. -/
structure UuidState.InRange (st : UuidState) (t : ℕ) : Prop where
  time : st.lastTimestamp = some t
  time_lt : t < 2 ^ 48
  sequence_lt : st.sequence < 2 ^ 32

theorem fresh_lt (d : UuidDraw) : UuidState.tick.fresh d < 2 ^ 32 := by
  have h6 := (d.random 6).isLt
  have h7 := (d.random 7).isLt
  have h8 := (d.random 8).isLt
  have h9 := (d.random 9).isLt
  unfold UuidState.tick.fresh
  omega

/-- A call has a later time or sequence number than the call before. -/
theorem tick_later {st : UuidState} {d : UuidDraw} {t : ℕ} (h : st.InRange t) (hd : d.timestamp < 2 ^ 48)
    (hfits : ¬(st.lastTimestamp = some (2 ^ 48 - 1) ∧ st.sequence = 2 ^ 32 - 1)) :
    Earlier t st.sequence (st.tick d).1 (st.tick d).2 ∧ (uuidv7 st d).2.InRange (st.tick d).1 := by
  have hs := h.sequence_lt
  have hstate : ∀ p, st.tick d = p → p.1 < 2 ^ 48 → p.2 < 2 ^ 32 → (uuidv7 st d).2.InRange p.1 := by
    rintro p rfl ht hs
    exact ⟨rfl, ht, hs⟩
  by_cases hlater : t < d.timestamp
  · have htick : st.tick d = (d.timestamp, UuidState.tick.fresh d) := by simp [UuidState.tick, h.time, hlater]
    rw [htick]
    exact ⟨.inl hlater, hstate _ htick hd (fresh_lt d)⟩
  · by_cases hover : st.sequence = 2 ^ 32 - 1
    · -- the sequence number starts again, a millisecond later
      have htick : st.tick d = (t + 1, 0) := by simp [UuidState.tick, h.time, hlater, hover]
      have ht : t ≠ 2 ^ 48 - 1 := fun ht => hfits ⟨ht ▸ h.time, hover⟩
      have htime := h.time_lt
      rw [htick]
      exact ⟨.inl (Nat.lt_succ_self t), hstate _ htick (by dsimp only; omega) (Nat.two_pow_pos 32)⟩
    · have hnext : (st.sequence + 1) % 0x100000000 = st.sequence + 1 := Nat.mod_eq_of_lt (by omega)
      have htick : st.tick d = (t, st.sequence + 1) := by simp [UuidState.tick, h.time, hlater, hnext]
      rw [htick]
      exact ⟨.inr ⟨rfl, Nat.lt_succ_self _⟩, hstate _ htick h.time_lt (by dsimp only; omega)⟩

/-- At the last time and the last sequence number the time overflows, and its bytes are zero. -/
theorem uuid_overflow {st : UuidState} {d : UuidDraw} (hd : d.timestamp < 2 ^ 48)
    (hover : st.lastTimestamp = some (2 ^ 48 - 1) ∧ st.sequence = 2 ^ 32 - 1) :
    (uuidv7 st d).1 = formatUuid (uuidBytes 0 0 d.random) := by
  have hlater : ¬(2 ^ 48 - 1 < d.timestamp) := by omega
  have htick : st.tick d = (2 ^ 48, 0) := by
    simp only [UuidState.tick, hover.1, if_neg hlater, hover.2]
    rfl
  unfold uuidv7
  rw [htick]
  rfl

theorem uuidv7_fst (st : UuidState) (d : UuidDraw) :
    (uuidv7 st d).1 = formatUuid (uuidBytes (st.tick d).1 (st.tick d).2 d.random) := rfl

theorem uuidv7_sequence (st : UuidState) (d : UuidDraw) : (uuidv7 st d).2.sequence = (st.tick d).2 := rfl

theorem uuids_hasVersion7Bits : ∀ (draws : List UuidDraw) (st : UuidState), ∀ id ∈ uuids st draws, HasVersion7Bits id
  | [], _, _, h => absurd h List.not_mem_nil
  | d :: draws, st, id, h => by
    rcases List.mem_cons.mp h with rfl | h
    · exact hasVersion7Bits _ _ _
    · exact uuids_hasVersion7Bits draws _ id h

/-- The ids of the calls that follow an id increase from it on, exactly if the time does not overflow. -/
theorem uuids_pairwise_iff : ∀ (draws : List UuidDraw) {st : UuidState} {t : ℕ} (random : Fin 16 → Fin 256),
    st.InRange t → (∀ d ∈ draws, d.timestamp < 2 ^ 48) →
    ((formatUuid (uuidBytes t st.sequence random) :: uuids st draws).Pairwise (· < ·) ↔ TimeFits st draws)
  | [], _, _, _, _, _ => by simp [uuids, TimeFits]
  | d :: draws, st, t, random, h, hdraws => by
    have hd := hdraws d List.mem_cons_self
    have hrest : ∀ d' ∈ draws, d'.timestamp < 2 ^ 48 := fun d' hd' => hdraws d' (List.mem_cons_of_mem _ hd')
    unfold uuids TimeFits
    by_cases hover : st.lastTimestamp = some (2 ^ 48 - 1) ∧ st.sequence = 2 ^ 32 - 1
    · -- the next id is smaller
      have ht : t = 2 ^ 48 - 1 := Option.some.inj (h.time.symm.trans hover.1)
      have hsmaller : (uuidv7 st d).1 < formatUuid (uuidBytes t st.sequence random) := by
        rw [uuid_overflow hd hover]
        exact uuid_lt h.time_lt h.sequence_lt (.inl (by omega)) _ _
      constructor
      · intro hpairwise
        have hlt := (List.pairwise_cons.mp hpairwise).1 _ List.mem_cons_self
        exact absurd hlt (lt_asymm hsmaller)
      · exact fun hfits => absurd hover hfits.1
    · obtain ⟨hearlier, hrange⟩ := tick_later h hd hover
      have hlt : formatUuid (uuidBytes t st.sequence random) < (uuidv7 st d).1 :=
        uuid_lt hrange.time_lt hrange.sequence_lt hearlier _ _
      have ih := uuids_pairwise_iff draws d.random hrange hrest
      rw [uuidv7_sequence, ← uuidv7_fst] at ih
      rw [← ih]
      constructor
      · exact fun hpairwise => ⟨hover, (List.pairwise_cons.mp hpairwise).2⟩
      · rintro ⟨-, hpairwise⟩
        refine List.pairwise_cons.mpr ⟨fun id hid => ?_, hpairwise⟩
        rcases List.mem_cons.mp hid with rfl | hid
        · exact hlt
        · exact hlt.trans ((List.pairwise_cons.mp hpairwise).1 id hid)

/-- The ids of a run increase and are different, exactly if no call starts at the last time and the last sequence number. -/
theorem uuids_increasing_iff (draws : List UuidDraw) (h : ∀ d ∈ draws, d.timestamp < 2 ^ 48) :
    ((uuids .initial draws).Pairwise (· < ·) ∧ (uuids .initial draws).Nodup ∧
      ∀ id ∈ uuids .initial draws, HasVersion7Bits id) ↔ TimeFits .initial draws := by
  have hpairwise : (uuids .initial draws).Pairwise (· < ·) ↔ TimeFits .initial draws := by
    cases draws with
    | nil => simp [uuids, TimeFits]
    | cons d draws =>
      have hrange : (uuidv7 .initial d).2.InRange d.timestamp := ⟨rfl, h d List.mem_cons_self, fresh_lt d⟩
      have hrest := uuids_pairwise_iff draws d.random hrange fun d' hd' => h d' (List.mem_cons_of_mem _ hd')
      exact ⟨fun hp => ⟨by simp [UuidState.initial], hrest.mp hp⟩, fun hfits => hrest.mpr hfits.2⟩
  rw [hpairwise]
  constructor
  · exact fun hall => hall.1
  · intro hfits
    have hincreasing := hpairwise.mpr hfits
    exact ⟨hfits, hincreasing.imp fun hlt => ne_of_lt hlt, uuids_hasVersion7Bits _ _⟩

/-- Three calls, the second with the clock set back. -/
theorem uuids_increasing_threeCalls :
    (∀ d ∈ [⟨0x123456780000, fun _ => 7⟩, ⟨0, fun _ => 0⟩, ⟨0x123456780001, fun _ => 0⟩], UuidDraw.timestamp d < 2 ^ 48) ∧
      (((uuids .initial [⟨0x123456780000, fun _ => 7⟩, ⟨0, fun _ => 0⟩, ⟨0x123456780001, fun _ => 0⟩]).Pairwise (· < ·) ∧
        (uuids .initial [⟨0x123456780000, fun _ => 7⟩, ⟨0, fun _ => 0⟩, ⟨0x123456780001, fun _ => 0⟩]).Nodup ∧
        ∀ id ∈ uuids .initial [⟨0x123456780000, fun _ => 7⟩, ⟨0, fun _ => 0⟩, ⟨0x123456780001, fun _ => 0⟩],
          HasVersion7Bits id) ↔
        TimeFits .initial [⟨0x123456780000, fun _ => 7⟩, ⟨0, fun _ => 0⟩, ⟨0x123456780001, fun _ => 0⟩]) :=
  have h : ∀ d ∈ [⟨0x123456780000, fun _ => 7⟩, ⟨0, fun _ => 0⟩, ⟨0x123456780001, fun _ => 0⟩],
      UuidDraw.timestamp d < 2 ^ 48 := by simp
  ⟨h, uuids_increasing_iff _ h⟩

/-- At the last millisecond of 48 bits, with the largest sequence number drawn, the second id is the smaller one. -/
theorem uuids_not_increasing : ¬∀ draws : List UuidDraw, (∀ d ∈ draws, d.timestamp < 2 ^ 48) →
    (uuids .initial draws).Pairwise (· < ·) := by
  intro h
  have hpairwise := h [⟨2 ^ 48 - 1, fun _ => 255⟩, ⟨2 ^ 48 - 1, fun _ => 255⟩] (by simp)
  have hlt := (List.pairwise_cons.mp hpairwise).1 _ List.mem_cons_self
  have hsmaller : formatUuid (uuidBytes 0 0 fun _ => 255) < formatUuid (uuidBytes (2 ^ 48 - 1) (2 ^ 32 - 1) fun _ => 255) :=
    uuid_lt (by decide) (by decide) (.inl (by decide)) _ _
  exact absurd hlt (lt_asymm hsmaller)

end Trek
