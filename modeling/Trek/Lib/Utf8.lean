/-
# UTF-8

The bytes of a text, and the decoder of the Encoding Standard as a machine that takes
one byte at a time: what it does to a stream does not depend on how the stream is cut
(`decodeBytes_append`), and it reads back what was encoded (`decodeBytes_utf8`). Bytes
are natural numbers. A slice of the bytes that starts after the continuation bytes
it would begin with is the encoding of the end of the text (`drop_alignedStart`).
-/
import Mathlib.Algebra.GroupWithZero.Nat
import Mathlib.Data.List.Basic
import Mathlib.Data.Nat.Bitwise

namespace Trek

/-! ### Encoding -/

/-- The bytes of a character. -/
def utf8Char (c : Char) : List ℕ :=
  let n := c.toNat
  if n < 0x80 then [n]
  else if n < 0x800 then [0xC0 + n / 64, 0x80 + n % 64]
  else if n < 0x10000 then [0xE0 + n / 4096, 0x80 + n / 64 % 64, 0x80 + n % 64]
  else [0xF0 + n / 262144, 0x80 + n / 4096 % 64, 0x80 + n / 64 % 64, 0x80 + n % 64]

/-- `Buffer.from(text, "utf-8")`. -/
def utf8 (text : List Char) : List ℕ := text.flatMap utf8Char

/-- `Buffer.byteLength(text, "utf-8")`. -/
def byteLength (text : List Char) : ℕ := (utf8 text).length

/-! ### Decoding -/

/-- The replacement character. -/
def replacement : Char := Char.ofNat 0xFFFD

/-- The variables of the decoder. -/
structure Utf8Decoder where
  codePoint : ℕ
  bytesSeen : ℕ
  bytesNeeded : ℕ
  lowerBoundary : ℕ
  upperBoundary : ℕ
  deriving DecidableEq

namespace Utf8Decoder

/-- Between two characters. -/
def reset : Utf8Decoder := ⟨0, 0, 0, 0x80, 0xBF⟩

/-- The first byte of a character. -/
def first (byte : ℕ) : Utf8Decoder × List Char :=
  if byte ≤ 0x7F then (reset, [Char.ofNat byte])
  else if 0xC2 ≤ byte ∧ byte ≤ 0xDF then (⟨byte % 32, 0, 1, 0x80, 0xBF⟩, [])
  else if 0xE0 ≤ byte ∧ byte ≤ 0xEF then
    (⟨byte % 16, 0, 2, if byte = 0xE0 then 0xA0 else 0x80, if byte = 0xED then 0x9F else 0xBF⟩, [])
  else if 0xF0 ≤ byte ∧ byte ≤ 0xF4 then
    (⟨byte % 8, 0, 3, if byte = 0xF0 then 0x90 else 0x80, if byte = 0xF4 then 0x8F else 0xBF⟩, [])
  else (reset, [replacement])

/-- One byte. A byte that cannot go on with the character is read again as a first byte. -/
def step (d : Utf8Decoder) (byte : ℕ) : Utf8Decoder × List Char :=
  if d.bytesNeeded = 0 then first byte
  else if byte < d.lowerBoundary ∨ d.upperBoundary < byte then
    let (d, text) := first byte
    (d, replacement :: text)
  else
    let codePoint := d.codePoint * 64 + byte % 64
    if d.bytesSeen + 1 = d.bytesNeeded then (reset, [Char.ofNat codePoint])
    else (⟨codePoint, d.bytesSeen + 1, d.bytesNeeded, 0x80, 0xBF⟩, [])

/-- One byte after the other. -/
def decodeBytes (d : Utf8Decoder) : List ℕ → Utf8Decoder × List Char
  | [] => (d, [])
  | byte :: bytes =>
    let (d, text) := d.step byte
    let (d, more) := d.decodeBytes bytes
    (d, text ++ more)

/-- The end of the stream: a character that is not complete is replaced. -/
def flush (d : Utf8Decoder) : List Char := if d.bytesNeeded = 0 then [] else [replacement]

theorem decodeBytes_append (d : Utf8Decoder) : ∀ (a b : List ℕ), d.decodeBytes (a ++ b) =
    (((d.decodeBytes a).1.decodeBytes b).1, (d.decodeBytes a).2 ++ ((d.decodeBytes a).1.decodeBytes b).2)
  | [], _ => rfl
  | byte :: a, b => by
    have ih := decodeBytes_append (d.step byte).1 a b
    simp only [List.cons_append, decodeBytes, ih, List.append_assoc]

/-- A byte that a character goes on with. -/
theorem decodeBytes_more {d d' : Utf8Decoder} {byte : ℕ} (bytes : List ℕ) (h : d.step byte = (d', [])) :
    d.decodeBytes (byte :: bytes) = d'.decodeBytes bytes := by
  simp only [decodeBytes, h, List.nil_append]

/-- The last byte of a character. -/
theorem decodeBytes_last {d : Utf8Decoder} {byte : ℕ} {c : Char} (h : d.step byte = (reset, [c])) :
    d.decodeBytes [byte] = (reset, [c]) := by
  simp only [decodeBytes, h, List.append_nil]

/-- A continuation byte inside its boundaries. -/
theorem step_continue {cp seen need lower upper byte : ℕ} (hneed : seen < need) (hlow : lower ≤ byte) (hup : byte ≤ upper) :
    (⟨cp, seen, need, lower, upper⟩ : Utf8Decoder).step byte =
      if seen + 1 = need then (reset, [Char.ofNat (cp * 64 + byte % 64)])
      else (⟨cp * 64 + byte % 64, seen + 1, need, 0x80, 0xBF⟩, []) := by
  unfold step
  rw [if_neg (show ¬need = 0 by omega), if_neg (show ¬(byte < lower ∨ upper < byte) by omega)]

/-- A scalar value is below the surrogates or above them. -/
theorem toNat_valid (c : Char) : c.toNat < 0xD800 ∨ 0xDFFF < c.toNat ∧ c.toNat < 0x110000 := c.valid

/-- The bytes of a character are read as the character. -/
theorem decodeBytes_utf8Char (c : Char) : reset.decodeBytes (utf8Char c) = (reset, [c]) := by
  have hc : Char.ofNat c.toNat = c := Char.ofNat_toNat c
  have hv := toNat_valid c
  unfold utf8Char
  generalize c.toNat = n at hc hv
  simp only
  split_ifs with h1 h2 h3
  · refine decodeBytes_last ?_
    show first n = _
    rw [first, if_pos (by omega), hc]
  · have hstep : reset.step (0xC0 + n / 64) = (⟨n / 64, 0, 1, 0x80, 0xBF⟩, []) := by
      show first _ = _
      unfold first
      rw [if_neg (by omega), if_pos (by omega), show (0xC0 + n / 64) % 32 = n / 64 by omega]
    rw [decodeBytes_more _ hstep]
    refine decodeBytes_last ?_
    rw [step_continue (by omega) (by omega) (by omega), if_pos rfl, show n / 64 * 64 + (0x80 + n % 64) % 64 = n by omega, hc]
  · have hstep : reset.step (0xE0 + n / 4096) = (⟨n / 4096, 0, 2, if 0xE0 + n / 4096 = 0xE0 then 0xA0 else 0x80,
        if 0xE0 + n / 4096 = 0xED then 0x9F else 0xBF⟩, []) := by
      show first _ = _
      unfold first
      rw [if_neg (by omega), if_neg (by omega), if_pos (by omega), show (0xE0 + n / 4096) % 16 = n / 4096 by omega]
    rw [decodeBytes_more _ hstep, decodeBytes_more _ ((step_continue (by omega) (by split_ifs <;> omega)
      (by split_ifs <;> omega)).trans (if_neg (by omega)))]
    refine decodeBytes_last ?_
    rw [step_continue (by omega) (by omega) (by omega), if_pos rfl,
      show (n / 4096 * 64 + (0x80 + n / 64 % 64) % 64) * 64 + (0x80 + n % 64) % 64 = n by omega, hc]
  · have hstep : reset.step (0xF0 + n / 262144) = (⟨n / 262144, 0, 3, if 0xF0 + n / 262144 = 0xF0 then 0x90 else 0x80,
        if 0xF0 + n / 262144 = 0xF4 then 0x8F else 0xBF⟩, []) := by
      show first _ = _
      unfold first
      rw [if_neg (by omega), if_neg (by omega), if_neg (by omega), if_pos (by omega),
        show (0xF0 + n / 262144) % 8 = n / 262144 by omega]
    rw [decodeBytes_more _ hstep, decodeBytes_more _ ((step_continue (by omega) (by split_ifs <;> omega)
      (by split_ifs <;> omega)).trans (if_neg (by omega))),
      decodeBytes_more _ ((step_continue (by omega) (by omega) (by omega)).trans (if_neg (by omega)))]
    refine decodeBytes_last ?_
    rw [step_continue (by omega) (by omega) (by omega), if_pos rfl,
      show ((n / 262144 * 64 + (0x80 + n / 4096 % 64) % 64) * 64 + (0x80 + n / 64 % 64) % 64) * 64 +
        (0x80 + n % 64) % 64 = n by omega, hc]

/-- **What was encoded is read back.** -/
theorem decodeBytes_utf8 : ∀ text : List Char, reset.decodeBytes (utf8 text) = (reset, text)
  | [] => rfl
  | c :: text => by
    show reset.decodeBytes (utf8Char c ++ utf8 text) = _
    rw [decodeBytes_append, decodeBytes_utf8Char]
    simp only [decodeBytes_utf8 text, List.singleton_append]

end Utf8Decoder

/-- `buffer.toString("utf-8")`. -/
def bufferToString (bytes : List ℕ) : List Char :=
  let (d, text) := Utf8Decoder.reset.decodeBytes bytes
  text ++ d.flush

theorem bufferToString_utf8 (text : List Char) : bufferToString (utf8 text) = text := by
  unfold bufferToString
  rw [Utf8Decoder.decodeBytes_utf8]
  simp [Utf8Decoder.flush, Utf8Decoder.reset]

/-! ### Streams -/

/-- `TextDecoder`. A byte order mark at the start of the stream is dropped. -/
structure TextDecoder where
  decoder : Utf8Decoder
  bomSeen : Bool

namespace TextDecoder

/-- `new TextDecoder()`. -/
def new : TextDecoder := ⟨.reset, false⟩

/-- The text without a mark at the start of the stream, and whether the start is over. -/
def serialize (bomSeen : Bool) (text : List Char) : Bool × List Char :=
  if bomSeen then (true, text)
  else
    match text with
    | [] => (false, [])
    | c :: rest => (true, if c = Char.ofNat 0xFEFF then rest else c :: rest)

/-- `decode(data, { stream: true })`. -/
def stream (d : TextDecoder) (data : List ℕ) : TextDecoder × List Char :=
  let (decoder, text) := d.decoder.decodeBytes data
  let (bomSeen, text) := serialize d.bomSeen text
  (⟨decoder, bomSeen⟩, text)

/-- `decode()`, at the end of the stream. -/
def finish (d : TextDecoder) : List Char := d.decoder.flush

/-- The text of a whole output. -/
def decodeAll (data : List ℕ) : List Char := (new.stream data).2 ++ (new.stream data).1.finish

/-- The texts of the chunks of an output, and the text of its end. -/
def pieces (d : TextDecoder) : List (List ℕ) → List (List Char)
  | [] => [d.finish]
  | chunk :: chunks => (d.stream chunk).2 :: (d.stream chunk).1.pieces chunks

theorem serialize_append (b : Bool) (s t : List Char) : serialize b (s ++ t) =
    ((serialize (serialize b s).1 t).1, (serialize b s).2 ++ (serialize (serialize b s).1 t).2) := by
  cases b with
  | true => rfl
  | false =>
    cases s with
    | nil => rfl
    | cons c s =>
      simp only [serialize, List.cons_append, Bool.false_eq_true, if_false, if_true]
      split <;> rfl

theorem stream_append (d : TextDecoder) (a b : List ℕ) : d.stream (a ++ b) =
    (((d.stream a).1.stream b).1, (d.stream a).2 ++ ((d.stream a).1.stream b).2) := by
  simp only [stream, Utf8Decoder.decodeBytes_append, serialize_append]

/-- The texts of the chunks make up the text of the whole. -/
theorem flatten_pieces : ∀ (chunks : List (List ℕ)) (d : TextDecoder),
    (d.pieces chunks).flatten = (d.stream chunks.flatten).2 ++ (d.stream chunks.flatten).1.finish
  | [], d => by
    have hserialize : serialize d.bomSeen [] = (d.bomSeen, []) := by
      cases hb : d.bomSeen <;> rfl
    simp [pieces, stream, Utf8Decoder.decodeBytes, hserialize, finish]
  | chunk :: chunks, d => by
    rw [pieces, List.flatten_cons, flatten_pieces chunks, List.flatten_cons, stream_append, List.append_assoc]

end TextDecoder

/-! ### The end of a text that fits -/

/-- `(byte & 0xc0) === 0x80`. -/
def isContinuation (byte : ℕ) : Bool := byte &&& 0xC0 = 0x80

/-- `while (start < buffer.length && (buffer[start] & 0xc0) === 0x80) start++`. -/
def alignedStart (bytes : List ℕ) (start : ℕ) : ℕ := start + ((bytes.drop start).takeWhile isContinuation).length

/-- The longest end of a text that has at most `n` bytes. -/
def lastBytes (n : ℕ) : List Char → List Char
  | [] => []
  | c :: text => if byteLength (c :: text) ≤ n then c :: text else lastBytes n text

theorem isContinuation_iff : ∀ b < 256, (isContinuation b = true ↔ 0x80 ≤ b ∧ b < 0xC0) := by decide +kernel

/-- The first byte of a character is no continuation byte, the others are. -/
theorem utf8Char_shape (c : Char) : ∃ b bs, utf8Char c = b :: bs ∧ isContinuation b = false ∧
    (∀ x ∈ bs, isContinuation x = true) ∧ bs.length < 4 := by
  have hv := Utf8Decoder.toNat_valid c
  have hno : ∀ b < 256, (b < 0x80 ∨ 0xC0 ≤ b) → isContinuation b = false := by
    intro b hb h
    rw [Bool.eq_false_iff, ne_eq, isContinuation_iff b hb]
    omega
  have hyes : ∀ k, isContinuation (0x80 + k % 64) = true := by
    intro k
    rw [isContinuation_iff _ (by omega)]
    omega
  unfold utf8Char
  generalize c.toNat = n at hv
  simp only
  split_ifs
  · exact ⟨n, [], rfl, hno n (by omega) (by omega), by simp, by decide⟩
  · exact ⟨_, _, rfl, hno _ (by omega) (by omega), by simp [hyes], by simp⟩
  · exact ⟨_, _, rfl, hno _ (by omega) (by omega), by simp [hyes], by simp⟩
  · exact ⟨_, _, rfl, hno _ (by omega) (by omega), by simp [hyes], by simp⟩

theorem byteLength_cons (c : Char) (text : List Char) :
    byteLength (c :: text) = (utf8Char c).length + byteLength text := List.length_append

theorem byteLength_append (s t : List Char) : byteLength (s ++ t) = byteLength s + byteLength t := by
  unfold byteLength utf8
  rw [List.flatMap_append, List.length_append]

theorem utf8Char_pos (c : Char) : 0 < (utf8Char c).length := by
  obtain ⟨b, bs, h, -⟩ := utf8Char_shape c
  rw [h]
  exact Nat.succ_pos _

theorem byteLength_pos {text : List Char} (h : text ≠ []) : 0 < byteLength text := by
  obtain ⟨c, rest, rfl⟩ := List.exists_cons_of_ne_nil h
  have := utf8Char_pos c
  rw [byteLength_cons]
  omega

theorem lastBytes_of_le {n : ℕ} {text : List Char} (h : byteLength text ≤ n) : lastBytes n text = text := by
  cases text with
  | nil => rfl
  | cons c text => exact if_pos h

/-- The slice begins with a character: no continuation byte comes first. -/
theorem takeWhile_utf8 (text : List Char) : (utf8 text).takeWhile isContinuation = [] := by
  cases text with
  | nil => rfl
  | cons c text =>
    obtain ⟨b, bs, h, hb, -⟩ := utf8Char_shape c
    show (utf8Char c ++ utf8 text).takeWhile isContinuation = []
    rw [h, List.cons_append, List.takeWhile_cons, hb]
    rfl

/-- **The slice is the end of the text.** -/
theorem drop_alignedStart (n : ℕ) : ∀ text : List Char,
    (utf8 text).drop (alignedStart (utf8 text) (byteLength text - n)) = utf8 (lastBytes n text)
  | [] => by simp [utf8, lastBytes]
  | c :: text => by
    have hlen := byteLength_cons c text
    by_cases hfit : byteLength (c :: text) ≤ n
    · rw [lastBytes_of_le hfit, Nat.sub_eq_zero_of_le hfit, alignedStart, List.drop_zero, takeWhile_utf8]
      rfl
    · have hlast : lastBytes n (c :: text) = lastBytes n text := if_neg hfit
      have hbytes : utf8 (c :: text) = utf8Char c ++ utf8 text := rfl
      rw [hlast]
      by_cases hin : (utf8Char c).length ≤ byteLength (c :: text) - n
      · -- the slice starts after the character
        have hstart : byteLength (c :: text) - n = (utf8Char c).length + (byteLength text - n) := by omega
        have halign : alignedStart (utf8 (c :: text)) (byteLength (c :: text) - n) =
            (utf8Char c).length + alignedStart (utf8 text) (byteLength text - n) := by
          unfold alignedStart
          rw [hstart, hbytes, List.drop_length_add_append, Nat.add_assoc]
        rw [halign, hbytes, List.drop_length_add_append]
        exact drop_alignedStart n text
      · -- the slice starts inside the character, whose last bytes are skipped
        have hrest : byteLength text ≤ n := by omega
        obtain ⟨b, bs, h, -, hbs, -⟩ := utf8Char_shape c
        obtain ⟨k, hk⟩ : ∃ k, byteLength (c :: text) - n = k + 1 := ⟨byteLength (c :: text) - n - 1, by omega⟩
        have hkle : k ≤ bs.length := by
          rw [h, List.length_cons] at hin
          omega
        have hdrop : (utf8 (c :: text)).drop (k + 1) = bs.drop k ++ utf8 text := by
          rw [hbytes, h, List.cons_append, List.drop_succ_cons, List.drop_append_of_le_length hkle]
        have htake : ((utf8 (c :: text)).drop (k + 1)).takeWhile isContinuation = bs.drop k := by
          rw [hdrop, List.takeWhile_append_of_pos fun x hx => hbs x (List.mem_of_mem_drop hx), takeWhile_utf8,
            List.append_nil]
        have halign : alignedStart (utf8 (c :: text)) (k + 1) = (utf8Char c).length := by
          rw [alignedStart, htake, List.length_drop, h, List.length_cons]
          omega
        rw [hk, halign, hbytes, List.drop_left, lastBytes_of_le hrest]

/-- What comes before the end that fits: nothing, or a character too many. -/
theorem lastBytes_split (n : ℕ) : ∀ text : List Char, ∃ front, text = front ++ lastBytes n text ∧
    byteLength (lastBytes n text) ≤ n ∧
    ∀ init c, front = init ++ [c] → n < (utf8Char c).length + byteLength (lastBytes n text)
  | [] => ⟨[], rfl, Nat.zero_le n, fun init c h => by simp at h⟩
  | c :: text => by
    by_cases hfit : byteLength (c :: text) ≤ n
    · rw [lastBytes_of_le hfit]
      exact ⟨[], rfl, hfit, fun init d h => by simp at h⟩
    · have hlast : lastBytes n (c :: text) = lastBytes n text := if_neg hfit
      obtain ⟨front, heq, hle, hmax⟩ := lastBytes_split n text
      rw [hlast]
      refine ⟨c :: front, by rw [List.cons_append, ← heq], hle, fun init d h => ?_⟩
      cases init with
      | nil =>
        obtain ⟨rfl, rfl⟩ := List.cons.inj h
        rw [List.nil_append] at heq
        rw [← heq, ← byteLength_cons]
        omega
      | cons e init =>
        exact hmax init d (List.cons.inj h).2

/-- The end that fits does not see what comes before a character too many. -/
theorem lastBytes_append {n : ℕ} {init k : List Char} {c : Char} (h : n < (utf8Char c).length + byteLength k) :
    lastBytes n (init ++ c :: k) = lastBytes n k := by
  induction init with
  | nil =>
    refine if_neg ?_
    rw [byteLength_cons]
    omega
  | cons d init ih =>
    rw [List.cons_append, lastBytes, if_neg, ih]
    rw [byteLength_cons, byteLength_append, byteLength_cons]
    omega

end Trek
