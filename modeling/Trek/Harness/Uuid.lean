/-
# Time-ordered ids

`uuidv7` of `harness/session/uuid.ts`: 48 bits of the clock, then a sequence
number, then random bits. The clock never goes back within the process: at a
reading that is not later the sequence number is counted up instead.
`generateEntryId` of the session storages takes the first eight characters,
which are the upper 32 bits of the clock.
-/
import Mathlib.Data.Nat.Notation

namespace Trek

/-- What a call of `uuidv7` reads: `Date.now()` and sixteen random bytes. -/
structure UuidDraw where
  timestamp : ℕ
  random : Fin 16 → Fin 256

/-- `lastTimestamp`, `none` for `-Infinity`, and `sequence`. -/
structure UuidState where
  lastTimestamp : Option ℕ
  sequence : ℕ
  deriving DecidableEq

/-- The state when the module is loaded. -/
def UuidState.initial : UuidState := ⟨none, 0⟩

/-- The first part of `uuidv7`. -/
def UuidState.tick (st : UuidState) (d : UuidDraw) : ℕ × ℕ :=
  match st.lastTimestamp with
  | none => (d.timestamp, fresh)
  | some last =>
    if last < d.timestamp then (d.timestamp, fresh)
    else
      let sequence := (st.sequence + 1) % 0x100000000
      (if sequence = 0 then last + 1 else last, sequence)
where
  /-- The sequence number drawn at a new time. -/
  fresh : ℕ := d.random 6 * 0x1000000 + d.random 7 * 0x10000 + d.random 8 * 0x100 + d.random 9

/-- `bytes` in `uuidv7`. -/
def uuidBytes (timestamp sequence : ℕ) (random : Fin 16 → Fin 256) : List ℕ :=
  [timestamp / 0x10000000000 % 0x100, timestamp / 0x100000000 % 0x100, timestamp / 0x1000000 % 0x100,
    timestamp / 0x10000 % 0x100, timestamp / 0x100 % 0x100, timestamp % 0x100,
    0x70 ||| (sequence >>> 28 &&& 0x0f), sequence >>> 20 &&& 0xff, 0x80 ||| (sequence >>> 14 &&& 0x3f),
    sequence >>> 6 &&& 0xff, (sequence &&& 0x3f) <<< 2 ||| ((random 10).val &&& 0x03),
    random 11, random 12, random 13, random 14, random 15]

/-- `byte.toString(16).padStart(2, "0")`. -/
def hexByte (byte : ℕ) : List Char := [Nat.digitChar (byte / 16), Nat.digitChar (byte % 16)]

/-- `formatUuid`. -/
def formatUuid (bytes : List ℕ) : String :=
  let hex := bytes.map hexByte
  String.ofList ((hex.take 4).flatten ++ '-' :: ((hex.drop 4).take 2).flatten ++ '-' ::
    ((hex.drop 6).take 2).flatten ++ '-' :: ((hex.drop 8).take 2).flatten ++ '-' :: (hex.drop 10).flatten)

/-- `uuidv7`. -/
def uuidv7 (st : UuidState) (d : UuidDraw) : String × UuidState :=
  let (lastTimestamp, sequence) := st.tick d
  (formatUuid (uuidBytes lastTimestamp sequence d.random), ⟨some lastTimestamp, sequence⟩)

/-- The tries of `generateEntryId`, at most `n` more; `draws i` is what the `i`-th
call of `uuidv7` reads. -/
def tryEntryIds (has : String → Bool) (draws : ℕ → UuidDraw) : ℕ → ℕ → UuidState → String × UuidState
  | 0, i, st => uuidv7 st (draws i)
  | n + 1, i, st =>
    let (uuid, st) := uuidv7 st (draws i)
    let id := String.ofList (uuid.toList.take 8)
    if has id then tryEntryIds has draws n (i + 1) st else (id, st)

/-- `generateEntryId`. -/
def generateEntryId (has : String → Bool) (draws : ℕ → UuidDraw) (st : UuidState) : String × UuidState :=
  tryEntryIds has draws 100 0 st

theorem uuidv7_toList (st : UuidState) (d : UuidDraw) :
    ∃ c cs, (uuidv7 st d).1.toList = c :: cs := by
  unfold uuidv7
  exact ⟨_, _, String.toList_ofList⟩

/-- A generated id is not empty. -/
theorem generateEntryId_ne_empty (has : String → Bool) (draws : ℕ → UuidDraw) (st : UuidState) :
    (generateEntryId has draws st).1 ≠ "" := by
  have key : ∀ n i st, (tryEntryIds has draws n i st).1 ≠ "" := by
    intro n
    induction n with
    | zero =>
      intro i st he
      obtain ⟨c, cs, h⟩ := uuidv7_toList st (draws i)
      rw [tryEntryIds] at he
      rw [he] at h
      cases h
    | succ n ih =>
      intro i st
      simp only [tryEntryIds]
      split
      · exact ih _ _
      · obtain ⟨c, cs, h⟩ := uuidv7_toList st (draws i)
        intro he
        have := congrArg String.toList he
        rw [String.toList_ofList, h] at this
        cases this
  exact key 100 0 st

/-- Within 65 seconds all ids begin alike. -/
example : (uuidv7 .initial ⟨0x123456780000, fun _ => 7⟩).1 = "12345678-0000-7070-9c1c-1f0707070707" := by decide

end Trek
