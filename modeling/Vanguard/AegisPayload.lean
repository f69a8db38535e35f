import Vanguard.LittleEndian
import Vanguard.SharedIpc

/-! The payload of one WebSocket message: 13 bytes, which the browser writes with `sendPoint` and
AEGIS reads with `parse_stroke_payload`. The pressure is written and never read. -/
namespace AegisPayload

open SharedIpc

def STROKE_PAYLOAD_LEN : ℕ := 13

/-- The bits of `1.0`. -/
def one : F32 := 0x3f800000

structure ParsedStroke where
  x : F32
  y : F32
  pressure : F32
  action : UInt8
  deriving DecidableEq, Repr

inductive ParseOutcome where
  | valid (stroke : ParsedStroke)
  | wrongLength
  | invalidFlag (flag : UInt8)
  deriving DecidableEq, Repr

/-- `try_into().unwrap_or([0; 4])`. -/
def fourOrZero (bytes : List UInt8) : List UInt8 :=
  if bytes.length = 4 then bytes else List.replicate 4 0

def fromLeBytes (bytes : List UInt8) : F32 := LittleEndian.ofBytes 4 bytes

def toLeBytes (value : F32) : List UInt8 := LittleEndian.toBytes 4 value

def IsAction (flag : UInt8) : Prop :=
  flag = ACTION_DOWN ∨ flag = ACTION_MOVE ∨ flag = ACTION_UP

instance (flag : UInt8) : Decidable (IsAction flag) := inferInstanceAs (Decidable (_ ∨ _ ∨ _))

theorem twelve_lt {binData : List UInt8} (h : binData.length = STROKE_PAYLOAD_LEN) :
    12 < binData.length := by
  rw [h]
  decide

def parseStrokePayload (binData : List UInt8) : ParseOutcome :=
  if h : binData.length = STROKE_PAYLOAD_LEN then
    let x := fromLeBytes (fourOrZero (binData.take 4))
    let y := fromLeBytes (fourOrZero ((binData.drop 4).take 4))
    let pressure := one
    let flag := binData.get ⟨12, twelve_lt h⟩
    if IsAction flag then .valid ⟨x, y, pressure, flag⟩ else .invalidFlag flag
  else .wrongLength

def setBytes (view : List UInt8) (offset : ℕ) (bytes : List UInt8) : List UInt8 :=
  view.take offset ++ bytes ++ view.drop (offset + bytes.length)

/-- With the flag for little endian. -/
def setFloat32 (view : List UInt8) (offset : ℕ) (value : F32) : List UInt8 :=
  setBytes view offset (toLeBytes value)

def setUint8 (view : List UInt8) (offset : ℕ) (value : UInt8) : List UInt8 :=
  setBytes view offset [value]

def sendPoint (x y : F32) (flag : UInt8) : List UInt8 :=
  let view := List.replicate 13 0
  let view := setFloat32 view 0 x
  let view := setFloat32 view 4 y
  let view := setFloat32 view 8 one
  setUint8 view 12 flag

variable {binData : List UInt8} {flag : UInt8}

@[simp] theorem length_toLeBytes (value : F32) : (toLeBytes value).length = 4 :=
  LittleEndian.length_toBytes (n := 4) value

theorem fromLeBytes_toLeBytes (value : F32) : fromLeBytes (toLeBytes value) = value :=
  LittleEndian.ofBytes_toBytes (n := 4) value

theorem fromLeBytes_inj {as bs : List UInt8} (ha : as.length = 4) (hb : bs.length = 4) :
    fromLeBytes as = fromLeBytes bs ↔ as = bs := by
  constructor
  · exact LittleEndian.ofBytes_inj ha hb
  · exact congrArg fromLeBytes

theorem sendPoint_eq (x y : F32) (flag : UInt8) :
    sendPoint x y flag = toLeBytes x ++ (toLeBytes y ++
      (toLeBytes one ++ [flag])) := by
  obtain ⟨x0, x1, x2, x3, hx⟩ := List.length_eq_four.mp (length_toLeBytes x)
  obtain ⟨y0, y1, y2, y3, hy⟩ := List.length_eq_four.mp (length_toLeBytes y)
  obtain ⟨p0, p1, p2, p3, hp⟩ := List.length_eq_four.mp (length_toLeBytes one)
  simp only [sendPoint, setFloat32, setUint8, hx, hy, hp]
  rfl

theorem parse_of_length (h : binData.length = STROKE_PAYLOAD_LEN)
    (hflag : binData[12]? = some flag) :
    parseStrokePayload binData =
      if IsAction flag then
        .valid ⟨fromLeBytes (binData.take 4), fromLeBytes ((binData.drop 4).take 4), one, flag⟩
      else .invalidFlag flag := by
  have hget : binData.get ⟨12, twelve_lt h⟩ = flag := by
    rw [List.getElem?_eq_getElem (twelve_lt h)] at hflag
    exact Option.some.inj hflag
  have hx : fourOrZero (binData.take 4) = binData.take 4 := by
    apply if_pos
    simp [h, STROKE_PAYLOAD_LEN]
  have hy : fourOrZero ((binData.drop 4).take 4) = (binData.drop 4).take 4 := by
    apply if_pos
    simp [h, STROKE_PAYLOAD_LEN]
  rw [parseStrokePayload, dif_pos h]
  dsimp only
  rw [hget, hx, hy]

theorem parse_of_not_length (h : binData.length ≠ STROKE_PAYLOAD_LEN) :
    parseStrokePayload binData = .wrongLength := dif_neg h

theorem length_sendPoint (x y : F32) (flag : UInt8) :
    (sendPoint x y flag).length = STROKE_PAYLOAD_LEN := by
  simp [sendPoint_eq, STROKE_PAYLOAD_LEN]

theorem parse_sendPoint (x y : F32) (haction : IsAction flag) :
    parseStrokePayload (sendPoint x y flag) = .valid ⟨x, y, one, flag⟩ := by
  have hflag : (sendPoint x y flag)[12]? = some flag := by
    rw [sendPoint_eq, ← List.append_assoc, ← List.append_assoc,
      List.getElem?_append_right (by simp)]
    simp
  have hx : (sendPoint x y flag).take 4 = toLeBytes x := by
    rw [sendPoint_eq]
    exact List.take_left' (length_toLeBytes x)
  have hy : ((sendPoint x y flag).drop 4).take 4 = toLeBytes y := by
    rw [sendPoint_eq, List.drop_left' (length_toLeBytes x)]
    exact List.take_left' (length_toLeBytes y)
  rw [parse_of_length (length_sendPoint x y flag) hflag, if_pos haction, hx, hy,
    fromLeBytes_toLeBytes, fromLeBytes_toLeBytes]

theorem exists_flag (h : binData.length = STROKE_PAYLOAD_LEN) : ∃ flag, binData[12]? = some flag :=
  ⟨_, List.getElem?_eq_getElem (twelve_lt h)⟩

/-- Two accepted messages say the same if they agree on their coordinates and their flag; the
bytes between these do not matter. -/
theorem parse_eq_iff {other : List UInt8} {flag' : UInt8}
    (h : binData.length = STROKE_PAYLOAD_LEN) (hflag : binData[12]? = some flag)
    (haction : IsAction flag) (h' : other.length = STROKE_PAYLOAD_LEN)
    (hflag' : other[12]? = some flag') (haction' : IsAction flag') :
    parseStrokePayload binData = parseStrokePayload other ↔
      binData.take 8 = other.take 8 ∧ binData[12]? = other[12]? := by
  have hparts : ∀ bytes : List UInt8, bytes.take 8 = bytes.take 4 ++ (bytes.drop 4).take 4 :=
    fun bytes => List.take_add (i := 4) (j := 4)
  have hprefix : binData.take 8 = other.take 8 ↔
      binData.take 4 = other.take 4 ∧ (binData.drop 4).take 4 = (other.drop 4).take 4 := by
    rw [hparts binData, hparts other]
    constructor
    · exact fun heq => List.append_inj heq (by simp [h, h'])
    · rintro ⟨hx, hy⟩
      rw [hx, hy]
  rw [parse_of_length h hflag, if_pos haction, parse_of_length h' hflag', if_pos haction',
    hflag, hflag', hprefix]
  simp only [ParseOutcome.valid.injEq, ParsedStroke.mk.injEq, true_and, Option.some.injEq]
  rw [fromLeBytes_inj, fromLeBytes_inj, and_assoc]
  all_goals simp [h, h', STROKE_PAYLOAD_LEN]

theorem parse_valid_iff : (∃ stroke, parseStrokePayload binData = .valid stroke) ↔
    binData.length = STROKE_PAYLOAD_LEN ∧ ∃ flag, binData[12]? = some flag ∧ IsAction flag := by
  by_cases h : binData.length = STROKE_PAYLOAD_LEN
  · obtain ⟨flag, hflag⟩ := exists_flag h
    rw [parse_of_length h hflag, hflag]
    by_cases haction : IsAction flag
    · simp [h, haction]
    · simp [haction]
  · simp [parse_of_not_length h, h]

theorem parse_wrongLength_iff :
    parseStrokePayload binData = .wrongLength ↔ binData.length ≠ STROKE_PAYLOAD_LEN := by
  by_cases h : binData.length = STROKE_PAYLOAD_LEN
  · obtain ⟨flag, hflag⟩ := exists_flag h
    rw [parse_of_length h hflag]
    by_cases haction : IsAction flag
    · simp [h, haction]
    · simp [h, haction]
  · exact iff_of_true (parse_of_not_length h) h

theorem parse_invalidFlag_iff : parseStrokePayload binData = .invalidFlag flag ↔
    binData.length = STROKE_PAYLOAD_LEN ∧ binData[12]? = some flag ∧ ¬ IsAction flag := by
  by_cases h : binData.length = STROKE_PAYLOAD_LEN
  · obtain ⟨last, hlast⟩ := exists_flag h
    rw [parse_of_length h hlast, hlast, Option.some.injEq]
    by_cases haction : IsAction last
    · simp only [if_pos haction, reduceCtorEq, false_iff, not_and, not_not]
      rintro _ rfl
      exact haction
    · simp only [if_neg haction, ParseOutcome.invalidFlag.injEq, h, true_and]
      constructor
      · rintro rfl
        exact ⟨rfl, haction⟩
      · exact And.left
  · simp [parse_of_not_length h, h]

/-- AEGIS reads what the browser writes, and sorts all other messages by their length, then by
their flag. -/
theorem payload_agreed :
    (∀ x y flag, IsAction flag →
      parseStrokePayload (sendPoint x y flag) = .valid ⟨x, y, one, flag⟩) ∧
    ∀ binData,
      (parseStrokePayload binData = .wrongLength ↔ binData.length ≠ 13) ∧
      (∀ flag, parseStrokePayload binData = .invalidFlag flag ↔
        binData.length = 13 ∧ binData[12]? = some flag ∧ ¬ IsAction flag) ∧
      ((∃ stroke, parseStrokePayload binData = .valid stroke) ↔
        binData.length = 13 ∧ ∃ flag, binData[12]? = some flag ∧ IsAction flag) ∧
      ∀ other stroke stroke', parseStrokePayload binData = .valid stroke →
        parseStrokePayload other = .valid stroke' →
        (stroke = stroke' ↔ binData.take 8 = other.take 8 ∧ binData[12]? = other[12]?) := by
  refine ⟨fun x y flag haction => parse_sendPoint x y haction, ?_⟩
  intro binData
  refine ⟨parse_wrongLength_iff, fun _ => parse_invalidFlag_iff, parse_valid_iff, ?_⟩
  intro other stroke stroke' hvalid hvalid'
  obtain ⟨h, flag, hflag, haction⟩ := parse_valid_iff.mp ⟨stroke, hvalid⟩
  obtain ⟨h', flag', hflag', haction'⟩ := parse_valid_iff.mp ⟨stroke', hvalid'⟩
  rw [← parse_eq_iff h hflag haction h' hflag' haction', hvalid, hvalid',
    ParseOutcome.valid.injEq]

/-- The pixel that the tests send. -/
theorem pixel_agreed : parseStrokePayload (sendPoint 0x3fc00000 0x40200000 ACTION_MOVE) =
    .valid ⟨0x3fc00000, 0x40200000, one, ACTION_MOVE⟩ :=
  payload_agreed.1 _ _ _ (by decide)

end AegisPayload
