import Mathlib.Tactic.Ring
import Recast.Proofs.Text.Lines
import Recast.SourceMap.Mapping

/-! # Reading mappings

A reader of mappings, written after the format and not after the writer: semicolons divide the lines
and commas the segments of a line, a segment is four numbers, and every number is the difference to
the one before it. Columns of printed lines start again with each line, the other numbers go on.

The main statement is `decode?_mappings`: reading gives back the segments that were written, as long
as their numbers fit into 63 bits.
-/

namespace Recast.SourceMap

open Text

/-- The value of a digit of base 64. -/
def digitValue? (c : Char) : Option Nat :=
  base64.idxOf? c

/-- The number whose sign is in the lowest bit. -/
def unsignedToSigned (n : Nat) : Int :=
  if n % 2 = 0 then (n / 2 : Nat) else -(n / 2 : Nat)

/-- Reads numbers. Of the first one `value` is already known, and its next digit has a weight. -/
def readNumbers? : (value weight : Nat) → List Char → Option (List Int)
  | _, weight, [] => if weight = 1 then some [] else none
  | value, weight, c :: cs =>
    match digitValue? c with
    | none => none
    | some digit =>
      let value := value + digit % 32 * weight
      if digit < 32 then (readNumbers? 0 1 cs).map (unsignedToSigned value :: ·)
      else readNumbers? value (weight * 32) cs

/-- A segment as it is read: a column of the printed line, and the place from which it stems. -/
structure Origin where
  column : Int
  source : Int
  sourceLine : Int
  sourceColumn : Int
deriving DecidableEq, Repr, Inhabited

/-- Reads the segments of a line, each against the one before it. -/
def readSegments? (last : Origin) : List (List Char) → Option (List Origin × Origin)
  | [] => some ([], last)
  | piece :: pieces =>
    match readNumbers? 0 1 piece with
    | some [column, source, sourceLine, sourceColumn] =>
      let next : Origin := ⟨last.column + column, last.source + source, last.sourceLine + sourceLine,
        last.sourceColumn + sourceColumn⟩
      (readSegments? next pieces).map fun (origins, last) => (next :: origins, last)
    | _ => none

/-- Reads a line. -/
def readLine? (last : Origin) (line : List Char) : Option (List Origin × Origin) :=
  if line.isEmpty then some ([], last)
  else readSegments? { last with column := 0 } (splitChars ',' line)

/-- Reads the lines one after the other. -/
def readLines? (last : Origin) : List (List Char) → Option (List (List Origin))
  | [] => some []
  | line :: lines =>
    match readLine? last line with
    | none => none
    | some (origins, last) => (readLines? last lines).map (origins :: ·)

/-- The segments of each line that mappings stand for. -/
def decode? (mappings : String) : Option (List (List Origin)) :=
  readLines? ⟨0, 0, 0, 0⟩ (splitChars ';' mappings.toList)

section Numbers

theorem digitValue?_base64Digit {value : Nat} (small : value < 64) :
    digitValue? (base64Digit value) = some value := by
  have all : ∀ value < 64, digitValue? (base64Digit value) = some value := by decide +kernel
  exact all value small

/-- No digit divides segments or lines. -/
theorem base64Digit_ne (value : Nat) : base64Digit value ≠ ',' ∧ base64Digit value ≠ ';' := by
  have all : base64.all (fun c => c ≠ ',' ∧ c ≠ ';') = true := by decide
  rw [base64Digit, List.getD_eq_getElem?_getD]
  cases found : base64[value]? with
  | none => decide
  | some c => exact of_decide_eq_true (List.all_eq_true.mp all c (List.mem_of_getElem? found))

/-- Groups of five bits are read as the number that they make up. -/
theorem readNumbers?_groups (n value weight : Nat) (rest : List Char) :
    readNumbers? value weight ((groups n).map base64Digit ++ rest) =
      (readNumbers? 0 1 rest).map (unsignedToSigned (value + n * weight) :: ·) := by
  fun_induction groups n generalizing value weight with
  | case1 n small =>
    have known := digitValue?_base64Digit (show n < 64 by omega)
    rw [List.map_singleton, List.singleton_append, readNumbers?, known]
    simp only [small, ↓reduceIte, Nat.mod_eq_of_lt small]
  | case2 n large ih =>
    have known := digitValue?_base64Digit (show n % 32 + 32 < 64 by omega)
    have more : ¬n % 32 + 32 < 32 := by omega
    have low : (n % 32 + 32) % 32 = n % 32 := by omega
    have whole : value + n % 32 * weight + n / 32 * (weight * 32) = value + n * weight := by
      conv_rhs => rw [← Nat.mod_add_div n 32]
      ring
    rw [List.map_cons, List.cons_append, readNumbers?, known]
    simp only [more, ↓reduceIte, low]
    rw [ih, whole]

/-- A number of 63 bits can be doubled. -/
private theorem toNat_double {n : UInt64} (fits : n.toNat < 2 ^ 63) :
    (n <<< 1).toNat = 2 * n.toNat := by
  rw [UInt64.toNat_shiftLeft]
  have doubled : n.toNat <<< ((1 : UInt64).toNat % 64) = 2 * n.toNat := by
    change n.toNat <<< 1 = 2 * n.toNat
    omega
  rw [doubled]
  exact Nat.mod_eq_of_lt (by omega)

/-- The sign goes into the lowest bit and the size above it. No bit is shifted out, except for the
one number without a counterpart. -/
theorem toNat_signedToUnsigned {value : Int64} (large : -2 ^ 63 < value.toInt) :
    (signedToUnsigned value).toNat = 2 * value.toInt.natAbs + if value < 0 then 1 else 0 := by
  have upper := value.toInt_lt
  rw [signedToUnsigned]
  split
  · have size : (UInt64.ofNat value.toInt.natAbs).toNat = value.toInt.natAbs :=
      UInt64.toNat_ofNat_of_lt' (by simp only [UInt64.size]; omega)
    have bit := Nat.two_pow_add_eq_or_of_lt (i := 1) (b := 1) (by decide) value.toInt.natAbs
    rw [UInt64.toNat_or, toNat_double (by omega), size]
    exact bit.symm
  · next positive =>
    have above : 0 ≤ value.toInt := by
      simpa [Int64.lt_iff_toInt_lt] using positive
    have size : (value.toUInt64.toNat : Int) = value.toInt := by
      change (value.toBitVec.toNat : Int) = value.toBitVec.toInt
      have known : 0 ≤ value.toBitVec.toInt := above
      rw [BitVec.toInt_eq_toNat_cond] at known ⊢
      split at known
      · next low => rw [if_pos low]
      · omega
    rw [toNat_double (by omega)]
    omega

/-- The number whose sign is in the lowest bit is the one that was put there. -/
theorem unsignedToSigned_signedToUnsigned {value : Int64} (large : -2 ^ 63 < value.toInt) :
    unsignedToSigned (signedToUnsigned value).toNat = value.toInt := by
  have sign : value < 0 ↔ value.toInt < 0 := by rw [Int64.lt_iff_toInt_lt, Int64.toInt_zero]
  rw [toNat_signedToUnsigned large, unsignedToSigned]
  by_cases negative : value.toInt < 0
  · rw [if_pos (sign.mpr negative)]
    omega
  · rw [if_neg (mt sign.mp negative)]
    omega

/-- Reading undoes writing. -/
theorem readNumbers?_encode {value : Int64} (large : -2 ^ 63 < value.toInt) (rest : List Char) :
    readNumbers? 0 1 (encode value ++ rest) = (readNumbers? 0 1 rest).map (value.toInt :: ·) := by
  rw [encode, readNumbers?_groups, Nat.zero_add, Nat.mul_one,
    unsignedToSigned_signedToUnsigned large]

theorem encode_ne_nil (value : Int64) : encode value ≠ [] := by
  rw [encode, groups]
  split <;> simp

/-- No number holds a comma or a semicolon. -/
theorem ne_of_mem_encode {value : Int64} {c : Char} (member : c ∈ encode value) :
    c ≠ ',' ∧ c ≠ ';' := by
  obtain ⟨group, _, rfl⟩ := List.mem_map.mp member
  exact base64Digit_ne group

end Numbers

section Segments

/-- What a segment says. There is one source only. -/
def Segment.origin (segment : Segment) : Origin :=
  ⟨segment.column, 0, segment.sourceLine, segment.sourceColumn⟩

/-- The numbers of a segment fit into 63 bits. -/
structure Segment.Fits (segment : Segment) : Prop where
  column : segment.column < 2 ^ 63
  sourceLine : segment.sourceLine < 2 ^ 63
  sourceColumn : segment.sourceColumn < 2 ^ 63

/-- The text of one segment, written against a source line and column. -/
private def encodeSegment (line column : Int) (segment : Segment) : List Char :=
  encode (Int64.ofNat segment.column) ++ encode 0 ++
    encode (Int64.ofInt (segment.sourceLine - line)) ++
    encode (Int64.ofInt (segment.sourceColumn - column))

private theorem ne_of_mem_encodeSegment {line column : Int} {segment : Segment} {c : Char}
    (member : c ∈ encodeSegment line column segment) : c ≠ ',' ∧ c ≠ ';' := by
  simp only [encodeSegment, List.mem_append] at member
  rcases member with ((member | member) | member) | member <;> exact ne_of_mem_encode member

/-- A difference of two numbers that fit is written without loss. -/
private theorem toInt_difference {a b : Int} (a_nonneg : 0 ≤ a) (a_small : a < 2 ^ 63)
    (b_nonneg : 0 ≤ b) (b_small : b < 2 ^ 63) :
    (Int64.ofInt (a - b)).toInt = a - b ∧ -2 ^ 63 < (Int64.ofInt (a - b)).toInt := by
  have same : (Int64.ofInt (a - b)).toInt = a - b := Int64.toInt_ofInt_of_le (by omega) (by omega)
  exact ⟨same, by omega⟩

variable {segment : Segment} {last : Origin}

/-- The state of a reader in which differences are written without loss. -/
private structure Origin.Ready (last : Origin) : Prop where
  source : last.source = 0
  sourceLine : 0 ≤ last.sourceLine ∧ last.sourceLine < 2 ^ 63
  sourceColumn : 0 ≤ last.sourceColumn ∧ last.sourceColumn < 2 ^ 63

private theorem Segment.Fits.ready (fits : segment.Fits) : segment.origin.Ready where
  source := rfl
  sourceLine := ⟨Int.natCast_nonneg _, Int.ofNat_lt.mpr fits.sourceLine⟩
  sourceColumn := ⟨Int.natCast_nonneg _, Int.ofNat_lt.mpr fits.sourceColumn⟩

private theorem readNumbers?_encodeSegment (fits : segment.Fits) (ready : last.Ready) :
    readNumbers? 0 1 (encodeSegment last.sourceLine last.sourceColumn segment) =
      some [(segment.column : Int), 0, (segment.sourceLine : Int) - last.sourceLine,
        (segment.sourceColumn : Int) - last.sourceColumn] := by
  have column := Int64.toInt_ofNat_of_lt fits.column
  obtain ⟨line, lineLarge⟩ := toInt_difference (Int.natCast_nonneg segment.sourceLine)
    (Int.ofNat_lt.mpr fits.sourceLine) ready.sourceLine.1 ready.sourceLine.2
  obtain ⟨place, placeLarge⟩ := toInt_difference (Int.natCast_nonneg segment.sourceColumn)
    (Int.ofNat_lt.mpr fits.sourceColumn) ready.sourceColumn.1 ready.sourceColumn.2
  have final := readNumbers?_encode placeLarge []
  rw [List.append_nil] at final
  rw [encodeSegment, List.append_assoc, List.append_assoc, readNumbers?_encode (by omega),
    readNumbers?_encode (by decide), readNumbers?_encode lineLarge, final, column, line, place]
  rfl

/-- A line with one segment is read against the last one. -/
private theorem readLine?_encodeSegment (fits : segment.Fits) (ready : last.Ready) :
    readLine? last (encodeSegment last.sourceLine last.sourceColumn segment) =
      some ([segment.origin], segment.origin) := by
  have single : splitChars ',' (encodeSegment last.sourceLine last.sourceColumn segment) =
      [encodeSegment last.sourceLine last.sourceColumn segment] :=
    splitChars_of_not_mem fun comma => (ne_of_mem_encodeSegment comma).1 rfl
  have filled : (encodeSegment last.sourceLine last.sourceColumn segment).isEmpty = false := by
    simp [encodeSegment, encode_ne_nil]
  have numbers := readNumbers?_encodeSegment fits ready
  have line : last.sourceLine + (segment.sourceLine - last.sourceLine) =
      (segment.sourceLine : Int) := by omega
  have column : last.sourceColumn + (segment.sourceColumn - last.sourceColumn) =
      (segment.sourceColumn : Int) := by omega
  rw [readLine?, filled, single]
  simp only [Bool.false_eq_true, ↓reduceIte, readSegments?, numbers, Option.map_some, ready.source,
    line, column, Int.zero_add]
  rfl

/-- Lines are read one after the other as they were written. -/
private theorem readLines?_encodeSegments {segments : List (Option Segment)}
    (fits : ∀ segment, some segment ∈ segments → segment.Fits) (ready : last.Ready) :
    readLines? last (encodeSegments last.sourceLine last.sourceColumn segments) =
      some (segments.map fun segment? => (segment?.map Segment.origin).toList) := by
  induction segments generalizing last with
  | nil => rfl
  | cons first segments ih =>
    have others := fun segment member => fits segment (List.mem_cons_of_mem first member)
    cases first with
    | none =>
      have rest := ih others ready
      rw [encodeSegments, readLines?]
      simp only [readLine?, List.isEmpty_nil, ↓reduceIte, rest]
      rfl
    | some segment =>
      have good := fits segment (List.mem_cons_self ..)
      have rest := ih others good.ready
      have line := readLine?_encodeSegment good ready
      rw [encodeSegment] at line
      rw [encodeSegments, readLines?, line]
      exact congrArg (Option.map ([segment.origin] :: ·)) rest

/-- What is written of segments holds no semicolon. -/
private theorem semicolon_not_mem_encodeSegments {line column : Int}
    {segments : List (Option Segment)} {piece : List Char}
    (member : piece ∈ encodeSegments line column segments) : ';' ∉ piece := by
  induction segments generalizing line column with
  | nil => simp [encodeSegments] at member
  | cons first segments ih =>
    cases first with
    | none =>
      rcases List.mem_cons.mp member with rfl | later
      · exact List.not_mem_nil
      · exact ih later
    | some segment =>
      rcases List.mem_cons.mp member with rfl | later
      · have free : ';' ∉ encodeSegment line column segment :=
          fun semicolon => (ne_of_mem_encodeSegment semicolon).2 rfl
        exact free
      · exact ih later

theorem length_encodeSegments (line column : Int) (segments : List (Option Segment)) :
    (encodeSegments line column segments).length = segments.length := by
  induction segments generalizing line column with
  | nil => rfl
  | cons first segments ih =>
    cases first <;> rw [encodeSegments, List.length_cons, List.length_cons, ih]

variable {segments : List (Option Segment)}

/-- The lines of mappings are the texts of their segments. -/
theorem splitChars_mappings (nonempty : segments ≠ []) :
    splitChars ';' (mappings segments).toList = encodeSegments 0 0 segments := by
  have filled : encodeSegments 0 0 segments ≠ [] := by
    apply List.ne_nil_of_length_pos
    rw [length_encodeSegments]
    exact List.length_pos_iff.mpr nonempty
  rw [mappings, String.toList_ofList]
  exact splitChars_intercalate filled fun piece member => semicolon_not_mem_encodeSegments member

/-- Reading mappings gives the segments that were written. -/
theorem decode?_mappings (nonempty : segments ≠ [])
    (fits : ∀ segment, some segment ∈ segments → segment.Fits) :
    decode? (mappings segments) =
      some (segments.map fun segment? => (segment?.map Segment.origin).toList) := by
  have start : (⟨0, 0, 0, 0⟩ : Origin).Ready := ⟨rfl, by decide, by decide⟩
  rw [decode?, splitChars_mappings nonempty]
  exact readLines?_encodeSegments fits start

end Segments

end Recast.SourceMap
