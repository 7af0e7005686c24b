import Recast.Proofs.SourceMap.Decoding

/-! # Numbers one after the other

Numbers are written without anything between them. A reader finds where one ends because no number
begins like another one, and it gives back what was written as long as the sign and the size of
every number fit into the unsigned one (`numbers_are_read_back`). Of all numbers of 64 bits only the
least does not fit: its size is shifted out, and what remains is read as zero.
-/

namespace Recast.SourceMap

/-- The value of a letter, a numeral or one of two signs as a digit of base 64. -/
def alphabetValue? (c : Char) : Option Nat :=
  if 'A' ≤ c ∧ c ≤ 'Z' then some (c.toNat - 'A'.toNat)
  else if 'a' ≤ c ∧ c ≤ 'z' then some (26 + (c.toNat - 'a'.toNat))
  else if '0' ≤ c ∧ c ≤ '9' then some (52 + (c.toNat - '0'.toNat))
  else if c = '+' then some 62
  else if c = '/' then some 63
  else none

section Digits

/-- The digits that are written are those of the alphabet. -/
theorem digitValue?_eq (c : Char) : digitValue? c = alphabetValue? c := by
  by_cases ascii : c.toNat < 128
  · have all : ∀ code < 128,
        digitValue? (Char.ofNat code) = alphabetValue? (Char.ofNat code) := by decide +kernel
    simpa only [Char.ofNat_toNat] using all c.toNat ascii
  · have beyond (d : Char) (low : d.toNat < 128) : ¬c ≤ d := by
      rw [Char.le_def, UInt32.le_iff_toNat_le]
      change ¬c.toNat ≤ d.toNat
      omega
    have absent : c ∉ base64 := by
      intro member
      have all : base64.all (fun d => d.toNat < 128) = true := by decide
      exact ascii (of_decide_eq_true (List.all_eq_true.mp all c member))
    have unread : digitValue? c = none := List.idxOf?_eq_none_iff.mpr absent
    have plus : c ≠ '+' := by rintro rfl; exact ascii (by decide)
    have slash : c ≠ '/' := by rintro rfl; exact ascii (by decide)
    rw [unread, alphabetValue?, if_neg fun upper => beyond 'Z' (by decide) upper.2,
      if_neg fun lower => beyond 'z' (by decide) lower.2,
      if_neg fun numeral => beyond '9' (by decide) numeral.2, if_neg plus, if_neg slash]

theorem base64Digit_inj {m n : Nat} (m_small : m < 64) (n_small : n < 64) :
    base64Digit m = base64Digit n ↔ m = n := by
  constructor
  · intro same
    have values := congrArg digitValue? same
    rw [digitValue?_base64Digit m_small, digitValue?_base64Digit n_small] at values
    exact Option.some.inj values
  · rintro rfl
    rfl

theorem lt_of_mem_groups {n group : Nat} (member : group ∈ groups n) : group < 64 := by
  fun_induction groups n with
  | case1 n small =>
    rw [List.mem_singleton] at member
    omega
  | case2 n large ih =>
    rcases List.mem_cons.mp member with rfl | later
    · omega
    · exact ih later

/-- What is written of a number are digits of the alphabet. -/
theorem isSome_alphabetValue? {value : Int64} {c : Char} (member : c ∈ encode value) :
    (alphabetValue? c).isSome := by
  obtain ⟨group, among, rfl⟩ := List.mem_map.mp member
  rw [← digitValue?_eq, digitValue?_base64Digit (lt_of_mem_groups among)]
  rfl

theorem groups_of_lt {n : Nat} (small : n < 32) : groups n = [n] := by
  rw [groups, if_pos small]

theorem groups_of_le {n : Nat} (large : 32 ≤ n) : groups n = (n % 32 + 32) :: groups (n / 32) := by
  rw [groups, if_neg (by omega)]

/-- The groups of a number end with the first one that has no bit for more, so those of another
number do not go on behind them. -/
theorem eq_of_prefix_groups {m n : Nat}
    (front : (groups m).map base64Digit <+: (groups n).map base64Digit) : m = n := by
  have head {a b : Nat} {as bs : List Char} (a_small : a < 64) (b_small : b < 64)
      (begins : base64Digit a :: as <+: base64Digit b :: bs) : a = b ∧ as <+: bs := by
    obtain ⟨first, later⟩ := List.cons_prefix_cons.mp begins
    exact ⟨(base64Digit_inj a_small b_small).mp first, later⟩
  fun_induction groups m generalizing n with
  | case1 m m_small =>
    obtain n_small | n_large := Nat.lt_or_ge n 32
    · rw [groups_of_lt n_small] at front
      exact (head (by omega) (by omega) front).1
    · rw [groups_of_le n_large] at front
      have group := (head (by omega) (by omega) front).1
      omega
  | case2 m m_large ih =>
    obtain n_small | n_large := Nat.lt_or_ge n 32
    · rw [groups_of_lt n_small] at front
      have group := (head (by omega) (by omega) front).1
      omega
    · rw [groups_of_le n_large] at front
      obtain ⟨group, later⟩ := head (by omega) (by omega) front
      have rest := ih later
      omega

end Digits

section Numbers

variable {value other : Int64}

theorem lt_toInt_iff : -2 ^ 63 < value.toInt ↔ value ≠ Int64.minValue := by
  have lower := value.le_toInt
  rw [ne_eq, ← Int64.toInt_inj, Int64.toInt_minValue]
  omega

theorem signedToUnsigned_minValue : signedToUnsigned Int64.minValue = 1 := by
  decide

/-- The least number is the only one of which the size is shifted out. -/
theorem toNat_signedToUnsigned_iff :
    (signedToUnsigned value).toNat = 2 * value.toInt.natAbs + (if value < 0 then 1 else 0) ↔
      value ≠ Int64.minValue := by
  constructor
  · rintro whole rfl
    exact absurd whole (by decide)
  · exact fun large => toNat_signedToUnsigned (lt_toInt_iff.mpr large)

/-- The least number is the only one that is read as another one. -/
theorem unsignedToSigned_signedToUnsigned_iff :
    unsignedToSigned (signedToUnsigned value).toNat = value.toInt ↔ value ≠ Int64.minValue := by
  constructor
  · rintro same rfl
    exact absurd same (by decide)
  · exact fun large => unsignedToSigned_signedToUnsigned (lt_toInt_iff.mpr large)

/-- Also the least number has an unsigned one of its own, that of a zero with a sign. -/
theorem signedToUnsigned_inj : signedToUnsigned value = signedToUnsigned other ↔ value = other := by
  refine ⟨fun same => ?_, congrArg signedToUnsigned⟩
  -- A sign above no size is left for the least number, as zero is written without one.
  have apart {number : Int64} (large : number ≠ Int64.minValue) :
      (signedToUnsigned number).toNat ≠ (signedToUnsigned Int64.minValue).toNat := by
    rw [toNat_signedToUnsigned_iff.mpr large, signedToUnsigned_minValue]
    change _ ≠ 1
    split
    · next negative =>
      have below : number.toInt < 0 := Int64.lt_iff_toInt_lt.mp negative
      omega
    · omega
  have equal := congrArg UInt64.toNat same
  by_cases least : value = Int64.minValue
  · subst least
    by_contra differs
    exact apart (Ne.symm differs) equal.symm
  · by_cases least' : other = Int64.minValue
    · subst least'
      exact absurd equal (apart least)
    · have read := unsignedToSigned_signedToUnsigned_iff.mpr least
      rw [equal, unsignedToSigned_signedToUnsigned_iff.mpr least'] at read
      exact (Int64.toInt_inj.mp read).symm

/-- No number begins like another one. -/
theorem encode_prefix_iff : encode value <+: encode other ↔ value = other := by
  constructor
  · intro front
    exact signedToUnsigned_inj.mp (UInt64.toNat_inj.mp (eq_of_prefix_groups front))
  · rintro rfl
    exact List.prefix_rfl

/-- Numbers are read one after the other. -/
theorem readNumbers?_flatMap_encode (values : List Int64) :
    readNumbers? 0 1 (values.flatMap encode) =
      some (values.map fun value => unsignedToSigned (signedToUnsigned value).toNat) := by
  induction values with
  | nil => rfl
  | cons value values ih =>
    rw [List.flatMap_cons, encode, readNumbers?_groups, ih, Nat.zero_add, Nat.mul_one]
    rfl

end Numbers

/-- Numbers of 64 bits that are written one after the other are read back exactly when the least one
is not among them, by a reader that knows the digits from the alphabet. A number is written with at
least one digit, with digits only, and no number begins like another one. The unsigned number
behind the digits holds the size and the sign, so no bit is lost, unless the number is the least. -/
theorem numbers_are_read_back :
    (∀ values : List Int64,
      readNumbers? 0 1 (values.flatMap encode) = some (values.map Int64.toInt) ↔
        ∀ value ∈ values, value ≠ Int64.minValue) ∧
    (∀ c, digitValue? c = alphabetValue? c) ∧
    (∀ value, encode value ≠ [] ∧
      ∀ c ∈ encode value, (alphabetValue? c).isSome ∧ c ≠ ',' ∧ c ≠ ';') ∧
    (∀ value other, encode value <+: encode other ↔ value = other) ∧
    ∀ value : Int64,
      (signedToUnsigned value).toNat = 2 * value.toInt.natAbs + (if value < 0 then 1 else 0) ↔
        value ≠ Int64.minValue := by
  refine ⟨fun values => ?_, digitValue?_eq, fun value => ⟨encode_ne_nil value, fun c member =>
    ⟨isSome_alphabetValue? member, ne_of_mem_encode member⟩⟩, fun _ _ => encode_prefix_iff,
    fun _ => toNat_signedToUnsigned_iff⟩
  rw [readNumbers?_flatMap_encode, Option.some_inj, List.map_inj_left]
  exact forall₂_congr fun _ _ => unsignedToSigned_signedToUnsigned_iff

/-- The greatest number and its counterpart take all thirteen digits. -/
theorem numbers_are_read_back_at_the_ends :
    let values : List Int64 := [0, 16, -1, Int64.maxValue, Int64.minValue + 1]
    (∀ value ∈ values, value ≠ Int64.minValue) ∧
      values.flatMap encode = "AgBD+///////////P////////////P".toList ∧
      readNumbers? 0 1 "AgBD+///////////P////////////P".toList =
        some [0, 16, -1, 2 ^ 63 - 1, -(2 ^ 63 - 1)] ∧
      ((alphabetValue? 'P').isSome ∧ 'P' ≠ ',' ∧ 'P' ≠ ';') := by
  intro values
  have fit : ∀ value ∈ values, value ≠ Int64.minValue := by
    have all : values.all (fun value => value ≠ Int64.minValue) = true := by decide
    exact fun value member => of_decide_eq_true (List.all_eq_true.mp all value member)
  have written : values.flatMap encode = "AgBD+///////////P////////////P".toList := by cbv
  have greatest : encode Int64.maxValue = "+///////////P".toList := by cbv
  have last : 'P' ∈ encode Int64.maxValue := by
    rw [greatest]
    decide
  refine ⟨fit, written, ?_, (numbers_are_read_back.2.2.1 Int64.maxValue).2 _ last⟩
  rw [← written, (numbers_are_read_back.1 values).mpr fit]
  rfl

/-- The least number is written as a zero with a sign. -/
example : encode Int64.minValue = ['B'] ∧ readNumbers? 0 1 ['B'] = some [0] := by cbv

end Recast.SourceMap
