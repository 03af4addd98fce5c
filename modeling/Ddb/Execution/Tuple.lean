import Ddb.Storage.Page

/-!
# Tuples and their bytes

A tuple is a list of values that fits a schema. Its bytes are those of its values in order, without any separator: the
schema says how to read them back. A double is its bit pattern, a string its bytes.
-/

namespace Ddb.Execution

open Ddb.Lib Ddb.Storage

inductive ValueType where
  | int64
  | double
  | boolean
  | string
  deriving DecidableEq, Repr

inductive Value where
  | int64 (integer : Int64)
  | double (bits : UInt64)
  | boolean (value : Bool)
  | string (text : Bytes)
  deriving DecidableEq

def Value.type : Value → ValueType
  | int64 _ => .int64
  | double _ => .double
  | boolean _ => .boolean
  | string _ => .string

structure Column where
  name : String
  type : ValueType
  deriving DecidableEq

structure Schema where
  columns : List Column

structure Tuple where
  values : List Value
  deriving DecidableEq

/-- As many values as columns, each of the type of its column. -/
def Schema.validates (schema : Schema) (values : List Value) : Bool :=
  decide (values.map Value.type = schema.columns.map Column.type)

/-! ## Bytes -/

def Value.serialize : Value → Bytes
  | int64 integer => leBytes 8 integer.toUInt64.toNat
  | double bits => leBytes 8 bits.toNat
  | boolean value => [if value then 1 else 0]
  | string text => leBytes 4 text.length ++ text

def Tuple.bytes (tuple : Tuple) : Bytes := tuple.values.flatMap Value.serialize

def serialize (schema : Schema) (tuple : Tuple) : Except Err Bytes :=
  if schema.validates tuple.values then .ok tuple.bytes else .error (.invalidArgument "tuple does not match schema")

/-- One value of a type at the start of the bytes, and the bytes behind it. -/
def deserializeValue (type : ValueType) (bytes : Bytes) : Option (Value × Bytes) :=
  match type with
  | .int64 =>
    if bytes.length < 8 then none
    else some (.int64 (Int64.ofUInt64 (UInt64.ofNat (leValue (bytes.take 8)))), bytes.drop 8)
  | .double => if bytes.length < 8 then none else some (.double (UInt64.ofNat (leValue (bytes.take 8))), bytes.drop 8)
  | .boolean => if bytes.length < 1 then none else some (.boolean (bytes.getD 0 0 != 0), bytes.drop 1)
  | .string =>
    if bytes.length < 4 then none
    else
      let size := leValue (bytes.take 4)
      if bytes.length < 4 + size then none else some (.string (window bytes 4 size), bytes.drop (4 + size))

/-- The loop over the columns; all bytes must be used up. -/
def deserializeValues : List Column → Bytes → Option (List Value)
  | [], bytes => if bytes.isEmpty then some [] else none
  | column :: columns, bytes => do
    let (value, rest) ← deserializeValue column.type bytes
    let values ← deserializeValues columns rest
    return value :: values

def deserialize (schema : Schema) (bytes : Bytes) : Option Tuple := (deserializeValues schema.columns bytes).map Tuple.mk

/-! ## Reading back -/

/-- No string is too long for its length field. -/
def Value.Short : Value → Prop
  | string text => text.length < 2 ^ 32
  | _ => True

instance : (value : Value) → Decidable value.Short
  | .string text => inferInstanceAs (Decidable (text.length < 2 ^ 32))
  | .int64 _ | .double _ | .boolean _ => .isTrue trivial

/-- The loop over the columns alone: the values, and the bytes behind the cursor. -/
def scanValues : List Column → Bytes → Option (List Value × Bytes)
  | [], bytes => some ([], bytes)
  | column :: columns, bytes => do
    let (value, rest) ← deserializeValue column.type bytes
    let (values, rest) ← scanValues columns rest
    return (value :: values, rest)

theorem deserializeValues_eq (columns : List Column) (bytes : Bytes) : deserializeValues columns bytes =
    (scanValues columns bytes).bind fun scanned => if scanned.2.isEmpty then some scanned.1 else none := by
  induction columns generalizing bytes with
  | nil => rfl
  | cons column columns ih =>
    rw [deserializeValues, scanValues]
    cases deserializeValue column.type bytes with
    | none => rfl
    | some scanned =>
      simp only [bind, Option.bind, ih]
      cases scanValues columns scanned.2 with
      | none => rfl
      | some behind =>
        dsimp only [pure]
        cases behind.2.isEmpty <;> rfl

theorem deserializeValue_serialize {value : Value} (hshort : value.Short) (rest : Bytes) :
    deserializeValue value.type (value.serialize ++ rest) = some (value, rest) := by
  cases value with
  | int64 integer | double bits =>
    rw [Value.type, Value.serialize, deserializeValue, if_neg (by simp), List.take_left' (by simp),
      List.drop_left' (by simp), ofNat_leValue_leBytes]
  | boolean value => cases value <;> simp [Value.type, Value.serialize, deserializeValue]
  | string text =>
    have hlength : leValue (leBytes 4 text.length) = text.length := leValue_leBytes_of_lt hshort
    have hfour : (leBytes 4 text.length).length = 4 := leBytes_length 4 _
    rw [Value.type, Value.serialize, deserializeValue, if_neg (by simp), List.append_assoc,
      List.take_left' hfour, hlength]
    dsimp only
    rw [if_neg (by simp), window_append_right hfour.le, hfour, Nat.sub_self, window_append_left rfl,
      ← List.drop_drop, List.drop_left' hfour, List.drop_left]

/-- The cursor stops right behind the bytes of the values, whatever follows them. -/
theorem scanValues_serialize {columns : List Column} {values : List Value}
    (htypes : values.map Value.type = columns.map Column.type) (hshort : ∀ value ∈ values, value.Short) (rest : Bytes) :
    scanValues columns (values.flatMap Value.serialize ++ rest) = some (values, rest) := by
  induction columns generalizing values with
  | nil =>
    have hnil : values = [] := by simpa using htypes
    rw [hnil]
    rfl
  | cons column columns ih =>
    cases values with
    | nil => simp at htypes
    | cons value values =>
      obtain ⟨htype, htypes⟩ := List.cons.inj htypes
      obtain ⟨hvalue, hvalues⟩ := List.forall_mem_cons.mp hshort
      rw [List.flatMap_cons, List.append_assoc, scanValues, ← htype, deserializeValue_serialize hvalue]
      simp only [bind, Option.bind, ih htypes hvalues]
      rfl

/-- A value that is read is not changed by bytes further on. -/
theorem deserializeValue_append {type : ValueType} {bytes rest : Bytes} {value : Value}
    (h : deserializeValue type bytes = some (value, rest)) (more : Bytes) :
    deserializeValue type (bytes ++ more) = some (value, rest ++ more) := by
  have hfixed : ∀ {n : Nat} {read : Bytes → Value}, (∀ longer, n ≤ bytes.length → read (bytes ++ longer) = read bytes) →
      (if bytes.length < n then none else some (read bytes, bytes.drop n)) = some (value, rest) →
      (if (bytes ++ more).length < n then none else some (read (bytes ++ more), (bytes ++ more).drop n)) =
        some (value, rest ++ more) := by
    intro n read hread h
    split at h
    · cases h
    · rename_i hlong
      obtain ⟨rfl, rfl⟩ := Prod.mk.inj (Option.some.inj h)
      rw [if_neg (by simp; omega), hread more (by omega), List.drop_append_of_le_length (by omega)]
  cases type with
  | int64 =>
    refine @hfixed 8 (fun bytes => .int64 (Int64.ofUInt64 (UInt64.ofNat (leValue (bytes.take 8))))) ?_ h
    intro longer hle
    rw [List.take_append_of_le_length hle]
  | double =>
    refine @hfixed 8 (fun bytes => .double (UInt64.ofNat (leValue (bytes.take 8)))) ?_ h
    intro longer hle
    rw [List.take_append_of_le_length hle]
  | boolean =>
    refine @hfixed 1 (fun bytes => .boolean (bytes.getD 0 0 != 0)) ?_ h
    intro longer hle
    rw [List.getD_append _ _ _ _ hle]
  | string =>
    have hfour : ¬ bytes.length < 4 := by
      intro hlt
      rw [deserializeValue, if_pos hlt] at h
      cases h
    rw [deserializeValue, if_neg hfour] at h
    rw [deserializeValue, if_neg (by simp; omega), List.take_append_of_le_length (by omega)]
    refine @hfixed _ (fun longer => .string (window longer 4 (leValue (bytes.take 4)))) ?_ h
    intro longer hle
    rw [window, List.drop_append_of_le_length (by omega), List.take_append_of_le_length (by simp; omega), window]

theorem scanValues_append {columns : List Column} {bytes rest : Bytes} {values : List Value}
    (h : scanValues columns bytes = some (values, rest)) (more : Bytes) :
    scanValues columns (bytes ++ more) = some (values, rest ++ more) := by
  induction columns generalizing bytes values with
  | nil =>
    obtain ⟨rfl, rfl⟩ := Prod.mk.inj (Option.some.inj h)
    rfl
  | cons column columns ih =>
    obtain ⟨⟨value, behind⟩, hvalue, h⟩ := Option.bind_eq_some_iff.mp h
    obtain ⟨⟨others, last⟩, hothers, h⟩ := Option.bind_eq_some_iff.mp h
    obtain ⟨rfl, rfl⟩ := Prod.mk.inj (Option.some.inj h)
    rw [scanValues, deserializeValue_append hvalue]
    simp only [bind, Option.bind, ih hothers]
    rfl

def Tuple.Short (tuple : Tuple) : Prop := ∀ value ∈ tuple.values, value.Short

instance (tuple : Tuple) : Decidable tuple.Short := inferInstanceAs (Decidable (∀ value ∈ tuple.values, value.Short))

theorem deserialize_eq_some {schema : Schema} {bytes : Bytes} {tuple : Tuple} :
    deserialize schema bytes = some tuple ↔ scanValues schema.columns bytes = some (tuple.values, []) := by
  rw [deserialize, deserializeValues_eq]
  cases hscan : scanValues schema.columns bytes with
  | none => simp
  | some scanned =>
    obtain ⟨values, rest⟩ := scanned
    cases rest with
    | nil => cases tuple; simp
    | cons byte rest => simp

theorem Tuple.short_of_length {tuple : Tuple} (h : tuple.bytes.length < 2 ^ 32) : tuple.Short := by
  intro value hmem
  cases value with
  | string text =>
    obtain ⟨before, after, hsplit⟩ := List.append_of_mem hmem
    simp only [Tuple.bytes, hsplit, List.flatMap_append, List.flatMap_cons, Value.serialize, List.length_append] at h
    exact Nat.lt_of_le_of_lt (by omega) h
  | _ => trivial

/-- A tuple of the schema is read back from its bytes. -/
theorem deserialize_of_short {schema : Schema} {tuple : Tuple} (hvalid : schema.validates tuple.values = true)
    (hshort : tuple.Short) : deserialize schema tuple.bytes = some tuple := by
  rw [deserialize_eq_some, ← List.append_nil tuple.bytes]
  exact scanValues_serialize (of_decide_eq_true hvalid) hshort []

theorem deserialize_bytes {schema : Schema} {tuple : Tuple} (hvalid : schema.validates tuple.values = true)
    (hsize : tuple.bytes.length < 2 ^ 32) : deserialize schema tuple.bytes = some tuple :=
  deserialize_of_short hvalid (Tuple.short_of_length hsize)

/-- **Tuple codec.** The bytes of a tuple of the schema read back as the tuple, and reading stops right behind them. No other
beginning of them and no continuation is accepted, and no other tuple has these bytes. -/
theorem tuple_codec {schema : Schema} {tuple : Tuple} (hvalid : schema.validates tuple.values = true) (hshort : tuple.Short) :
    ∃ bytes, serialize schema tuple = .ok bytes ∧ deserialize schema bytes = some tuple ∧
      (∀ rest, scanValues schema.columns (bytes ++ rest) = some (tuple.values, rest)) ∧
      (∀ part, part <+: bytes → part ≠ bytes → deserialize schema part = none) ∧
      (∀ longer, bytes <+: longer → longer ≠ bytes → deserialize schema longer = none) ∧
      ∀ other : Tuple, schema.validates other.values = true → other.Short → serialize schema other = .ok bytes →
        other = tuple := by
  have hscan := scanValues_serialize (of_decide_eq_true hvalid) hshort
  have hread := deserialize_of_short hvalid hshort
  refine ⟨tuple.bytes, if_pos hvalid, hread, hscan, ?_, ?_, ?_⟩
  · rintro part ⟨missing, hbytes⟩ hne
    -- Read with what is missing, the values would end before the end.
    refine Option.eq_none_iff_forall_ne_some.mpr fun short hpart => hne ?_
    have hlonger := scanValues_append (deserialize_eq_some.mp hpart) missing
    rw [hbytes, deserialize_eq_some.mp hread] at hlonger
    have hnone : missing = [] := (Prod.mk.inj (Option.some.inj hlonger)).2.symm
    rw [← hbytes, hnone, List.append_nil]
  · rintro longer ⟨more, rfl⟩ hne
    refine Option.eq_none_iff_forall_ne_some.mpr fun long hlong => hne ?_
    have hstop := (hscan more).symm.trans (deserialize_eq_some.mp hlong)
    obtain ⟨-, hnil⟩ := Prod.mk.inj (Option.some.inj hstop)
    rw [hnil, List.append_nil]
  · intro other hother hotherShort hsame
    have hbytes : other.bytes = tuple.bytes := Except.ok.inj ((if_pos hother).symm.trans hsame)
    have hback := deserialize_of_short hother hotherShort
    rw [hbytes, hread] at hback
    exact (Option.some.inj hback).symm

/-- A row with a value of each type. -/
theorem tuple_codec_row : ∃ bytes, serialize ⟨[⟨"id", .int64⟩, ⟨"name", .string⟩, ⟨"live", .boolean⟩, ⟨"rate", .double⟩]⟩
      ⟨[.int64 (-1), .string [65, 66], .boolean true, .double 3]⟩ = .ok bytes ∧ bytes.length = 23 := by
  obtain ⟨bytes, hbytes, -⟩ := @tuple_codec ⟨[⟨"id", .int64⟩, ⟨"name", .string⟩, ⟨"live", .boolean⟩, ⟨"rate", .double⟩]⟩
    ⟨[.int64 (-1), .string [65, 66], .boolean true, .double 3]⟩ (by decide) (by decide)
  exact ⟨bytes, hbytes, by rw [← Except.ok.inj hbytes]; decide⟩

end Ddb.Execution
