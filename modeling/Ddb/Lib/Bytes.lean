import Mathlib.Data.Nat.Bitwise
import Mathlib.Data.List.GetD
import Mathlib.Tactic.Linarith
import Mathlib.Tactic.Ring

/-!
# Byte strings

Little-endian numbers, windows of a byte string read and overwritten at an offset, and bitmaps. The formats built on
these are fixed layouts: every field is a window at a known offset, so all that is needed of a write is which windows it
sets and which it leaves alone.
-/

namespace Ddb.Lib

abbrev Bytes := List UInt8

/-! ## Little-endian numbers -/

/-- The low `n` bytes of a number, least significant first. -/
def leBytes : Nat → Nat → Bytes
  | 0, _ => []
  | n + 1, value => UInt8.ofNat (value % 256) :: leBytes n (value / 256)

/-- The number a byte string spells, least significant byte first. -/
def leValue : Bytes → Nat
  | [] => 0
  | byte :: rest => byte.toNat + 256 * leValue rest

@[simp] theorem leBytes_length (n value : Nat) : (leBytes n value).length = n := by
  induction n generalizing value with
  | zero => rfl
  | succ n ih => simp [leBytes, ih]

theorem leValue_leBytes (n value : Nat) : leValue (leBytes n value) = value % 256 ^ n := by
  induction n generalizing value with
  | zero => simp [leBytes, leValue, Nat.mod_one]
  | succ n ih =>
    have hbyte : (UInt8.ofNat (value % 256)).toNat = value % 256 := by
      rw [UInt8.toNat_ofNat']
      exact Nat.mod_eq_of_lt (Nat.mod_lt _ (by decide))
    rw [leBytes, leValue, ih, hbyte, Nat.pow_succ', Nat.mod_mul]

theorem leBytes_leValue (bytes : Bytes) : leBytes bytes.length (leValue bytes) = bytes := by
  induction bytes with
  | nil => rfl
  | cons byte rest ih =>
    have hlt : byte.toNat < 256 := byte.toNat_lt
    have hmod : (byte.toNat + 256 * leValue rest) % 256 = byte.toNat := by omega
    have hdiv : (byte.toNat + 256 * leValue rest) / 256 = leValue rest := by omega
    rw [List.length_cons, leBytes, leValue, hmod, hdiv, ih]
    simp

theorem leValue_lt (bytes : Bytes) : leValue bytes < 256 ^ bytes.length := by
  induction bytes with
  | nil => simp [leValue]
  | cons byte rest ih =>
    have hlt : byte.toNat < 256 := byte.toNat_lt
    rw [leValue, List.length_cons, Nat.pow_succ']
    omega

theorem leValue_leBytes_of_lt {n value : Nat} (h : value < 256 ^ n) : leValue (leBytes n value) = value := by
  rw [leValue_leBytes, Nat.mod_eq_of_lt h]

theorem ofNat_leValue_leBytes (word : UInt64) : UInt64.ofNat (leValue (leBytes 8 word.toNat)) = word := by
  rw [leValue_leBytes_of_lt word.toNat_lt, UInt64.ofNat_toNat]

/-! ## Windows -/

/-- The `n` bytes at an offset. -/
def window (bytes : Bytes) (offset n : Nat) : Bytes := (bytes.drop offset).take n

/-- The string with the bytes at an offset replaced. -/
def overwrite (bytes : Bytes) (offset : Nat) (field : Bytes) : Bytes :=
  bytes.take offset ++ field ++ bytes.drop (offset + field.length)

variable {bytes field : Bytes} {offset n : Nat}

theorem overwrite_length {offset : Nat} (h : offset + field.length ≤ bytes.length) :
    (overwrite bytes offset field).length = bytes.length := by
  simp only [overwrite, List.length_append, List.length_take, List.length_drop]
  omega

theorem window_length {bytes : Bytes} (h : offset + n ≤ bytes.length) : (window bytes offset n).length = n := by
  simp only [window, List.length_take, List.length_drop]
  omega

/-- A window of a concatenation, behind its first part. -/
theorem window_append_right {first second : Bytes} (h : first.length ≤ offset) :
    window (first ++ second) offset n = window second (offset - first.length) n := by
  rw [window, window, List.drop_append, List.drop_eq_nil_of_le h, List.nil_append]

theorem window_append_left {first second : Bytes} {n : Nat} (h : first.length = n) :
    window (first ++ second) 0 n = first := by
  rw [window, List.drop_zero, List.take_left' h]

theorem window_cons_succ (byte : UInt8) (bytes : Bytes) (offset n : Nat) :
    window (byte :: bytes) (offset + 1) n = window bytes offset n := rfl

/-- A string is its windows one after the other. -/
theorem window_append_drop (bytes : Bytes) (offset n : Nat) :
    window bytes offset n ++ bytes.drop (offset + n) = bytes.drop offset := by
  rw [window, ← List.drop_drop, List.take_append_drop]

theorem leBytes_leValue_window {bytes : Bytes} (h : offset + n ≤ bytes.length) :
    leBytes n (leValue (window bytes offset n)) = window bytes offset n := by
  have hbytes := leBytes_leValue (window bytes offset n)
  rwa [window_length h] at hbytes

/-- The window just written reads back. -/
theorem window_overwrite_self {offset : Nat} (h : offset ≤ bytes.length) :
    window (overwrite bytes offset field) offset field.length = field := by
  have hdrop : (overwrite bytes offset field).drop offset = field ++ bytes.drop (offset + field.length) := by
    rw [overwrite, List.append_assoc]
    apply List.drop_left'
    simpa using h
  rw [window, hdrop, List.take_left]

theorem getElem?_overwrite_of_lt {offset i : Nat} (hlen : offset ≤ bytes.length) (h : i < offset) :
    (overwrite bytes offset field)[i]? = bytes[i]? := by
  have htake : i < (bytes.take offset).length := by simp only [List.length_take]; omega
  rw [overwrite, List.append_assoc, List.getElem?_append_left htake, List.getElem?_take_of_lt h]

theorem getElem?_overwrite_of_le {offset i : Nat} (hlen : offset + field.length ≤ bytes.length)
    (h : offset + field.length ≤ i) : (overwrite bytes offset field)[i]? = bytes[i]? := by
  have hfirst : (bytes.take offset ++ field).length = offset + field.length := by
    simp only [List.length_append, List.length_take]
    omega
  rw [overwrite, List.getElem?_append_right (by omega), hfirst, List.getElem?_drop]
  congr 1
  omega

theorem window_ext {left right : Bytes} (h : ∀ i, offset ≤ i → i < offset + n → left[i]? = right[i]?) :
    window left offset n = window right offset n := by
  apply List.ext_getElem?
  intro i
  rw [window, window]
  by_cases hi : i < n
  · rw [List.getElem?_take_of_lt hi, List.getElem?_take_of_lt hi, List.getElem?_drop, List.getElem?_drop]
    exact h (offset + i) (by omega) (by omega)
  · rw [List.getElem?_take_eq_none (by omega), List.getElem?_take_eq_none (by omega)]

/-- A write leaves the windows beside it alone. -/
theorem window_overwrite_of_disjoint {offset at' n : Nat} (hlen : offset + field.length ≤ bytes.length)
    (h : at' + n ≤ offset ∨ offset + field.length ≤ at') :
    window (overwrite bytes offset field) at' n = window bytes at' n := by
  apply window_ext
  intro i hlow hhigh
  rcases h with h | h
  · exact getElem?_overwrite_of_lt (by omega) (by omega)
  · exact getElem?_overwrite_of_le hlen (by omega)

/-- A longer string behind the window changes nothing. -/
theorem window_append_of_le {first : Bytes} (second : Bytes) (h : offset + n ≤ first.length) :
    window (first ++ second) offset n = window first offset n := by
  apply window_ext
  intro i _ hhigh
  exact List.getElem?_append_left (by omega)

theorem window_take {bytes : Bytes} {k offset n : Nat} (h : offset + n ≤ k) :
    window (bytes.take k) offset n = window bytes offset n := by
  apply window_ext
  intro i _ hhigh
  exact List.getElem?_take_of_lt (by omega)

theorem window_set_of_not_mem {bytes : Bytes} {i offset n : Nat} (byte : UInt8) (h : i < offset ∨ offset + n ≤ i) :
    window (bytes.set i byte) offset n = window bytes offset n := by
  apply window_ext
  intro j hlow hhigh
  exact List.getElem?_set_ne (by omega)

theorem leValue_injective {left right : Bytes} (hlen : left.length = right.length) (h : leValue left = leValue right) :
    left = right := by
  rw [← leBytes_leValue left, ← leBytes_leValue right, hlen, h]

/-! ## Running checksums -/

section Checksum

variable {σ β : Type*} {step : σ → β → σ}

theorem foldl_injective (hstate : ∀ b, Function.Injective fun s => step s b) (bytes : List β) :
    Function.Injective fun s => bytes.foldl step s := by
  induction bytes with
  | nil => exact Function.injective_id
  | cons b rest ih => exact ih.comp (hstate b)

/-- A checksum whose step can be undone, in the state and in the byte, tells strings that differ in one place apart. -/
theorem foldl_set_ne (hstate : ∀ b, Function.Injective fun s => step s b) (hbyte : ∀ s, Function.Injective (step s))
    {bytes : List β} {i : Nat} {old new : β} (hold : bytes[i]? = some old) (hne : new ≠ old) (s : σ) :
    (bytes.set i new).foldl step s ≠ bytes.foldl step s := by
  induction bytes generalizing i s with
  | nil => simp at hold
  | cons b rest ih =>
    cases i with
    | zero =>
      rw [List.getElem?_cons_zero, Option.some.injEq] at hold
      subst hold
      intro heq
      exact hne (hbyte s (foldl_injective hstate rest heq))
    | succ i =>
      rw [List.getElem?_cons_succ] at hold
      exact ih hold (step s b)

end Checksum

/-! ## Bitmaps

Bit `i` is bit `i % 8` of byte `i / 8`. -/

def testBit (bitmap : Bytes) (i : Nat) : Bool := (bitmap.getD (i / 8) 0).toNat.testBit (i % 8)

def setBit (bitmap : Bytes) (i : Nat) : Bytes :=
  bitmap.set (i / 8) (UInt8.ofNat ((bitmap.getD (i / 8) 0).toNat ||| 2 ^ (i % 8)))

def clearBit (bitmap : Bytes) (i : Nat) : Bytes :=
  bitmap.set (i / 8) (UInt8.ofNat ((bitmap.getD (i / 8) 0).toNat &&& (255 ^^^ 2 ^ (i % 8))))

@[simp] theorem setBit_length (bitmap : Bytes) (i : Nat) : (setBit bitmap i).length = bitmap.length := by
  simp [setBit]

@[simp] theorem clearBit_length (bitmap : Bytes) (i : Nat) : (clearBit bitmap i).length = bitmap.length := by
  simp [clearBit]

theorem getD_set_byte (bitmap : Bytes) (i j : Nat) (byte : UInt8) (h : i < bitmap.length) :
    (bitmap.set i byte).getD j 0 = if i = j then byte else bitmap.getD j 0 := by
  rw [List.getD_eq_getElem?_getD, List.getElem?_set, List.getD_eq_getElem?_getD]
  by_cases hij : i = j
  · subst hij
    simp [h]
  · simp [hij]

theorem two_pow_mod_lt (i : Nat) : 2 ^ (i % 8) < 256 := by
  have hle : 2 ^ (i % 8) ≤ 2 ^ 7 := Nat.pow_le_pow_right (by decide) (by omega)
  exact Nat.lt_of_le_of_lt hle (by decide)

theorem testBit_replicate_zero (n i : Nat) : testBit (List.replicate n 0) i = false := by
  have hbyte : (List.replicate n (0 : UInt8)).getD (i / 8) 0 = 0 := by
    rw [List.getD_eq_getElem?_getD, List.getElem?_replicate]
    split <;> rfl
  rw [testBit, hbyte]
  exact Nat.zero_testBit _

theorem testBit_setBit {bitmap : Bytes} {i : Nat} (h : i < 8 * bitmap.length) (j : Nat) :
    testBit (setBit bitmap i) j = (decide (i = j) || testBit bitmap j) := by
  have hlt : (bitmap.getD (i / 8) 0).toNat ||| 2 ^ (i % 8) < 2 ^ 8 :=
    Nat.or_lt_two_pow (UInt8.toNat_lt _) (two_pow_mod_lt i)
  rw [testBit, setBit, getD_set_byte _ _ _ _ (by omega)]
  by_cases hbyte : i / 8 = j / 8
  · rw [if_pos hbyte, UInt8.toNat_ofNat', Nat.mod_eq_of_lt hlt, Nat.testBit_or, Nat.testBit_two_pow, testBit, hbyte,
      Bool.or_comm]
    congr 1
    rw [decide_eq_decide]
    omega
  · have hne : i ≠ j := fun heq => hbyte (by rw [heq])
    rw [if_neg hbyte, decide_eq_false hne, Bool.false_or, testBit]

theorem testBit_clearBit {bitmap : Bytes} {i : Nat} (h : i < 8 * bitmap.length) (j : Nat) :
    testBit (clearBit bitmap i) j = (!decide (i = j) && testBit bitmap j) := by
  have hlt : (bitmap.getD (i / 8) 0).toNat &&& (255 ^^^ 2 ^ (i % 8)) < 2 ^ 8 :=
    Nat.lt_of_le_of_lt Nat.and_le_left (UInt8.toNat_lt _)
  rw [testBit, clearBit, getD_set_byte _ _ _ _ (by omega)]
  by_cases hbyte : i / 8 = j / 8
  · have hones : (255 : Nat).testBit (j % 8) = true := by
      rw [show (255 : Nat) = 2 ^ 8 - 1 from rfl, Nat.testBit_two_pow_sub_one]
      simp only [decide_eq_true_eq]
      omega
    rw [if_pos hbyte, UInt8.toNat_ofNat', Nat.mod_eq_of_lt hlt, Nat.testBit_and, Nat.testBit_xor, hones,
      Nat.testBit_two_pow, testBit, hbyte, Bool.true_xor, Bool.and_comm]
    congr 2
    rw [decide_eq_decide]
    omega
  · have hne : i ≠ j := fun heq => hbyte (by rw [heq])
    rw [if_neg hbyte, decide_eq_false hne, Bool.not_false, Bool.true_and, testBit]

end Ddb.Lib
