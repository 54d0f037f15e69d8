import Mathlib.Tactic.Ring

/-!
# Linear memory

A memory is an array of bytes of some size, at most that of the 32-bit address space. An access
that leaves it has no result. Numbers stand in little-endian order: the byte at the lowest address
is the least significant one.

`read` is the number that a run of bytes spells, `readBig` the number they spell from the other end.
Every statement about numbers comes from one about bytes: `read_eq_mod` recognises a number by its
bytes, `read_add` splits a run in two and `read_eq_readBig` turns a run round.
-/

namespace HostGlue.Wat

/-- The bytes at and above `size` are not part of the memory; no access reaches them. -/
structure Memory where
  size : Nat
  byte : Nat → BitVec 8
  size_le : size ≤ 2 ^ 32

namespace Memory

theorem ext_byte {m m' : Memory} (hsize : m.size = m'.size) (hbyte : ∀ p, m.byte p = m'.byte p) :
    m = m' := by
  cases m
  cases m'
  obtain rfl := hsize
  obtain rfl := funext hbyte
  rfl

/-- The number that `n` bytes from `a` on spell, the lowest address least significant. -/
def read (m : Memory) (a : Nat) : Nat → Nat
  | 0 => 0
  | n + 1 => m.read a n + (m.byte (a + n)).toNat * 256 ^ n

/-- The number that `n` bytes from `a` on spell, the lowest address most significant. -/
def readBig (m : Memory) (a : Nat) : Nat → Nat
  | 0 => 0
  | n + 1 => m.readBig a n * 256 + (m.byte (a + n)).toNat

/-- The memory with the low `n` bytes of a number put at `a`. -/
def write (m : Memory) (a n v : Nat) : Memory where
  size := m.size
  byte p := if a ≤ p ∧ p < a + n then BitVec.ofNat 8 (v / 256 ^ (p - a)) else m.byte p
  size_le := m.size_le

/-- The memory with the `n` bytes from `a` on in reversed order. -/
def reverse (m : Memory) (a n : Nat) : Memory where
  size := m.size
  byte p := if a ≤ p ∧ p < a + n then m.byte (a + (a + n - 1 - p)) else m.byte p
  size_le := m.size_le

/-- A memory of 4096 bytes. -/
def page (byte : Nat → BitVec 8) : Memory where
  size := 4096
  byte := byte
  size_le := by decide

/-- Reads `n` bytes at `a`, all of which have to be in the memory. -/
def load? (m : Memory) (a n : Nat) : Option Nat :=
  if a + n ≤ m.size then some (m.read a n) else none

/-- Writes `n` bytes at `a`, all of which have to be in the memory. -/
def store? (m : Memory) (a n v : Nat) : Option Memory :=
  if a + n ≤ m.size then some (m.write a n v) else none

/-! ## Bytes after a write -/

theorem write_byte_of_mem {m : Memory} {a n v p : Nat} (h : a ≤ p ∧ p < a + n) :
    (m.write a n v).byte p = BitVec.ofNat 8 (v / 256 ^ (p - a)) := if_pos h

theorem write_byte_of_not_mem {m : Memory} {a n v p : Nat} (h : ¬ (a ≤ p ∧ p < a + n)) :
    (m.write a n v).byte p = m.byte p := if_neg h

theorem write_zero_byte_of_mem {m : Memory} {a n p : Nat} (h : a ≤ p ∧ p < a + n) :
    (m.write a n 0).byte p = 0 := by
  rw [write_byte_of_mem h, Nat.zero_div]
  rfl

/-- A write of zeros clears what it covers and never sets a bit. -/
theorem write_zero_byte_eq_zero {m : Memory} {a n p : Nat} (h : m.byte p = 0) :
    (m.write a n 0).byte p = 0 := by
  by_cases hp : a ≤ p ∧ p < a + n
  · exact write_zero_byte_of_mem hp
  · rw [write_byte_of_not_mem hp, h]

theorem write_empty (m : Memory) (a v : Nat) : m.write a 0 v = m :=
  ext_byte rfl fun p => write_byte_of_not_mem (by omega)

/-- Two neighbouring runs of zeros are one run. -/
theorem write_zero_append (m : Memory) (a n k : Nat) :
    (m.write a n 0).write (a + n) k 0 = m.write a (n + k) 0 := by
  refine ext_byte rfl fun p => ?_
  by_cases late : a + n ≤ p ∧ p < a + n + k
  · rw [write_zero_byte_of_mem late, write_zero_byte_of_mem (by omega)]
  · rw [write_byte_of_not_mem late]
    by_cases early : a ≤ p ∧ p < a + n
    · rw [write_zero_byte_of_mem early, write_zero_byte_of_mem (by omega)]
    · rw [write_byte_of_not_mem early, write_byte_of_not_mem (by omega)]

theorem write_zero_prepend (m : Memory) (a n k : Nat) :
    (m.write (a + n) k 0).write a n 0 = m.write a (n + k) 0 := by
  refine ext_byte rfl fun p => ?_
  by_cases early : a ≤ p ∧ p < a + n
  · rw [write_zero_byte_of_mem early, write_zero_byte_of_mem (by omega)]
  · rw [write_byte_of_not_mem early]
    by_cases late : a + n ≤ p ∧ p < a + n + k
    · rw [write_zero_byte_of_mem late, write_zero_byte_of_mem (by omega)]
    · rw [write_byte_of_not_mem late, write_byte_of_not_mem (by omega)]

/-- Zeros behind a number are its high bytes, as long as the number fits in front of them. -/
theorem write_append_zero {m : Memory} {a n k v : Nat} (h : v < 256 ^ n) :
    (m.write a n v).write (a + n) k 0 = m.write a (n + k) v := by
  refine ext_byte rfl fun p => ?_
  by_cases late : a + n ≤ p ∧ p < a + n + k
  · have small : v / 256 ^ (p - a) = 0 :=
      Nat.div_eq_of_lt (lt_of_lt_of_le h (Nat.pow_le_pow_right (by omega) (by omega)))
    rw [write_zero_byte_of_mem late, write_byte_of_mem (by omega), small]
    rfl
  · rw [write_byte_of_not_mem late]
    by_cases early : a ≤ p ∧ p < a + n
    · rw [write_byte_of_mem early, write_byte_of_mem (by omega)]
    · rw [write_byte_of_not_mem early, write_byte_of_not_mem (by omega)]

/-! ## Numbers -/

theorem read_congr {m m' : Memory} {a n : Nat} (h : ∀ i < n, m.byte (a + i) = m'.byte (a + i)) :
    m.read a n = m'.read a n := by
  induction n with
  | zero => rfl
  | succ n ih =>
      rw [read, read, ih fun i hi => h i (by omega), h n (by omega)]

/-- A run of bytes is a low part and a high part. -/
theorem read_add (m : Memory) (a n k : Nat) :
    m.read a (n + k) = m.read a n + 256 ^ n * m.read (a + n) k := by
  induction k with
  | zero => simp [read]
  | succ k ih =>
      rw [← Nat.add_assoc, read, ih, read, Nat.add_assoc a n k]
      ring

theorem read_eq_zero {m : Memory} {a n : Nat} (h : ∀ i < n, m.byte (a + i) = 0) :
    m.read a n = 0 := by
  induction n with
  | zero => rfl
  | succ n ih =>
      rw [read, ih fun i hi => h i (by omega), h n (by omega)]
      simp

/-- A number is known by its bytes. -/
theorem read_eq_mod {m : Memory} {a n v : Nat}
    (h : ∀ i < n, m.byte (a + i) = BitVec.ofNat 8 (v / 256 ^ i)) :
    m.read a n = v % 256 ^ n := by
  induction n with
  | zero => simp [read, Nat.mod_one]
  | succ n ih =>
      have last : (m.byte (a + n)).toNat = v / 256 ^ n % 256 := by
        rw [h n (by omega), BitVec.toNat_ofNat]
      rw [read, ih fun i hi => h i (by omega), last, Nat.mod_pow_succ]
      ring

theorem read_lt (m : Memory) (a n : Nat) : m.read a n < 256 ^ n := by
  induction n with
  | zero => exact Nat.one_pos
  | succ n ih =>
      have last := (m.byte (a + n)).isLt
      have top : (m.byte (a + n)).toNat * 256 ^ n ≤ 255 * 256 ^ n :=
        Nat.mul_le_mul_right _ (by omega)
      rw [read, Nat.pow_succ]
      omega

/-- The low bytes of a number spell its remainder. -/
theorem read_mod {m : Memory} {a n k : Nat} (h : k ≤ n) : m.read a n % 256 ^ k = m.read a k := by
  obtain ⟨j, rfl⟩ := Nat.exists_eq_add_of_le h
  rw [read_add, Nat.add_mul_mod_self_left, Nat.mod_eq_of_lt (m.read_lt a k)]

theorem read_write {m : Memory} {a n k v : Nat} (h : k ≤ n) :
    (m.write a n v).read a k = v % 256 ^ k := by
  refine read_eq_mod fun i hi => ?_
  rw [write_byte_of_mem (by omega), Nat.add_sub_cancel_left]

/-- Clearing the bytes above the lowest `n` leaves the number that those spell. -/
theorem read_write_zero_above {m : Memory} {a n j k : Nat} (h : k ≤ n + j) :
    (m.write (a + n) j 0).read a k = m.read a n % 256 ^ k := by
  have below (i : Nat) (hi : i < n) : (m.write (a + n) j 0).byte (a + i) = m.byte (a + i) :=
    write_byte_of_not_mem (by omega)
  rcases Nat.le_total k n with le | le
  · rw [read_mod le]
    exact read_congr fun i hi => below i (by omega)
  · obtain ⟨i, rfl⟩ := Nat.exists_eq_add_of_le le
    have high : (m.write (a + n) j 0).read (a + n) i = 0 :=
      read_eq_zero fun i hi => write_zero_byte_of_mem (by omega)
    have small : m.read a n < 256 ^ (n + i) :=
      lt_of_lt_of_le (m.read_lt a n) (Nat.pow_le_pow_right (by decide) le)
    rw [read_add, read_congr below, high, Nat.mul_zero, Nat.add_zero, Nat.mod_eq_of_lt small]

/-- Bytes in reversed order spell the same number from the other end. -/
theorem read_eq_readBig {m m' : Memory} {a b n : Nat}
    (h : ∀ i < n, m.byte (a + i) = m'.byte (b + (n - 1 - i))) :
    m.read a n = m'.readBig b n := by
  induction n generalizing a with
  | zero => rfl
  | succ n ih =>
      have first : m.byte a = m'.byte (b + n) := by simpa using h 0 (by omega)
      have rest : m.read (a + 1) n = m'.readBig b n := by
        refine ih fun i hi => ?_
        have next := h (i + 1) (by omega)
        rwa [show a + (i + 1) = a + 1 + i by omega,
          show n + 1 - 1 - (i + 1) = n - 1 - i by omega] at next
      have head : m.read a 1 = (m'.byte (b + n)).toNat := by simp [read, first]
      rw [Nat.add_comm n 1, read_add, head, rest, Nat.add_comm 1 n, readBig]
      ring

theorem read_reverse (m : Memory) (a n : Nat) : (m.reverse a n).read a n = m.readBig a n := by
  refine read_eq_readBig fun i hi => ?_
  show (if _ then _ else _) = _
  rw [if_pos (by omega), show a + n - 1 - (a + i) = n - 1 - i by omega]

end Memory

end HostGlue.Wat
