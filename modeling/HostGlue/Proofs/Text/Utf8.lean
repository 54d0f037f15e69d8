import HostGlue.Text.Utf8

/-!
# Decoding undoes encoding

The bytes of a character are followed through the decoder by the number of its bytes. What the first
byte allows for the second leaves out the numbers that a character cannot have, so the cases at the
ends of the ranges rest on the character's number: one of three bytes is no surrogate, one of four
is at least U+10000 and at most U+10FFFF.
-/

namespace HostGlue.Text.Utf8

variable {n position : Nat} {rest : List UInt8}

theorem toNat_byte (h : n < 256) : (UInt8.ofNat n).toNat = n := UInt8.toNat_ofNat_of_lt' h

/-- A first byte, by its number. -/
theorem followers_byte (h : n < 256) : followers (UInt8.ofNat n) =
    if n < 0x80 then some []
    else if n < 0xC2 then none
    else if n < 0xE0 then some [.tail]
    else if n = 0xE0 then some [⟨0xA0, 0xBF⟩, .tail]
    else if n = 0xED then some [⟨0x80, 0x9F⟩, .tail]
    else if n < 0xF0 then some [.tail, .tail]
    else if n = 0xF0 then some [⟨0x90, 0xBF⟩, .tail, .tail]
    else if n < 0xF4 then some [.tail, .tail, .tail]
    else if n = 0xF4 then some [⟨0x80, 0x8F⟩, .tail, .tail]
    else none := by
  unfold followers
  simp only [UInt8.lt_iff_toNat_lt, ← UInt8.toNat_inj, toNat_byte h, UInt8.reduceToNat]

theorem leadBits_byte (h : n < 256) : leadBits (UInt8.ofNat n) =
    if n < 0x80 then n else if n < 0xE0 then n % 0x20 else if n < 0xF0 then n % 0x10
    else n % 0x08 := by
  unfold leadBits
  simp only [UInt8.lt_iff_toNat_lt, toNat_byte h, UInt8.reduceToNat]

theorem decodeFrom_single (h : n < 0x80) : decodeFrom position none (UInt8.ofNat n :: rest) =
    (decodeFrom (position + 1) none rest).map (Char.ofNat n :: ·) := by
  have small : n < 256 := by omega
  rw [decodeFrom, followers_byte small, leadBits_byte small, if_pos h, if_pos h]

theorem decodeFrom_lead {r : ByteRange} {rs : List ByteRange}
    (allowed : followers (UInt8.ofNat n) = some (r :: rs)) :
    decodeFrom position none (UInt8.ofNat n :: rest) =
      decodeFrom (position + 1)
        (some ⟨UInt8.ofNat n, position, leadBits (UInt8.ofNat n), r, rs⟩) rest := by
  rw [decodeFrom, allowed]

theorem tail_byte (n : Nat) :
    ByteRange.tail.first.toNat ≤ n % 64 + 128 ∧ n % 64 + 128 ≤ ByteRange.tail.last.toNat :=
  ⟨show 0x80 ≤ _ by omega, show _ ≤ 0xBF by omega⟩

/-- A byte in the range that is expected continues the character. -/
theorem decodeFrom_next {u : Unfinished} (h : n < 256)
    (inside : u.next.first.toNat ≤ n ∧ n ≤ u.next.last.toNat) {r : ByteRange}
    {rs : List ByteRange} (more : u.more = r :: rs) :
    decodeFrom position (some u) (UInt8.ofNat n :: rest) =
      decodeFrom (position + 1)
        (some { u with bits := u.bits * 0x40 + n % 0x40, next := r, more := rs }) rest := by
  have contains : u.next.contains (UInt8.ofNat n) = true := by
    simpa [ByteRange.contains, UInt8.le_iff_toNat_le, toNat_byte h] using inside
  rw [decodeFrom, if_pos contains, more, toNat_byte h]

/-- The last byte in its range completes the character. -/
theorem decodeFrom_last {u : Unfinished} (h : n < 256)
    (inside : u.next.first.toNat ≤ n ∧ n ≤ u.next.last.toNat) (more : u.more = []) :
    decodeFrom position (some u) (UInt8.ofNat n :: rest) =
      (decodeFrom (position + 1) none rest).map (Char.ofNat (u.bits * 0x40 + n % 0x40) :: ·) := by
  have contains : u.next.contains (UInt8.ofNat n) = true := by
    simpa [ByteRange.contains, UInt8.le_iff_toNat_le, toNat_byte h] using inside
  rw [decodeFrom, if_pos contains, more, toNat_byte h]

theorem decodeFrom_two (low : 0x80 ≤ n) (high : n < 0x800) :
    decodeFrom position none
        (UInt8.ofNat (n / 64 % 32 + 192) :: UInt8.ofNat (n % 64 + 128) :: rest) =
      (decodeFrom (position + 2) none rest).map (Char.ofNat n :: ·) := by
  have lead : followers (UInt8.ofNat (n / 64 % 32 + 192)) = some [.tail] := by
    rw [followers_byte (by omega), if_neg (by omega), if_neg (by omega), if_pos (by omega)]
  have bits : leadBits (UInt8.ofNat (n / 64 % 32 + 192)) = n / 64 := by
    rw [leadBits_byte (by omega), if_neg (by omega), if_pos (by omega)]
    omega
  have whole : n / 64 * 0x40 + (n % 64 + 128) % 0x40 = n := by omega
  rw [decodeFrom_lead lead, decodeFrom_last (by omega) (tail_byte n) rfl, bits, whole]

/-- The second byte of three has a range of its own if it is the first that tells a short form or a
surrogate. -/
theorem decodeFrom_three (low : 0x800 ≤ n) (high : n < 0x10000)
    (noSurrogate : n < 0xD800 ∨ 0xDFFF < n) :
    decodeFrom position none (UInt8.ofNat (n / 4096 % 16 + 224) ::
        UInt8.ofNat (n / 64 % 64 + 128) :: UInt8.ofNat (n % 64 + 128) :: rest) =
      (decodeFrom (position + 3) none rest).map (Char.ofNat n :: ·) := by
  obtain ⟨r, lead, inside⟩ : ∃ r, followers (UInt8.ofNat (n / 4096 % 16 + 224)) = some [r, .tail] ∧
      r.first.toNat ≤ n / 64 % 64 + 128 ∧ n / 64 % 64 + 128 ≤ r.last.toNat := by
    rw [followers_byte (by omega), if_neg (by omega), if_neg (by omega), if_neg (by omega)]
    -- E0 could begin a short form and ED a surrogate; the bounds on `n` keep the byte in range
    by_cases first : n / 4096 % 16 + 224 = 0xE0
    · rw [if_pos first]
      exact ⟨_, rfl, show 0xA0 ≤ _ by omega, show _ ≤ 0xBF by omega⟩
    · rw [if_neg first]
      by_cases surrogates : n / 4096 % 16 + 224 = 0xED
      · rw [if_pos surrogates]
        exact ⟨_, rfl, show 0x80 ≤ _ by omega, show _ ≤ 0x9F by omega⟩
      · rw [if_neg surrogates, if_pos (by omega)]
        exact ⟨_, rfl, tail_byte _⟩
  have bits : leadBits (UInt8.ofNat (n / 4096 % 16 + 224)) = n / 4096 := by
    rw [leadBits_byte (by omega), if_neg (by omega), if_neg (by omega), if_pos (by omega)]
    omega
  have whole : (n / 4096 * 0x40 + (n / 64 % 64 + 128) % 0x40) * 0x40 + (n % 64 + 128) % 0x40 =
      n := by omega
  rw [decodeFrom_lead lead, decodeFrom_next (by omega) inside rfl,
    decodeFrom_last (by omega) (tail_byte n) rfl, bits, whole]

/-- The second byte of four has a range of its own if it is the first that tells a short form or a
number that is too large. -/
theorem decodeFrom_four (low : 0x10000 ≤ n) (high : n < 0x110000) :
    decodeFrom position none (UInt8.ofNat (n / 262144 % 8 + 240) ::
        UInt8.ofNat (n / 4096 % 64 + 128) :: UInt8.ofNat (n / 64 % 64 + 128) ::
        UInt8.ofNat (n % 64 + 128) :: rest) =
      (decodeFrom (position + 4) none rest).map (Char.ofNat n :: ·) := by
  obtain ⟨r, lead, inside⟩ : ∃ r,
      followers (UInt8.ofNat (n / 262144 % 8 + 240)) = some [r, .tail, .tail] ∧
        r.first.toNat ≤ n / 4096 % 64 + 128 ∧ n / 4096 % 64 + 128 ≤ r.last.toNat := by
    rw [followers_byte (by omega), if_neg (by omega), if_neg (by omega), if_neg (by omega),
      if_neg (by omega), if_neg (by omega), if_neg (by omega)]
    -- F0 could begin a short form and F4 a number that is too large
    by_cases first : n / 262144 % 8 + 240 = 0xF0
    · rw [if_pos first]
      exact ⟨_, rfl, show 0x90 ≤ _ by omega, show _ ≤ 0xBF by omega⟩
    · rw [if_neg first]
      by_cases last : n / 262144 % 8 + 240 = 0xF4
      · rw [if_neg (by omega), if_pos last]
        exact ⟨_, rfl, show 0x80 ≤ _ by omega, show _ ≤ 0x8F by omega⟩
      · rw [if_pos (by omega)]
        exact ⟨_, rfl, tail_byte _⟩
  have bits : leadBits (UInt8.ofNat (n / 262144 % 8 + 240)) = n / 262144 := by
    rw [leadBits_byte (by omega), if_neg (by omega), if_neg (by omega), if_neg (by omega)]
    omega
  have whole : ((n / 262144 * 0x40 + (n / 4096 % 64 + 128) % 0x40) * 0x40 +
      (n / 64 % 64 + 128) % 0x40) * 0x40 + (n % 64 + 128) % 0x40 = n := by omega
  rw [decodeFrom_lead lead, decodeFrom_next (by omega) inside rfl,
    decodeFrom_next (by omega) (tail_byte _) rfl, decodeFrom_last (by omega) (tail_byte n) rfl,
    bits, whole]

/-- The bytes of a character are read as that character, with any bytes behind them. -/
theorem decodeFrom_encodeChar (c : Char) (position : Nat) (rest : List UInt8) : ∃ next,
    decodeFrom position none (String.utf8EncodeChar c ++ rest) =
      (decodeFrom next none rest).map (c :: ·) := by
  obtain ⟨n, hn⟩ : ∃ n, n = c.val.toNat := ⟨_, rfl⟩
  have back : Char.ofNat n = c := hn ▸ Char.ofNat_toNat c
  have valid : n < 0xD800 ∨ 0xDFFF < n ∧ n < 0x110000 := hn ▸ c.valid
  rw [String.utf8EncodeChar]
  rw [← hn, ← back]
  split
  · exact ⟨_, decodeFrom_single (by omega)⟩
  · split
    · exact ⟨_, decodeFrom_two (by omega) (by omega)⟩
    · split
      · exact ⟨_, decodeFrom_three (by omega) (by omega) (by omega)⟩
      · exact ⟨_, decodeFrom_four (by omega) (by omega)⟩

/-- **Decoding undoes encoding.** -/
theorem decode_encode (s : String) : decode (encode s) = .ok s := by
  have decodes (position : Nat) (cs : List Char) :
      decodeFrom position none (cs.flatMap String.utf8EncodeChar) = .ok cs := by
    induction cs generalizing position with
    | nil => rfl
    | cons c rest ih =>
        obtain ⟨next, step⟩ :=
          decodeFrom_encodeChar c position (rest.flatMap String.utf8EncodeChar)
        rw [List.flatMap_cons, step, ih]
        rfl
  rw [decode, encode, decodes]
  exact congrArg Except.ok (String.ofList_toList)

end HostGlue.Text.Utf8
