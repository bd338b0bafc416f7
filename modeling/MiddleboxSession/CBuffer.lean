/-
  MiddleboxSession/CBuffer.lean
  =============================
  **Fixed-size byte buffers with checked access.**

  A `Buf` is a C array of `size` bytes.  Every access names its offset and its
  length; one that leaves the array is undefined behaviour in C and `none`
  here.  `Holds b off bs` says that the bytes `bs` stand at `off`, and the
  lemmas move it through the writes: a write establishes `Holds` at its own
  place and keeps it at every disjoint place.  A 32-bit word occupies four
  bytes, least significant first, a 16-bit word two.  `bytes` and `words` are
  stretches of a buffer without a bounds check.
-/
import Mathlib.Data.BitVec
import Mathlib.Data.List.Basic
import Mathlib.Tactic

namespace CBuffer

abbrev Byte := BitVec 8

/-! ### Words as bytes -/

def wordBytes (w : BitVec 32) : List Byte :=
  [w.extractLsb' 0 8, w.extractLsb' 8 8, w.extractLsb' 16 8, w.extractLsb' 24 8]

def bytesWord (b0 b1 b2 b3 : Byte) : BitVec 32 := b3 ++ b2 ++ b1 ++ b0

def halfBytes (h : BitVec 16) : List Byte := [h.extractLsb' 0 8, h.extractLsb' 8 8]

def bytesHalf (b0 b1 : Byte) : BitVec 16 := b1 ++ b0

@[simp] theorem length_wordBytes (w : BitVec 32) : (wordBytes w).length = 4 := rfl

@[simp] theorem length_halfBytes (h : BitVec 16) : (halfBytes h).length = 2 := rfl

theorem bytesWord_wordBytes (w : BitVec 32) :
    bytesWord (w.extractLsb' 0 8) (w.extractLsb' 8 8) (w.extractLsb' 16 8)
      (w.extractLsb' 24 8) = w := by
  apply BitVec.eq_of_toNat_eq
  have hw : w.toNat < 2 ^ 32 := w.isLt
  simp only [bytesWord, BitVec.toNat_append, BitVec.extractLsb'_toNat, Nat.shiftRight_eq_div_pow]
  rw [← Nat.shiftLeft_add_eq_or_of_lt (by omega), ← Nat.shiftLeft_add_eq_or_of_lt (by omega),
    ← Nat.shiftLeft_add_eq_or_of_lt (by omega)]
  simp only [Nat.shiftLeft_eq]
  omega

theorem bytesHalf_halfBytes (h : BitVec 16) :
    bytesHalf (h.extractLsb' 0 8) (h.extractLsb' 8 8) = h := by
  apply BitVec.eq_of_toNat_eq
  have hh : h.toNat < 2 ^ 16 := h.isLt
  simp only [bytesHalf, BitVec.toNat_append, BitVec.extractLsb'_toNat, Nat.shiftRight_eq_div_pow]
  rw [← Nat.shiftLeft_add_eq_or_of_lt (by omega)]
  simp only [Nat.shiftLeft_eq]
  omega

theorem wordBytes_bytesWord (b0 b1 b2 b3 : Byte) :
    wordBytes (bytesWord b0 b1 b2 b3) = [b0, b1, b2, b3] := by
  have h0 : (b3 ++ b2 ++ b1 ++ b0).extractLsb' 0 8 = b0 := BitVec.extractLsb'_append_eq_right
  have h1 : (b3 ++ b2 ++ b1 ++ b0).extractLsb' 8 8 = b1 := by
    rw [BitVec.extractLsb'_append_eq_of_le (by decide)]
    exact BitVec.extractLsb'_append_eq_right
  have h2 : (b3 ++ b2 ++ b1 ++ b0).extractLsb' 16 8 = b2 := by
    rw [BitVec.extractLsb'_append_eq_of_le (by decide),
      BitVec.extractLsb'_append_eq_of_le (by decide)]
    exact BitVec.extractLsb'_append_eq_right
  have h3 : (b3 ++ b2 ++ b1 ++ b0).extractLsb' 24 8 = b3 := by
    rw [BitVec.extractLsb'_append_eq_of_le (by decide),
      BitVec.extractLsb'_append_eq_of_le (by decide)]
    exact BitVec.extractLsb'_append_eq_left
  rw [wordBytes, bytesWord, h0, h1, h2, h3]

theorem halfBytes_bytesHalf (b0 b1 : Byte) : halfBytes (bytesHalf b0 b1) = [b0, b1] := by
  rw [halfBytes, bytesHalf, BitVec.extractLsb'_append_eq_right,
    BitVec.extractLsb'_append_eq_left]

theorem toNat_bytesHalf (b0 b1 : Byte) : (bytesHalf b0 b1).toNat = b0.toNat + 256 * b1.toNat := by
  rw [bytesHalf, BitVec.toNat_append, ← Nat.shiftLeft_add_eq_or_of_lt b0.isLt, Nat.shiftLeft_eq]
  omega

/-! ### Buffers -/

/-- An array of `size` bytes.  What `byte` says at and after `size` is never
    read by a checked access. -/
structure Buf where
  size : Nat
  byte : Nat → Byte

namespace Buf

/-- The array that a variable-length declaration of `n` bytes makes; a length
    that is not positive is undefined behaviour. -/
def alloca (n : Int) : Option Buf :=
  if 0 < n then some ⟨n.toNat, fun _ => 0⟩ else none

def read (b : Buf) (off : Nat) (len : Int) : Option (List Byte) :=
  if 0 ≤ len ∧ off + len ≤ b.size then
    some ((List.range len.toNat).map fun i => b.byte (off + i))
  else none

def write (b : Buf) (off : Nat) (bs : List Byte) : Option Buf :=
  if off + bs.length ≤ b.size then
    some { b with
      byte := fun i => if off ≤ i ∧ i < off + bs.length then bs.getD (i - off) 0 else b.byte i }
  else none

/-- `*(int *)(b + off)`, without a bounds check. -/
def word (b : Buf) (off : Nat) : BitVec 32 :=
  bytesWord (b.byte off) (b.byte (off + 1)) (b.byte (off + 2)) (b.byte (off + 3))

def half (b : Buf) (off : Nat) : BitVec 16 := bytesHalf (b.byte off) (b.byte (off + 1))

/-- `*(int *)(b + off)` inside the array. -/
def readWord (b : Buf) (off : Nat) : Option (BitVec 32) :=
  if off + 4 ≤ b.size then some (b.word off) else none

/-- `*(unsigned short *)(b + off)` inside the array. -/
def readHalf (b : Buf) (off : Nat) : Option (BitVec 16) :=
  if off + 2 ≤ b.size then some (b.half off) else none

def memset (b : Buf) (off : Nat) (c : Byte) (len : Nat) : Option Buf :=
  b.write off (List.replicate len c)

/-- The distance to the first zero byte at or after `off`. -/
def strlen (b : Buf) (off : Nat) : Option Nat :=
  (List.range (b.size - off)).find? fun i => b.byte (off + i) = 0

def memcpy (dst : Buf) (doff : Nat) (src : Buf) (soff : Nat) (len : Int) : Option Buf :=
  (src.read soff len).bind fun bs => dst.write doff bs

/-! ### What stands in a buffer -/

/-- The bytes `bs` stand in `b` from offset `off` on. -/
def Holds (b : Buf) (off : Nat) (bs : List Byte) : Prop :=
  ∀ i (hi : i < bs.length), b.byte (off + i) = bs[i]

theorem holds_nil (b : Buf) (off : Nat) : b.Holds off [] := by
  intro i hi
  exact absurd hi (by simp)

theorem holds_append {b : Buf} {off : Nat} {as bs : List Byte} :
    b.Holds off (as ++ bs) ↔ b.Holds off as ∧ b.Holds (off + as.length) bs := by
  constructor
  · intro h
    refine ⟨fun i hi => ?_, fun i hi => ?_⟩
    · have := h i (by simp; omega)
      rwa [List.getElem_append_left hi] at this
    · have := h (as.length + i) (by simp; omega)
      rw [List.getElem_append_right (by omega)] at this
      rw [Nat.add_assoc, this]
      congr 1
      omega
  · rintro ⟨ha, hb⟩ i hi
    by_cases hia : i < as.length
    · rw [List.getElem_append_left hia]; exact ha i hia
    · rw [List.getElem_append_right (by omega)]
      have := hb (i - as.length) (by simp at hi; omega)
      rwa [show off + as.length + (i - as.length) = off + i by omega] at this

theorem Holds.left {b : Buf} {off : Nat} {as bs : List Byte} (h : b.Holds off (as ++ bs)) :
    b.Holds off as := (holds_append.mp h).1

theorem Holds.right {b : Buf} {off : Nat} {as bs : List Byte} (h : b.Holds off (as ++ bs)) :
    b.Holds (off + as.length) bs := (holds_append.mp h).2

theorem Holds.read {b : Buf} {off : Nat} {bs : List Byte} (h : b.Holds off bs) (len : Int)
    (hlen : len = bs.length) (hsize : off + bs.length ≤ b.size) : b.read off len = some bs := by
  subst hlen
  rw [Buf.read, if_pos (by omega), Int.toNat_natCast]
  congr 1
  apply List.ext_getElem (by simp)
  intro i h1 h2
  simpa using h i h2

theorem Holds.word {b : Buf} {off : Nat} {w : BitVec 32} (h : b.Holds off (wordBytes w)) :
    b.word off = w := by
  have h0 := h 0 (by simp)
  have h1 := h 1 (by simp)
  have h2 := h 2 (by simp)
  have h3 := h 3 (by simp)
  simp only [wordBytes, List.getElem_cons_zero, List.getElem_cons_succ, Nat.add_zero] at h0 h1 h2 h3
  rw [Buf.word, h0, h1, h2, h3, bytesWord_wordBytes]

theorem Holds.half {b : Buf} {off : Nat} {w : BitVec 16} (h : b.Holds off (halfBytes w)) :
    b.half off = w := by
  have h0 := h 0 (by simp)
  have h1 := h 1 (by simp)
  simp only [halfBytes, List.getElem_cons_zero, List.getElem_cons_succ, Nat.add_zero] at h0 h1
  rw [Buf.half, h0, h1, bytesHalf_halfBytes]

theorem Holds.readWord {b : Buf} {off : Nat} {w : BitVec 32} (h : b.Holds off (wordBytes w))
    (hsize : off + 4 ≤ b.size) : b.readWord off = some w := by
  rw [Buf.readWord, if_pos hsize, h.word]

theorem holds_word (b : Buf) (off : Nat) : b.Holds off (wordBytes (b.word off)) := by
  rw [word, wordBytes_bytesWord]
  intro i hi
  have : i = 0 ∨ i = 1 ∨ i = 2 ∨ i = 3 := by simp at hi; omega
  rcases this with rfl | rfl | rfl | rfl <;> rfl

theorem holds_half (b : Buf) (off : Nat) : b.Holds off (halfBytes (b.half off)) := by
  rw [half, halfBytes_bytesHalf]
  intro i hi
  have : i = 0 ∨ i = 1 := by simp at hi; omega
  rcases this with rfl | rfl <;> rfl

/-- What a buffer has from an offset on. -/
theorem holds_bytes (b : Buf) (off len : Nat) :
    b.Holds off ((List.range len).map fun i => b.byte (off + i)) := by
  intro i hi
  simp

/-! ### What a write does -/

/-- A write inside the array succeeds; its bytes stand where it put them, and
    whatever stood outside its range still does. -/
theorem write_spec (b : Buf) (off : Nat) (bs : List Byte) (hsize : off + bs.length ≤ b.size) :
    ∃ b', b.write off bs = some b' ∧ b'.size = b.size ∧ b'.Holds off bs ∧
      ∀ off' cs, off' + cs.length ≤ off ∨ off + bs.length ≤ off' →
        b.Holds off' cs → b'.Holds off' cs := by
  refine ⟨_, if_pos hsize, rfl, fun i hi => ?_, fun off' cs hdisj h i hi => ?_⟩
  · simp [hi]
  · have hout : ¬ (off ≤ off' + i ∧ off' + i < off + bs.length) := by omega
    simp only [if_neg hout]
    exact h i hi

theorem memcpy_spec {src : Buf} {soff : Nat} {bs : List Byte} (dst : Buf) (doff : Nat) (len : Int)
    (hsrc : src.Holds soff bs) (hlen : len = bs.length) (hs : soff + bs.length ≤ src.size)
    (hd : doff + bs.length ≤ dst.size) :
    ∃ dst', dst.memcpy doff src soff len = some dst' ∧ dst'.size = dst.size ∧
      dst'.Holds doff bs ∧
      ∀ off' cs, off' + cs.length ≤ doff ∨ doff + bs.length ≤ off' →
        dst.Holds off' cs → dst'.Holds off' cs := by
  obtain ⟨dst', hw, h⟩ := write_spec dst doff bs hd
  exact ⟨dst', by rw [memcpy, hsrc.read len hlen hs]; exact hw, h⟩

theorem alloca_spec {n : Int} (h : 0 < n) : ∃ b, alloca n = some b ∧ (b.size : Int) = n :=
  ⟨_, if_pos h, by simp; omega⟩

/-- The array after a write, without a bounds check. -/
def set (b : Buf) (off : Nat) (bs : List Byte) : Buf :=
  { b with
    byte := fun i => if off ≤ i ∧ i < off + bs.length then bs.getD (i - off) 0 else b.byte i }

theorem write_eq_set {b : Buf} {off : Nat} {bs : List Byte} (h : off + bs.length ≤ b.size) :
    b.write off bs = some (b.set off bs) := if_pos h

theorem byte_set (b : Buf) (off : Nat) (bs : List Byte) (i : Nat) :
    (b.set off bs).byte i =
      if off ≤ i ∧ i < off + bs.length then bs.getD (i - off) 0 else b.byte i := rfl

theorem memset_spec (b : Buf) (off : Nat) (c : Byte) (len : Nat) (h : off + len ≤ b.size) :
    ∃ b', b.memset off c len = some b' ∧ b'.size = b.size ∧
      ∀ i, b'.byte i = if off ≤ i ∧ i < off + len then c else b.byte i := by
  have hfit : off + (List.replicate len c).length ≤ b.size := by
    rwa [List.length_replicate]
  refine ⟨_, write_eq_set hfit, rfl, fun i => ?_⟩
  rw [byte_set, List.length_replicate]
  split
  · rw [List.getD_eq_getElem?_getD, List.getElem?_replicate_of_lt (by omega), Option.getD_some]
  · rfl

/-- Bytes that are written behind others. -/
theorem Holds.set_append {b : Buf} {as : List Byte} (h : b.Holds 0 as) (bs : List Byte) :
    (b.set as.length bs).Holds 0 (as ++ bs) := by
  rw [holds_append]
  refine ⟨fun i hi => ?_, fun i hi => ?_⟩
  · rw [byte_set, if_neg (by omega)]
    exact h i hi
  · rw [byte_set, if_pos (by omega), Nat.zero_add, Nat.add_sub_cancel_left,
      List.getD_eq_getElem?_getD, List.getElem?_eq_getElem hi, Option.getD_some]

theorem strlen_eq {b : Buf} {off n : Nat} (hsize : off + n < b.size)
    (hne : ∀ i < n, b.byte (off + i) ≠ 0) (hzero : b.byte (off + n) = 0) :
    b.strlen off = some n := by
  rw [strlen, List.find?_range_eq_some]
  refine ⟨by simpa using hzero, List.mem_range.mpr (by omega), fun i hi => ?_⟩
  simpa using hne i hi

/-! ### Stretches of a buffer -/

/-- `n` bytes from an offset on. -/
def bytes (b : Buf) : Nat → Nat → List Byte
  | _, 0 => []
  | off, n + 1 => b.byte off :: b.bytes (off + 1) n

@[simp] theorem length_bytes (b : Buf) (off n : Nat) : (b.bytes off n).length = n := by
  induction n generalizing off with
  | zero => rfl
  | succ n ih => rw [bytes, List.length_cons, ih]

/-- `n` 16-bit words from an offset on. -/
def words (b : Buf) : Nat → Nat → List (BitVec 16)
  | _, 0 => []
  | off, n + 1 => b.half off :: b.words (off + 2) n

theorem words_append (b : Buf) (off m n : Nat) :
    b.words off (m + n) = b.words off m ++ b.words (off + 2 * m) n := by
  induction m generalizing off with
  | zero => simp [words]
  | succ m ih =>
    have hadd : off + 2 + 2 * m = off + 2 * (m + 1) := by omega
    rw [Nat.succ_add, words, words, ih, hadd, List.cons_append]

@[simp] theorem length_words (b : Buf) (off n : Nat) : (b.words off n).length = n := by
  induction n generalizing off with
  | zero => rfl
  | succ n ih => rw [words, List.length_cons, ih]

/-- The words before one of them, that word, and those behind it. -/
theorem words_split (b : Buf) (off : Nat) {i n : Nat} (hi : i < n) :
    b.words off n = b.words off i ++ b.half (off + 2 * i) ::
      b.words (off + 2 * i + 2) (n - (i + 1)) := by
  obtain ⟨k, rfl⟩ : ∃ k, n = i + (k + 1) := ⟨n - (i + 1), by omega⟩
  have hk : i + (k + 1) - (i + 1) = k := by omega
  rw [words_append, words, hk]

theorem half_congr {b c : Buf} {off : Nat}
    (h : ∀ i, off ≤ i → i < off + 2 → b.byte i = c.byte i) : b.half off = c.half off := by
  rw [half, half, h off (by omega) (by omega), h (off + 1) (by omega) (by omega)]

theorem Holds.bytes {b : Buf} {off : Nat} {bs : List Byte} (h : b.Holds off bs) :
    b.bytes off bs.length = bs := by
  induction bs generalizing off with
  | nil => rfl
  | cons a as ih =>
    have hhead : b.byte off = a := h 0 (by simp)
    have htail : b.Holds (off + 1) as := by
      intro i hi
      have hoff : off + 1 + i = off + (i + 1) := by omega
      rw [hoff]
      exact h (i + 1) (by simpa using hi)
    rw [List.length_cons, Buf.bytes, hhead, ih htail]

theorem words_congr {b c : Buf} (off n : Nat)
    (h : ∀ i, off ≤ i → i < off + 2 * n → b.byte i = c.byte i) :
    b.words off n = c.words off n := by
  induction n generalizing off with
  | zero => rfl
  | succ n ih =>
    have hhead : b.half off = c.half off := half_congr fun i hlo hhi => h i hlo (by omega)
    have htail : b.words (off + 2) n = c.words (off + 2) n :=
      ih _ fun i hlo hhi => h i (by omega) (by omega)
    rw [words, words, hhead, htail]

theorem bytes_congr {b c : Buf} (off n : Nat)
    (h : ∀ i, off ≤ i → i < off + n → b.byte i = c.byte i) :
    b.bytes off n = c.bytes off n := by
  induction n generalizing off with
  | zero => rfl
  | succ n ih =>
    have htail : b.bytes (off + 1) n = c.bytes (off + 1) n :=
      ih _ fun i hlo hhi => h i (by omega) (by omega)
    rw [bytes, bytes, h off le_rfl (by omega), htail]

theorem half_set (b : Buf) (off : Nat) (h : BitVec 16) :
    (b.set off (halfBytes h)).half off = h := by
  refine Holds.half fun i hi => ?_
  rw [byte_set, if_pos (by omega), Nat.add_sub_cancel_left, List.getD_eq_getElem?_getD,
    List.getElem?_eq_getElem hi, Option.getD_some]

/-- A word that is stored among the words takes the place of the old one. -/
theorem words_set (b : Buf) (off : Nat) {i n : Nat} (hi : i < n) (h : BitVec 16) :
    (b.set (off + 2 * i) (halfBytes h)).words off n = b.words off i ++ h ::
      b.words (off + 2 * i + 2) (n - (i + 1)) := by
  have hfar : ∀ j, j < off + 2 * i ∨ off + 2 * i + 2 ≤ j →
      (b.set (off + 2 * i) (halfBytes h)).byte j = b.byte j := by
    intro j hj
    rw [byte_set, if_neg (by rw [length_halfBytes]; omega)]
  have hleft := words_congr off i fun j _ hj => hfar j (Or.inl hj)
  have hright := words_congr (off + 2 * i + 2) (n - (i + 1))
    fun j hj _ => hfar j (Or.inr hj)
  rw [words_split _ off hi, hleft, half_set, hright]

/-! ### What an access that succeeds says about its bounds -/

theorem alloca_eq_some {n : Int} {b : Buf} (h : alloca n = some b) :
    0 < n ∧ (b.size : Int) = n := by
  unfold alloca at h
  split at h <;> cases h
  exact ⟨‹_›, by dsimp only; omega⟩

theorem read_eq_some {b : Buf} {off : Nat} {len : Int} {bs : List Byte}
    (h : b.read off len = some bs) : 0 ≤ len ∧ off + len ≤ b.size ∧ (bs.length : Int) = len := by
  unfold read at h
  split at h <;> cases h
  rename_i hb
  exact ⟨hb.1, hb.2, by simp; omega⟩

theorem write_eq_some {b b' : Buf} {off : Nat} {bs : List Byte} (h : b.write off bs = some b') :
    off + bs.length ≤ b.size ∧ b'.size = b.size := by
  unfold write at h
  split at h <;> cases h
  exact ⟨‹_›, rfl⟩

theorem memcpy_eq_some {dst src dst' : Buf} {doff soff : Nat} {len : Int}
    (h : dst.memcpy doff src soff len = some dst') :
    0 ≤ len ∧ soff + len ≤ src.size ∧ doff + len ≤ dst.size ∧ dst'.size = dst.size := by
  obtain ⟨bs, hread, hwrite⟩ := Option.bind_eq_some_iff.mp h
  obtain ⟨hlen, hsrc, hbs⟩ := read_eq_some hread
  obtain ⟨hdst, hsize⟩ := write_eq_some hwrite
  exact ⟨hlen, hsrc, by omega, hsize⟩

/-- A copy inside both arrays succeeds. -/
theorem memcpy_defined (dst : Buf) (doff : Nat) (src : Buf) (soff : Nat) {len : Int}
    (hlen : 0 ≤ len) (hs : soff + len ≤ src.size) (hd : doff + len ≤ dst.size) :
    ∃ dst', dst.memcpy doff src soff len = some dst' ∧ dst'.size = dst.size := by
  have hread := src.holds_bytes soff len.toNat
  obtain ⟨dst', hcopy, hsize, -⟩ := memcpy_spec dst doff len hread (by simp; omega)
    (by simp; omega) (by simp; omega)
  exact ⟨dst', hcopy, hsize⟩

theorem read_defined (b : Buf) (off : Nat) {len : Int} (hlen : 0 ≤ len)
    (hsize : off + len ≤ b.size) : ∃ bs, b.read off len = some bs :=
  ⟨_, if_pos ⟨hlen, hsize⟩⟩

end Buf

end CBuffer
