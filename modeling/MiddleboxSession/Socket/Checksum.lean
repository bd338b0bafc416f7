/-
  MiddleboxSession/Socket/Checksum.lean
  =====================================
  **The checksum functions of the raw-socket programs.**

  `csum`, which both programs define with the same text, takes a number of words
  and folds its 64-bit sum twice; `comp_chksum` takes a number of bytes and folds
  until nothing is left above 16 bits.  Two folds are enough for a sum below
  `2 ^ 32`, so the two agree on every buffer that fits in a datagram.

  For an odd number of bytes `comp_chksum` adds a whole word for the last byte,
  and with it the byte behind the ones it was given.
-/
import MiddleboxSession.KernelPacket

namespace MiddleboxSession.Socket

open CBuffer OnesComplement

/-! ### `csum` -/

/-- `for(sum=0; nwords>0; nwords--) sum += *buf++`. -/
def csumLoop (m : Buf) : Nat → Nat → BitVec 64 → Option (BitVec 64)
  | _, 0, sum => some sum
  | buf, nwords + 1, sum => do
    let word ← m.readHalf buf
    csumLoop m (buf + 2) nwords (sum + word.setWidth 64)

/-- `csum`: `buf` is an offset in the memory `m`, `nwords` an `int`. -/
def csum (m : Buf) (buf : Nat) (nwords : BitVec 32) : Option (BitVec 16) := do
  let sum ← csumLoop m buf nwords.toInt.toNat 0
  let sum := (sum >>> 16) + (sum &&& 0xffff)
  let sum := sum + (sum >>> 16)
  some ((~~~ sum).setWidth 16)

/-! ### `comp_chksum` -/

/-- The two parts of the loop: `while (len > 1)`, and what is left of `len`. -/
def compChksumLoop (m : Buf) : Nat → Nat → BitVec 64 → Option (BitVec 64)
  | addr, len + 2, sum => do
    let word ← m.readHalf addr
    compChksumLoop m (addr + 2) len (sum + word.setWidth 64)
  | addr, 1, sum => do
    let word ← m.readHalf addr      -- a word, although one byte is left
    some (sum + word.setWidth 64)
  | _, 0, sum => some sum

/-- What a fold of a `long` makes smaller; a negative one becomes positive. -/
def foldMeasure (sum : BitVec 64) : Nat :=
  if sum.toInt < 0 then 2 * sum.toInt.natAbs + 2 ^ 16 else sum.toInt.natAbs

theorem toNat_and_ffff (sum : BitVec 64) : (sum &&& 0xffff).toNat = sum.toNat % 2 ^ 16 := by
  rw [BitVec.toNat_and]
  exact Nat.and_two_pow_sub_one_eq_mod sum.toNat 16

theorem foldMeasure_lt {sum : BitVec 64} (h : sum.sshiftRight 16 ≠ 0) :
    foldMeasure ((sum &&& 0xffff) + sum.sshiftRight 16) < foldMeasure sum := by
  have hlow := toNat_and_ffff sum
  have hlowInt : (sum &&& 0xffff).toInt = sum.toInt % 2 ^ 16 := by
    rw [BitVec.toInt_eq_toNat_of_lt (by omega), hlow, BitVec.toInt_eq_toNat_cond]
    split <;> omega
  have hhigh : (sum.sshiftRight 16).toInt = sum.toInt / 2 ^ 16 := by
    rw [BitVec.toInt_sshiftRight, Int.shiftRight_eq_div_pow]
    rfl
  have hne : sum.toInt / 2 ^ 16 ≠ 0 := by
    intro hz
    rw [hz] at hhigh
    exact h (BitVec.eq_of_toInt_eq hhigh)
  have hlo := BitVec.le_toInt sum
  have hhi := BitVec.toInt_lt (x := sum)
  have hsum : ((sum &&& 0xffff) + sum.sshiftRight 16).toInt =
      sum.toInt % 2 ^ 16 + sum.toInt / 2 ^ 16 := by
    rw [BitVec.toInt_add, hlowInt, hhigh]
    exact Int.bmod_eq_of_le (by omega) (by omega)
  unfold foldMeasure
  rw [hsum]
  split <;> split <;> omega

/-- `while (sum >> 16) sum = ((sum & 0xffff) + (sum >> 16))`; `sum` is a `long`. -/
def foldLong (sum : BitVec 64) : BitVec 64 :=
  if sum.sshiftRight 16 = 0 then sum
  else foldLong ((sum &&& 0xffff) + sum.sshiftRight 16)
termination_by foldMeasure sum
decreasing_by exact foldMeasure_lt ‹_›

def compChksum (m : Buf) (addr : Nat) (len : BitVec 32) : Option (BitVec 16) := do
  let sum ← compChksumLoop m addr len.toInt.toNat 0
  let sum := foldLong sum
  some ((~~~ sum).setWidth 16)

/-! ### What the loops add up -/

theorem ofNat_total_cons (a : BitVec 16) (as : List (BitVec 16)) :
    BitVec.ofNat 64 (total (a :: as)) = a.setWidth 64 + BitVec.ofNat 64 (total as) := by
  rw [total_cons, BitVec.ofNat_add, BitVec.ofNat_toNat]

theorem csumLoop_eq {m : Buf} {buf n : Nat} (h : buf + 2 * n ≤ m.size) (sum : BitVec 64) :
    csumLoop m buf n sum = some (sum + BitVec.ofNat 64 (total (m.words buf n))) := by
  induction n generalizing buf sum with
  | zero => simp [csumLoop, Buf.words]
  | succ n ih =>
    have hread : m.readHalf buf = some (m.half buf) := if_pos (by omega)
    rw [csumLoop, hread, Option.bind_eq_bind, Option.bind_some, ih (by omega), Buf.words,
      ofNat_total_cons, BitVec.add_assoc]

/-- The loop of `comp_chksum` reads `(len + 1) / 2` words. -/
theorem compChksumLoop_eq {m : Buf} {addr len : Nat} (h : addr + 2 * ((len + 1) / 2) ≤ m.size)
    (sum : BitVec 64) : compChksumLoop m addr len sum =
      some (sum + BitVec.ofNat 64 (total (m.words addr ((len + 1) / 2)))) := by
  fun_induction compChksumLoop m addr len sum with
  | case1 addr len sum ih =>
    have hread : m.readHalf addr = some (m.half addr) := if_pos (by omega)
    have hlen : (len + 2 + 1) / 2 = (len + 1) / 2 + 1 := by omega
    rw [hread, Option.bind_eq_bind, Option.bind_some, ih _ (by omega), hlen, Buf.words,
      ofNat_total_cons, BitVec.add_assoc]
  | case2 addr sum =>
    have hread : m.readHalf addr = some (m.half addr) := if_pos (by omega)
    simp [hread, Buf.words]
  | case3 => simp [Buf.words]

/-- The last word of an odd number of bytes has to be there. -/
theorem compChksumLoop_eq_none {m : Buf} {addr len : Nat} (hlen : 0 < len)
    (h : m.size < addr + 2 * ((len + 1) / 2)) (sum : BitVec 64) :
    compChksumLoop m addr len sum = none := by
  fun_induction compChksumLoop m addr len sum with
  | case1 addr len sum ih =>
    by_cases hread : addr + 2 ≤ m.size
    · rw [Buf.readHalf, if_pos hread, Option.bind_eq_bind, Option.bind_some]
      exact ih _ (by omega) (by omega)
    · rw [Buf.readHalf, if_neg hread]
      rfl
  | case2 addr sum =>
    rw [Buf.readHalf, if_neg (by omega)]
    rfl
  | case3 => omega

/-! ### What the folds leave -/

theorem toNat_total {ws : List (BitVec 16)} (h : ws.length < 2 ^ 47) :
    (BitVec.ofNat 64 (total ws)).toNat = total ws := by
  have hle := total_le ws
  rw [BitVec.toNat_ofNat, Nat.mod_eq_of_lt (by omega)]

/-- The last 16 bits of the complement. -/
theorem not_setWidth_eq {ws : List (BitVec 16)} {sum : BitVec 64}
    (h : sum.toNat % 2 ^ 16 = carry 16 (total ws)) : (~~~ sum).setWidth 16 = checksum ws := by
  have hlt := sum.isLt
  apply BitVec.eq_of_toNat_eq
  rw [checksum_toNat (by decide), BitVec.toNat_setWidth, BitVec.toNat_not, ← h]
  omega

theorem not_setWidth_of_carry {ws : List (BitVec 16)} {sum : BitVec 64}
    (h : sum.toNat = carry 16 (total ws)) : (~~~ sum).setWidth 16 = checksum ws := by
  have hle := carry_le (w := 16) (total ws) (by decide)
  refine not_setWidth_eq ?_
  rw [h, Nat.mod_eq_of_lt (by omega)]

theorem shift_eq_zero_iff {sum : BitVec 64} : sum >>> 16 = 0 ↔ sum.toNat < 2 ^ 16 := by
  have hshift : (sum >>> 16).toNat = sum.toNat / 2 ^ 16 := by
    rw [BitVec.toNat_ushiftRight, Nat.shiftRight_eq_div_pow]
  have hzero : sum >>> 16 = 0 ↔ (sum >>> 16).toNat = 0 := by
    rw [BitVec.toNat_eq]
    rfl
  rw [hzero, hshift]
  omega

theorem toNat_fold (sum : BitVec 64) :
    ((sum &&& (0xffff : BitVec 64)) + (sum >>> 16)).toNat = fold 16 sum.toNat := by
  have hlt := sum.isLt
  rw [BitVec.toNat_add, toNat_and_ffff, BitVec.toNat_ushiftRight, Nat.shiftRight_eq_div_pow, fold,
    Nat.mod_eq_of_lt (by omega)]

/-- Two folds leave the one's-complement sum of what has no more than 32 bits. -/
theorem two_folds {n : Nat} (h : n < 2 ^ 32) : fold 16 (fold 16 n) = carry 16 n := by
  rw [← carry_fold (by decide) n, ← carry_fold (by decide) (fold 16 n)]
  refine (carry_of_le (by decide) ?_).symm
  unfold fold
  omega

theorem foldLong_toNat {sum : BitVec 64} (h : sum.toNat < 2 ^ 63) :
    (foldLong sum).toNat = carry 16 sum.toNat := by
  have hshift : ∀ {s : BitVec 64}, s.toNat < 2 ^ 63 → s.sshiftRight 16 = s >>> 16 := by
    intro s hs
    exact BitVec.sshiftRight_eq_of_msb_false (BitVec.msb_eq_false_iff_two_mul_lt.mpr (by omega))
  fun_induction foldLong sum with
  | case1 sum hdone =>
    rw [hshift h, shift_eq_zero_iff] at hdone
    exact (carry_of_le (by decide) (by omega)).symm
  | case2 sum hmore ih =>
    have hnext : ((sum &&& 0xffff) + sum.sshiftRight 16).toNat = fold 16 sum.toNat := by
      rw [hshift h]
      exact toNat_fold sum
    rw [ih (by rw [hnext, fold]; omega), hnext, carry_fold (by decide)]

/-- An `int` that is not negative. -/
theorem toNat_toInt {n : BitVec 32} (h : 0 ≤ n.toInt) : n.toInt.toNat = n.toNat := by
  have hlt := n.isLt
  rw [BitVec.toInt_eq_toNat_cond] at h ⊢
  split at h <;> omega

/-- `csum` of `n` words, as long as two folds are enough. -/
theorem csum_eq {m : Buf} {buf n : Nat} (hn : n ≤ 65537) (h : buf + 2 * n ≤ m.size) :
    csum m buf (BitVec.ofNat 32 n) = some (checksum (m.words buf n)) := by
  have hcount : (BitVec.ofNat 32 n).toInt.toNat = n := by
    rw [BitVec.toInt_eq_toNat_of_lt (by rw [BitVec.toNat_ofNat]; omega), BitVec.toNat_ofNat]
    omega
  have hwords : (m.words buf n).length < 2 ^ 47 := by
    rw [Buf.length_words]
    omega
  have hle := total_le (m.words buf n)
  have hsum : total (m.words buf n) < 2 ^ 32 := by
    rw [Buf.length_words] at hle
    omega
  have htotal := toNat_total hwords
  rw [csum, hcount, csumLoop_eq h, zero_add, Option.bind_eq_bind, Option.bind_some]
  dsimp only
  rw [not_setWidth_eq]
  generalize BitVec.ofNat 64 (total (m.words buf n)) = sum at htotal ⊢
  have hfirst : ((sum >>> 16) + (sum &&& 0xffff)).toNat = fold 16 sum.toNat := by
    rw [BitVec.add_comm]
    exact toNat_fold sum
  rw [← htotal, ← two_folds (by omega), BitVec.toNat_add, BitVec.toNat_ushiftRight, hfirst,
    Nat.shiftRight_eq_div_pow]
  unfold fold
  omega

/-- `comp_chksum` of `len` bytes is the check word of `(len + 1) / 2` words. -/
theorem compChksum_eq {m : Buf} {addr : Nat} {len : BitVec 32} (hlen : 0 ≤ len.toInt)
    (h : addr + 2 * ((len.toNat + 1) / 2) ≤ m.size) :
    compChksum m addr len = some (checksum (m.words addr ((len.toNat + 1) / 2))) := by
  have hlt := len.isLt
  have hwords : (m.words addr ((len.toNat + 1) / 2)).length < 2 ^ 47 := by
    rw [Buf.length_words]
    omega
  have hle := total_le (m.words addr ((len.toNat + 1) / 2))
  have htotal := toNat_total hwords
  rw [compChksum, toNat_toInt hlen, compChksumLoop_eq h, zero_add, Option.bind_eq_bind,
    Option.bind_some]
  refine congrArg some (not_setWidth_of_carry ?_)
  rw [foldLong_toNat (by omega), htotal]

/-- **`csum` is the Internet checksum.**  On a buffer that fits in a datagram it
    is what `comp_chksum` computes, the complement of the one's-complement sum
    of the words; stored in the place of a zero word it makes `csum` of the
    buffer 0. -/
theorem csum_internet {m : Buf} {buf n : Nat} (hn : n ≤ 32767) (h : buf + 2 * n ≤ m.size) :
    csum m buf (BitVec.ofNat 32 n) = some (checksum (m.words buf n)) ∧
      compChksum m buf (BitVec.ofNat 32 (2 * n)) = some (checksum (m.words buf n)) ∧
      ∀ i < n, m.half (buf + 2 * i) = 0 →
        ∃ m', m.write (buf + 2 * i) (halfBytes (checksum (m.words buf n))) = some m' ∧
          csum m' buf (BitVec.ofNat 32 n) = some 0 := by
  refine ⟨csum_eq (by omega) h, ?_, fun i hi hzero => ?_⟩
  · have hlen : (BitVec.ofNat 32 (2 * n)).toNat = 2 * n := by
      rw [BitVec.toNat_ofNat]
      omega
    have hhalf : (2 * n + 1) / 2 = n := by omega
    have hpos : 0 ≤ (BitVec.ofNat 32 (2 * n)).toInt := by
      rw [BitVec.toInt_eq_toNat_of_lt (by omega)]
      omega
    have hfit : buf + 2 * (((BitVec.ofNat 32 (2 * n)).toNat + 1) / 2) ≤ m.size := by
      rwa [hlen, hhalf]
    rw [compChksum_eq hpos hfit, hlen, hhalf]
  · have hfit : buf + 2 * i + (halfBytes (checksum (m.words buf n))).length ≤ m.size := by
      rw [length_halfBytes]
      omega
    refine ⟨_, Buf.write_eq_set hfit, ?_⟩
    have hstored : buf + 2 * n ≤
        (m.set (buf + 2 * i) (halfBytes (checksum (m.words buf n)))).size := h
    rw [csum_eq (by omega) hstored, Buf.words_set _ _ hi, m.words_split buf hi, hzero]
    exact congrArg some (checksum_eq_zero.mpr (ValidSum.checksum (by decide) _ _))

/-- Three words with a zero check word in the middle. -/
def checkedBuf : Buf where
  size := 6
  byte := fun i => [0x45, 0x00, 0x00, 0x00, 0x40, 0x11].getD i 0

theorem csum_internet_checked :
    csum checkedBuf 0 3 = some 0xEE7A ∧ compChksum checkedBuf 0 6 = some 0xEE7A ∧
      ∃ m', checkedBuf.write 2 [0x7A, 0xEE] = some m' ∧ csum m' 0 3 = some 0 := by
  have hcheck : checksum (checkedBuf.words 0 3) = 0xEE7A := by decide
  obtain ⟨hcsum, hcomp, hstore⟩ :=
    @csum_internet checkedBuf 0 3 (by decide) (by decide)
  rw [hcheck] at hcsum hcomp hstore
  exact ⟨hcsum, hcomp, hstore 1 (by decide) (by decide)⟩

/-! ### An odd number of bytes -/

/-- The byte behind an odd number of bytes counts unless it is zero. -/
theorem checksum_odd_iff (m : Buf) (off n : Nat) :
    checksum (m.words off (n + 1)) = checksum (dataWords (m.bytes off (2 * n + 1))) ↔
      m.byte (off + 2 * n + 1) = 0 := by
  have hlast : m.words (off + 2 * n) 1 =
      [bytesHalf (m.byte (off + 2 * n)) (m.byte (off + 2 * n + 1))] := rfl
  rw [dataWords_bytes_odd, Buf.words_append, hlast, checksum_eq_iff (by decide), total_append,
    total_append, total_cons, total_cons, total_nil, toNat_bytesHalf, toNat_bytesHalf]
  have hbyte := (m.byte (off + 2 * n + 1)).isLt
  have hzero : m.byte (off + 2 * n + 1) = 0 ↔ (m.byte (off + 2 * n + 1)).toNat = 0 := by
    rw [BitVec.toNat_eq]
    rfl
  rw [hzero, Nat.ModEq]
  simp only [BitVec.ofNat_eq_ofNat, BitVec.toNat_ofNat]
  omega

/-- `comp_chksum` computes the checksum of the bytes it is given, a last odd one
    with a zero byte. -/
def ComputesRfc1071 (m : Buf) (addr : Nat) (len : BitVec 32) : Prop :=
  compChksum m addr len = some (checksum (dataWords (m.bytes addr len.toNat)))

/-- What `comp_chksum` returns does not depend on the bytes at and after `len`,
    nor on whether there are any. -/
def IgnoresRest (m : Buf) (addr : Nat) (len : BitVec 32) : Prop :=
  ∀ m' : Buf, addr + len.toNat ≤ m'.size →
    m'.bytes addr len.toNat = m.bytes addr len.toNat →
      compChksum m' addr len = compChksum m addr len

section Length

variable {m : Buf} {addr : Nat} {len : BitVec 32}

theorem computesRfc1071_even (hlen : 0 ≤ len.toInt) (h : addr + len.toNat ≤ m.size)
    (heven : len.toNat % 2 = 0) : ComputesRfc1071 m addr len := by
  obtain ⟨n, hn⟩ : ∃ n, len.toNat = 2 * n := ⟨len.toNat / 2, by omega⟩
  have hhalf : (2 * n + 1) / 2 = n := by omega
  rw [ComputesRfc1071, compChksum_eq hlen (by omega), hn, hhalf, dataWords_bytes_even]

theorem computesRfc1071_odd_iff (hlen : 0 ≤ len.toInt) (h : addr + len.toNat ≤ m.size)
    (hodd : len.toNat % 2 = 1) :
    ComputesRfc1071 m addr len ↔
      addr + len.toNat < m.size ∧ m.byte (addr + len.toNat) = 0 := by
  obtain ⟨n, hn⟩ : ∃ n, len.toNat = 2 * n + 1 := ⟨len.toNat / 2, by omega⟩
  have hhalf : (2 * n + 1 + 1) / 2 = n + 1 := by omega
  rw [ComputesRfc1071]
  by_cases hnext : addr + len.toNat < m.size
  · rw [compChksum_eq hlen (by omega), Option.some_inj, hn, hhalf, checksum_odd_iff, ← hn,
      and_iff_right hnext, hn, Nat.add_assoc]
  · -- the word with the last byte leaves the buffer
    rw [compChksum, toNat_toInt hlen, compChksumLoop_eq_none (by omega) (by omega)]
    simp [hnext]

end Length

/-- **When `comp_chksum` computes the RFC 1071 checksum.**  It does for an even
    number of bytes; for an odd number if and only if the byte behind them can be
    read and is zero, and then it depends on that byte. -/
theorem compChksum_rfc1071_iff (m : Buf) (addr : Nat) (len : BitVec 32) (hlen : 0 ≤ len.toInt)
    (h : addr + len.toNat ≤ m.size) :
    (ComputesRfc1071 m addr len ↔ len.toNat % 2 = 0 ∨
      addr + len.toNat < m.size ∧ m.byte (addr + len.toNat) = 0) ∧
    (IgnoresRest m addr len ↔ len.toNat % 2 = 0) := by
  rcases Nat.mod_two_eq_zero_or_one len.toNat with heven | hodd
  · have hrfc := computesRfc1071_even hlen h heven
    refine ⟨iff_of_true hrfc (Or.inl heven), iff_of_true (fun m' h' hbytes => ?_) heven⟩
    have hrfc' := computesRfc1071_even hlen h' heven
    rw [ComputesRfc1071] at hrfc hrfc'
    rw [hrfc, hrfc', hbytes]
  · have hne : ¬ len.toNat % 2 = 0 := by omega
    refine ⟨(computesRfc1071_odd_iff hlen h hodd).trans (or_iff_right hne).symm,
      iff_of_false (fun hrest => ?_) hne⟩
    -- two buffers that differ in the byte behind the last one
    let next (b : Byte) : Buf :=
      ⟨addr + len.toNat + 1, fun i => if i = addr + len.toNat then b else m.byte i⟩
    have hsize : ∀ b, addr + len.toNat < (next b).size := fun b => Nat.lt_succ_self _
    have hbyte : ∀ b, (next b).byte (addr + len.toNat) = b := fun b => if_pos rfl
    have hbytes : ∀ b, (next b).bytes addr len.toNat = m.bytes addr len.toNat :=
      fun b => Buf.bytes_congr _ _ fun i _ hi => if_neg (by omega)
    have hzero : ComputesRfc1071 (next 0) addr len :=
      (computesRfc1071_odd_iff hlen (hsize 0).le hodd).mpr ⟨hsize 0, hbyte 0⟩
    have hone : ComputesRfc1071 (next 1) addr len := by
      rw [ComputesRfc1071, hbytes] at hzero ⊢
      rw [hrest _ (hsize 1).le (hbytes 1), ← hrest _ (hsize 0).le (hbytes 0), hzero]
    have h01 := ((computesRfc1071_odd_iff hlen (hsize 1).le hodd).mp hone).2
    rw [hbyte] at h01
    exact absurd h01 (by decide)

/-- Three bytes and one more behind them. -/
def oddBuf : Buf where
  size := 4
  byte := fun i => [0x01, 0x02, 0x03, 0x04].getD i 0

theorem compChksum_rfc1071_odd :
    ¬ ComputesRfc1071 oddBuf 0 3 ∧ ¬ IgnoresRest oddBuf 0 3 ∧ ComputesRfc1071 oddBuf 0 2 := by
  obtain ⟨hodd, hrest⟩ := compChksum_rfc1071_iff oddBuf 0 3 (by decide) (by decide)
  obtain ⟨heven, -⟩ := compChksum_rfc1071_iff oddBuf 0 2 (by decide) (by decide)
  rw [hodd, hrest, heven]
  decide

/-- The fourth byte counts although three were to be summed. -/
theorem odd_tail_reads_on :
    ¬ ∀ (m : Buf) (addr : Nat) (len : BitVec 32), 0 ≤ len.toInt → addr + len.toNat ≤ m.size →
      ComputesRfc1071 m addr len ∧ IgnoresRest m addr len := by
  intro h
  obtain ⟨hrfc, -⟩ := h oddBuf 0 3 (by decide) (by decide)
  have hbyte := (computesRfc1071_odd_iff (by decide) (by decide) (by decide)).mp hrfc
  exact absurd hbyte.2 (by decide)

end MiddleboxSession.Socket
