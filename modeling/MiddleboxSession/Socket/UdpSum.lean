/-
  MiddleboxSession/Socket/UdpSum.lean
  ===================================
  **The UDP checksum of RAW_SOCKET.**

  The comment in `udp_sum_calc` says that it makes 16-bit words out of every two
  adjacent 8-bit words, and its masks take one byte of each element; but its
  pointers are pointers to 16-bit elements, so it makes a word out of every
  fourth byte and the second one behind it, and needs twice the memory that it
  is given.  Whatever the memory looks like, the last byte that it reads lies
  outside the datagram and the addresses, and the result depends on it.  `main`
  has its only call in a comment.
-/
import MiddleboxSession.Socket.Checksum

namespace MiddleboxSession.Socket

open CBuffer OnesComplement

/-! ### `udp_sum_calc` -/

/-- `((*(p+i)<<8)&0xFF00)+(*(p+i+1)&0xFF)` of a pointer to `u16`; the arithmetic is
    that of `int`. -/
def word16 (m : Buf) (p i : Nat) : Option (BitVec 16) := do
  let first ← m.readHalf (p + 2 * i)
  let second ← m.readHalf (p + 2 * (i + 1))
  let high := (first.setWidth 32 <<< 8) &&& (0xFF00 : BitVec 32)
  let low := second.setWidth 32 &&& (0xFF : BitVec 32)
  some ((high + low).setWidth 16)

def addWord (m : Buf) (p : Nat) (sum : BitVec 64) (i : Nat) : Option (BitVec 64) := do
  let word ← word16 m p i
  some (sum + word.setWidth 64)

/-- The values of `i` in `for (i=0;i<n;i=i+2)`. -/
def steps (n : Nat) : List Nat := List.range' 0 ((n + 1) / 2) 2

/-- One of the three loops. -/
def sumLoop (m : Buf) (p n : Nat) (sum : BitVec 64) : Option (BitVec 64) :=
  (steps n).foldlM (addWord m p) sum

/-- `while (sum>>16) sum = (sum & 0xFFFF)+(sum >> 16)`; `sum` is an `unsigned long`. -/
def foldULong (sum : BitVec 64) : BitVec 64 :=
  if sum >>> 16 = 0 then sum else foldULong ((sum &&& (0xFFFF : BitVec 64)) + (sum >>> 16))
termination_by sum.toNat
decreasing_by
  rw [toNat_fold]
  exact fold_lt (by decide) (not_lt.mp fun hlt => absurd (shift_eq_zero_iff.mpr hlt) ‹_›)

/-- `udp_sum_calc`: the three pointers are offsets in the memory `m`. -/
def udpSumCalc (m : Buf) (len : BitVec 16) (srcAddr destAddr buff : Nat) :
    Option (BitVec 16) := do
  let protUdp : BitVec 16 := 17
  let sum ← sumLoop m buff len.toNat 0
  let sum ← sumLoop m srcAddr 4 sum
  let sum ← sumLoop m destAddr 4 sum
  let sum := sum + protUdp.setWidth 64 + len.setWidth 64
  let sum := foldULong sum
  some ((~~~ sum).setWidth 16)

/-! ### What it adds up -/

/-- The word of one step: bytes 0 and 2 of four, the first one high. -/
def sparseWord (m : Buf) (p i : Nat) : BitVec 16 :=
  bytesHalf (m.byte (p + 2 * i + 2)) (m.byte (p + 2 * i))

def sparseWords (m : Buf) (p n : Nat) : List (BitVec 16) := (steps n).map (sparseWord m p)

theorem toNat_and_ff (x : BitVec 32) : (x &&& (0xFF : BitVec 32)).toNat = x.toNat % 2 ^ 8 := by
  rw [BitVec.toNat_and]
  exact Nat.and_two_pow_sub_one_eq_mod x.toNat 8

theorem toNat_shift_and_ff00 (x : BitVec 32) :
    ((x <<< 8) &&& (0xFF00 : BitVec 32)).toNat = 256 * (x.toNat % 2 ^ 8) := by
  have hmask : (0xFF00 : BitVec 32) = (0xFF : BitVec 32) <<< 8 := by decide
  rw [hmask, ← BitVec.shiftLeft_and_distrib, BitVec.toNat_shiftLeft, toNat_and_ff,
    Nat.shiftLeft_eq]
  omega

theorem word16_eq (m : Buf) (p i : Nat) :
    word16 m p i = if p + 2 * i + 4 ≤ m.size then some (sparseWord m p i) else none := by
  have hsecond : p + 2 * (i + 1) = p + 2 * i + 2 := by omega
  rw [word16, hsecond]
  by_cases hend : p + 2 * i + 4 ≤ m.size
  · rw [Buf.readHalf, Buf.readHalf, if_pos (by omega), if_pos hend, if_pos (by omega)]
    refine congrArg some (BitVec.eq_of_toNat_eq ?_)
    have h0 := (m.byte (p + 2 * i)).isLt
    have h1 := (m.byte (p + 2 * i + 1)).isLt
    have h2 := (m.byte (p + 2 * i + 2)).isLt
    have h3 := (m.byte (p + 2 * i + 2 + 1)).isLt
    simp only [sparseWord, Buf.half, BitVec.toNat_setWidth, BitVec.toNat_add, toNat_shift_and_ff00,
      toNat_and_ff, toNat_bytesHalf]
    omega
  · rw [if_neg hend]
    unfold Buf.readHalf
    rw [if_neg (by omega : ¬ p + 2 * i + 2 + 2 ≤ m.size)]
    split <;> rfl

theorem foldlM_addWord (m : Buf) (p s k : Nat) (sum : BitVec 64) :
    (List.range' s k 2).foldlM (addWord m p) sum =
      if k = 0 ∨ p + 2 * s + 4 * k ≤ m.size then
        some (sum + BitVec.ofNat 64 (total ((List.range' s k 2).map (sparseWord m p))))
      else none := by
  induction k generalizing s sum with
  | zero => simp
  | succ k ih =>
    rw [List.range'_succ, List.foldlM_cons, addWord, word16_eq]
    by_cases hend : p + 2 * s + 4 ≤ m.size
    · rw [if_pos hend, Option.bind_eq_bind, Option.bind_eq_bind, Option.bind_some,
        Option.bind_some, ih, List.map_cons, ofNat_total_cons, BitVec.add_assoc]
      exact if_congr (by omega) rfl rfl
    · rw [if_neg hend, if_neg (by omega)]
      rfl

/-- A loop over `n` needs `4 * ((n + 1) / 2)` bytes. -/
theorem sumLoop_eq (m : Buf) (p n : Nat) (sum : BitVec 64) :
    sumLoop m p n sum = if n = 0 ∨ p + 4 * ((n + 1) / 2) ≤ m.size then
      some (sum + BitVec.ofNat 64 (total (sparseWords m p n))) else none := by
  rw [sumLoop, steps, foldlM_addWord]
  exact if_congr (by omega) rfl rfl

theorem foldULong_toNat (sum : BitVec 64) : (foldULong sum).toNat = carry 16 sum.toNat := by
  fun_induction foldULong sum with
  | case1 sum hdone =>
    rw [shift_eq_zero_iff] at hdone
    exact (carry_of_le (by decide) (by omega)).symm
  | case2 sum hmore ih => rw [ih, toNat_fold, carry_fold (by decide)]

section Sum

variable (m : Buf) (len : BitVec 16) (srcAddr destAddr buff : Nat)

/-- Everything that is added up. -/
def summedWords : List (BitVec 16) :=
  sparseWords m buff len.toNat ++ sparseWords m srcAddr 4 ++ sparseWords m destAddr 4 ++ [17, len]

/-- The memory that the loops read is there. -/
def Readable : Prop :=
  (len.toNat = 0 ∨ buff + 4 * ((len.toNat + 1) / 2) ≤ m.size) ∧
    srcAddr + 8 ≤ m.size ∧ destAddr + 8 ≤ m.size

instance : Decidable (Readable m len srcAddr destAddr buff) :=
  inferInstanceAs (Decidable (_ ∧ _ ∧ _))

theorem length_sparseWords (p n : Nat) : (sparseWords m p n).length = (n + 1) / 2 := by
  rw [sparseWords, steps, List.length_map, List.length_range']

theorem ofNat_total_summedWords : BitVec.ofNat 64 (total (summedWords m len srcAddr destAddr buff)) =
    BitVec.ofNat 64 (total (sparseWords m buff len.toNat)) +
      BitVec.ofNat 64 (total (sparseWords m srcAddr 4)) +
      BitVec.ofNat 64 (total (sparseWords m destAddr 4)) +
      (17 : BitVec 16).setWidth 64 + len.setWidth 64 := by
  have hlast : total [17, len] = (17 : BitVec 16).toNat + len.toNat := by
    rw [total_cons, total_cons, total_nil, Nat.add_zero]
  simp only [summedWords, total_append, hlast, BitVec.ofNat_add, BitVec.ofNat_toNat,
    BitVec.add_assoc]

/-- **What `udp_sum_calc` returns**: the checksum of the words that it makes. -/
theorem udpSumCalc_eq : udpSumCalc m len srcAddr destAddr buff =
    if Readable m len srcAddr destAddr buff then
      some (checksum (summedWords m len srcAddr destAddr buff)) else none := by
  unfold udpSumCalc
  by_cases hread : Readable m len srcAddr destAddr buff
  · obtain ⟨hbuff, hsrc, hdest⟩ := hread
    have hlen := len.isLt
    have hlength : (summedWords m len srcAddr destAddr buff).length < 2 ^ 47 := by
      simp only [summedWords, List.length_append, length_sparseWords, List.length_cons,
        List.length_nil]
      omega
    have htotal := toNat_total hlength
    rw [if_pos ⟨hbuff, hsrc, hdest⟩, sumLoop_eq, if_pos hbuff, zero_add]
    simp only [Option.bind_eq_bind, Option.bind_some, sumLoop_eq, if_pos (Or.inr hsrc),
      if_pos (Or.inr hdest), Nat.reduceAdd, Nat.reduceDiv, Nat.reduceMul]
    rw [← ofNat_total_summedWords]
    refine congrArg some (not_setWidth_of_carry ?_)
    rw [foldULong_toNat, htotal]
  · rw [if_neg hread, sumLoop_eq]
    split
    · rename_i hbuff
      rw [Option.bind_eq_bind, Option.bind_some, sumLoop_eq]
      split
      · rename_i hsrc
        rw [Option.bind_some, sumLoop_eq, if_neg]
        · rfl
        · exact fun hdest => hread ⟨hbuff, by omega, by omega⟩
      · rfl
    · rfl

end Sum

/-! ### The UDP checksum -/

/-- Bytes as 16-bit words in network byte order, the last odd one with a zero
    byte. -/
def networkWords : List Byte → List (BitVec 16)
  | b0 :: b1 :: rest => bytesHalf b1 b0 :: networkWords rest
  | [b0] => [bytesHalf 0 b0]
  | [] => []

/-- The checksum over pseudo-header and datagram. -/
def udpChecksum (src dest datagram : List Byte) : BitVec 16 :=
  checksum (networkWords src ++ networkWords dest ++
    [bytesHalf IPPROTO_UDP 0, BitVec.ofNat 16 datagram.length] ++ networkWords datagram)

/-- The datagram and the two addresses. -/
def given (len : BitVec 16) (srcAddr destAddr buff : Nat) : Set Nat :=
  {i | srcAddr ≤ i ∧ i < srcAddr + 4 ∨ destAddr ≤ i ∧ i < destAddr + 4 ∨
    buff ≤ i ∧ i < buff + len.toNat}

/-- `udp_sum_calc` returns the UDP checksum, and would in any memory that has the
    same datagram and addresses. -/
structure ComputesUdpChecksum (m : Buf) (len : BitVec 16) (srcAddr destAddr buff : Nat) :
    Prop where
  value : udpSumCalc m len srcAddr destAddr buff =
    some (udpChecksum (m.bytes srcAddr 4) (m.bytes destAddr 4) (m.bytes buff len.toNat))
  frame : ∀ m' : Buf, m'.size = m.size →
    Set.EqOn m'.byte m.byte (given len srcAddr destAddr buff) →
      udpSumCalc m' len srcAddr destAddr buff = udpSumCalc m len srcAddr destAddr buff

/-- Where the memory that is read is there, the value is right if and only if the
    bytes that are read happen to have the sum of those that should be. -/
theorem udpSumCalc_value_iff {m : Buf} {len : BitVec 16} {srcAddr destAddr buff : Nat}
    (hread : Readable m len srcAddr destAddr buff) :
    udpSumCalc m len srcAddr destAddr buff =
        some (udpChecksum (m.bytes srcAddr 4) (m.bytes destAddr 4) (m.bytes buff len.toNat)) ↔
      total (sparseWords m srcAddr 4 ++ sparseWords m destAddr 4 ++
          sparseWords m buff len.toNat) ≡
        total (networkWords (m.bytes srcAddr 4) ++ networkWords (m.bytes destAddr 4) ++
          networkWords (m.bytes buff len.toNat)) [MOD 2 ^ 16 - 1] := by
  have hlength : BitVec.ofNat 16 (m.bytes buff len.toNat).length = len := by
    rw [Buf.length_bytes, BitVec.ofNat_toNat, BitVec.setWidth_eq]
  have hproto : bytesHalf IPPROTO_UDP 0 = 17 := by decide
  rw [udpSumCalc_eq, if_pos hread, Option.some_inj, udpChecksum, hlength, hproto,
    checksum_eq_iff (by decide)]
  simp only [summedWords, total_append, total_cons, total_nil]
  have h17 : (17 : BitVec 16).toNat = 17 := rfl
  rw [h17]
  unfold Nat.ModEq
  omega

/-! ### The last byte that is read -/

/-- The last byte that a loop over `n` reads. -/
def lastRead (p n : Nat) : Nat := p + (4 * ((n + 1) / 2) - 2)

/-- A memory with another byte at `x`. -/
def poke (m : Buf) (x : Nat) (v : Byte) : Buf :=
  { m with byte := fun i => if i = x then v else m.byte i }

theorem byte_poke_of_ne {m : Buf} {x i : Nat} {v : Byte} (h : i ≠ x) :
    (poke m x v).byte i = m.byte i := if_neg h

theorem byte_poke (m : Buf) (x : Nat) (v : Byte) : (poke m x v).byte x = v := if_pos rfl

/-- How often a loop reads `x`, where it reads nothing behind `x`. -/
def readsOf (x p n : Nat) : Nat := if 0 < n ∧ x = lastRead p n then 1 else 0

/-- The word of the last step; the other steps read in front of it. -/
theorem sparseWords_of_pos (m : Buf) {p n : Nat} (hn : 0 < n) :
    sparseWords m p n = (List.range' 0 ((n + 1) / 2 - 1) 2).map (sparseWord m p) ++
      [bytesHalf (m.byte (lastRead p n)) (m.byte (lastRead p n - 2))] := by
  obtain ⟨k, hk⟩ : ∃ k, (n + 1) / 2 = k + 1 := ⟨(n + 1) / 2 - 1, by omega⟩
  have hlow : p + 2 * (0 + 2 * k) + 2 = lastRead p n := by
    rw [lastRead, hk]
    omega
  have hhigh : p + 2 * (0 + 2 * k) = lastRead p n - 2 := by omega
  rw [sparseWords, steps, hk, List.range'_concat, List.map_append, List.map_singleton,
    sparseWord, hlow, hhigh, Nat.add_sub_cancel]

/-- A byte behind which a loop reads nothing counts once, if the loop reads it. -/
theorem total_poke (m : Buf) {x p n : Nat} (v : Byte) (h : 0 < n → lastRead p n ≤ x) :
    total (sparseWords (poke m x v) p n) + readsOf x p n * (m.byte x).toNat =
      total (sparseWords m p n) + readsOf x p n * v.toNat := by
  by_cases hn : 0 < n
  · have hx := h hn
    have hlast : lastRead p n = p + 4 * ((n + 1) / 2) - 2 := by
      rw [lastRead]
      omega
    have hinit : (List.range' 0 ((n + 1) / 2 - 1) 2).map (sparseWord (poke m x v) p) =
        (List.range' 0 ((n + 1) / 2 - 1) 2).map (sparseWord m p) := by
      refine List.map_congr_left fun i hi => ?_
      obtain ⟨j, hj, rfl⟩ := List.mem_range'.mp hi
      rw [sparseWord, sparseWord, byte_poke_of_ne (by omega), byte_poke_of_ne (by omega)]
    have hhigh : (poke m x v).byte (lastRead p n - 2) = m.byte (lastRead p n - 2) :=
      byte_poke_of_ne (by omega)
    rw [sparseWords_of_pos _ hn, sparseWords_of_pos _ hn, hinit, hhigh, total_append,
      total_append, total_cons, total_cons, total_nil, toNat_bytesHalf, toNat_bytesHalf, readsOf]
    by_cases hread : x = lastRead p n
    · rw [if_pos ⟨hn, hread⟩, ← hread, byte_poke]
      omega
    · rw [if_neg (fun h => hread h.2), byte_poke_of_ne (Ne.symm hread)]
      omega
  · have hzero : n = 0 := by omega
    have hreads : readsOf x p n = 0 := if_neg fun h => hn h.1
    rw [hreads, hzero, Nat.zero_mul, Nat.zero_mul]
    rfl

/-- Some byte outside the datagram and the addresses is read, and nothing behind
    it. -/
theorem exists_lastRead (len : BitVec 16) (srcAddr destAddr buff : Nat) :
    ∃ x, x ∉ given len srcAddr destAddr buff ∧
      (0 < len.toNat → lastRead buff len.toNat ≤ x) ∧
      lastRead srcAddr 4 ≤ x ∧ lastRead destAddr 4 ≤ x ∧
      0 < readsOf x buff len.toNat + readsOf x srcAddr 4 + readsOf x destAddr 4 := by
  have hsrc : lastRead srcAddr 4 = srcAddr + 6 := rfl
  have hdest : lastRead destAddr 4 = destAddr + 6 := rfl
  have hbuff : 0 < len.toNat → buff + len.toNat ≤ lastRead buff len.toNat := by
    intro hlen
    rw [lastRead]
    omega
  have hreads : ∀ p n, 0 < n → readsOf (lastRead p n) p n = 1 :=
    fun p n hn => if_pos ⟨hn, rfl⟩
  -- behind all three, whichever of them ends last
  have houtside : ∀ x, srcAddr + 6 ≤ x → destAddr + 6 ≤ x →
      (0 < len.toNat → lastRead buff len.toNat ≤ x) → x ∉ given len srcAddr destAddr buff := by
    intro x hs hd hb hx
    simp only [given, Set.mem_ofPred_eq] at hx
    omega
  by_cases hb : 0 < len.toNat ∧ max (srcAddr + 6) (destAddr + 6) ≤ lastRead buff len.toNat
  · refine ⟨lastRead buff len.toNat, houtside _ (by omega) (by omega) fun _ => le_rfl,
      fun _ => le_rfl, by omega, by omega, ?_⟩
    rw [hreads _ _ hb.1]
    omega
  · rcases le_total srcAddr destAddr with hle | hle
    · refine ⟨lastRead destAddr 4, houtside _ (by omega) (by omega) (by omega), by omega,
        by omega, le_rfl, ?_⟩
      rw [hreads destAddr 4 (by decide)]
      omega
    · refine ⟨lastRead srcAddr 4, houtside _ (by omega) (by omega) (by omega), by omega,
        le_rfl, by omega, ?_⟩
      rw [hreads srcAddr 4 (by decide)]
      omega

/-- Another value for a byte, as near as can be. -/
theorem exists_near (b : Byte) : ∃ v : Byte, v.toNat = b.toNat + 1 ∨ v.toNat + 1 = b.toNat := by
  have hb := b.isLt
  by_cases h : b.toNat = 0
  · exact ⟨1, Or.inl (by rw [h]; rfl)⟩
  · refine ⟨BitVec.ofNat 8 (b.toNat - 1), Or.inr ?_⟩
    rw [BitVec.toNat_ofNat]
    omega

/-- The two sums differ by how often the byte is read. -/
theorem total_summedWords_poke (m : Buf) {len : BitVec 16} {srcAddr destAddr buff x : Nat}
    (v : Byte) (hbuff : 0 < len.toNat → lastRead buff len.toNat ≤ x)
    (hsrc : lastRead srcAddr 4 ≤ x) (hdest : lastRead destAddr 4 ≤ x) :
    total (summedWords (poke m x v) len srcAddr destAddr buff) +
        (readsOf x buff len.toNat + readsOf x srcAddr 4 + readsOf x destAddr 4) *
          (m.byte x).toNat =
      total (summedWords m len srcAddr destAddr buff) +
        (readsOf x buff len.toNat + readsOf x srcAddr 4 + readsOf x destAddr 4) * v.toNat := by
  have hb := total_poke m v hbuff
  have hs := total_poke m v fun _ : 0 < 4 => hsrc
  have hd := total_poke m v fun _ : 0 < 4 => hdest
  simp only [summedWords, total_append, Nat.add_mul]
  omega

/-- **`udp_sum_calc` does not compute the UDP checksum**, of no datagram and
    wherever it and the addresses lie: where the memory that it reads is there,
    the result depends on a byte outside of them. -/
theorem udpSumCalc_never (m : Buf) (len : BitVec 16) (srcAddr destAddr buff : Nat) :
    ¬ ComputesUdpChecksum m len srcAddr destAddr buff := by
  intro h
  have hread : Readable m len srcAddr destAddr buff := by
    by_contra hread
    have hvalue := h.value
    rw [udpSumCalc_eq, if_neg hread] at hvalue
    cases hvalue
  obtain ⟨x, hx, hbuff, hsrc, hdest, hpos⟩ := exists_lastRead len srcAddr destAddr buff
  obtain ⟨v, hv⟩ := exists_near (m.byte x)
  have hagree : Set.EqOn (poke m x v).byte m.byte (given len srcAddr destAddr buff) :=
    fun i hi => byte_poke_of_ne fun hix => hx (hix ▸ hi)
  have hsame := h.frame (poke m x v) rfl hagree
  have hread' : Readable (poke m x v) len srcAddr destAddr buff := hread
  rw [udpSumCalc_eq, udpSumCalc_eq, if_pos hread, if_pos hread', Option.some_inj,
    checksum_eq_iff (by decide)] at hsame
  obtain ⟨hmod, -⟩ := hsame
  -- the byte is read once, twice or three times
  have hle : ∀ p n, readsOf x p n ≤ 1 := by
    intro p n
    unfold readsOf
    split <;> omega
  have hthree : readsOf x buff len.toNat + readsOf x srcAddr 4 + readsOf x destAddr 4 ≤ 3 :=
    Nat.add_le_add (Nat.add_le_add (hle buff len.toNat) (hle srcAddr 4)) (hle destAddr 4)
  have hsum := total_summedWords_poke m v hbuff hsrc hdest
  generalize readsOf x buff len.toNat + readsOf x srcAddr 4 + readsOf x destAddr 4 = k
    at hpos hthree hsum
  rw [Nat.ModEq] at hmod
  rcases hv with hv | hv
  · rw [hv, Nat.mul_succ] at hsum
    omega
  · rw [← hv, Nat.mul_succ] at hsum
    omega

/-- Two addresses and a UDP header behind them, as in an IP datagram:
    10.0.0.1:5000 to 10.0.0.2:5001, without payload. -/
def udpBuf : Buf where
  size := 40
  byte := fun i => [0x0A, 0, 0, 1, 0x0A, 0, 0, 2, 0x13, 0x88, 0x13, 0x89, 0, 8, 0, 0].getD i 0

/-- The value is wrong already for a header alone. -/
theorem udp_sum_not_computed :
    ¬ ∀ (m : Buf) (len : BitVec 16) (srcAddr destAddr buff : Nat), 8 ≤ len.toNat →
      buff + len.toNat ≤ m.size → srcAddr + 4 ≤ m.size → destAddr + 4 ≤ m.size →
      m.half (buff + 6) = 0 → ComputesUdpChecksum m len srcAddr destAddr buff := by
  intro h
  have hvalue := (h udpBuf 8 0 4 8 (by decide) (by decide) (by decide) (by decide)
    (by decide)).value
  rw [udpSumCalc_value_iff (by decide)] at hvalue
  exact absurd hvalue (by decide)

end MiddleboxSession.Socket
