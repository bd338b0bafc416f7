/-
  MiddleboxSession/Socket/RawSocket.lean
  ======================================
  **The datagram that RAW_SOCKET sends.**

  `main` clears a buffer, puts 1024 bytes of payload behind the place of the two
  headers, fills in the headers and stores the header checksum.  It calls `csum`
  with `sizeof(struct iphdr)`, which is a number of bytes, where `csum` takes a
  number of words: the checksum covers the UDP header and 12 bytes of payload
  besides.  What these add up to depends on the ports only.
-/
import MiddleboxSession.Socket.Checksum

namespace MiddleboxSession.Socket

open CBuffer OnesComplement

/-! ### `main` -/

def sizeofIphdr : Nat := 20
def sizeofUdphdr : Nat := 8

/-- `htonl` on a little-endian machine. -/
def htonl (w : BitVec 32) : BitVec 32 :=
  bytesWord (w.extractLsb' 24 8) (w.extractLsb' 16 8) (w.extractLsb' 8 8) (w.extractLsb' 0 8)

/-- `data = datagram + sizeof (struct iphdr) + sizeof (struct udphdr)`. -/
def data : Nat := sizeofIphdr + sizeofUdphdr

/-- The cleared buffer with its payload, 1023 times `'a'` and a newline. -/
def fillData : Option Buf := do
  let datagram ← Buf.alloca 4096
  let datagram ← datagram.memset 0 0 4096
  let datagram ← datagram.memset data 0x61 1023
  datagram.memset (data + 1023) 0x0A 1

/-- "Fill in the IP Header".  `iph->id` keeps 16 of the 32 bits of `htonl`. -/
def fillIphdr (saddr daddr : Addr) (datagram : Buf) : Option Buf := do
  let datagram ← datagram.write 0 [(4 : BitVec 4) ++ (5 : BitVec 4)]     -- version, ihl
  let datagram ← datagram.write 1 [0]                                    -- tos
  let len ← datagram.strlen data
  let datagram ← datagram.write 2
    (halfBytes (BitVec.ofNat 16 (sizeofIphdr + sizeofUdphdr + len)))     -- tot_len
  let datagram ← datagram.write 4 (halfBytes ((htonl 54321).setWidth 16)) -- id
  let datagram ← datagram.write 6 (halfBytes 0)                          -- frag_off
  let datagram ← datagram.write 8 [64]                                   -- ttl
  let datagram ← datagram.write 9 [IPPROTO_UDP]                          -- protocol
  let datagram ← datagram.write 10 (halfBytes 0)                         -- check
  let datagram ← datagram.write 12 (wordBytes saddr)
  datagram.write 16 (wordBytes daddr)

def fillUdphdr (sport dport : BitVec 32) (datagram : Buf) : Option Buf := do
  let datagram ← datagram.write 20 (halfBytes (ntohs (sport.setWidth 16))) -- source
  let datagram ← datagram.write 22 (halfBytes (ntohs (dport.setWidth 16))) -- dest
  let len ← datagram.strlen data
  datagram.write 24 (halfBytes (BitVec.ofNat 16 (sizeofUdphdr + len)))    -- len

/-- `datagram` as `main` leaves it, from what `inet_addr` and `atoi` make of the
    command line. -/
def main (saddr daddr : Addr) (sport dport : BitVec 32) : Option Buf := do
  let datagram ← fillData
  let datagram ← fillIphdr saddr daddr datagram
  let datagram ← fillUdphdr sport dport datagram
  let check ← csum datagram 0 (BitVec.ofNat 32 sizeofIphdr)
  datagram.write 10 (halfBytes check)

/-! ### What `main` writes -/

/-- The payload is in place and the bytes `header` stand in front of it, with
    zero bytes between. -/
structure Filled (b : Buf) (header : List Byte) : Prop where
  size : b.size = 4096
  holds : b.Holds 0 header
  zeros : ∀ i, header.length ≤ i → i < data → b.byte i = 0
  chars : ∀ i < 1023, b.byte (data + i) = 0x61
  newline : b.byte (data + 1023) = 0x0A
  zero : b.byte (data + 1024) = 0

theorem filled_fillData : ∃ b, fillData = some b ∧ Filled b [] := by
  have hdata : data = 28 := rfl
  obtain ⟨b₀, halloc, hsize⟩ := Buf.alloca_spec (n := 4096) (by decide)
  obtain ⟨b₁, hclear, hsize₁, hbyte₁⟩ := b₀.memset_spec 0 0 4096 (by omega)
  obtain ⟨b₂, hchars, hsize₂, hbyte₂⟩ := b₁.memset_spec data 0x61 1023 (by omega)
  obtain ⟨b₃, hnewline, hsize₃, hbyte₃⟩ := b₂.memset_spec (data + 1023) 0x0A 1 (by omega)
  refine ⟨b₃, ?_, by omega, Buf.holds_nil _ _, fun i _ hi => ?_, fun i hi => ?_, ?_, ?_⟩
  · simp only [fillData, halloc, hclear, hchars, hnewline, Option.bind_eq_bind, Option.bind_some]
  · rw [hbyte₃, if_neg (by omega), hbyte₂, if_neg (by omega), hbyte₁, if_pos (by omega)]
  · rw [hbyte₃, if_neg (by omega), hbyte₂, if_pos (by omega)]
  · rw [hbyte₃, if_pos (by omega)]
  · rw [hbyte₃, if_neg (by omega), hbyte₂, if_neg (by omega), hbyte₁, if_pos (by omega)]

namespace Filled

variable {b : Buf} {header : List Byte}

/-- Header fields are written one behind the other. -/
theorem write (h : Filled b header) (off : Nat) (bs : List Byte) (hoff : off = header.length)
    (hfit : off + bs.length ≤ data) :
    ∃ b', b.write off bs = some b' ∧ Filled b' (header ++ bs) := by
  subst hoff
  have hfar : ∀ i, header.length + bs.length ≤ i →
      (b.set header.length bs).byte i = b.byte i := by
    intro i hi
    rw [Buf.byte_set, if_neg (by omega)]
  have hbehind : ∀ i, (b.set header.length bs).byte (data + i) = b.byte (data + i) :=
    fun i => hfar _ (hfit.trans (Nat.le_add_right _ _))
  have hsize : header.length + bs.length ≤ b.size := by
    rw [h.size]
    exact hfit.trans (by decide)
  refine ⟨_, Buf.write_eq_set hsize, h.size, h.holds.set_append bs,
    fun i hlo hi => ?_, fun i hi => ?_, ?_, ?_⟩
  · rw [List.length_append] at hlo
    rw [hfar i hlo, h.zeros i (by omega) hi]
  · rw [hbehind, h.chars i hi]
  · rw [hbehind, h.newline]
  · rw [hbehind, h.zero]

theorem strlen_data (h : Filled b header) : b.strlen data = some 1024 := by
  refine Buf.strlen_eq (by rw [h.size]; decide) (fun i hi => ?_) h.zero
  rcases Nat.lt_succ_iff_lt_or_eq.mp hi with hlt | rfl
  · rw [h.chars i hlt]
    decide
  · rw [h.newline]
    decide

/-- The first 40 bytes, behind a header of 26 bytes. -/
theorem holds_all (h : Filled b header) (hlen : header.length = 26) :
    b.Holds 0 (header ++ [0, 0] ++ List.replicate 12 0x61) := by
  have hdata : data = 28 := rfl
  rw [Buf.holds_append, Buf.holds_append]
  refine ⟨⟨h.holds, fun i hi => ?_⟩, fun i hi => ?_⟩
  · rw [h.zeros _ (by omega) (by simp at hi; omega)]
    match i, hi with
    | 0, _ => rfl
    | 1, _ => rfl
  · have hchar := h.chars i (by simp at hi; omega)
    have hoff : 0 + (header ++ [0, 0]).length + i = data + i := by simp [hlen, hdata]
    rw [hoff, hchar, List.getElem_replicate]

theorem words_all (h : Filled b header) (hlen : header.length = 26) :
    b.words 0 20 = dataWords (header ++ ([0, 0] ++ List.replicate 12 0x61)) := by
  have hall := (h.holds_all hlen).bytes
  have hlength : (header ++ [0, 0] ++ List.replicate 12 (0x61 : Byte)).length = 2 * 20 := by
    simp [hlen]
  rw [hlength, List.append_assoc] at hall
  rw [← dataWords_bytes_even, hall]

end Filled

/-! ### The two headers -/

/-- The IP header of the datagram, apart from its check word. -/
def iphdr (saddr daddr : Addr) (check : BitVec 16) : Iphdr where
  version := 4
  ihl := 5
  tos := 0
  totLen := 1052
  id := 0
  fragOff := 0
  ttl := 64
  protocol := IPPROTO_UDP
  check := check
  saddr := saddr
  daddr := daddr
  options := []

/-- The words of the header in front of its check word. -/
def front : List (BitVec 16) :=
  [bytesHalf ((4 : BitVec 4) ++ (5 : BitVec 4)) 0, 1052, 0, 0, bytesHalf 64 IPPROTO_UDP]

theorem iphdr_words (saddr daddr : Addr) (check : BitVec 16) :
    (iphdr saddr daddr check).words = front ++ check :: (halves saddr ++ halves daddr) := rfl

/-- The UDP header and the first 12 bytes of payload. -/
def extraWords (sport dport : BitVec 32) : List (BitVec 16) :=
  [ntohs (sport.setWidth 16), ntohs (dport.setWidth 16), 1032, 0] ++ List.replicate 6 0x6161

theorem words_headers (saddr daddr : Addr) (sport dport : BitVec 32) :
    ∃ b₀ b₁ b, fillData = some b₀ ∧ fillIphdr saddr daddr b₀ = some b₁ ∧
      fillUdphdr sport dport b₁ = some b ∧ b.size = 4096 ∧
      b.words 0 20 = (iphdr saddr daddr 0).words ++ extraWords sport dport := by
  obtain ⟨b₀, hdata, h₀⟩ := filled_fillData
  obtain ⟨b₁, hw₁, h₁⟩ := h₀.write 0 [(4 : BitVec 4) ++ (5 : BitVec 4)] rfl (by decide)
  obtain ⟨b₂, hw₂, h₂⟩ := h₁.write 1 [0] rfl (by decide)
  obtain ⟨b₃, hw₃, h₃⟩ := h₂.write 2
    (halfBytes (BitVec.ofNat 16 (sizeofIphdr + sizeofUdphdr + 1024))) rfl (by decide)
  obtain ⟨b₄, hw₄, h₄⟩ := h₃.write 4 (halfBytes ((htonl 54321).setWidth 16)) rfl (by decide)
  obtain ⟨b₅, hw₅, h₅⟩ := h₄.write 6 (halfBytes 0) rfl (by decide)
  obtain ⟨b₆, hw₆, h₆⟩ := h₅.write 8 [64] rfl (by decide)
  obtain ⟨b₇, hw₇, h₇⟩ := h₆.write 9 [IPPROTO_UDP] rfl (by decide)
  obtain ⟨b₈, hw₈, h₈⟩ := h₇.write 10 (halfBytes 0) rfl (by decide)
  obtain ⟨b₉, hw₉, h₉⟩ := h₈.write 12 (wordBytes saddr) rfl
    (by rw [length_wordBytes]; decide)
  obtain ⟨b₁₀, hw₁₀, h₁₀⟩ := h₉.write 16 (wordBytes daddr) rfl
    (by rw [length_wordBytes]; decide)
  obtain ⟨b₁₁, hw₁₁, h₁₁⟩ := h₁₀.write 20 (halfBytes (ntohs (sport.setWidth 16))) rfl
    (by rw [length_halfBytes]; decide)
  obtain ⟨b₁₂, hw₁₂, h₁₂⟩ := h₁₁.write 22 (halfBytes (ntohs (dport.setWidth 16))) rfl
    (by rw [length_halfBytes]; decide)
  obtain ⟨b₁₃, hw₁₃, h₁₃⟩ := h₁₂.write 24
    (halfBytes (BitVec.ofNat 16 (sizeofUdphdr + 1024))) rfl (by decide)
  refine ⟨b₀, b₁₀, b₁₃, hdata, ?_, ?_, h₁₃.size, ?_⟩
  · simp only [fillIphdr, hw₁, hw₂, h₂.strlen_data, hw₃, hw₄, hw₅, hw₆, hw₇, hw₈, hw₉, hw₁₀,
      Option.bind_eq_bind, Option.bind_some]
  · simp only [fillUdphdr, hw₁₁, hw₁₂, h₁₂.strlen_data, hw₁₃, Option.bind_eq_bind,
      Option.bind_some]
  · have hid : (htonl 54321).setWidth 16 = 0 := by decide
    rw [h₁₃.words_all rfl, hid]
    simp only [List.append_assoc, List.nil_append, List.cons_append, dataWords_halfBytes,
      dataWords_wordBytes, dataWords]
    rfl

/-- `main` leaves this header: its check word is the one of 20 words. -/
theorem main_words (saddr daddr : Addr) (sport dport : BitVec 32) :
    ∃ d, main saddr daddr sport dport = some d ∧
      d.words 0 10 = (iphdr saddr daddr
        (checksum ((iphdr saddr daddr 0).words ++ extraWords sport dport))).words := by
  obtain ⟨b₀, b₁, b, hdata, hip, hudp, hsize, hwords⟩ := words_headers saddr daddr sport dport
  have hsum : csum b 0 (BitVec.ofNat 32 sizeofIphdr) = some (checksum (b.words 0 20)) :=
    csum_eq (by decide) (by rw [hsize]; decide)
  have hfit : 10 + (halfBytes (checksum (b.words 0 20))).length ≤ b.size := by
    rw [length_halfBytes, hsize]
    decide
  refine ⟨b.set 10 (halfBytes (checksum (b.words 0 20))), ?_, ?_⟩
  · simp only [main, hdata, hip, hudp, hsum, Buf.write_eq_set hfit, Option.bind_eq_bind,
      Option.bind_some]
  · rw [← hwords]
    -- the check word takes the place of the sixth word
    have hall := Buf.words_append b 0 10 10
    have hheader : b.words 0 10 = (iphdr saddr daddr 0).words :=
      List.append_inj_left (hall.symm.trans hwords) (Buf.length_words ..)
    rw [b.words_split 0 (by decide : 5 < 10), iphdr_words] at hheader
    obtain ⟨hfront, hback⟩ := List.append_inj hheader (Buf.length_words b 0 5)
    have hset := Buf.words_set b 0 (by decide : 5 < 10) (checksum (b.words 0 20))
    rw [hfront, List.tail_eq_of_cons_eq hback] at hset
    exact hset

/-! ### The checksum of the header -/

theorem toNat_ntohs (h : BitVec 16) : (ntohs h).toNat = h.toNat / 256 + 256 * (h.toNat % 256) := by
  have hlt := h.isLt
  rw [ntohs, toNat_bytesHalf, BitVec.extractLsb'_toNat, BitVec.extractLsb'_toNat,
    Nat.shiftRight_eq_div_pow, Nat.shiftRight_eq_div_pow]
  omega

/-- What the checksum covers besides the header adds up to zero for these ports
    only. -/
theorem dvd_extraWords (sport dport : BitVec 32) :
    2 ^ 16 - 1 ∣ total (extraWords sport dport) ↔
      (sport.toNat % 2 ^ 16 + dport.toNat % 2 ^ 16) % 65535 = 44979 := by
  have hrest : total ([1032, 0] ++ List.replicate 6 0x6161 : List (BitVec 16)) = 150606 := by decide
  have htotal : total (extraWords sport dport) =
      (ntohs (sport.setWidth 16)).toNat + ((ntohs (dport.setWidth 16)).toNat + 150606) := by
    rw [← hrest, ← total_cons, ← total_cons, extraWords, List.cons_append, List.cons_append]
  rw [htotal, toNat_ntohs, toNat_ntohs, BitVec.toNat_setWidth, BitVec.toNat_setWidth]
  have hs := Nat.mod_lt sport.toNat (Nat.two_pow_pos 16)
  have hd := Nat.mod_lt dport.toNat (Nat.two_pow_pos 16)
  generalize sport.toNat % 2 ^ 16 = s at hs ⊢
  generalize dport.toNat % 2 ^ 16 = d at hd ⊢
  omega

/-- The one's-complement sum of the header that `main` leaves is all ones. -/
def EmitsValidHeader (saddr daddr : Addr) (sport dport : BitVec 32) : Prop :=
  ∃ d, main saddr daddr sport dport = some d ∧ ValidSum (d.words 0 10)

theorem emitsValidHeader_iff_dvd (saddr daddr : Addr) (sport dport : BitVec 32) :
    EmitsValidHeader saddr daddr sport dport ↔
      2 ^ 16 - 1 ∣ total (extraWords sport dport) := by
  obtain ⟨d, hmain, hwords⟩ := main_words saddr daddr sport dport
  have hvalid : EmitsValidHeader saddr daddr sport dport ↔ ValidSum (d.words 0 10) := by
    constructor
    · rintro ⟨d', hmain', hd'⟩
      rwa [Option.some.inj (hmain.symm.trans hmain')]
    · exact fun hd => ⟨d, hmain, hd⟩
  rw [hvalid, hwords, iphdr_words, iphdr_words]
  have hpos : total (front ++ (halves saddr ++ halves daddr)) ≠ 0 := by
    rw [front, List.cons_append, total_cons]
    have hfirst : (bytesHalf ((4 : BitVec 4) ++ (5 : BitVec 4)) 0).toNat = 69 := by decide
    omega
  exact validSum_checksum_iff (by decide) front (halves saddr ++ halves daddr)
    (extraWords sport dport) fun h => absurd h hpos

/-- **When RAW_SOCKET emits a valid IP header.**  For every pair of addresses, if
    and only if the two ports add up to 44979 modulo 65535. -/
theorem emits_valid_header_iff (saddr daddr : Addr) (sport dport : BitVec 32) :
    EmitsValidHeader saddr daddr sport dport ↔
      (sport.toNat % 2 ^ 16 + dport.toNat % 2 ^ 16) % 65535 = 44979 :=
  (emitsValidHeader_iff_dvd saddr daddr sport dport).trans (dvd_extraWords sport dport)

/-- `RAW_SOCKET 10.0.0.1 5000 10.0.0.2 5001`. -/
theorem header_not_valid :
    ¬ ∀ (saddr daddr : Addr) (sport dport : BitVec 32),
      EmitsValidHeader saddr daddr sport dport := by
  intro h
  have hdvd := (emitsValidHeader_iff_dvd _ _ _ _).mp
    (h (inetAton 10 0 0 1) (inetAton 10 0 0 2) 5000 5001)
  rw [dvd_extraWords] at hdvd
  exact absurd hdvd (by decide)

end MiddleboxSession.Socket
