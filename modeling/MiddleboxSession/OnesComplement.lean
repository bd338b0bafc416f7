/-
  MiddleboxSession/OnesComplement.lean
  ====================================
  **One's-complement sums, check words and their incremental update**, for words
  of any width.

  A sum with end-around carry is the sum of the words modulo `2 ^ w - 1`, with
  two representatives of zero: `0` for an empty or all-zero list, all ones for
  every other list whose sum is a multiple of `2 ^ w - 1` (`onesSum_toNat`).
  A list of words that includes its check word is valid when its sum is all
  ones (`ValidSum`).

  `checksum` is the word that makes a list valid in the place of a zero word
  (`ValidSum.checksum`).  A sum in a wider register is brought to `w` bits by
  folding what is above them onto them (`fold`), which keeps its class.

  `updateSum` is the usual incremental update of a check word.  It keeps
  validity as long as some word outside the rewritten ones is not zero
  (`ValidSum.updateSum`); rewriting words without it keeps validity only if the
  two sums agree modulo `2 ^ w - 1` (`ValidSum.replace_iff`).
-/
import Mathlib.Data.Nat.ModEq
import Mathlib.Algebra.BigOperators.Group.List.Basic
import Mathlib.Tactic

namespace OnesComplement

variable {w : Nat}

/-- The end-around carry: the representative of `n` in `0 .. 2 ^ w - 1`. -/
def carry (w n : Nat) : Nat := if n = 0 then 0 else (n - 1) % (2 ^ w - 1) + 1

def onesAdd (a b : BitVec w) : BitVec w :=
  let s := a.toNat + b.toNat
  BitVec.ofNat w (if 2 ^ w ≤ s then s - (2 ^ w - 1) else s)

def onesSum : List (BitVec w) → BitVec w
  | [] => 0
  | a :: as => onesAdd a (onesSum as)

def total (ws : List (BitVec w)) : Nat := (ws.map BitVec.toNat).sum

@[simp] theorem total_nil : total ([] : List (BitVec w)) = 0 := rfl

@[simp] theorem total_cons (a : BitVec w) (as : List (BitVec w)) :
    total (a :: as) = a.toNat + total as := by
  simp [total]

@[simp] theorem total_append (as bs : List (BitVec w)) :
    total (as ++ bs) = total as + total bs := by
  simp [total]

theorem total_eq_zero {ws : List (BitVec w)} : total ws = 0 ↔ ∀ a ∈ ws, a = 0 := by
  induction ws with
  | nil => simp
  | cons a as ih =>
    have ha : a.toNat = 0 ↔ a = 0 := by
      rw [BitVec.toNat_eq]
      rfl
    rw [total_cons, Nat.add_eq_zero_iff, ih, List.forall_mem_cons, ha]

theorem total_le (ws : List (BitVec w)) : total ws ≤ (2 ^ w - 1) * ws.length := by
  induction ws with
  | nil => simp
  | cons a as ih =>
    have ha := a.isLt
    rw [total_cons, List.length_cons, Nat.mul_succ]
    omega

/-! ### The sum modulo `2 ^ w - 1` -/

theorem carry_le (n : Nat) (hw : 0 < w) : carry w n ≤ 2 ^ w - 1 := by
  have hpow : 2 ≤ 2 ^ w := Nat.le_self_pow (by omega) 2
  unfold carry
  split
  · exact Nat.zero_le _
  · have := Nat.mod_lt (n - 1) (show 0 < 2 ^ w - 1 by omega)
    omega

theorem carry_modEq (n : Nat) : carry w n ≡ n [MOD 2 ^ w - 1] := by
  unfold carry
  split
  · rename_i h
    rw [h]
  · have h := (Nat.mod_modEq (n - 1) (2 ^ w - 1)).add_right 1
    rwa [Nat.sub_add_cancel (by omega)] at h

theorem carry_eq_zero {n : Nat} : carry w n = 0 ↔ n = 0 := by
  unfold carry
  split <;> simp [*]

/-- A representative is determined by its class and by whether it is zero. -/
theorem eq_of_modEq {a b : Nat} (ha : a ≤ 2 ^ w - 1) (hb : b ≤ 2 ^ w - 1)
    (h : a ≡ b [MOD 2 ^ w - 1]) (h0 : a = 0 ↔ b = 0) : a = b := by
  by_cases hz : a = 0
  · rw [hz, h0.mp hz]
  · have hbz : b ≠ 0 := fun hb => hz (h0.mpr hb)
    have h1 : a - 1 ≡ b - 1 [MOD 2 ^ w - 1] := by
      have h' : a - 1 + 1 ≡ b - 1 + 1 [MOD 2 ^ w - 1] := by
        rwa [Nat.sub_add_cancel (by omega), Nat.sub_add_cancel (by omega)]
      exact h'.add_right_cancel' 1
    have := Nat.ModEq.eq_of_lt_of_lt h1 (by omega) (by omega)
    omega

theorem carry_congr (hw : 0 < w) {a b : Nat} (h : a ≡ b [MOD 2 ^ w - 1]) (h0 : a = 0 ↔ b = 0) :
    carry w a = carry w b := by
  refine eq_of_modEq (w := w) (carry_le _ hw) (carry_le _ hw) ?_ ?_
  · exact (carry_modEq _).trans (h.trans (carry_modEq _).symm)
  · rw [carry_eq_zero, carry_eq_zero, h0]

theorem carry_of_le (hw : 0 < w) {n : Nat} (h : n ≤ 2 ^ w - 1) : carry w n = n :=
  eq_of_modEq (w := w) (carry_le _ hw) h (carry_modEq _) carry_eq_zero

theorem onesAdd_toNat (hw : 0 < w) (a b : BitVec w) :
    (onesAdd a b).toNat = carry w (a.toNat + b.toNat) := by
  have hpow : 2 ≤ 2 ^ w := Nat.le_self_pow (by omega) 2
  have ha := a.isLt
  have hb := b.isLt
  have hval : (onesAdd a b).toNat =
      if 2 ^ w ≤ a.toNat + b.toNat then a.toNat + b.toNat - (2 ^ w - 1)
      else a.toNat + b.toNat := by
    rw [onesAdd, BitVec.toNat_ofNat, Nat.mod_eq_of_lt]
    split <;> omega
  refine eq_of_modEq (w := w) ?_ (carry_le _ hw) ?_ ?_
  · rw [hval]
    split <;> omega
  · rw [hval]
    refine Nat.ModEq.trans ?_ (carry_modEq _).symm
    split
    · rename_i h
      have hsub : a.toNat + b.toNat = a.toNat + b.toNat - (2 ^ w - 1) + (2 ^ w - 1) := by omega
      conv_rhs => rw [hsub]
      exact (Nat.add_modEq_right).symm
    · rfl
  · rw [hval, carry]
    split
    · rw [if_neg (by omega)]
      omega
    · by_cases hz : a.toNat + b.toNat = 0
      · simp [hz]
      · rw [if_neg hz]
        omega

/-- **The one's-complement sum** is the sum of the words, carried around. -/
theorem onesSum_toNat (hw : 0 < w) (ws : List (BitVec w)) :
    (onesSum ws).toNat = carry w (total ws) := by
  induction ws with
  | nil => simp [onesSum, carry]
  | cons a as ih =>
    rw [onesSum, onesAdd_toNat hw, ih, total_cons]
    refine carry_congr hw ((carry_modEq _).add_left _) ?_
    rw [Nat.add_eq_zero_iff, Nat.add_eq_zero_iff, carry_eq_zero]

/-! ### Folding a wide sum -/

/-- What is above the lowest `w` bits is added to them. -/
def fold (w n : Nat) : Nat := n % 2 ^ w + n / 2 ^ w

theorem fold_add (w n : Nat) : fold w n + (2 ^ w - 1) * (n / 2 ^ w) = n := by
  have hpow : 0 < 2 ^ w := Nat.two_pow_pos w
  have hdiv := Nat.mod_add_div n (2 ^ w)
  have hmul : 2 ^ w * (n / 2 ^ w) = (2 ^ w - 1) * (n / 2 ^ w) + n / 2 ^ w := by
    rw [← Nat.succ_mul, Nat.succ_eq_add_one, Nat.sub_add_cancel hpow]
  unfold fold
  omega

theorem fold_modEq (w n : Nat) : fold w n ≡ n [MOD 2 ^ w - 1] := by
  conv_rhs => rw [← fold_add w n]
  simp [Nat.ModEq]

theorem fold_eq_zero {n : Nat} : fold w n = 0 ↔ n = 0 := by
  have hpow : 0 < 2 ^ w := Nat.two_pow_pos w
  constructor
  · intro h
    have hdiv := Nat.mod_add_div n (2 ^ w)
    obtain ⟨hmod, hquot⟩ := Nat.add_eq_zero_iff.mp h
    rw [hmod, hquot] at hdiv
    exact hdiv.symm
  · rintro rfl
    simp [fold]

/-- **Folding keeps the sum.** -/
theorem carry_fold (hw : 0 < w) (n : Nat) : carry w (fold w n) = carry w n :=
  carry_congr hw (fold_modEq w n) fold_eq_zero

theorem fold_lt (hw : 0 < w) {n : Nat} (h : 2 ^ w ≤ n) : fold w n < n := by
  have hpow : 2 ≤ 2 ^ w := Nat.le_self_pow (by omega) 2
  have hquot : 0 < n / 2 ^ w := Nat.div_pos h (by omega)
  have hpos : 0 < (2 ^ w - 1) * (n / 2 ^ w) := Nat.mul_pos (by omega) hquot
  have hadd := fold_add w n
  omega

/-! ### Valid lists -/

def ValidSum (ws : List (BitVec w)) : Prop := onesSum ws = BitVec.allOnes w

instance (ws : List (BitVec w)) : Decidable (ValidSum ws) :=
  inferInstanceAs (Decidable (onesSum ws = _))

theorem validSum_iff (hw : 0 < w) {ws : List (BitVec w)} :
    ValidSum ws ↔ total ws ≠ 0 ∧ 2 ^ w - 1 ∣ total ws := by
  have hpow : 2 ≤ 2 ^ w := Nat.le_self_pow (by omega) 2
  rw [ValidSum, BitVec.toNat_eq, onesSum_toNat hw, BitVec.toNat_allOnes]
  constructor
  · intro h
    refine ⟨fun hz => ?_, ?_⟩
    · rw [hz, carry, if_pos rfl] at h
      omega
    · have hmod := carry_modEq (w := w) (total ws)
      rw [h] at hmod
      exact (Nat.modEq_zero_iff_dvd.mp (hmod.symm.trans (by simp [Nat.ModEq])))
  · rintro ⟨hz, hdvd⟩
    refine eq_of_modEq (w := w) (carry_le _ hw) le_rfl ?_ ?_
    · exact (carry_modEq _).trans ((Nat.modEq_zero_iff_dvd.mpr hdvd).trans (by simp [Nat.ModEq]))
    · rw [carry, if_neg hz]
      omega

theorem validSum_congr (hw : 0 < w) {as bs : List (BitVec w)} (h : total as = total bs) :
    ValidSum as ↔ ValidSum bs := by
  rw [validSum_iff hw, validSum_iff hw, h]

/-! ### Check words -/

/-- The complement of the one's-complement sum. -/
def checksum (ws : List (BitVec w)) : BitVec w := ~~~ onesSum ws

theorem checksum_toNat (hw : 0 < w) (ws : List (BitVec w)) :
    (checksum ws).toNat = 2 ^ w - 1 - carry w (total ws) := by
  rw [checksum, BitVec.toNat_not, onesSum_toNat hw]

theorem checksum_eq_zero {ws : List (BitVec w)} : checksum ws = 0 ↔ ValidSum ws := by
  rw [checksum, ValidSum]
  constructor
  · intro h
    rw [← BitVec.not_not (b := onesSum ws), h]
    exact BitVec.not_zero
  · intro h
    rw [h]
    exact BitVec.not_allOnes

theorem checksum_eq_iff (hw : 0 < w) {as bs : List (BitVec w)} :
    checksum as = checksum bs ↔
      total as ≡ total bs [MOD 2 ^ w - 1] ∧ (total as = 0 ↔ total bs = 0) := by
  have ha := carry_le (total as) hw
  have hb := carry_le (total bs) hw
  rw [BitVec.toNat_eq, checksum_toNat hw, checksum_toNat hw]
  constructor
  · intro h
    have heq : carry w (total as) = carry w (total bs) := by omega
    refine ⟨(carry_modEq _).symm.trans (heq ▸ carry_modEq _), ?_⟩
    rw [← carry_eq_zero (w := w), heq, carry_eq_zero]
  · rintro ⟨hmod, h0⟩
    rw [carry_congr hw hmod h0]

/-- A check word that was computed over other words besides makes its list valid
    if and only if those words add up to zero. -/
theorem validSum_checksum_iff (hw : 0 < w) (as bs extra : List (BitVec w))
    (h0 : total (as ++ bs) = 0 → total extra = 0) :
    ValidSum (as ++ checksum (as ++ 0 :: bs ++ extra) :: bs) ↔ 2 ^ w - 1 ∣ total extra := by
  have hpow : 2 ≤ 2 ^ w := Nat.le_self_pow (by omega) 2
  have hle := carry_le (w := w) (total (as ++ 0 :: bs ++ extra)) hw
  have hmod := carry_modEq (w := w) (total (as ++ 0 :: bs ++ extra))
  have hcount : total (as ++ 0 :: bs ++ extra) = total (as ++ bs) + total extra := by
    simp [Nat.add_assoc]
  have hlist : total (as ++ checksum (as ++ 0 :: bs ++ extra) :: bs) =
      (checksum (as ++ 0 :: bs ++ extra)).toNat + total (as ++ bs) := by
    simp only [total_append, total_cons]
    omega
  rw [validSum_iff hw, hlist, checksum_toNat hw]
  rw [hcount] at hle hmod ⊢
  generalize total (as ++ bs) = ws at h0 hle hmod ⊢
  -- the check word and the sum that it complements add up to all ones
  have hsum : 2 ^ w - 1 - carry w (ws + total extra) + ws + total extra ≡ 0
      [MOD 2 ^ w - 1] := by
    have h := hmod.symm.add_left (2 ^ w - 1 - carry w (ws + total extra))
    rw [Nat.sub_add_cancel hle, ← Nat.add_assoc] at h
    exact h.trans (by simp [Nat.ModEq])
  constructor
  · rintro ⟨-, hdvd⟩
    refine Nat.modEq_zero_iff_dvd.mp ?_
    have h := (Nat.modEq_zero_iff_dvd.mpr hdvd).symm.add_right (total extra)
    rw [Nat.zero_add] at h
    exact h.trans hsum
  · intro hdvd
    constructor
    · intro hz
      have hws : ws = 0 := by omega
      have hcarry : carry w (ws + total extra) = 0 := by
        rw [hws, h0 hws]
        rfl
      omega
    · have h := (Nat.modEq_zero_iff_dvd.mpr hdvd).add_left
        (2 ^ w - 1 - carry w (ws + total extra) + ws)
      exact Nat.modEq_zero_iff_dvd.mp (h.symm.trans hsum)

/-- **A check word in the place of a zero word makes the list valid.** -/
theorem ValidSum.checksum (hw : 0 < w) (as bs : List (BitVec w)) :
    ValidSum (as ++ OnesComplement.checksum (as ++ 0 :: bs) :: bs) := by
  have h := (validSum_checksum_iff hw as bs [] fun _ => rfl).mpr (dvd_zero _)
  rwa [List.append_nil] at h

/-! ### Replacing words -/

/-- Words that are replaced by others without an update of the check word. -/
theorem ValidSum.replace_iff (hw : 0 < w) {old rest : List (BitVec w)} (new : List (BitVec w))
    (h : ValidSum (old ++ rest)) (hrest : ∃ a ∈ rest, a ≠ 0) :
    ValidSum (new ++ rest) ↔ total old ≡ total new [MOD 2 ^ w - 1] := by
  obtain ⟨-, hdvd⟩ := (validSum_iff hw).mp h
  have hne : total rest ≠ 0 := by
    obtain ⟨a, ha, ha0⟩ := hrest
    exact fun hz => ha0 (total_eq_zero.mp hz a ha)
  rw [validSum_iff hw]
  rw [total_append] at hdvd ⊢
  have hold := Nat.modEq_zero_iff_dvd.mpr hdvd
  constructor
  · rintro ⟨-, hnew⟩
    exact (hold.trans (Nat.modEq_zero_iff_dvd.mpr hnew).symm).add_right_cancel' _
  · intro hmod
    refine ⟨by omega, Nat.modEq_zero_iff_dvd.mp ?_⟩
    exact (hmod.symm.add_right _).trans hold

/-! ### Incremental update -/

/-- The check word after the words `old` were replaced by `new`:
    `~(~check + ~old + new)`. -/
def updateSum (check : BitVec w) (old new : List (BitVec w)) : BitVec w :=
  ~~~ onesSum (~~~ check :: (old.map (~~~ ·) ++ new))

theorem total_map_not (ws : List (BitVec w)) :
    total (ws.map (~~~ ·)) + total ws = (2 ^ w - 1) * ws.length := by
  induction ws with
  | nil => simp
  | cons a as ih =>
    have ha := a.isLt
    rw [List.map_cons, total_cons, total_cons, BitVec.toNat_not, List.length_cons, Nat.mul_add,
      ← ih]
    omega

theorem updateSum_modEq (hw : 0 < w) (check : BitVec w) (old new : List (BitVec w)) :
    (updateSum check old new).toNat + total new ≡ check.toNat + total old [MOD 2 ^ w - 1] := by
  have hcheck := check.isLt
  have hsum := onesSum_toNat hw (~~~ check :: (old.map (~~~ ·) ++ new))
  have hle := carry_le (w := w) (total (~~~ check :: (old.map (~~~ ·) ++ new))) hw
  have hmod := carry_modEq (w := w) (total (~~~ check :: (old.map (~~~ ·) ++ new)))
  have hold := total_map_not old
  rw [total_cons, total_append, BitVec.toNat_not] at hsum hle hmod
  rw [updateSum, BitVec.toNat_not, hsum]
  -- with `s` the sum before it is carried around, `s + check + old` is `new` mod `2 ^ w - 1`
  have hs : 2 ^ w - 1 - check.toNat + (total (old.map (~~~ ·)) + total new) +
      (check.toNat + total old) = total new + (2 ^ w - 1) * (old.length + 1) := by
    rw [Nat.mul_add, ← hold]
    omega
  have hnew : total new ≡ carry w (2 ^ w - 1 - check.toNat +
      (total (old.map (~~~ ·)) + total new)) + (check.toNat + total old) [MOD 2 ^ w - 1] := by
    refine Nat.ModEq.trans ?_ (hmod.symm.add_right _)
    rw [hs]
    simp [Nat.ModEq]
  have h := hnew.add_left
    (2 ^ w - 1 - carry w (2 ^ w - 1 - check.toNat + (total (old.map (~~~ ·)) + total new)))
  refine h.trans ?_
  rw [← Nat.add_assoc, Nat.sub_add_cancel hle]
  simp [Nat.ModEq]

/-- **The incremental update keeps a list valid** if some other word is not zero. -/
theorem ValidSum.updateSum (hw : 0 < w) {check : BitVec w} {old new rest : List (BitVec w)}
    (h : ValidSum (check :: (old ++ rest))) (hrest : ∃ a ∈ rest, a ≠ 0) :
    ValidSum (updateSum check old new :: (new ++ rest)) := by
  have h' : ValidSum ((check :: old) ++ rest) := h
  refine (h'.replace_iff hw (OnesComplement.updateSum check old new :: new) hrest).mpr ?_
  rw [total_cons, total_cons]
  exact (updateSum_modEq hw check old new).symm

end OnesComplement
