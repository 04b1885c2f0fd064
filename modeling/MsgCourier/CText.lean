import MsgCourier.ListSearch
import Mathlib.Data.Nat.Digits.Lemmas
import Mathlib.Algebra.Order.Group.MinMax
import Mathlib.Order.Defs.Unbundled
import Mathlib.Tactic.Linarith

/-! Byte strings as C programs see them: text up to the first NUL, 32-bit `int`
arithmetic, decimal output and `atoi`. `long` has 64 bits. -/
namespace CText
open ListSearch

abbrev Byte := UInt8
abbrev Bytes := List Byte

def bytes (s : String) : Bytes := s.toList.map fun c => UInt8.ofNat c.toNat

instance : IsStrictTotalOrder Bytes (· < ·) where
  irrefl := List.lt_irrefl
  trans _ _ _ := List.lt_trans
  trichotomous _ _ hab hba := List.le_antisymm (List.not_lt.mp hba) (List.not_lt.mp hab)

/-! ### Text up to the terminator -/

def cstr (s : Bytes) : Bytes := s.takeWhile (· ≠ 0)

def strstr (s pat : Bytes) : Option ℕ := firstOcc pat (cstr s)

theorem cstr_append_zero (s r : Bytes) : cstr (s ++ 0 :: r) = cstr s := by
  induction s with
  | nil => rfl
  | cons a s ih =>
    by_cases ha : a = 0
    · simp [cstr, ha]
    · simpa [cstr, ha] using ih

theorem cstr_append {s : Bytes} (hs : 0 ∉ s) (r : Bytes) : cstr (s ++ r) = s ++ cstr r := by
  apply List.takeWhile_append_of_pos
  intro a ha
  have h0 : a ≠ 0 := fun h => hs (h ▸ ha)
  simpa using h0

theorem cstr_eq_self {s : Bytes} (hs : 0 ∉ s) : cstr s = s := by
  simpa [cstr] using cstr_append hs []

theorem zero_notMem_cstr (s : Bytes) : 0 ∉ cstr s := by
  intro h
  simpa using List.mem_takeWhile_imp h

theorem cstr_split (s : Bytes) : ∃ r, s = cstr s ++ r :=
  ⟨s.dropWhile (· ≠ 0), (List.takeWhile_append_dropWhile).symm⟩

theorem length_cstr_le (s : Bytes) : (cstr s).length ≤ s.length := by
  obtain ⟨r, hr⟩ := cstr_split s
  have := congrArg List.length hr
  simp only [List.length_append] at this
  omega

theorem take_length_cstr (s : Bytes) : s.take (cstr s).length = cstr s :=
  (List.prefix_iff_eq_take.mp (List.takeWhile_prefix _)).symm

/-- A match in the text is the first match in the bytes around it. -/
theorem firstOcc_of_strstr {s pat : Bytes} {k : ℕ} (hp : pat ≠ []) (h : strstr s pat = some k) :
    firstOcc pat s = some k := by
  obtain ⟨r, hr⟩ := cstr_split s
  rw [hr]
  exact firstOcc_append hp h r

theorem strstr_le {s pat : Bytes} {k : ℕ} (h : strstr s pat = some k) :
    k + pat.length ≤ s.length :=
  (firstOcc_le pat h).trans (length_cstr_le s)

theorem strstr_append {s pat : Bytes} {k : ℕ} (hp : pat ≠ []) (h : strstr s pat = some k)
    (r : Bytes) : strstr (s ++ r) pat = some k := by
  by_cases hs : 0 ∈ s
  · obtain ⟨a, b, rfl⟩ := List.append_of_mem hs
    rw [List.append_assoc, List.cons_append]
    simpa only [strstr, cstr_append_zero] using h
  · rw [strstr, cstr_append hs]
    rw [strstr, cstr_eq_self hs] at h
    exact firstOcc_append hp h _

theorem strstr_of_zero_notMem {s pat : Bytes} (hs : 0 ∉ s) : strstr s pat = firstOcc pat s := by
  rw [strstr, cstr_eq_self hs]

theorem cstr_take (s : Bytes) (n : ℕ) : cstr (s.take n) = (cstr s).take n := by
  simp [cstr, List.take_takeWhile]

theorem cstr_drop {s : Bytes} {n : ℕ} (h : n ≤ (cstr s).length) :
    cstr (s.drop n) = (cstr s).drop n := by
  induction n generalizing s with
  | zero => rfl
  | succ n ih =>
    cases s with
    | nil => rfl
    | cons a s =>
      by_cases ha : a = 0
      · simp [cstr, ha] at h
      · have hcons : cstr (a :: s) = a :: cstr s := by simp [cstr, ha]
        rw [hcons, List.length_cons] at h
        rw [hcons, List.drop_succ_cons, List.drop_succ_cons]
        exact ih (by omega)

/-- Cutting a text behind a match keeps it. -/
theorem strstr_take {s pat : Bytes} {k n : ℕ} (hp : pat ≠ []) (h : strstr s pat = some k)
    (hn : k + pat.length ≤ n) : strstr (s.take n) pat = some k := by
  rw [strstr, cstr_take]
  exact firstOcc_take hp h hn

/-- Cutting it in front of the end of the first match, or a text without match, leaves none. -/
theorem strstr_take_none {s pat : Bytes} {n : ℕ} (hp : pat ≠ [])
    (h : ∀ k, strstr s pat = some k → n < k + pat.length) : strstr (s.take n) pat = none := by
  by_contra hc
  obtain ⟨k, hk⟩ := Option.ne_none_iff_exists'.mp hc
  have hle := strstr_le hk
  have hlen := List.length_take_le n s
  have happ := strstr_append hp hk (s.drop n)
  rw [List.take_append_drop] at happ
  have := h k happ
  omega

/-! ### 32-bit `int` -/

def intMax : ℤ := 2147483647

/-- Two's complement reduction to 32 bits. -/
def int32 (x : ℤ) : ℤ := x.bmod 4294967296

theorem int32_eq {x : ℤ} (h₁ : -2147483648 ≤ x) (h₂ : x ≤ intMax) : int32 x = x := by
  unfold intMax at h₂
  exact Int.bmod_eq_of_le (by omega) (by omega)

theorem int32_le (x : ℤ) : int32 x ≤ intMax := by
  have := Int.bmod_lt (x := x) (show 0 < 4294967296 by decide)
  unfold int32 intMax
  omega

theorem int32_ge (x : ℤ) : -2147483648 ≤ int32 x := by
  have := Int.le_bmod (x := x) (show 0 < 4294967296 by decide)
  unfold int32
  omega

theorem int32_of_gt {x : ℤ} (h₁ : intMax < x) (h₂ : x < 4294967296) :
    int32 x = x - 4294967296 := by
  unfold intMax at h₁
  have hmod : int32 x = (x - 4294967296).bmod 4294967296 := by
    rw [int32, Int.bmod_def, Int.bmod_def]
    omega
  rw [hmod]
  exact Int.bmod_eq_of_le (by omega) (by omega)

/-! ### Decimal text -/

def isDigit (b : Byte) : Bool := 48 ≤ b && b ≤ 57

def isSpace (b : Byte) : Bool := b == 32 || (9 ≤ b && b ≤ 13)

def digitsVal (s : Bytes) : ℕ := s.foldl (fun v b => 10*v + (b.toNat - 48)) 0

/-- `strtol` in base ten, saturating at the ends of the 64-bit range. -/
def strtol (s : Bytes) : ℤ :=
  match (cstr s).dropWhile isSpace with
  | 45 :: t => max (-9223372036854775808) (-(digitsVal (t.takeWhile isDigit) : ℤ))
  | 43 :: t => min 9223372036854775807 (digitsVal (t.takeWhile isDigit) : ℤ)
  | t => min 9223372036854775807 (digitsVal (t.takeWhile isDigit) : ℤ)

def atoi (s : Bytes) : ℤ := int32 (strtol s)

theorem atoi_le (s : Bytes) : atoi s ≤ intMax := int32_le _

theorem atoi_ge (s : Bytes) : -2147483648 ≤ atoi s := int32_ge _

theorem isDigit_ne_zero {b : Byte} (h : isDigit b = true) : b ≠ 0 := by
  rintro rfl
  exact absurd h (by decide)

theorem atoi_of_digits {s : Bytes} (hs : ∀ b ∈ s, isDigit b = true)
    (hv : (digitsVal s : ℤ) ≤ intMax) : atoi s = digitsVal s := by
  have h0 : cstr s = s := cstr_eq_self fun h => isDigit_ne_zero (hs 0 h) rfl
  have ht : s.takeWhile isDigit = s := List.takeWhile_eq_self_iff.mpr hs
  have hval : strtol s = min 9223372036854775807 (digitsVal s : ℤ) := by
    cases s with
    | nil => rfl
    | cons b t =>
      have hb := hs b List.mem_cons_self
      have hsp : isSpace b = false := by
        simp only [isDigit, isSpace, Bool.and_eq_true, decide_eq_true_eq, UInt8.le_iff_toNat_le,
          UInt8.reduceToNat, Bool.or_eq_false_iff, beq_eq_false_iff_ne, ne_eq,
          Bool.and_eq_false_iff, decide_eq_false_iff_not] at hb ⊢
        refine ⟨?_, Or.inr (by omega)⟩
        rintro rfl
        exact absurd hb.1 (by decide)
      have h45 : b ≠ 45 := by
        rintro rfl
        exact absurd hb (by decide)
      have h43 : b ≠ 43 := by
        rintro rfl
        exact absurd hb (by decide)
      unfold strtol
      rw [h0, List.dropWhile_cons_of_neg (by simp [hsp])]
      split
      · rename_i he
        exact absurd (List.cons.inj he).1 h45
      · rename_i he
        exact absurd (List.cons.inj he).1 h43
      · rw [ht]
  unfold intMax at hv
  rw [atoi, hval, min_eq_right (by omega)]
  exact int32_eq (by omega) hv

/-- `%d` of a non-negative number. -/
def decimal (n : ℕ) : Bytes :=
  if n = 0 then [48] else (Nat.digits 10 n).reverse.map fun d => UInt8.ofNat (48+d)

/-- `%d`. -/
def formatInt (z : ℤ) : Bytes := if z < 0 then 45 :: decimal z.natAbs else decimal z.natAbs

/-- `%3.3d`: at least three digits, filled with zeros. -/
def formatInt3 (z : ℤ) : Bytes :=
  let ds := decimal z.natAbs
  let padded := List.replicate (3 - ds.length) 48 ++ ds
  if z < 0 then 45 :: padded else padded

theorem digit_toNat {d : ℕ} (hd : d < 10) : (UInt8.ofNat (48+d)).toNat = 48+d := by
  rw [UInt8.toNat_ofNat']
  omega

theorem isDigit_ofNat {d : ℕ} (hd : d < 10) : isDigit (UInt8.ofNat (48+d)) = true := by
  have := digit_toNat hd
  simp only [isDigit, Bool.and_eq_true, decide_eq_true_eq, UInt8.le_iff_toNat_le,
    UInt8.reduceToNat]
  omega

theorem isDigit_of_mem_decimal {n : ℕ} {b : Byte} (hb : b ∈ decimal n) : isDigit b = true := by
  unfold decimal at hb
  split_ifs at hb with h0
  · rw [List.mem_singleton.mp hb]
    decide
  · obtain ⟨d, hd, rfl⟩ := List.mem_map.mp hb
    exact isDigit_ofNat (Nat.digits_lt_base (by decide) (List.mem_reverse.mp hd))

theorem decimal_ne_nil (n : ℕ) : decimal n ≠ [] := by
  unfold decimal
  split_ifs with h0
  · exact List.cons_ne_nil _ _
  · simpa only [ne_eq, List.map_eq_nil_iff, List.reverse_eq_nil_iff, Nat.digits_eq_nil_iff_eq_zero]
      using h0

theorem digitsVal_append_singleton (s : Bytes) (b : Byte) :
    digitsVal (s ++ [b]) = 10 * digitsVal s + (b.toNat - 48) := by
  simp only [digitsVal, List.foldl_append, List.foldl_cons, List.foldl_nil]

theorem digitsVal_decimal (n : ℕ) : digitsVal (decimal n) = n := by
  have hd : ∀ l : List ℕ, (∀ d ∈ l, d < 10) →
      digitsVal (l.reverse.map fun d => UInt8.ofNat (48+d)) = Nat.ofDigits 10 l := by
    intro l
    induction l with
    | nil => intro _; rfl
    | cons d l ih =>
      intro hl
      have hlt := hl d List.mem_cons_self
      simp only [List.reverse_cons, List.map_append, List.map_cons, List.map_nil]
      rw [digitsVal_append_singleton, ih fun e he => hl e (List.mem_cons_of_mem _ he),
        digit_toNat hlt, Nat.ofDigits_cons]
      omega
  unfold decimal
  split_ifs with h0
  · rw [h0]
    rfl
  · rw [hd _ fun d h => Nat.digits_lt_base (by decide) h, Nat.ofDigits_digits]

theorem zero_notMem_formatInt (z : ℤ) : 0 ∉ formatInt z := by
  have hdec : (0 : Byte) ∉ decimal z.natAbs := fun h =>
    isDigit_ne_zero (isDigit_of_mem_decimal h) rfl
  unfold formatInt
  split_ifs
  · simpa using hdec
  · exact hdec

theorem zero_notMem_formatInt3 (z : ℤ) : 0 ∉ formatInt3 z := by
  have hdec : (0 : Byte) ∉ decimal z.natAbs := fun h =>
    isDigit_ne_zero (isDigit_of_mem_decimal h) rfl
  have hpad : (0 : Byte) ∉ List.replicate (3 - (decimal z.natAbs).length) (48 : Byte) := by
    intro h
    exact absurd (List.eq_of_mem_replicate h) (by decide)
  unfold formatInt3
  split_ifs <;> simp [hdec, hpad]

/-- What `%d` prints, `atoi` reads back. -/
theorem atoi_decimal {n : ℕ} (hn : (n : ℤ) ≤ intMax) : atoi (decimal n) = n := by
  rw [atoi_of_digits (fun _ => isDigit_of_mem_decimal) (by rwa [digitsVal_decimal]),
    digitsVal_decimal]

example : atoi (bytes " -12x") = -12 := by decide

end CText
