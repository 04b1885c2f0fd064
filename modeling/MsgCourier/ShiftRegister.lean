import Mathlib.Data.BitVec
import Mathlib.Data.Fintype.EquivFin
import Mathlib.Data.Fintype.BigOperators
import Mathlib.Data.Vector.Basic
import Mathlib.Logic.Function.Iterate

/-! Registers with feedback, as cyclic checks are computed with: the register moves down one
place and, when a one leaves it, takes up the generator. Words are read from their lowest bit. -/
namespace MsgCourier

namespace ShiftRegister

variable {w k n : ℕ} (g : BitVec w)

/-- One step of the register. -/
def shift (r : BitVec w) : BitVec w := (r >>> 1) ^^^ (if r.getLsbD 0 then g else 0#w)

/-- One bit of a message taken into the register. -/
def feed (r : BitVec w) (b : Bool) : BitVec w := shift g (r ^^^ (BitVec.ofBool b).setWidth w)

/-- The register behind a message. -/
def run (r : BitVec w) (bits : List Bool) : BitVec w := bits.foldl (feed g) r

/-- The lowest `k` bits of a word. -/
def lowPart (k : ℕ) (r : BitVec w) : BitVec w := (r.setWidth k).setWidth w

/-- A message packed into a word, its first bit lowest. -/
def pack (w : ℕ) : List Bool → BitVec w
  | [] => 0#w
  | b :: bits => (BitVec.ofBool b).setWidth w ^^^ (pack w bits <<< 1)

/-- The bits of a word from its lowest one. -/
def bitsOf (v : BitVec k) : List Bool := (List.range k).map v.getLsbD

theorem getLsbD_lowPart (r : BitVec w) (i : ℕ) :
    (lowPart k r).getLsbD i = (decide (i < k) && r.getLsbD i) := by
  unfold lowPart
  rw [BitVec.getLsbD_setWidth, BitVec.getLsbD_setWidth]
  by_cases hi : i < w
  · simp [hi]
  · simp [hi, BitVec.getLsbD_of_ge r i (by omega)]

theorem getLsbD_setWidth_ofBool (b : Bool) (i : ℕ) (hi : i < w) :
    ((BitVec.ofBool b).setWidth w).getLsbD i = (decide (i = 0) && b) := by
  cases b <;> cases i <;> simp [hi]

theorem getLsbD_pack (bits : List Bool) (i : ℕ) (hi : i < w) :
    (pack w bits).getLsbD i = bits.getD i false := by
  induction bits generalizing i with
  | nil => simp [pack]
  | cons b bits ih =>
    rw [pack, BitVec.getLsbD_xor, getLsbD_setWidth_ofBool b i hi]
    cases i with
    | zero => simp
    | succ i =>
      have hbits := ih i (by omega)
      rw [BitVec.getLsbD_shiftLeft, Nat.add_sub_cancel, hbits]
      simp [hi]

theorem bits_length (v : BitVec k) : (bitsOf v).length = k := by simp [bitsOf]

theorem pack_bitsOf (v : BitVec k) : pack w (bitsOf v) = v.setWidth w := by
  apply BitVec.eq_of_getLsbD_eq
  intro i hi
  rw [getLsbD_pack (bitsOf v) i hi, BitVec.getLsbD_setWidth]
  by_cases hk : i < k
  · simp [bitsOf, hk, hi]
  · simp [bitsOf, hk, hi, BitVec.getLsbD_of_ge v i (by omega)]

theorem pack_inj {x y : List Bool} (hlen : x.length = y.length) (hw : x.length ≤ w)
    (h : pack w x = pack w y) : x = y := by
  apply List.ext_getElem hlen
  intro i hx hy
  have hbit := congrArg (fun v : BitVec w => v.getLsbD i) h
  simpa [getLsbD_pack _ i (show i < w by omega), hx, hy] using hbit

/-! The step is linear in exclusive or, so that runs from two registers differ by the steps of
the difference. -/

theorem shift_xor (r s : BitVec w) : shift g (r ^^^ s) = shift g r ^^^ shift g s := by
  apply BitVec.eq_of_getLsbD_eq
  intro i hi
  unfold shift
  cases hr : r.getLsbD 0 <;> cases hs : s.getLsbD 0 <;>
    simp [hr, hs, Bool.xor_comm, Bool.xor_left_comm]

theorem iterate_xor (m : ℕ) (r s : BitVec w) :
    (shift g)^[m] (r ^^^ s) = (shift g)^[m] r ^^^ (shift g)^[m] s := by
  induction m generalizing r s with
  | zero => rfl
  | succ m ih => rw [Function.iterate_succ_apply, shift_xor, ih, ← Function.iterate_succ_apply,
      ← Function.iterate_succ_apply]

theorem shift_even {r : BitVec w} (h : r.getLsbD 0 = false) : shift g r = r >>> 1 := by
  unfold shift
  simp [h]

/-- While the lowest bits are clear the register only moves down. -/
theorem iterate_high {m : ℕ} {r : BitVec w} (h : ∀ i < m, r.getLsbD i = false) :
    (shift g)^[m] r = r >>> m := by
  induction m generalizing r with
  | zero => simp
  | succ m ih =>
    have hfirst : shift g r = r >>> 1 := shift_even g (h 0 (by omega))
    have hrest : ∀ i < m, (r >>> 1).getLsbD i = false := by
      intro i hi
      rw [BitVec.getLsbD_ushiftRight]
      exact h (1+i) (by omega)
    rw [Function.iterate_succ_apply, hfirst, ih hrest, ← BitVec.shiftRight_add, Nat.add_comm]

theorem lowPart_xor_high (r : BitVec w) : lowPart k r ^^^ ((r >>> k) <<< k) = r := by
  apply BitVec.eq_of_getLsbD_eq
  intro i hi
  rw [BitVec.getLsbD_xor, getLsbD_lowPart, BitVec.getLsbD_shiftLeft, BitVec.getLsbD_ushiftRight]
  by_cases hk : i < k
  · simp [hk]
  · simp [hk, hi, Nat.add_sub_cancel' (Nat.not_lt.mp hk)]

/-- What tables of steps rest on: several steps are the steps of the lowest bits, and the rest of
the register moved down. -/
theorem iterate_eq_lowPart (r : BitVec w) :
    (shift g)^[k] r = (shift g)^[k] (lowPart k r) ^^^ (r >>> k) := by
  have hhigh : (shift g)^[k] ((r >>> k) <<< k) = r >>> k := by
    rw [iterate_high g fun i hi => by simp [hi]]
    apply BitVec.eq_of_getLsbD_eq
    intro i hi
    rw [BitVec.getLsbD_ushiftRight, BitVec.getLsbD_shiftLeft]
    by_cases hki : k+i < w
    · simp [hki]
    · simp [hki, BitVec.getLsbD_of_ge r (k+i) (by omega)]
  calc (shift g)^[k] r
      = (shift g)^[k] (lowPart k r ^^^ ((r >>> k) <<< k)) := by rw [lowPart_xor_high]
    _ = (shift g)^[k] (lowPart k r) ^^^ (shift g)^[k] ((r >>> k) <<< k) := iterate_xor g k _ _
    _ = (shift g)^[k] (lowPart k r) ^^^ (r >>> k) := by rw [hhigh]

theorem run_append (r : BitVec w) (x y : List Bool) : run g r (x ++ y) = run g (run g r x) y :=
  List.foldl_append

/-- A message that fits the register may be taken in at once. -/
theorem run_eq_iterate (r : BitVec w) {x : List Bool} (hx : x.length ≤ w) :
    run g r x = (shift g)^[x.length] (r ^^^ pack w x) := by
  induction x generalizing r with
  | nil => simp [run, pack]
  | cons b x ih =>
    rw [List.length_cons] at hx ⊢
    have hmove : shift g (pack w x <<< 1) = pack w x := by
      rw [shift_even g (by simp)]
      apply BitVec.eq_of_getLsbD_eq
      intro i hi
      rw [BitVec.getLsbD_ushiftRight, BitVec.getLsbD_shiftLeft]
      by_cases hlast : 1+i < w
      · simp [hlast]
      · rw [getLsbD_pack x i hi]
        simp [hlast, List.getElem?_eq_none (show x.length ≤ i by omega)]
    calc run g r (b :: x) = run g (feed g r b) x := rfl
      _ = (shift g)^[x.length] (feed g r b ^^^ pack w x) := ih (feed g r b) (by omega)
      _ = (shift g)^[x.length] (shift g (r ^^^ pack w (b :: x))) := by
        rw [pack, ← BitVec.xor_assoc, shift_xor, hmove]
        rfl
      _ = (shift g)^[x.length+1] (r ^^^ pack w (b :: x)) :=
        (Function.iterate_succ_apply _ _ _).symm

/-- Two runs over one message differ by the steps of what their registers differed by. -/
theorem run_xor_run (r s : BitVec w) (x : List Bool) :
    run g r x ^^^ run g s x = (shift g)^[x.length] (r ^^^ s) := by
  induction x generalizing r s with
  | nil => rfl
  | cons b x ih =>
    have hstep : feed g r b ^^^ feed g s b = shift g (r ^^^ s) := by
      unfold feed
      rw [← shift_xor]
      apply congrArg
      apply BitVec.eq_of_getLsbD_eq
      intro i hi
      simp [Bool.xor_left_comm, Bool.xor_comm]
    calc run g r (b :: x) ^^^ run g s (b :: x)
        = run g (feed g r b) x ^^^ run g (feed g s b) x := rfl
      _ = (shift g)^[x.length] (feed g r b ^^^ feed g s b) := ih _ _
      _ = (shift g)^[x.length+1] (r ^^^ s) := by rw [hstep, ← Function.iterate_succ_apply]

/-- Two runs from one register over messages of one length that fit it. -/
theorem run_xor_of_length_eq (r : BitVec w) {x y : List Bool} (hlen : x.length = y.length)
    (hw : x.length ≤ w) :
    run g r x ^^^ run g r y = (shift g)^[x.length] (pack w x ^^^ pack w y) := by
  rw [run_eq_iterate g r hw, run_eq_iterate g r (hlen ▸ hw), ← hlen, ← iterate_xor]
  apply congrArg
  apply BitVec.eq_of_getLsbD_eq
  intro i hi
  simp [Bool.xor_left_comm]

/-- A generator of degree `n`: its highest coefficient, in bit `n - 1` of the word, is one. -/
structure Generator (w n : ℕ) where
  word : BitVec w
  isLt : word.toNat < 2^n
  top : word.getLsbD (n-1) = true

theorem lt_two_pow_of_getLsbD {r : BitVec w} (h : ∀ i, n ≤ i → r.getLsbD i = false) :
    r.toNat < 2^n :=
  Nat.lt_pow_two_of_testBit r.toNat h

theorem getLsbD_of_lt_two_pow {r : BitVec w} (h : r.toNat < 2^n) {i : ℕ} (hi : n ≤ i) :
    r.getLsbD i = false :=
  Nat.testBit_lt_two_pow (h.trans_le (Nat.pow_le_pow_right (by omega) hi))

theorem xor_lt_two_pow {r s : BitVec w} (hr : r.toNat < 2^n) (hs : s.toNat < 2^n) :
    (r ^^^ s).toNat < 2^n := by
  rw [BitVec.toNat_xor]
  exact Nat.xor_lt_two_pow hr hs

theorem xor_ne_zero {r s : BitVec w} : r ^^^ s ≠ 0#w ↔ r ≠ s := by
  rw [ne_eq, BitVec.xor_eq_zero_iff]

/-- The words below `2^n` by their values. -/
def index (h : n ≤ w) : {v : BitVec w // v.toNat < 2^n} ≃ Fin (2^n) where
  toFun v := ⟨v.1.toNat, v.2⟩
  invFun i := ⟨BitVec.ofNat w i.1, by
    rw [BitVec.toNat_ofNat]
    exact (Nat.mod_le _ _).trans_lt i.2⟩
  left_inv v := Subtype.ext (by simp)
  right_inv i := by
    apply Fin.ext
    exact (BitVec.toNat_ofNat _ _).trans
      (Nat.mod_eq_of_lt (i.2.trans_le (Nat.pow_le_pow_right (by omega) h)))

theorem pack_lt (x : List Bool) : (pack w x).toNat < 2^x.length := by
  apply lt_two_pow_of_getLsbD
  intro i hi
  by_cases hw : i < w
  · rw [getLsbD_pack x i hw]
    simp [List.getElem?_eq_none hi]
  · exact BitVec.getLsbD_of_ge _ _ (by omega)

namespace Generator

variable (p : Generator w n)

theorem pos (p : Generator w n) : 0 < n := by
  obtain ⟨word, hlt, htop⟩ := p
  by_contra h
  have hn : n = 0 := by omega
  rw [hn] at hlt htop
  have hword : word = 0#w := BitVec.eq_of_toNat_eq (by simpa using hlt)
  rw [hword] at htop
  simp at htop

theorem le_width (p : Generator w n) : n ≤ w := by
  have hpos := p.pos
  have htop := BitVec.lt_of_getLsbD p.top
  omega

theorem shift_lt {r : BitVec w} (h : r.toNat < 2^n) : (shift p.word r).toNat < 2^n := by
  unfold shift
  apply xor_lt_two_pow
  · rw [BitVec.toNat_ushiftRight]
    exact (Nat.shiftRight_le r.toNat 1).trans_lt h
  · split
    · exact p.isLt
    · rw [BitVec.toNat_zero]
      exact Nat.two_pow_pos n

/-- The register forgets nothing: a step of a register that is not zero is not zero. -/
theorem shift_ne_zero {r : BitVec w} (h : r.toNat < 2^n) (h0 : r ≠ 0#w) :
    shift p.word r ≠ 0#w := by
  have hpos := p.pos
  intro hzero
  cases hbit : r.getLsbD 0
  -- nothing leaves the register, so the rest of it is the whole of it
  · apply h0
    rw [shift_even p.word hbit] at hzero
    apply BitVec.eq_of_getLsbD_eq
    intro i hi
    cases i with
    | zero => simpa using hbit
    | succ i =>
      have hnext := congrArg (fun v : BitVec w => v.getLsbD i) hzero
      simpa [Nat.add_comm] using hnext
  -- the generator's highest coefficient stands alone in its place
  · have htop := congrArg (fun v : BitVec w => v.getLsbD (n-1)) hzero
    have habove : r.getLsbD (1+(n-1)) = false := getLsbD_of_lt_two_pow h (by omega)
    simp only [shift, hbit, if_true, BitVec.getLsbD_xor, BitVec.getLsbD_ushiftRight, habove,
      p.top, BitVec.getLsbD_zero] at htop
    exact Bool.noConfusion htop

theorem iterate_lt {r : BitVec w} (h : r.toNat < 2^n) (m : ℕ) :
    ((shift p.word)^[m] r).toNat < 2^n := by
  induction m generalizing r with
  | zero => exact h
  | succ m ih => exact ih (p.shift_lt h)

theorem iterate_ne_zero {r : BitVec w} (h : r.toNat < 2^n) (h0 : r ≠ 0#w) (m : ℕ) :
    (shift p.word)^[m] r ≠ 0#w := by
  induction m generalizing r with
  | zero => exact h0
  | succ m ih => exact ih (p.shift_lt h) (p.shift_ne_zero h h0)

/-- Each bit takes the register one place down, until it is within the degree. -/
theorem run_lt (x : List Bool) {r : BitVec w} (h : r.toNat < 2^(n+x.length)) :
    (run p.word r x).toNat < 2^n := by
  have hpos := p.pos
  induction x generalizing r with
  | nil => exact h
  | cons b x ih =>
    have hle : n ≤ n+x.length := Nat.le_add_right n _
    have hbit : ((BitVec.ofBool b).setWidth w).toNat < 2^(n+x.length+1) := by
      rw [BitVec.toNat_setWidth]
      calc (BitVec.ofBool b).toNat % 2^w ≤ (BitVec.ofBool b).toNat := Nat.mod_le _ _
        _ < 2^1 := (BitVec.ofBool b).isLt
        _ ≤ 2^(n+x.length+1) := Nat.pow_le_pow_right (by omega) (by omega)
    have htaken : (r ^^^ (BitVec.ofBool b).setWidth w).toNat < 2^(n+x.length+1) :=
      xor_lt_two_pow h hbit
    apply ih
    unfold feed shift
    apply xor_lt_two_pow
    · rw [BitVec.toNat_ushiftRight, Nat.shiftRight_eq_div_pow, pow_one]
      rw [pow_succ] at htaken
      omega
    · split
      · exact p.isLt.trans_le (Nat.pow_le_pow_right (by omega) hle)
      · rw [BitVec.toNat_zero]
        exact Nat.two_pow_pos _

/-- Messages of one length that differ in one window no wider than the degree leave different
registers, whatever stands in front of the window and behind it. -/
theorem run_ne_of_window (r : BitVec w) {x y : List Bool} (front back : List Bool)
    (hlen : x.length = y.length) (hn : x.length ≤ n) (hne : x ≠ y) :
    run p.word r (front ++ x ++ back) ≠ run p.word r (front ++ y ++ back) := by
  have hw : x.length ≤ w := hn.trans p.le_width
  have hwindow : pack w x ^^^ pack w y ≠ 0#w := xor_ne_zero.mpr fun h => hne (pack_inj hlen hw h)
  have hsmall : (pack w x ^^^ pack w y).toNat < 2^n := by
    apply xor_lt_two_pow
    · exact (pack_lt x).trans_le (Nat.pow_le_pow_right (by omega) hn)
    · exact (pack_lt y).trans_le (Nat.pow_le_pow_right (by omega) (hlen ▸ hn))
  rw [run_append, run_append, run_append, run_append, ← xor_ne_zero, run_xor_run,
    run_xor_of_length_eq p.word _ hlen hw]
  apply p.iterate_ne_zero (p.iterate_lt hsmall _)
  exact p.iterate_ne_zero hsmall hwindow _

/-- A window as wide as the degree can be filled in exactly one way to leave a given register within
the degree, whatever register a run of at most twice that width starts from. -/
theorem existsUnique_window (hw : w ≤ n+n) (r : BitVec w) {t : BitVec w} (ht : t.toNat < 2^n)
    (front back : List Bool) :
    ∃! x : List Bool, x.length = n ∧ run p.word r (front ++ x ++ back) = t := by
  have hr (x : List.Vector Bool n) : r.toNat < 2^(n+(front ++ x.1 ++ back).length) := by
    have hlen : n ≤ (front ++ x.1 ++ back).length := by
      rw [List.length_append, List.length_append, x.2]
      omega
    exact r.isLt.trans_le (Nat.pow_le_pow_right (by omega) (by omega))
  let leave : List.Vector Bool n → {v : BitVec w // v.toNat < 2^n} := fun x =>
    ⟨run p.word r (front ++ x.1 ++ back), p.run_lt _ (hr x)⟩
  have hinj : Function.Injective leave := by
    intro x y hxy
    by_contra hne
    refine p.run_ne_of_window r front back (x.2.trans y.2.symm) x.2.le ?_
      (congrArg Subtype.val hxy)
    exact fun h => hne (Subtype.ext h)
  -- as many windows as registers, so that no register is missed
  have hcount : Function.Bijective (index p.le_width ∘ leave) := by
    rw [Fintype.bijective_iff_injective_and_card]
    exact ⟨(index p.le_width).injective.comp hinj, by simp [card_vector]⟩
  obtain ⟨x, hx⟩ := hcount.2 (index p.le_width ⟨t, ht⟩)
  have hleave : leave x = ⟨t, ht⟩ := (index p.le_width).injective hx
  refine ⟨x.1, ⟨x.2, congrArg Subtype.val hleave⟩, ?_⟩
  intro y hy
  have hsame : leave ⟨y, hy.1⟩ = leave x := by
    rw [hleave]
    exact Subtype.ext hy.2
  exact congrArg Subtype.val (hinj hsame)

end Generator

end ShiftRegister

end MsgCourier
