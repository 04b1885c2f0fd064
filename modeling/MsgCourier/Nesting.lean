import Mathlib.Algebra.BigOperators.Group.List.Basic
import Mathlib.Algebra.Order.Group.Int
import Mathlib.Order.Lattice
import Mathlib.Tactic.Linarith

/-! Words over letters that open, close or do neither, given by a weight. The profile of a word is
where its depth is lowest and where it ends, and the profile of a concatenation is a function of
the two profiles. -/
namespace Nesting

variable {α : Type*} (w : α → ℤ)

/-- The letters that open less the letters that close. -/
def depth (l : List α) : ℤ := (l.map w).sum

/-- The lowest depth of a prefix. -/
def low : List α → ℤ
  | [] => 0
  | a :: l => min 0 (w a + low l)

/-- No prefix closes more than it opens, and in the end everything is closed. -/
def Nested (l : List α) : Prop := (∀ p, p <+: l → 0 ≤ depth w p) ∧ depth w l = 0

structure Profile where
  low : ℤ
  depth : ℤ
  deriving DecidableEq

def profile (l : List α) : Profile := ⟨low w l, depth w l⟩

namespace Profile

def one : Profile := ⟨0, 0⟩

/-- The profile of a word that is followed by another. -/
def mul (x y : Profile) : Profile := ⟨min x.low (x.depth + y.low), x.depth + y.depth⟩

end Profile

@[simp] theorem depth_nil : depth w [] = 0 := rfl

@[simp] theorem depth_cons (a : α) (l : List α) : depth w (a :: l) = w a + depth w l := by
  rw [depth, List.map_cons, List.sum_cons, depth]

@[simp] theorem depth_append (l m : List α) : depth w (l ++ m) = depth w l + depth w m := by
  rw [depth, List.map_append, List.sum_append, depth, depth]

theorem low_nonpos (l : List α) : low w l ≤ 0 := by
  cases l with
  | nil => exact le_rfl
  | cons a l => exact min_le_left _ _

theorem low_append (l m : List α) : low w (l ++ m) = min (low w l) (depth w l + low w m) := by
  induction l with
  | nil => rw [List.nil_append, low, depth_nil, zero_add, min_eq_right (low_nonpos w m)]
  | cons a l ih =>
    rw [List.cons_append, low, ih, low, depth_cons, add_assoc, min_assoc, ← min_add_add_left]

theorem low_le_depth {l p : List α} (hp : p <+: l) : low w l ≤ depth w p := by
  induction p generalizing l with
  | nil => exact low_nonpos w l
  | cons a p ih =>
    obtain ⟨r, rfl⟩ := hp
    have hrec := ih (List.prefix_append p r)
    rw [List.cons_append, low, depth_cons]
    exact (min_le_right _ _).trans (by linarith)

theorem exists_low (l : List α) : ∃ p, p <+: l ∧ depth w p = low w l := by
  induction l with
  | nil => exact ⟨[], List.prefix_rfl, rfl⟩
  | cons a l ih =>
    obtain ⟨p, hp, hdepth⟩ := ih
    rcases le_total 0 (w a + low w l) with h | h
    · exact ⟨[], List.nil_prefix, by rw [low, min_eq_left h, depth_nil]⟩
    · refine ⟨a :: p, (List.cons_prefix_cons).mpr ⟨rfl, hp⟩, ?_⟩
      rw [depth_cons, hdepth, low, min_eq_right h]

/-- Whether a word is nested can be read off its profile. -/
theorem nested_iff (l : List α) : Nested w l ↔ profile w l = Profile.one := by
  have hlow : (∀ p, p <+: l → 0 ≤ depth w p) ↔ low w l = 0 := by
    constructor
    · intro h
      obtain ⟨p, hp, hdepth⟩ := exists_low w l
      exact le_antisymm (low_nonpos w l) (hdepth ▸ h p hp)
    · intro h p hp
      exact h ▸ low_le_depth w hp
  unfold Nested profile Profile.one
  rw [hlow, Profile.mk.injEq]

@[simp] theorem profile_append (l m : List α) :
    profile w (l ++ m) = (profile w l).mul (profile w m) := by
  unfold profile Profile.mul
  rw [low_append, depth_append]

theorem profile_nil : profile w [] = Profile.one := rfl

/-- Letters that neither open nor close leave no trace. -/
theorem profile_neutral {l : List α} (h : ∀ a ∈ l, w a = 0) : profile w l = Profile.one := by
  induction l with
  | nil => rfl
  | cons a l ih =>
    have ha : w a = 0 := h a List.mem_cons_self
    have hrec := Profile.mk.inj (ih fun b hb => h b (List.mem_cons_of_mem _ hb))
    unfold profile Profile.one
    rw [low, depth_cons, ha, hrec.1, hrec.2]
    rfl

namespace Profile

variable {w}

theorem mul_assoc (x y z : Profile) : (x.mul y).mul z = x.mul (y.mul z) := by
  unfold mul
  dsimp only
  rw [min_assoc, ← min_add_add_left, add_assoc, add_assoc]

theorem one_mul_profile (l : List α) : one.mul (profile w l) = profile w l := by
  rw [← profile_nil w, ← profile_append, List.nil_append]

theorem profile_mul_one (l : List α) : (profile w l).mul one = profile w l := by
  rw [← profile_nil w, ← profile_append, List.append_nil]

end Profile

end Nesting
