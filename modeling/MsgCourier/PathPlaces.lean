import Mathlib.Data.List.Basic
import Mathlib.Tactic.SplitIfs

/-! Places in a tree of directories, and where a walk by path components leads from one. -/
namespace PathPlaces

variable {α : Type}

inductive Move (α : Type)
  | here
  | up
  | down (name : α)
  deriving DecidableEq, Repr

/-- `above` counts the levels over the directory a relative path starts from. The innermost name
comes first. -/
structure Place (α : Type) where
  above : ℕ := 0
  names : List α := []
  deriving DecidableEq, Repr

namespace Place

/-- The directory over the root is the root. -/
def move (rooted : Bool) (p : Place α) : Move α → Place α
  | .here => p
  | .up =>
    match p.names with
    | [] => if rooted then p else { p with above := p.above+1 }
    | _ :: names => { p with names }
  | .down name => { p with names := name :: p.names }

def walk (rooted : Bool) (p : Place α) (ms : List (Move α)) : Place α := ms.foldl (move rooted) p

theorem walk_append (rooted : Bool) (p : Place α) (ms ns : List (Move α)) :
    p.walk rooted (ms ++ ns) = (p.walk rooted ms).walk rooted ns := List.foldl_append

/-- `p` is `d` or lies somewhere below it. -/
def Inside (p d : Place α) : Prop := p.above = d.above ∧ d.names <:+ p.names

instance [DecidableEq α] (p d : Place α) : Decidable (p.Inside d) :=
  inferInstanceAs (Decidable (_ ∧ _))

/-- Climbing `t.above` levels out of `d`, then going down `t.names`. -/
def follow (rooted : Bool) (d t : Place α) : Place α where
  above := if rooted then d.above else d.above + (t.above - d.names.length)
  names := t.names ++ d.names.drop t.above

theorem follow_start (rooted : Bool) (d : Place α) : d.follow rooted {} = d := by
  simp [follow]

/-- A move after a trip is a longer trip. -/
theorem move_follow (rooted : Bool) (d t : Place α) (m : Move α) :
    (d.follow rooted t).move rooted m = d.follow rooted (t.move false m) := by
  obtain ⟨k, names⟩ := t
  cases m with
  | here => rfl
  | down name => rfl
  | up =>
    cases names with
    | cons name names => rfl
    | nil =>
      -- the trip leaves one more directory above `d`, unless it is at the top already
      rcases hdrop : d.names.drop k with _ | ⟨a, rest⟩
      · have hlen : d.names.length ≤ k := List.drop_eq_nil_iff.mp hdrop
        have hdrop' : d.names.drop (k+1) = [] := List.drop_eq_nil_iff.mpr (by omega)
        cases rooted with
        | true => simp [follow, move, hdrop, hdrop']
        | false =>
          simp only [follow, move, hdrop, hdrop', List.append_nil, Bool.false_eq_true, if_false,
            Place.mk.injEq, and_true]
          omega
      · have hlen : k < d.names.length := by
          by_contra h
          rw [List.drop_eq_nil_iff.mpr (by omega)] at hdrop
          cases hdrop
        have hdrop' : d.names.drop (k+1) = rest := by
          rw [← List.drop_drop, hdrop, List.drop_one, List.tail_cons]
        simp only [follow, move, hdrop, hdrop', List.nil_append, Bool.false_eq_true, if_false,
          Place.mk.injEq, and_true]
        split_ifs
        · rfl
        · omega

end Place

/-- What a walk comes to when each `up` cancels the name in front of it: the levels it climbs out
of the place it starts from, and the names it goes down from there. -/
def trip (ms : List (Move α)) : Place α := Place.walk false {} ms

theorem walk_eq_follow (rooted : Bool) (d : Place α) (ms : List (Move α)) :
    d.walk rooted ms = d.follow rooted (trip ms) := by
  have h : (d.follow rooted {}).walk rooted ms = d.follow rooted (trip ms) :=
    List.foldl_hom (d.follow rooted) fun t m => Place.move_follow rooted d t m
  rwa [Place.follow_start] at h

/-- Whatever is left again after climbing out of a directory must be entered again. -/
theorem inside_walk_iff (rooted : Bool) (d : Place α) (ms : List (Move α)) :
    (d.walk rooted ms).Inside d ↔ (rooted = true ∨ (trip ms).above ≤ d.names.length) ∧
      d.names.take (trip ms).above <:+ (trip ms).names := by
  have hnames : d.names <:+ (trip ms).names ++ d.names.drop (trip ms).above ↔
      d.names.take (trip ms).above <:+ (trip ms).names := by
    conv_lhs => lhs; rw [← List.take_append_drop (trip ms).above d.names]
    exact List.suffix_append_self_iff
  rw [walk_eq_follow, Place.Inside, Place.follow, hnames]
  refine and_congr_left fun _ => ?_
  cases rooted with
  | true => simp
  | false =>
    simp only [Bool.false_eq_true, if_false, false_or]
    omega

end PathPlaces
