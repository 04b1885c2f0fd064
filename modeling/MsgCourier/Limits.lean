import Mathlib.Order.Basic
import Mathlib.Tactic.Common

/-! Computations with limits: a program works on blocks whose sizes are bounded, and does what a
program on unbounded values does as long as there is room. -/
namespace MsgCourier

variable {α β γ δ ε φ : Type}

/-- Each step of a `foldlM` has room for its element. -/
def RoomEach {τ : Type} (op : α → τ → Except ε α) (roomOf : α → τ → Prop) : List τ → α → Prop
  | [], _ => True
  | t :: l, a => roomOf a t ∧ ∀ a', op a t = .ok a' → RoomEach op roomOf l a'

/-- `m` does what `m'` does exactly if there is room, and `R` relates their results. -/
structure Refines (room : Prop) (R : α → β → Prop) (m : Except ε α) (m' : Except φ β) : Prop where
  returns : room → ∀ b, m' = .ok b → ∃ a, m = .ok a
  result : ∀ a, m = .ok a → room ∧ ∃ b, m' = .ok b ∧ R a b

namespace Refines

variable {room room' : Prop} {R R' : α → β → Prop} {S : γ → δ → Prop} {m : Except ε α}
  {m' : Except φ β}

theorem returns_iff (h : Refines room R m m') :
    (∃ a, m = .ok a) ↔ room ∧ ∃ b, m' = .ok b := by
  constructor
  · intro hm
    obtain ⟨a, ha⟩ := hm
    obtain ⟨hroom, b, hb, -⟩ := h.result a ha
    exact ⟨hroom, b, hb⟩
  · intro hm
    obtain ⟨hroom, b, hb⟩ := hm
    exact h.returns hroom b hb

/-- Two computations that return. -/
theorem of_ok {a : α} {b : β} (ha : m = .ok a) (hb : m' = .ok b) (hR : R a b) :
    Refines True R m m' where
  returns _ _ _ := ⟨a, ha⟩
  result _ ha' := ⟨trivial, b, hb, Except.ok.inj (ha.symm.trans ha') ▸ hR⟩

theorem refl (m : Except ε α) : Refines True (· = ·) m m where
  returns _ a ha := ⟨a, ha⟩
  result a ha := ⟨trivial, a, ha, rfl⟩

/-- One that returns exactly if there is room. -/
theorem of_iff {b : β} (hb : m' = .ok b) (hm : (∃ a, m = .ok a) ↔ room)
    (hR : ∀ a, m = .ok a → R a b) : Refines room R m m' where
  returns hroom _ _ := hm.mpr hroom
  result a ha := ⟨hm.mp ⟨a, ha⟩, b, hb, hR a ha⟩

/-- Two that do not return. -/
theorem of_error (ha : ∀ a, m ≠ .ok a) (hb : ∀ b, m' ≠ .ok b) : Refines room R m m' where
  returns _ b h := absurd h (hb b)
  result a h := absurd h (ha a)

theorem mono (h : Refines room R m m') (hR : ∀ a b, m = .ok a → m' = .ok b → R a b → R' a b) :
    Refines room R' m m' where
  returns := h.returns
  result a ha := by
    obtain ⟨hroom, b, hb, hab⟩ := h.result a ha
    exact ⟨hroom, b, hb, hR a b ha hb hab⟩

/-- Where `m'` does not return, the room does not matter. -/
theorem congr (h : Refines room R m m') (hroom : ∀ b, m' = .ok b → (room ↔ room')) :
    Refines room' R m m' where
  returns hr b hb := h.returns ((hroom b hb).mpr hr) b hb
  result a ha := by
    obtain ⟨hr, b, hb, hab⟩ := h.result a ha
    exact ⟨(hroom b hb).mp hr, b, hb, hab⟩

/-- The second part needs room for what the first one gives. -/
theorem bind {roomOf : α → Prop} {f : α → Except ε γ} {f' : β → Except φ δ}
    (h : Refines room R m m')
    (hf : ∀ a b, m = .ok a → m' = .ok b → R a b → Refines (roomOf a) S (f a) (f' b)) :
    Refines (room ∧ ∀ a, m = .ok a → roomOf a) S (m >>= f) (m' >>= f') where
  returns hroom d hd := by
    cases hb : m' with
    | error e =>
      rw [hb] at hd
      cases hd
    | ok b =>
      obtain ⟨a, ha⟩ := h.returns hroom.1 b hb
      obtain ⟨-, b', hb', hab⟩ := h.result a ha
      obtain rfl := Except.ok.inj (hb.symm.trans hb')
      rw [hb] at hd
      rw [ha]
      exact (hf a b ha hb hab).returns (hroom.2 a ha) d hd
  result c hc := by
    cases ha : m with
    | error e =>
      rw [ha] at hc
      cases hc
    | ok a =>
      obtain ⟨hroom, b, hb, hab⟩ := h.result a ha
      rw [ha] at hc
      obtain ⟨hroom', d, hd, hcd⟩ := (hf a b ha hb hab).result c hc
      refine ⟨⟨hroom, fun a' ha' => Except.ok.inj ha' ▸ hroom'⟩, d, ?_, hcd⟩
      rw [hb]
      exact hd

/-- The second part needs the same room for each result. -/
theorem bind_same {f : α → Except ε γ} {f' : β → Except φ δ} (h : Refines room R m m')
    (hf : ∀ a b, m = .ok a → m' = .ok b → R a b → Refines room' S (f a) (f' b)) :
    Refines (room ∧ room') S (m >>= f) (m' >>= f') := by
  have hbind : Refines (room ∧ ∀ a, m = .ok a → room') S (m >>= f) (m' >>= f') := h.bind hf
  refine hbind.congr fun d hd => and_congr_right fun hroom => ?_
  constructor
  · intro hr
    cases hb : m' with
    | error e =>
      rw [hb] at hd
      cases hd
    | ok b =>
      obtain ⟨a, ha⟩ := h.returns hroom b hb
      exact hr a ha
  · exact fun hr _ _ => hr

/-- The second part needs no room. -/
theorem bind_free {f : α → Except ε γ} {f' : β → Except φ δ} (h : Refines room R m m')
    (hf : ∀ a b, m = .ok a → m' = .ok b → R a b → Refines True S (f a) (f' b)) :
    Refines room S (m >>= f) (m' >>= f') :=
  (h.bind_same hf).congr fun _ _ => iff_of_eq (and_true _)

/-- A value made of the result. -/
theorem map_left {f : α → γ} {T : γ → β → Prop} (h : Refines room R m m')
    (hf : ∀ a b, R a b → T (f a) b) : Refines room T (m >>= fun a => pure (f a)) m' := by
  have hmap : Refines room T (m >>= fun a => pure (f a)) (m' >>= fun b => .ok b) :=
    h.bind_free fun a b _ _ hab => .of_ok rfl rfl (hf a b hab)
  have hid : (m' >>= fun b => (.ok b : Except φ β)) = m' := bind_pure m'
  rwa [hid] at hmap

/-- A first part of `m` that stands for the value `b`. -/
theorem bind_value {roomOf : α → Prop} {f : α → Except ε γ} {b : β} {n' : Except φ δ}
    (h : Refines room R m (.ok b : Except φ β))
    (hf : ∀ a, m = .ok a → R a b → Refines (roomOf a) S (f a) n') :
    Refines (room ∧ ∀ a, m = .ok a → roomOf a) S (m >>= f) n' := by
  have hbind : Refines (room ∧ ∀ a, m = .ok a → roomOf a) S (m >>= f)
      ((.ok b : Except φ β) >>= fun _ => n') :=
    h.bind fun a _ ha hb hab => hf a ha (Except.ok.inj hb ▸ hab)
  exact hbind

theorem bind_value_free {f : α → Except ε γ} {b : β} {n' : Except φ δ}
    (h : Refines room R m (.ok b : Except φ β))
    (hf : ∀ a, m = .ok a → R a b → Refines True S (f a) n') : Refines room S (m >>= f) n' := by
  have hbind : Refines room S (m >>= f) ((.ok b : Except φ β) >>= fun _ => n') :=
    h.bind_free fun a _ ha hb hab => hf a ha (Except.ok.inj hb ▸ hab)
  exact hbind

/-- A first part of `m` alone. -/
theorem bind_left {T : α → Prop} {f : α → Except ε γ} {m' : Except φ δ}
    (h : ∃ a, m = .ok a ∧ T a) (hf : ∀ a, m = .ok a → T a → Refines room S (f a) m') :
    Refines room S (m >>= f) m' := by
  obtain ⟨a, ha, hT⟩ := h
  have hrest := hf a ha hT
  rw [ha]
  exact hrest

/-- A step that refines another one, from related values, gives a loop that does. -/
theorem foldlM {τ : Type} {op : α → τ → Except ε α} {op' : β → τ → Except φ β}
    {roomOf : α → τ → Prop} {l : List τ}
    (hop : ∀ a b, ∀ t ∈ l, R a b → Refines (roomOf a t) R (op a t) (op' b t)) {a : α} {b : β}
    (hab : R a b) : Refines (RoomEach op roomOf l a) R (l.foldlM op a) (l.foldlM op' b) := by
  induction l generalizing a b with
  | nil => exact .of_ok rfl rfl hab
  | cons t l ih =>
    rw [List.foldlM_cons, List.foldlM_cons]
    refine (hop a b t List.mem_cons_self hab).bind fun a' b' _ _ hab' => ?_
    exact ih (fun a b t ht => hop a b t (List.mem_cons_of_mem _ ht)) hab'

end Refines
end MsgCourier
