import MsgCourier.CursorSweep
import MsgCourier.MsgQueue
import MsgCourier.Runs

/-! What `FlushMessages` does to the whole pool, and runs of the pool. -/
namespace MsgCourier
open ListSearch CText CursorSweep Runs

namespace MsgPool

/-- Whether the sweep deletes the message. -/
def gone (x : MsgPool) (currentTime : ℤ) (pMsg : ℕ) : Bool :=
  (x.objects pMsg).any (·.expired currentTime)

/-- Whether the sweep puts the message on the stack. -/
def reusable (x : MsgPool) (currentTime : ℤ) (pMsg : ℕ) : Bool :=
  (x.objects pMsg).any fun m => !m.expired currentTime && !m.msgState.held

/-- What one pass does to a message and to the list and the stack, the cursor apart. -/
def swept (currentTime : ℤ) (x : MsgPool) (pMsg : ℕ) : MsgPool :=
  match x.objects pMsg with
  | none => x
  | some m =>
    if m.expired currentTime then
      { x.free pMsg with messages := x.messages.filter (· ≠ pMsg) }
    else if m.msgState.held then x
    else
      { x.put pMsg (m.setMsgState .inactive) with
        freeMsgStack := pMsg :: x.freeMsgStack }

/-- A message after the sweep looked at it. -/
def sweptObject (currentTime : ℤ) (o : Option Msg) : Option Msg :=
  o.bind fun m =>
    if m.expired currentTime then none
    else if m.msgState.held then some m
    else some (m.setMsgState .inactive)

/-- The addresses in the list differ and belong to messages. -/
structure WellFormed (x : MsgPool) : Prop where
  nodup : x.messages.Nodup
  allocated : ∀ p ∈ x.messages, (x.objects p).isSome

variable {currentTime : ℤ} {x : MsgPool}

/-! ### One pass -/

theorem swept_of_none {p : ℕ} (hm : x.objects p = none) : swept currentTime x p = x := by
  rw [swept, hm]

theorem swept_of_expired {p : ℕ} {m : Msg} (hm : x.objects p = some m)
    (he : m.expired currentTime = true) :
    swept currentTime x p = { x.free p with messages := x.messages.filter (· ≠ p) } := by
  rw [swept, hm]
  exact if_pos he

theorem swept_of_held {p : ℕ} {m : Msg} (hm : x.objects p = some m)
    (he : m.expired currentTime = false) (hh : m.msgState.held = true) :
    swept currentTime x p = x := by
  rw [swept, hm]
  dsimp only
  rw [if_neg (by rw [he]; decide), if_pos hh]

theorem swept_of_free {p : ℕ} {m : Msg} (hm : x.objects p = some m)
    (he : m.expired currentTime = false) (hh : m.msgState.held = false) :
    swept currentTime x p =
      { x.put p (m.setMsgState .inactive) with freeMsgStack := p :: x.freeMsgStack } := by
  rw [swept, hm]
  dsimp only
  rw [if_neg (by rw [he]; decide), if_neg (by rw [hh]; decide)]

/-- The four cases of a pass. -/
theorem swept_cases (currentTime : ℤ) (x : MsgPool) (p : ℕ) :
    x.objects p = none ∨ ∃ m, x.objects p = some m ∧
      (m.expired currentTime = true ∨
        m.expired currentTime = false ∧ (m.msgState.held = true ∨ m.msgState.held = false)) := by
  cases hm : x.objects p with
  | none => exact Or.inl rfl
  | some m =>
    refine Or.inr ⟨m, rfl, ?_⟩
    cases m.expired currentTime <;> cases m.msgState.held <;> simp

theorem swept_objects (p : ℕ) : (swept currentTime x p).objects =
    Function.update x.objects p (sweptObject currentTime (x.objects p)) := by
  rcases swept_cases currentTime x p with hm | ⟨m, hm, he | ⟨he, hh | hh⟩⟩
  · rw [swept_of_none hm, hm, sweptObject, Option.bind_none, ← hm, Function.update_eq_self]
  · rw [swept_of_expired hm he, hm, sweptObject, Option.bind_some, if_pos he]
    rfl
  · rw [swept_of_held hm he hh, hm, sweptObject, Option.bind_some, if_neg (by rw [he]; decide),
      if_pos hh, ← hm, Function.update_eq_self]
  · rw [swept_of_free hm he hh, hm, sweptObject, Option.bind_some, if_neg (by rw [he]; decide),
      if_neg (by rw [hh]; decide)]
    rfl

theorem swept_objects_of_ne {p q : ℕ} (h : q ≠ p) :
    (swept currentTime x p).objects q = x.objects q := by
  rw [swept_objects, Function.update_of_ne h]

theorem swept_messages (p : ℕ) : (swept currentTime x p).messages =
    x.messages.filter fun q => !(decide (q = p) && x.gone currentTime q) := by
  have hstay (hg : x.gone currentTime p = false) :
      x.messages = x.messages.filter fun q => !(decide (q = p) && x.gone currentTime q) := by
    symm
    apply List.filter_eq_self.mpr
    intro q _
    by_cases hq : q = p
    · rw [hq, hg]
      simp
    · simp [hq]
  rcases swept_cases currentTime x p with hm | ⟨m, hm, he | ⟨he, hh | hh⟩⟩
  · rw [swept_of_none hm]
    exact hstay (by rw [gone, hm]; rfl)
  · rw [swept_of_expired hm he]
    apply List.filter_congr
    intro q _
    by_cases hq : q = p
    · simp [hq, gone, hm, he]
    · simp [hq]
  · rw [swept_of_held hm he hh]
    exact hstay (by rw [gone, hm]; exact he)
  · rw [swept_of_free hm he hh]
    exact hstay (by rw [gone, hm]; exact he)

theorem swept_freeMsgStack (p : ℕ) : (swept currentTime x p).freeMsgStack =
    if x.reusable currentTime p then p :: x.freeMsgStack else x.freeMsgStack := by
  rcases swept_cases currentTime x p with hm | ⟨m, hm, he | ⟨he, hh | hh⟩⟩
  · simp [swept_of_none hm, reusable, hm]
  · simp [swept_of_expired hm he, reusable, hm, he, free]
  · simp [swept_of_held hm he hh, reusable, hm, he, hh]
  · simp [swept_of_free hm he hh, reusable, hm, he, hh]

@[simp] theorem swept_bLocked (p : ℕ) : (swept currentTime x p).bLocked = x.bLocked := by
  rcases swept_cases currentTime x p with hm | ⟨m, hm, he | ⟨he, hh | hh⟩⟩
  · rw [swept_of_none hm]
  · rw [swept_of_expired hm he]
    rfl
  · rw [swept_of_held hm he hh]
  · rw [swept_of_free hm he hh]
    rfl

theorem swept_moved (n p : ℕ) :
    swept currentTime (x.moveTo n) p = (swept currentTime x p).moveTo n := by
  unfold swept
  rw [moveTo_objects]
  cases x.objects p with
  | none => rfl
  | some m =>
    dsimp only
    split_ifs <;> rfl

theorem foldl_swept_moved (n : ℕ) (ex : List ℕ) :
    ex.foldl (swept currentTime) (x.moveTo n) = (ex.foldl (swept currentTime) x).moveTo n := by
  induction ex generalizing x with
  | nil => rfl
  | cons p ex ih => rw [List.foldl_cons, List.foldl_cons, swept_moved, ih]

theorem put_self {p : ℕ} {m : Msg} (hm : x.objects p = some m) : x.put p m = x := by
  rw [put, ← hm, Function.update_eq_self]

/-- A message that stays is marked and returned, or left alone. -/
theorem flushOne_of_stays {p : ℕ} {m : Msg} (hm : x.objects p = some m)
    (he : m.expired currentTime = false) :
    x.flushOne currentTime p = .ok (swept currentTime x p) := by
  have hexp : ¬ (m.msgState = .inactive ∧ int32 (currentTime-m.msgInUseTS) > 60) :=
    of_decide_eq_false he
  rw [flushOne, deref_some hm, ok_bind]
  dsimp only
  rw [m.markForReuse_msgInUseTS, if_neg hexp]
  cases hh : m.msgState.held with
  | true =>
    have hs : m.msgState ≠ .markForReuse := by
      intro hs
      rw [hs] at hh
      cases hh
    rw [swept_of_held hm he hh, Msg.markForReuse_of_held hh, if_neg hs, put_self hm]
    rfl
  | false =>
    rw [swept_of_free hm he hh, Msg.markForReuse_of_free hh,
      if_pos (Msg.setMsgState_msgState m _)]
    simp [returnToPool, deref, put, Msg.setMsgState]

theorem swept_messages_of_gone {p : ℕ} {m : Msg} (hm : x.objects p = some m)
    (he : m.expired currentTime = true) (hn : x.messages.Nodup) {done rest : List ℕ}
    (hmsgs : x.messages = done ++ p :: rest) :
    (swept currentTime x p).messages = done ++ rest := by
  have hkeep {l : List ℕ} (hl : p ∉ l) : l.filter (· ≠ p) = l := by
    rw [List.filter_eq_self]
    intro q hq
    exact decide_eq_true fun (h : q = p) => hl (h ▸ hq)
  rw [swept_of_expired hm he]
  change x.messages.filter (· ≠ p) = _
  rw [hmsgs] at hn ⊢
  have hdone : p ∉ done := fun hp => (List.nodup_append.mp hn).2.2 p hp p List.mem_cons_self rfl
  have hrest : p ∉ rest := (List.nodup_cons.mp (List.nodup_append.mp hn).2.1).1
  rw [List.filter_append, List.filter_cons_of_neg (by simp), hkeep hdone, hkeep hrest]

/-- Deleting a message leaves the cursor behind the next one. -/
theorem flushOne_of_gone {p : ℕ} {m : Msg} (hm : x.objects p = some m)
    (he : m.expired currentTime = true) (hn : x.messages.Nodup) {done rest : List ℕ}
    (hmsgs : x.messages = done ++ p :: rest) (hit : x.it = done.length) :
    x.flushOne currentTime p = if rest = [] then .error .undefined
      else .ok ((swept currentTime x p).moveTo (done.length+1)) := by
  have hexp : m.msgState = .inactive ∧ int32 (currentTime-m.msgInUseTS) > 60 :=
    of_decide_eq_true he
  have hderef : x.deref p = .ok m := by
    rw [deref, hm]
    rfl
  have herase : x.messages.eraseIdx done.length = done ++ rest := by
    rw [hmsgs, List.eraseIdx_append_of_length_le le_rfl, Nat.sub_self, List.eraseIdx_cons_zero]
  have hfilter := swept_messages_of_gone hm he hn hmsgs
  rw [flushOne, hderef, ok_bind]
  dsimp only
  rw [m.markForReuse_msgInUseTS, if_pos hexp]
  rw [deleteCurrent, if_pos (by rw [put, hit, hmsgs]; simp)]
  unfold advance
  by_cases hr : rest = []
  · simp [put, hit, herase, hr]
  · have hlen : 0 < rest.length := List.length_pos_iff.mpr hr
    rw [if_pos (by simp only [put, hit, herase, List.length_append]; omega), if_neg hr]
    rw [swept_of_expired hm he] at hfilter ⊢
    rw [show x.messages.filter (· ≠ p) = done ++ rest from hfilter]
    simp [put, free, moveTo, hit, herase]

/-! ### The loop -/

theorem gone_swept_of_ne {p q : ℕ} (h : q ≠ p) :
    (swept currentTime x p).gone currentTime q = x.gone currentTime q := by
  rw [gone, gone, swept_objects_of_ne h]

theorem getNext_of_lt (hl : x.bLocked = true) (h : x.it < x.messages.length) :
    x.getNext = .ok (x.messages[x.it+1]?, x.moveTo (x.it+1)) := by
  rw [getNext, if_neg (by rw [hl]; decide), advance, if_pos h]
  rfl

theorem getNext_of_end (hl : x.bLocked = true) (h : x.messages.length ≤ x.it) :
    x.getNext = .error .undefined := by
  rw [getNext, if_neg (by rw [hl]; decide), advance, if_neg (by omega)]
  rfl

theorem swept_it (p : ℕ) : (swept currentTime x p).it = x.it := by
  rcases swept_cases currentTime x p with hm | ⟨m, hm, he | ⟨he, hh | hh⟩⟩
  · rw [swept_of_none hm]
  · rw [swept_of_expired hm he]
    rfl
  · rw [swept_of_held hm he hh]
  · rw [swept_of_free hm he hh]
    rfl

theorem swept_messages_of_stays {p : ℕ} (hg : x.gone currentTime p = false) :
    (swept currentTime x p).messages = x.messages := by
  rw [swept_messages, List.filter_eq_self]
  intro q _
  by_cases hq : q = p
  · rw [hq, hg]
    simp
  · simp [hq]

theorem WellFormed.swept (hw : x.WellFormed) (p : ℕ) :
    (MsgPool.swept currentTime x p).WellFormed := by
  constructor
  · rw [swept_messages]
    exact hw.nodup.filter _
  · intro q hq
    rw [swept_messages, List.mem_filter] at hq
    obtain ⟨hmem, hstay⟩ := hq
    by_cases hqp : q = p
    · -- the message itself is still there, or it would have left the list
      subst hqp
      obtain ⟨m, hm⟩ := Option.isSome_iff_exists.mp (hw.allocated q hmem)
      have he : m.expired currentTime = false := by
        simpa [gone, hm] using hstay
      rw [swept_objects, Function.update_self, hm, sweptObject, Option.bind_some,
        if_neg (by rw [he]; decide)]
      split_ifs <;> rfl
    · rw [swept_objects_of_ne hqp]
      exact hw.allocated q hmem

theorem WellFormed.moveTo (hw : x.WellFormed) (n : ℕ) : (x.moveTo n).WellFormed :=
  ⟨hw.nodup, hw.allocated⟩

/-- The loop looks at the messages `visited` gives, and stops at the end of the list. -/
theorem flushLoop_eq (fuel : ℕ) (x : MsgPool) (done rest : List ℕ) (p : ℕ)
    (hl : x.bLocked = true) (hw : x.WellFormed) (hmsgs : x.messages = done ++ p :: rest)
    (hit : x.it = done.length) (hfuel : rest.length < fuel) :
    flushLoop currentTime fuel x p =
      match visited (x.gone currentTime) (p :: rest) with
      | none => .error .undefined
      | some ex => .ok ((ex.foldl (swept currentTime) x).moveTo
          (ex.foldl (swept currentTime) x).messages.length, ex) := by
  induction fuel generalizing x done p rest with
  | zero => omega
  | succ fuel ih =>
    obtain ⟨m, hm⟩ := Option.isSome_iff_exists.mp (hw.allocated p (by rw [hmsgs]; simp))
    have hne : ∀ q ∈ rest, q ≠ p := by
      intro q hq he
      have hn := hw.nodup
      rw [hmsgs] at hn
      exact (List.nodup_cons.mp (List.nodup_append.mp hn).2.1).1 (he ▸ hq)
    have hgone : x.gone currentTime p = m.expired currentTime := by rw [gone, hm]; rfl
    have hcongr (n : ℕ) {l : List ℕ} (hl : ∀ q ∈ l, q ≠ p) :
        visited (((swept currentTime x p).moveTo n).gone currentTime) l =
          visited (x.gone currentTime) l :=
      visited_congr l fun q hq => gone_swept_of_ne (hl q hq)
    have hlock : (swept currentTime x p).bLocked = true := by rw [swept_bLocked, hl]
    have hw' : (swept currentTime x p).WellFormed := hw.swept p
    rw [flushLoop]
    cases he : m.expired currentTime with
    | false =>
      rw [he] at hgone
      have hmsgs' : (swept currentTime x p).messages = done ++ p :: rest := by
        rw [swept_messages_of_stays hgone, hmsgs]
      have hit' : (swept currentTime x p).it = done.length := by rw [swept_it, hit]
      rw [flushOne_of_stays hm he, ok_bind, getNext_of_lt hlock (by rw [hit', hmsgs']; simp),
        ok_bind, hit', hmsgs', visited_of_stays hgone]
      cases rest with
      | nil => simp [visited, hmsgs']
      | cons q rest =>
        have hnext : (done ++ p :: q :: rest)[done.length+1]? = some q := by simp
        rw [hnext]
        dsimp only
        rw [ih ((swept currentTime x p).moveTo (done.length+1)) (done ++ [p]) rest q hlock
            (hw'.moveTo _) (by simp [hmsgs']) (by simp) (by simpa using hfuel), hcongr _ hne]
        cases visited (x.gone currentTime) (q :: rest) with
        | none => rfl
        | some ex =>
          rw [ok_bind, foldl_swept_moved]
          rfl
    | true =>
      rw [he] at hgone
      have hmsgs' : (swept currentTime x p).messages = done ++ rest :=
        swept_messages_of_gone hm he hw.nodup hmsgs
      rw [flushOne_of_gone hm he hw.nodup hmsgs hit]
      rcases rest with _ | ⟨q, _ | ⟨r, rest⟩⟩
      · simp [visited, hgone]
      · rw [if_neg (by simp), ok_bind, getNext_of_end (by exact hlock) (by simp [hmsgs'])]
        simp [visited, hgone]
      · rw [if_neg (by simp), ok_bind, getNext_of_lt (by exact hlock) (by simp [hmsgs']), ok_bind,
          visited, if_pos hgone]
        simp only [moveTo_messages, moveTo_it, moveTo_moveTo, hmsgs']
        cases rest with
        | nil => simp [visited, hmsgs']
        | cons s rest =>
          have hnext : (done ++ q :: r :: s :: rest)[done.length+1+1]? = some s := by
            rw [Nat.add_assoc, List.getElem?_append_right (Nat.le_add_right _ _),
              Nat.add_sub_cancel_left]
            rfl
          rw [hnext]
          dsimp only
          rw [ih ((swept currentTime x p).moveTo (done.length+1+1)) (done ++ [q, r]) rest s hlock
              (hw'.moveTo _) (by simp [hmsgs']) (by simp)
              (by simp only [List.length_cons] at hfuel; omega),
            hcongr _ fun q' hq' => hne q' (by simp [hq'])]
          cases visited (x.gone currentTime) (s :: rest) with
          | none => rfl
          | some ex =>
            rw [ok_bind, foldl_swept_moved]
            rfl

/-! ### The whole sweep -/

/-- The pool as the sweep finds it: locked, with an empty stack. -/
def opened (x : MsgPool) : MsgPool := x.lock.flushFreeStack.moveTo 0

theorem flushMessages_eq (hw : x.WellFormed) : x.flushMessages currentTime =
    match visited (x.gone currentTime) x.messages with
    | none => .error .undefined
    | some ex => .ok (((ex.foldl (swept currentTime) x.opened).moveTo
        (ex.foldl (swept currentTime) x.opened).messages.length).unlock, ex) := by
  have hhead : x.lock.flushFreeStack.getHead = (x.messages[0]?, x.opened) := rfl
  rw [flushMessages, hhead]
  dsimp only
  cases hmsgs : x.messages with
  | nil =>
    rw [List.getElem?_nil]
    simp [visited, opened, lock, flushFreeStack, hmsgs, moveTo, unlock]
  | cons p rest =>
    rw [List.getElem?_cons_zero]
    dsimp only
    rw [flushLoop_eq x.opened.messages.length x.opened [] rest p rfl ⟨hw.nodup, hw.allocated⟩ hmsgs
      rfl (by rw [show x.opened.messages = p :: rest from hmsgs]; exact Nat.lt_succ_self _)]
    change (match visited (x.gone currentTime) (p :: rest) with
      | none => _ | some ex => _) >>= _ = _
    cases visited (x.gone currentTime) (p :: rest) <;> rfl

theorem foldl_swept_objects {ex : List ℕ} (hn : ex.Nodup) (q : ℕ) :
    (ex.foldl (swept currentTime) x).objects q =
      if q ∈ ex then sweptObject currentTime (x.objects q) else x.objects q := by
  induction ex generalizing x with
  | nil => rfl
  | cons p ex ih =>
    obtain ⟨hp, hn⟩ := List.nodup_cons.mp hn
    rw [List.foldl_cons, ih hn]
    by_cases hq : q = p
    · subst hq
      rw [if_neg hp, if_pos List.mem_cons_self, swept_objects, Function.update_self]
    · rw [swept_objects_of_ne hq]
      simp [hq]

theorem foldl_swept_messages {ex : List ℕ} (hn : ex.Nodup) :
    (ex.foldl (swept currentTime) x).messages =
      x.messages.filter fun q => !(decide (q ∈ ex) && x.gone currentTime q) := by
  induction ex generalizing x with
  | nil => simp
  | cons p ex ih =>
    obtain ⟨hp, hn⟩ := List.nodup_cons.mp hn
    rw [List.foldl_cons, ih hn, swept_messages, List.filter_filter]
    apply List.filter_congr
    intro q _
    by_cases hq : q = p
    · subst hq
      simp [hp]
    · rw [gone_swept_of_ne hq]
      simp [hq]

theorem foldl_swept_freeMsgStack {ex : List ℕ} (hn : ex.Nodup) :
    (ex.foldl (swept currentTime) x).freeMsgStack =
      (ex.filter (x.reusable currentTime)).reverse ++ x.freeMsgStack := by
  induction ex generalizing x with
  | nil => rfl
  | cons p ex ih =>
    obtain ⟨hp, hn⟩ := List.nodup_cons.mp hn
    have hcongr : ex.filter ((swept currentTime x p).reusable currentTime) =
        ex.filter (x.reusable currentTime) := by
      apply List.filter_congr
      intro q hq
      have hne : q ≠ p := fun h => hp (h ▸ hq)
      rw [reusable, reusable, swept_objects_of_ne hne]
    rw [List.foldl_cons, ih hn, hcongr, swept_freeMsgStack]
    cases hr : x.reusable currentTime p with
    | false => simp [hr]
    | true => simp [hr]

/-- A returned sweep: which messages it looked at, and the list, the stack and the messages it
leaves. -/
structure Swept (x : MsgPool) (currentTime : ℤ) (y : MsgPool) (examined : List ℕ) : Prop where
  visited : visited (x.gone currentTime) x.messages = some examined
  messages : y.messages = x.messages.filter fun q =>
    !(decide (q ∈ examined) && x.gone currentTime q)
  freeMsgStack : y.freeMsgStack = (examined.filter (x.reusable currentTime)).reverse
  objects : ∀ q, y.objects q =
    if q ∈ examined then sweptObject currentTime (x.objects q) else x.objects q

theorem swept_of_flushMessages (hw : x.WellFormed) {y : MsgPool} {examined : List ℕ}
    (hok : x.flushMessages currentTime = .ok (y, examined)) : x.Swept currentTime y examined := by
  rw [flushMessages_eq hw] at hok
  cases hv : CursorSweep.visited (x.gone currentTime) x.messages with
  | none =>
    rw [hv] at hok
    cases hok
  | some ex =>
    rw [hv] at hok
    obtain ⟨rfl, rfl⟩ := Prod.mk.inj (Except.ok.inj hok)
    have hn : ex.Nodup := hw.nodup.sublist (visited_sublist _ hv)
    exact ⟨hv, foldl_swept_messages hn, (foldl_swept_freeMsgStack hn).trans (List.append_nil _),
      foldl_swept_objects hn⟩

end MsgPool
end MsgCourier
