import MsgCourier.BufferEdit

/-! The end of `cWebRequestHandler::ProcessServerSideScripts`: the special tags of a page and the
values that are put in their place. -/
namespace MsgCourier
open ListSearch CText ZeroFill

/-! ### The loop -/

inductive SpecialTag
  | serverAddr
  | serverTime
  | pageTime
  deriving DecidableEq, Repr

namespace SpecialTag

def text : SpecialTag → Bytes
  | serverAddr => bytes "\x7b\x7bMC_SERVERADDR\x7d\x7d"
  | serverTime => bytes "\x7b\x7bMC_SERVERTIME\x7d\x7d"
  | pageTime => bytes "\x7b\x7bMC_PAGETIME\x7d\x7d"

end SpecialTag

/-- What the tags stand for at one time: the primary address of the server, `asctime` without its
newline, and the text of the elapsed time. -/
structure PageValues where
  serverAddr : Bytes
  serverTime : Bytes
  pageTime : Bytes

namespace PageValues

def value (x : PageValues) : SpecialTag → Bytes
  | .serverAddr => x.serverAddr
  | .serverTime => x.serverTime
  | .pageTime => x.pageTime

/-- The text that is given to `Insert`. -/
def pData (x : PageValues) : SpecialTag → Bytes
  | .serverAddr => x.serverAddr ++ [0]
  | .serverTime => x.serverTime ++ [10] ++ [0]
  | .pageTime => x.pageTime ++ [0]

/-- The length that is given to `Insert`: `strlen(pTime) - 1` for the time and the default else. -/
def iLength (x : PageValues) : SpecialTag → ℤ
  | .serverTime => (cstr (x.pData .serverTime)).length-1
  | _ => -1

end PageValues

def tagOpen : Bytes := bytes "\x7b\x7bMC_"

/-- One of the three branches: the tag's length is removed at the index, the value is inserted, and
the offset goes on by the length of the tag. -/
def replaceTag [Malloc] (x : PageValues) (tag : SpecialTag) (index : ℤ) (b : Buffer) :
    Cxx (ℤ × Buffer) := do
  let len : ℤ := tag.text.length
  let (_, b) ← b.remove index len
  let b ← b.insert index (x.pData tag) (x.iLength tag)
  pure (int32 (index+len), b)

/-- The loop, as far as the given number of rounds goes; `values k` are the values at the time of
the replacement with number `k`. -/
def postProcess [Malloc] (values : ℕ → PageValues) : ℕ → ℕ → ℤ → Buffer → Cxx (Option Buffer)
  | 0, _, _, _ => pure none
  | n+1, k, offset, b => do
    let (index, b) ← b.find tagOpen offset
    if index = -1 then pure (some b)
    else
      let (iAddr, b) ← b.find (SpecialTag.text .serverAddr) index
      if iAddr ≠ -1 then
        let (offset, b) ← replaceTag (values k) .serverAddr index b
        postProcess values n (k+1) offset b
      else
        let (iTime, b) ← b.find (SpecialTag.text .serverTime) index
        if iTime ≠ -1 then
          let (offset, b) ← replaceTag (values k) .serverTime index b
          postProcess values n (k+1) offset b
        else
          let (iPage, b) ← b.find (SpecialTag.text .pageTime) index
          if iPage ≠ -1 then
            let (offset, b) ← replaceTag (values k) .pageTime index b
            postProcess values n (k+1) offset b
          else postProcess values n k (int32 (offset+index)) b

/-! ### What the page is to be -/

/-- The page with each of its tags replaced by its own value, and nothing else changed. The first
tag has the number `k`. -/
inductive TagsReplaced (values : ℕ → PageValues) : ℕ → Bytes → Bytes → Prop
  | plain {k : ℕ} {c : Bytes} :
      (∀ tag : SpecialTag, ¬ tag.text <:+: c) → TagsReplaced values k c c
  | tag {k : ℕ} {u r r' : Bytes} (tag : SpecialTag) :
      (∀ other : SpecialTag, ¬ other.text <:+: u) → TagsReplaced values (k+1) r r' →
      TagsReplaced values k (u ++ (tag.text ++ r)) (u ++ ((values k).value tag ++ r'))

/-- The pages that the loop builds: one or more of the first tags are replaced. -/
inductive Built (values : ℕ → PageValues) : ℕ → Bytes → Bytes → Prop
  | first {k : ℕ} {u r : Bytes} (tag : SpecialTag) : (∀ other : SpecialTag, ¬ other.text <:+: u) →
      Built values k (u ++ (tag.text ++ r)) (u ++ ((values k).value tag ++ r))
  | next {k : ℕ} {u r r' : Bytes} (tag : SpecialTag) :
      (∀ other : SpecialTag, ¬ other.text <:+: u) → Built values (k+1) r r' →
      Built values k (u ++ (tag.text ++ r)) (u ++ ((values k).value tag ++ r'))

/-! ### A replacement -/

namespace Buffer

theorem insert_of_lengthArg [Malloc] {b : Buffer} {p : Bytes} {i z : ℤ} {n : ℕ}
    (h : lengthArg p z = .ok n) : b.insert i p z = b.insert i p n := by
  unfold insert
  rw [h, lengthArg_natCast]

/-- What is in the block behind a shorter content: the end of what was moved, a terminator in it. -/
theorem insert_block [Malloc] {c p : Bytes} (old : Bytes) {size i n : ℕ} (hi : i ≤ c.length)
    (hn : n ≤ p.length) (hfree : c.length+n < size) (hsize : size ≤ (c ++ old).length)
    (hs : (size : ℤ) ≤ intMax) :
    insert ⟨some (c ++ old), size, c.length⟩ i p n =
      .ok ⟨some (c.take i ++ p.take n ++ c.drop i ++ 0 :: old.drop (n+1)), size,
        (c.length+n : ℕ)⟩ := by
  have hlen : (c.take i ++ p.take n ++ c.drop i).length = c.length+n := by
    rw [List.length_append, List.length_append, List.length_take_of_le hi,
      List.length_take_of_le hn, List.length_drop]
    omega
  have htail : int32 ((c.length : ℤ)+n) = (c.length+n : ℕ) := int32_eq (by omega) (by omega)
  have hnew : int32 (int32 ((n : ℤ)+c.length)+1) = (c.length+n+1 : ℕ) := by
    rw [int32_eq (by omega) (show (n : ℤ)+c.length ≤ intMax by omega),
      int32_eq (by omega) (by omega)]
    omega
  have hroom : ¬ (size : ℤ) < (c.length+n+1 : ℕ) := by omega
  obtain ⟨a, rest, hold⟩ : ∃ a rest, old.drop n = a :: rest := by
    apply List.exists_cons_of_ne_nil
    intro hnil
    have hle := List.drop_eq_nil_iff.mp hnil
    rw [List.length_append] at hsize
    omega
  have hrest : old.drop (n+1) = rest := by
    rw [← List.drop_drop, hold]
    rfl
  have hstore : store (c.take i ++ p.take n ++ c.drop i ++ a :: rest) (c.length+n : ℕ) [0] =
      .ok (c.take i ++ p.take n ++ c.drop i ++ 0 :: rest) := by
    rw [← hlen]
    exact poke_append _ a rest 0
  unfold insert insertBytes
  rw [lengthArg_natCast, ok_bind, hnew, if_neg hroom, insertInPlace_block old hi hn hfree hsize hs,
    ok_bind, htail, hold, hrest, ← List.append_assoc, ← List.append_assoc]
  unfold makeString
  dsimp only
  rw [hstore]
  rfl

end Buffer

/-- The values are texts of C with no brace: an address, a time, a number and a word. -/
structure PageValues.Plain (x : PageValues) : Prop where
  zero : ∀ tag, 0 ∉ x.value tag
  brace : ∀ tag, 123 ∉ x.value tag

section
variable {x : PageValues} {tag : SpecialTag}

theorem PageValues.Plain.pData_eq (h : x.Plain) (tag : SpecialTag) :
    lengthArg (x.pData tag) (x.iLength tag) = .ok ((x.value tag).length : ℕ) ∧
      (x.pData tag).take (x.value tag).length = x.value tag := by
  have hdefault : ∀ s : Bytes, 0 ∉ s → lengthArg (s ++ [0]) (-1) = .ok (s.length : ℕ) ∧
      (s ++ [0]).take s.length = s := by
    intro s hs
    unfold lengthArg strlen
    rw [if_pos rfl, if_pos (List.mem_append_right _ List.mem_cons_self), cstr_append_zero,
      cstr_eq_self hs]
    exact ⟨rfl, List.take_left⟩
  cases tag with
  | serverAddr => exact hdefault _ (h.zero .serverAddr)
  | pageTime => exact hdefault _ (h.zero .pageTime)
  | serverTime =>
    have hzero : 0 ∉ x.serverTime ++ [10] := by
      rw [List.mem_append]
      exact fun hin => hin.elim (h.zero .serverTime) (by decide)
    have hlen : x.iLength .serverTime = (x.serverTime.length : ℕ) := by
      unfold PageValues.iLength PageValues.pData
      dsimp only
      rw [cstr_append_zero, cstr_eq_self hzero, List.length_append, List.length_singleton]
      omega
    rw [hlen, Buffer.lengthArg_natCast]
    refine ⟨rfl, ?_⟩
    unfold PageValues.pData PageValues.value
    rw [List.append_assoc, List.take_left]

/-- A tag in the content gives way to its value. -/
theorem Buffer.Closed.replaceTag [Malloc] {b : Buffer} {u r : Bytes}
    (h : b.Closed (u ++ (tag.text ++ r))) (hx : x.Plain)
    (hroom : ((u ++ (x.value tag ++ r)).length : ℤ)+10 ≤ intMax) :
    ∃ b', MsgCourier.replaceTag x tag u.length b = .ok ((u.length+tag.text.length : ℕ), b') ∧
      b'.Closed (u ++ ((x.value tag) ++ r)) := by
  obtain ⟨hlen, htake⟩ := hx.pData_eq tag
  have htext : 0 < tag.text.length := by
    cases tag <;> decide
  have hcontent : (u ++ (tag.text ++ r)).length = u.length+tag.text.length+r.length := by
    rw [List.length_append, List.length_append]
    omega
  have hmax := h.keeps.length_lt
  rw [List.length_append, List.length_append] at hroom
  obtain ⟨b₁, hremove, hkeeps, -⟩ := h.keeps.remove htext (i := u.length) (by omega)
  have hleft : (u ++ (tag.text ++ r)).take u.length ++
      (u ++ (tag.text ++ r)).drop (u.length+tag.text.length) = u ++ r := by
    rw [List.take_left, List.drop_length_add_append, List.drop_left]
  rw [hleft] at hkeeps
  have hvalue : (x.value tag).length ≤ (x.pData tag).length := by
    rw [← htake]
    exact List.length_take_le' _ _
  have hfits : b₁.FitsInsert ((x.value tag).length : ℕ) := by
    right
    rw [hkeeps.tail_eq, List.length_append]
    omega
  obtain ⟨b₂, hinsert, hclosed, -⟩ := hkeeps.insert (x.pData tag) (i := u.length)
    (by rw [List.length_append]; omega) hvalue hfits
  rw [htake, List.take_left, List.drop_left, List.append_assoc] at hclosed
  refine ⟨b₂, ?_, hclosed⟩
  have hoffset : int32 ((u.length : ℤ)+tag.text.length) = (u.length+tag.text.length : ℕ) :=
    int32_eq (by omega) (by omega)
  unfold MsgCourier.replaceTag
  dsimp only
  rw [hremove, ok_bind]
  dsimp only
  rw [Buffer.insert_of_lengthArg hlen, hinsert, ok_bind, hoffset]
  rfl

/-- When the value and the text behind the tag are shorter than the tag, the offset stands where
that text began before, and the block still has it there. -/
theorem Buffer.Closed.replaceTag_behind [Malloc] {b b' : Buffer} {u r : Bytes} {o : ℤ}
    (h : b.Closed (u ++ (tag.text ++ r))) (hx : x.Plain)
    (hshort : (x.value tag).length+r.length < tag.text.length)
    (hok : MsgCourier.replaceTag x tag u.length b = .ok (o, b')) :
    ∃ front junk, b'.pBuffer = some (front ++ (r ++ 0 :: junk)) ∧
      front.length = u.length+tag.text.length := by
  obtain ⟨hlen, htake⟩ := hx.pData_eq tag
  have hvalue : (x.value tag).length ≤ (x.pData tag).length := by
    rw [← htake]
    exact List.length_take_le' _ _
  obtain ⟨c, hc⟩ : ∃ c, c = u ++ (tag.text ++ r) := ⟨_, rfl⟩
  rw [← hc] at h
  obtain ⟨_, junk, size, hroom, hsize, hend, hs⟩ := h
  have hcontent : c.length = u.length+tag.text.length+r.length := by
    rw [hc, List.length_append, List.length_append]
    omega
  have hleft : c.take u.length ++ c.drop (u.length+tag.text.length) = u ++ r := by
    rw [hc, List.take_left, List.drop_length_add_append, List.drop_left]
  have hremove := Buffer.remove_block (0 :: junk) hroom hs (i := u.length) (n := tag.text.length)
    (by omega) (by omega)
  rw [hleft] at hremove
  have hlast : c.drop (c.length-tag.text.length) = (tag.text ++ r).drop r.length := by
    have hpos : c.length-tag.text.length = u.length+r.length := by omega
    rw [hpos, hc, List.drop_length_add_append]
  have hblock : (u ++ r ++ (c.drop (c.length-tag.text.length) ++ 0 :: junk)).length =
      (c ++ 0 :: junk).length := by
    simp only [List.length_append, List.length_drop]
    omega
  have hur : (u ++ r).length = u.length+r.length := List.length_append
  have hinsert := Buffer.insert_block (c := u ++ r) (p := x.pData tag)
    (c.drop (c.length-tag.text.length) ++ 0 :: junk) (i := u.length) (by omega) hvalue
    (by omega : (u ++ r).length+(x.value tag).length < size) (by rw [hblock]; exact hsize) hs
  have hold : (c.drop (c.length-tag.text.length) ++ 0 :: junk).drop ((x.value tag).length+1) =
      tag.text.drop (r.length+((x.value tag).length+1)) ++ (r ++ 0 :: junk) := by
    rw [hlast, List.drop_append_of_le_length (by rw [List.length_drop, List.length_append]; omega),
      List.drop_drop, List.drop_append_of_le_length (by omega), List.append_assoc]
  unfold MsgCourier.replaceTag at hok
  dsimp only at hok
  rw [hremove, ok_bind] at hok
  dsimp only at hok
  rw [Buffer.insert_of_lengthArg hlen, hinsert, ok_bind] at hok
  obtain ⟨-, rfl⟩ := Prod.mk.inj (Except.ok.inj hok)
  refine ⟨u ++ x.value tag ++ r ++
    0 :: tag.text.drop (r.length+((x.value tag).length+1)), junk, ?_, ?_⟩
  · dsimp only
    rw [htake, List.take_left, List.drop_left, hold]
    simp only [List.append_assoc, List.cons_append]
  · simp only [List.length_append, List.length_cons, List.length_drop]
    omega

end

/-! ### What a round finds -/

namespace SpecialTag

/-- The tags that are tested before this one. -/
def earlier : SpecialTag → List SpecialTag
  | serverAddr => []
  | serverTime => [serverAddr]
  | pageTime => [serverAddr, serverTime]

theorem tagOpen_prefix (tag : SpecialTag) : tagOpen <+: tag.text := by
  cases tag <;> decide

theorem text_ne_nil (tag : SpecialTag) : tag.text ≠ [] := by
  cases tag <;> decide

theorem zero_notMem_text (tag : SpecialTag) : 0 ∉ tag.text := by
  cases tag <;> decide

end SpecialTag

section
variable {b : Buffer} {d rest u r : Bytes}

/-- The value in front holds no tag, so the search goes on in the text behind it. -/
theorem strstr_behind (h0 : 0 ∉ d) (hbrace : 123 ∉ d) (s : Bytes) :
    strstr (d ++ s) tagOpen = (strstr s tagOpen).map (d.length + ·) := by
  unfold strstr
  rw [cstr_append h0]
  exact firstOcc_append_notMem hbrace _

theorem strstr_tag (h0 : 0 ∉ u) (hopen : ¬ tagOpen <:+: u) (tag : SpecialTag) (r : Bytes) :
    strstr (u ++ (tag.text ++ r)) tagOpen = some u.length := by
  obtain ⟨t, ht⟩ := tag.tagOpen_prefix
  have htail : 0 ∉ t := by
    intro hin
    apply tag.zero_notMem_text
    rw [← ht]
    exact List.mem_append_right _ hin
  have hopen0 : 0 ∉ tagOpen := by decide
  unfold strstr
  rw [cstr_append h0, ← ht, List.append_assoc, cstr_append hopen0]
  exact firstOcc_append_unbordered (by decide) (by decide) hopen _

theorem strstr_none {pat s : Bytes} (hp : pat ≠ []) (h : ¬ pat <:+: s) : strstr s pat = none := by
  unfold strstr
  by_contra hfound
  obtain ⟨k, hk⟩ := Option.ne_none_iff_exists'.mp hfound
  have hin := (occursIn_iff hp).mp (Option.isSome_iff_exists.mpr ⟨k, hk⟩)
  obtain ⟨t, ht⟩ := cstr_split s
  apply h
  rw [ht]
  exact hin.trans (List.prefix_append _ _).isInfix

/-- A search for the next tag from an offset in front of the rest or in it. -/
theorem Buffer.Keeps.findOpen (h : b.Keeps (d ++ rest)) {o : ℕ} (ho : o ≤ d.length+rest.length)
    (h0 : 0 ∉ d.drop o) (hbrace : 123 ∉ d.drop o) :
    ∃ b', b.find tagOpen o = .ok ((strstr (rest.drop (o-d.length)) tagOpen).elim (-1)
        fun i => ((max o d.length+i : ℕ) : ℤ), b') ∧
      b'.Keeps (d ++ rest) ∧ (d ++ rest ≠ [] → b'.Closed (d ++ rest)) := by
  by_cases hc : d ++ rest = []
  · obtain ⟨rfl, rfl⟩ := List.append_eq_nil_iff.mp hc
    refine ⟨b, ?_, h, fun hne => absurd rfl hne⟩
    rw [h.find_nil, List.drop_nil]
    rfl
  · have hoff : o ≤ (d ++ rest).length := by
      rw [List.length_append]
      exact ho
    obtain ⟨b', hfind, hclosed, -⟩ := h.find hc tagOpen hoff
    refine ⟨b', ?_, hclosed.keeps, fun _ => hclosed⟩
    have hlen : (d.drop o).length = d.length-o := List.length_drop
    rw [hfind, List.drop_append, strstr_behind h0 hbrace, hlen]
    cases strstr (rest.drop (o-d.length)) tagOpen with
    | none => rfl
    | some i =>
      have hindex : o+(d.length-o+i) = max o d.length+i := by omega
      rw [Option.map_some, Option.elim_some, Option.elim_some, hindex]

/-- A search from the place of a tag on. -/
theorem Buffer.Closed.findTag {w : Bytes} {tag : SpecialTag} (h : b.Closed (w ++ (tag.text ++ r)))
    (pat : Bytes) : ∃ b', b.find pat w.length = .ok ((strstr (tag.text ++ r) pat).elim (-1)
        fun i => ((w.length+i : ℕ) : ℤ), b') ∧ b'.Closed (w ++ (tag.text ++ r)) := by
  have hne : w ++ (tag.text ++ r) ≠ [] :=
    List.append_ne_nil_of_right_ne_nil _ (List.append_ne_nil_of_left_ne_nil tag.text_ne_nil _)
  have hoff : w.length ≤ (w ++ (tag.text ++ r)).length := by
    rw [List.length_append]
    exact Nat.le_add_right _ _
  obtain ⟨b', hfind, hclosed, -⟩ := h.keeps.find hne pat hoff
  rw [List.drop_left] at hfind
  exact ⟨b', hfind, hclosed⟩

theorem Buffer.Closed.findTag_self {w : Bytes} {tag : SpecialTag}
    (h : b.Closed (w ++ (tag.text ++ r))) :
    ∃ b', b.find tag.text w.length = .ok ((w.length : ℕ), b') ∧
      b'.Closed (w ++ (tag.text ++ r)) := by
  obtain ⟨b', hfind, hclosed⟩ := h.findTag tag.text
  have hfound : strstr (tag.text ++ r) tag.text = some 0 := by
    unfold strstr
    rw [cstr_append tag.zero_notMem_text]
    exact (firstOcc_eq_some_iff tag.text_ne_nil).mpr
      ⟨List.prefix_append _ _, fun j hj => absurd hj (Nat.not_lt_zero j)⟩
  rw [hfound] at hfind
  exact ⟨b', hfind, hclosed⟩

theorem Buffer.Closed.findTag_none {w : Bytes} {tag other : SpecialTag}
    (h : b.Closed (w ++ (tag.text ++ r))) (hnone : strstr (tag.text ++ r) other.text = none) :
    ∃ b', b.find other.text w.length = .ok (-1, b') ∧ b'.Closed (w ++ (tag.text ++ r)) := by
  obtain ⟨b', hfind, hclosed⟩ := h.findTag other.text
  rw [hnone] at hfind
  exact ⟨b', hfind, hclosed⟩

end

section
variable {values : ℕ → PageValues} {k : ℕ}

/-- A round that finds a tag, none of the tags tested before it being behind that place. -/
theorem postProcess_tag [Malloc] {b b₁ : Buffer} {w r : Bytes} {o : ℕ} (tag : SpecialTag)
    (hfind : b.find tagOpen o = .ok ((w.length : ℕ), b₁))
    (hclosed : b₁.Closed (w ++ (tag.text ++ r)))
    (hearlier : ∀ other ∈ tag.earlier, strstr (tag.text ++ r) other.text = none)
    (hx : (values k).Plain)
    (hroom : ((w ++ ((values k).value tag ++ r)).length : ℤ)+10 ≤ intMax) :
    ∃ b', (∀ n, postProcess values (n+1) k o b =
        postProcess values n (k+1) (w.length+tag.text.length : ℕ) b') ∧
      b'.Closed (w ++ ((values k).value tag ++ r)) ∧
      (((values k).value tag).length+r.length < tag.text.length →
        ∃ front junk, b'.pBuffer = some (front ++ (r ++ 0 :: junk)) ∧
          front.length = w.length+tag.text.length) := by
  have hindex : ¬ ((w.length : ℕ) : ℤ) = -1 := by omega
  have hminus : ¬ (-1 : ℤ) ≠ -1 := by decide
  cases tag with
  | serverAddr =>
    obtain ⟨b₂, hfind₂, hclosed₂⟩ := hclosed.findTag_self
    obtain ⟨b', hreplace, hclosed'⟩ := hclosed₂.replaceTag hx hroom
    refine ⟨b', fun n => ?_, hclosed', fun hshort => hclosed₂.replaceTag_behind hx hshort hreplace⟩
    rw [postProcess, hfind, ok_bind]
    dsimp only
    rw [if_neg hindex, hfind₂, ok_bind]
    dsimp only
    rw [if_pos hindex, hreplace]
    rfl
  | serverTime =>
    obtain ⟨b₂, hfind₂, hclosed₂⟩ := hclosed.findTag_none (hearlier .serverAddr (by decide))
    obtain ⟨b₃, hfind₃, hclosed₃⟩ := hclosed₂.findTag_self
    obtain ⟨b', hreplace, hclosed'⟩ := hclosed₃.replaceTag hx hroom
    refine ⟨b', fun n => ?_, hclosed', fun hshort => hclosed₃.replaceTag_behind hx hshort hreplace⟩
    rw [postProcess, hfind, ok_bind]
    dsimp only
    rw [if_neg hindex, hfind₂, ok_bind]
    dsimp only
    rw [if_neg hminus, hfind₃, ok_bind]
    dsimp only
    rw [if_pos hindex, hreplace]
    rfl
  | pageTime =>
    obtain ⟨b₂, hfind₂, hclosed₂⟩ := hclosed.findTag_none (hearlier .serverAddr (by decide))
    obtain ⟨b₃, hfind₃, hclosed₃⟩ := hclosed₂.findTag_none (hearlier .serverTime (by decide))
    obtain ⟨b₄, hfind₄, hclosed₄⟩ := hclosed₃.findTag_self
    obtain ⟨b', hreplace, hclosed'⟩ := hclosed₄.replaceTag hx hroom
    refine ⟨b', fun n => ?_, hclosed', fun hshort => hclosed₄.replaceTag_behind hx hshort hreplace⟩
    rw [postProcess, hfind, ok_bind]
    dsimp only
    rw [if_neg hindex, hfind₂, ok_bind]
    dsimp only
    rw [if_neg hminus, hfind₃, ok_bind]
    dsimp only
    rw [if_neg hminus, hfind₄, ok_bind]
    dsimp only
    rw [if_pos hindex, hreplace]
    rfl

/-- A round that stands at no tag at all: the index is added to the offset. -/
theorem postProcess_unknown [Malloc] {b b₁ : Buffer} {c : Bytes} {o index : ℕ}
    (hfind : b.find tagOpen o = .ok ((index : ℕ), b₁)) (hclosed : b₁.Closed c) (hc : c ≠ [])
    (hindex : index ≤ c.length) (hnone : ∀ tag : SpecialTag, ¬ tag.text <:+: c.drop index) :
    ∃ b', (∀ n, postProcess values (n+1) k o b = postProcess values n k (int32 (o+index)) b') ∧
      b'.Closed c := by
  have hsearch : ∀ (b : Buffer) (tag : SpecialTag), b.Closed c →
      ∃ b', b.find tag.text index = .ok (-1, b') ∧ b'.Closed c := by
    intro b tag hb
    obtain ⟨b', hfind, hclosed, -⟩ := hb.keeps.find hc tag.text hindex
    rw [strstr_none tag.text_ne_nil (hnone tag)] at hfind
    exact ⟨b', hfind, hclosed⟩
  obtain ⟨b₂, hfind₂, hclosed₂⟩ := hsearch b₁ .serverAddr hclosed
  obtain ⟨b₃, hfind₃, hclosed₃⟩ := hsearch b₂ .serverTime hclosed₂
  obtain ⟨b₄, hfind₄, hclosed₄⟩ := hsearch b₃ .pageTime hclosed₃
  have hfound : ¬ (index : ℤ) = -1 := by omega
  have hminus : ¬ (-1 : ℤ) ≠ -1 := by decide
  refine ⟨b₄, fun n => ?_, hclosed₄⟩
  rw [postProcess, hfind, ok_bind]
  dsimp only
  rw [if_neg hfound, hfind₂, ok_bind]
  dsimp only
  rw [if_neg hminus, hfind₃, ok_bind]
  dsimp only
  rw [if_neg hminus, hfind₄, ok_bind]
  dsimp only
  rw [if_neg hminus]

theorem postProcess_done [Malloc] {b b₁ : Buffer} {o : ℕ}
    (hfind : b.find tagOpen o = .ok (-1, b₁)) : postProcess values 1 k o b = .ok (some b₁) := by
  rw [postProcess, hfind]
  rfl

/-! ### When every tag gets its own value -/

/-- The searches behind the last replaced tag: `o`, and each time the place found is added to it,
until nothing is found. Each of them begins in the page. -/
inductive Passes (pos : ℕ) (rest : Bytes) : ℕ → Prop
  | none {o : ℕ} :
      o ≤ pos+rest.length → strstr (rest.drop (o-pos)) tagOpen = none → Passes pos rest o
  | next {o i : ℕ} :
      o ≤ pos+rest.length → strstr (rest.drop (o-pos)) tagOpen = some i →
      Passes pos rest (o+(max o pos+i)) → Passes pos rest o

/-- What is left of a page from the place `pos` on, when the search goes on at `o`. The first tag is
in front of all tags that are tested for before it, the text passed over up to it holds no tag, and
in the text searched no tag opens. -/
inductive Orderly (values : ℕ → PageValues) : ℕ → ℕ → ℕ → Bytes → Prop
  | tag {k pos o : ℕ} {u r : Bytes} (tag : SpecialTag) :
      o ≤ pos+u.length → 0 ∉ u.drop (o-pos) → ¬ tagOpen <:+: u.drop (o-pos) →
      (∀ other : SpecialTag, ¬ other.text <:+: u) →
      (∀ other ∈ tag.earlier, strstr (tag.text ++ r) other.text = none) →
      Orderly values (k+1) (pos+u.length+((values k).value tag).length)
        (pos+u.length+tag.text.length) r →
      Orderly values k pos o (u ++ (tag.text ++ r))
  | last {k pos o : ℕ} {rest : Bytes} :
      (∀ tag : SpecialTag, ¬ tag.text <:+: rest) →
      (pos+rest.length < o ∧ strstr rest tagOpen = none ∨ Passes pos rest o) →
      Orderly values k pos o rest

theorem Passes.le {pos o : ℕ} {rest : Bytes} (h : Passes pos rest o) : o ≤ pos+rest.length := by
  cases h with
  | none ho _ => exact ho
  | next ho _ _ => exact ho

theorem Passes.run [Malloc] {rest d : Bytes} {o : ℕ} (h : Passes d.length rest o) {b : Buffer}
    (hb : b.Keeps (d ++ rest)) (h0 : 0 ∉ d.drop o) (hbrace : 123 ∉ d.drop o)
    (hrest : ∀ tag : SpecialTag, ¬ tag.text <:+: rest) :
    ∃ n b', postProcess values n k o b = .ok (some b') ∧ b'.Keeps (d ++ rest) := by
  induction h generalizing b with
  | none ho hnone =>
    obtain ⟨b', hfind, hkeeps, -⟩ := hb.findOpen ho h0 hbrace
    rw [hnone] at hfind
    exact ⟨1, b', postProcess_done hfind, hkeeps⟩
  | @next o i ho hsome hpasses ih =>
    obtain ⟨b₁, hfind, -, hclosed⟩ := hb.findOpen ho h0 hbrace
    have hlong := strstr_le hsome
    rw [List.length_drop] at hlong
    have hne : d ++ rest ≠ [] := by
      intro hnil
      obtain ⟨-, rfl⟩ := List.append_eq_nil_iff.mp hnil
      rw [List.drop_nil] at hsome
      have hnone : strstr [] tagOpen = Option.none := by decide
      rw [hnone] at hsome
      cases hsome
    rw [hsome] at hfind
    have hle : max o d.length+i ≤ (d ++ rest).length := by
      rw [List.length_append]
      have hopen : tagOpen.length = 5 := by decide
      omega
    have hdrop : (d ++ rest).drop (max o d.length+i) <:+: rest := by
      obtain ⟨j, hj⟩ : ∃ j, max o d.length+i = d.length+j :=
        ⟨max o d.length+i-d.length, by omega⟩
      rw [hj, List.drop_length_add_append]
      exact (List.drop_suffix _ _).isInfix
    obtain ⟨b₂, hround, hclosed₂⟩ := postProcess_unknown  hfind
      (hclosed hne) hne hle fun tag hin => hrest tag (hin.trans hdrop)
    have hsuffix : d.drop (o+(max o d.length+i)) <:+ d.drop o := by
      rw [← List.drop_drop]
      exact List.drop_suffix _ _
    obtain ⟨n, b', hrun, hkeeps⟩ := ih hclosed₂.keeps (fun hin => h0 (hsuffix.subset hin))
      (fun hin => hbrace (hsuffix.subset hin))
    have hmax := hb.length_lt
    rw [List.length_append] at hmax
    have hnext := hpasses.le
    have hoffset : int32 ((o : ℤ)+(max o d.length+i : ℕ)) = (o+(max o d.length+i) : ℕ) :=
      int32_eq (by omega) (by omega)
    refine ⟨n+1, b', ?_, hkeeps⟩
    rw [hround, hoffset]
    exact hrun

/-- A search behind the end of the page reads what stood there before. -/
theorem Buffer.Closed.findOpen_behind {b : Buffer} {c front rest junk : Bytes} {o : ℕ}
    (h : b.Closed c) (hmem : b.pBuffer = some (front ++ (rest ++ 0 :: junk)))
    (hfront : front.length = o) (hnone : strstr rest tagOpen = none) :
    b.find tagOpen o = .ok (-1, b) := by
  have hrange : 0 ≤ (o : ℤ) ∧ (o : ℤ) ≤ (front ++ (rest ++ 0 :: junk)).length := by
    rw [List.length_append]
    omega
  have hsearch : strstr ((front ++ (rest ++ 0 :: junk)).drop o) tagOpen = none := by
    rw [← hfront, List.drop_left, strstr, cstr_append_zero]
    exact hnone
  unfold Buffer.find
  split_ifs with htail
  · rfl
  · rw [h.makeString, ok_bind, hmem]
    dsimp only
    rw [if_pos hrange, Int.toNat_natCast, hsearch]
    rfl

/-- The loop over what is left of the page. In front of it stands the part `d` that is done, of
which nothing is searched but the end of a value. -/
theorem Orderly.run [Malloc] {pos o : ℕ} {rest : Bytes} (h : Orderly values k pos o rest)
    (hvalues : ∀ k, (values k).Plain) {d : Bytes} {b : Buffer} (hpos : d.length = pos)
    (hb : b.Keeps (d ++ rest)) (h0 : 0 ∉ d.drop o) (hbrace : 123 ∉ d.drop o)
    (hbehind : pos+rest.length < o → b.Closed (d ++ rest) ∧
      ∃ front junk, b.pBuffer = some (front ++ (rest ++ 0 :: junk)) ∧ front.length = o)
    (hroom : ∀ rest', Built values k rest rest' → (d.length+rest'.length+10 : ℤ) ≤ intMax) :
    ∃ n b' rest', postProcess values n k o b = .ok (some b') ∧
      TagsReplaced values k rest rest' ∧ b'.Keeps (d ++ rest') := by
  induction h generalizing d b with
  | @last k pos o rest hrest hend =>
    subst hpos
    rcases hend with ⟨hlong, hnone⟩ | hpasses
    · obtain ⟨hclosed, front, junk, hmem, hfront⟩ := hbehind hlong
      have hfind := hclosed.findOpen_behind hmem hfront hnone
      exact ⟨1, b, rest, postProcess_done hfind, .plain hrest, hb⟩
    · obtain ⟨n, b', hrun, hkeeps⟩ := hpasses.run hb h0 hbrace hrest
      exact ⟨n, b', rest, hrun, .plain hrest, hkeeps⟩
  | @tag k pos o u r tag ho hzero hopen hfront hearlier horder ih =>
    subst hpos
    obtain ⟨x, hx⟩ : ∃ x, x = (values k).value tag := ⟨_, rfl⟩
    rw [← hx] at ih
    have hplain := hvalues k
    -- the search finds this tag
    obtain ⟨b₁, hfind, -, hclosed⟩ := hb.findOpen
      (by rw [List.length_append]; omega) h0 hbrace
    have hdrop : (u ++ (tag.text ++ r)).drop (o-d.length) =
        u.drop (o-d.length) ++ (tag.text ++ r) := List.drop_append_of_le_length (by omega)
    have hplace : max o d.length+(u.drop (o-d.length)).length = (d ++ u).length := by
      rw [List.length_drop, List.length_append]
      omega
    rw [hdrop, strstr_tag hzero hopen, Option.elim_some, hplace] at hfind
    have hne : d ++ (u ++ (tag.text ++ r)) ≠ [] :=
      List.append_ne_nil_of_right_ne_nil _ (List.append_ne_nil_of_right_ne_nil _
        (List.append_ne_nil_of_left_ne_nil tag.text_ne_nil _))
    have hclosed₁ := hclosed hne
    rw [← List.append_assoc] at hclosed₁
    -- and puts the value there
    have hspace := hroom _ (.first tag hfront)
    have hfits : ((d ++ u ++ ((values k).value tag ++ r)).length : ℤ)+10 ≤ intMax := by
      rw [List.append_assoc, List.length_append]
      omega
    obtain ⟨b₂, hround, hclosed₂, hbehind₂⟩ :=
      postProcess_tag tag hfind hclosed₁ hearlier hplain hfits
    rw [← hx] at hclosed₂ hbehind₂
    rw [← List.append_assoc] at hclosed₂
    have hsuffix : (d ++ u ++ x).drop (d.length+u.length+tag.text.length) <:+ x := by
      rw [← List.length_append, List.drop_length_add_append]
      exact List.drop_suffix _ _
    have hlen : (d ++ u ++ x).length = d.length+u.length+x.length := by
      rw [List.length_append, List.length_append]
    obtain ⟨n, b', rest', hrun, hreplaced, hkeeps⟩ := ih hlen hclosed₂.keeps
      (fun hin => hplain.zero tag (hx ▸ hsuffix.subset hin))
      (fun hin => hplain.brace tag (hx ▸ hsuffix.subset hin))
      (fun hlong => ⟨hclosed₂, by
        rw [← List.length_append]
        exact hbehind₂ (by omega)⟩)
      (fun r' hr' => by
        have hspace' := hroom _ (.next tag hfront hr')
        rw [← hx] at hspace'
        simp only [List.length_append] at hspace' ⊢
        omega)
    refine ⟨n+1, b', u ++ (x ++ rest'), ?_, hx ▸ .tag tag hfront hreplaced, ?_⟩
    · rw [hround, List.length_append]
      exact hrun
    · rwa [← List.append_assoc, ← List.append_assoc]

theorem Built.length_le {c c' : Bytes} {n : ℕ} (h : Built values k c c')
    (hvalues : ∀ k tag, ((values k).value tag).length ≤ n) : c'.length ≤ (n+1)*c.length := by
  have hstep (k : ℕ) (u r r' : Bytes) (tag : SpecialTag) (hr : r'.length ≤ (n+1)*r.length) :
      (u ++ ((values k).value tag ++ r')).length ≤ (n+1)*(u ++ (tag.text ++ r)).length := by
    have hvalue := hvalues k tag
    have htext := List.length_pos_iff.mpr tag.text_ne_nil
    calc (u ++ ((values k).value tag ++ r')).length
        = u.length+(((values k).value tag).length+r'.length) := by
          rw [List.length_append, List.length_append]
      _ ≤ (n+1)*u.length+((n+1)*tag.text.length+(n+1)*r.length) := by
          have hu : u.length ≤ (n+1)*u.length := Nat.le_mul_of_pos_left _ (Nat.succ_pos n)
          have hx : n+1 ≤ (n+1)*tag.text.length := Nat.le_mul_of_pos_right _ htext
          omega
      _ = (n+1)*(u ++ (tag.text ++ r)).length := by
          rw [List.length_append, List.length_append]
          ring
  induction h with
  | first tag _ => exact hstep _ _ _ _ tag (Nat.le_mul_of_pos_left _ (Nat.succ_pos n))
  | next tag _ _ ih => exact hstep _ _ _ _ tag ih

/-- Each page that the loop builds fits in a buffer. -/
def FitsPage (values : ℕ → PageValues) (c : Bytes) : Prop :=
  ∀ c', Built values 0 c c' → (c'.length+10 : ℤ) ≤ intMax

/-- The loop ends, and the buffer keeps the page with each tag replaced by its own value. -/
def ReplacesTags [Malloc] (values : ℕ → PageValues) (b : Buffer) (c : Bytes) : Prop :=
  ∃ n b' c', postProcess values n 0 0 b = .ok (some b') ∧ TagsReplaced values 0 c c' ∧ b'.Keeps c'

/-- For every orderly page, whatever the number of its tags and the lengths of their values, each
tag is replaced by its own value and nothing else changes. -/
theorem replacesTags_of_orderly [Malloc] {b : Buffer} {c : Bytes} (hb : b.Keeps c)
    (hvalues : ∀ k, (values k).Plain) (hroom : FitsPage values c)
    (h : Orderly values 0 0 0 c) : ReplacesTags values b c := by
  have hbehind : ¬ 0+c.length < 0 := Nat.not_lt_zero _
  obtain ⟨n, b', c', hrun, hreplaced, hkeeps⟩ := h.run hvalues (d := []) rfl hb List.not_mem_nil
    List.not_mem_nil (fun hlong => absurd hlong hbehind) (fun c' hc' => by
      have hfits := hroom c' hc'
      rw [List.length_nil]
      omega)
  exact ⟨n, b', c', hrun, hreplaced, hkeeps⟩

end

/-- One address, one time and one duration for all replacements. -/
def sampleValue : PageValues :=
  ⟨bytes "10.0.0.1", bytes "Mon Jan  1 00:00:00 2007", bytes "0.000120 seconds"⟩

def sampleValues : ℕ → PageValues := fun _ => sampleValue

theorem sampleValue_plain : sampleValue.Plain where
  zero tag := by
    cases tag <;> decide
  brace tag := by
    cases tag <;> decide

theorem sampleValue_length (tag : SpecialTag) : (sampleValue.value tag).length ≤ 24 := by
  cases tag <;> decide

theorem sampleValues_fit {c : Bytes} (hc : c.length ≤ 1000) : FitsPage sampleValues c := by
  intro c' hc'
  have hvalues : ∀ k tag, ((sampleValues k).value tag).length ≤ 24 := fun _ => sampleValue_length
  have hlen := hc'.length_le hvalues
  unfold intMax
  omega

/-- An address and then a time, seventeen characters apart. -/
def samplePage : Bytes :=
  bytes "at " ++ (SpecialTag.text .serverAddr ++ (bytes " since 2004, now " ++
    (SpecialTag.text .serverTime ++ [])))

theorem replacesTags_sample :
    ReplacesTags sampleValues (Buffer.terminated samplePage) samplePage := by
  have htime : Orderly sampleValues 1 11 20 (bytes " since 2004, now " ++
      (SpecialTag.text .serverTime ++ [])) := by
    refine .tag .serverTime (by decide) (by decide) (by decide) ?_ (by decide) (.last ?_ ?_)
    · intro other
      cases other <;> decide
    · intro other
      cases other <;> decide
    · exact .inr (.none (by decide) (by decide))
  have hpage : Orderly sampleValues 0 0 0 samplePage := by
    refine .tag .serverAddr (by decide) (by decide) (by decide) ?_ (by decide) htime
    intro other
    cases other <;> decide
  exact replacesTags_of_orderly (Buffer.keeps_terminated (by decide)) (fun _ => sampleValue_plain)
    (sampleValues_fit (by decide)) hpage

/-- An unknown tag at the beginning of a page is found in every round, at the same place. -/
theorem post_process_stuck : ¬ ∀ (values : ℕ → PageValues) (b : Buffer) (c : Bytes), b.Keeps c →
    (∀ k, (values k).Plain) → FitsPage values c → ReplacesTags values b c := by
  intro h
  obtain ⟨c, hc⟩ : ∃ c, c = bytes "\x7b\x7bMC_X\x7d\x7d" := ⟨_, rfl⟩
  have hlen : c.length = 8 := by
    rw [hc]
    decide
  have hunknown : ∀ tag : SpecialTag, ¬ tag.text <:+: c.drop 0 := by
    rw [hc]
    intro tag
    cases tag <;> decide
  have hopen : strstr (c.drop 0) tagOpen = some 0 := by
    rw [hc]
    decide
  have hstuck : ∀ (n : ℕ) (b : Buffer), b.Keeps c →
      postProcess sampleValues n 0 0 b = .ok none := by
    intro n
    induction n with
    | zero => exact fun _ _ => rfl
    | succ n ih =>
      intro b hb
      obtain ⟨b₁, hfind, -, hclosed⟩ := hb.findOpen (d := []) (o := 0) (Nat.zero_le _)
        List.not_mem_nil List.not_mem_nil
      have hne : [] ++ c ≠ [] := by
        rw [List.nil_append, ne_eq, ← List.length_eq_zero_iff, hlen]
        decide
      rw [List.length_nil, Nat.sub_self, hopen] at hfind
      obtain ⟨b₂, hround, hclosed₂⟩ : ∃ b', (∀ n, postProcess sampleValues (n+1) 0 0 b =
          postProcess sampleValues n 0 (int32 (0+0)) b') ∧ b'.Closed ([] ++ c) :=
        postProcess_unknown hfind (hclosed hne) hne (Nat.zero_le _) hunknown
      have hzero : int32 (0+0) = 0 := by decide
      rw [hround, hzero]
      exact ih b₂ hclosed₂.keeps
  have hmax : (c.length : ℤ) < intMax := by
    rw [hlen]
    decide
  obtain ⟨n, b', c', hrun, -, -⟩ := h sampleValues _ c (Buffer.keeps_terminated hmax)
    (fun _ => sampleValue_plain) (sampleValues_fit (by omega))
  rw [hstuck n _ (Buffer.keeps_terminated hmax)] at hrun
  cases hrun

end MsgCourier
