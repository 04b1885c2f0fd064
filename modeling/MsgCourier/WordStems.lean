import MsgCourier.KeyValue
import MsgCourier.OutboundContent
import MsgCourier.StemBounds
import MsgCourier.Url

/-! `cPorterStemming::Process`: the words of a text, each replaced by its stem. -/
namespace MsgCourier
open CText PorterStemmer

structure PorterStemming where
  word : Buffer := {}
  inBuffer : Buffer := {}
  outBuffer : Buffer := {}

namespace PorterStemming

def seps : Bytes := bytes " |<>@!#$%^'`&*()~:;\".,_-+=\t?"

def isSep (c : Byte) : Bool := c ∈ seps

/-- The tokens that `strtok` finds. -/
def words (text : Bytes) : List Bytes := tokenizer isSep text

/-- The body of the loop for the token `p`; `false` is the `break`. -/
def addWord [Malloc] (front : Byte) (x : PorterStemming) (p : Bytes) : Cxx
    (Bool × PorterStemming) := do
  let (_, word) ← x.word.replaceWith (some (p ++ [0])) (-1)
  let (pWord, word) ← word.getBuffer
  match pWord with
  | none => .error .undefined
  | some mem => do
    let n ← strlen mem
    let (b, len) := stem front (cstr mem) (n-1)
    let mem ← store mem 0 b
    if len = 0 then pure (false, { x with word := { word with pBuffer := some mem } })
    else do
      let mem ← store mem (len+1) [0]
      let word ← { word with pBuffer := some mem : Buffer }.makeString
      let (text, word) ← word.getBuffer
      let (_, outBuffer) ← x.outBuffer.append text (-1)
      let outBuffer ← outBuffer.appendString (bytes " ")
      pure (true, { x with word, outBuffer })

def addWords [Malloc] (front : Byte) (x : PorterStemming) : List Bytes → Cxx PorterStemming
  | [] => pure x
  | p :: ps => do
    let (more, x) ← x.addWord front p
    if more then addWords front x ps else pure x

/-- What `Process` does behind its loop: the last blank goes and the output is copied over
`pszString`. -/
def finish (x : PorterStemming) (pszString : Bytes) : Cxx (Bytes × PorterStemming) := do
  let (p, outBuffer) ← x.outBuffer.getBuffer
  match p with
  | none => pure (pszString, { x with outBuffer })
  | some p => do
    let p ← store p (outBuffer.tail-1) [0]
    let outBuffer ← { outBuffer with pBuffer := some p : Buffer }.makeString
    let (p, outBuffer) ← outBuffer.getBuffer
    let pszString ← store pszString 0 (cstr (p.getD []) ++ [0])
    pure (pszString, { x with outBuffer })

/-- `pszString` is the memory from the pointer on, returned as `Process` leaves it. `front` is the
byte in front of the block of `m_Word`. `strtok(NULL)` on a null buffer goes on with the text of an
earlier caller. -/
def process [Malloc] (front : Byte) (x : PorterStemming) (pszString : Bytes) :
    Cxx (Bytes × PorterStemming) := do
  let (_, inBuffer) ← x.inBuffer.replaceWith (some pszString) (-1)
  let outBuffer := x.outBuffer.reset
  let (p, inBuffer) ← inBuffer.getBuffer
  match p with
  | none => .error .undefined
  | some p => do
    let x ← addWords front { x with inBuffer, outBuffer } (words (cstr p))
    x.finish pszString

/-! ### Words and texts -/

/-- Each of the texts with a blank behind it. -/
def spaced (texts : List Bytes) : Bytes := texts.flatMap (· ++ [32])

@[simp] theorem spaced_nil : spaced [] = [] := rfl

@[simp] theorem spaced_cons (t : Bytes) (ts : List Bytes) :
    spaced (t :: ts) = t ++ 32 :: spaced ts := by
  rw [spaced, List.flatMap_cons, List.append_assoc, List.singleton_append, spaced]

theorem spaced_append (ts us : List Bytes) : spaced (ts ++ us) = spaced ts ++ spaced us :=
  List.flatMap_append

theorem spaced_eq {ts : List Bytes} (hne : ts ≠ []) : spaced ts = [32].intercalate ts ++ [32] := by
  induction ts with
  | nil => exact absurd rfl hne
  | cons t ts ih =>
    cases ts with
    | nil => rw [spaced_cons, spaced_nil, List.intercalate_singleton]
    | cons u us =>
      rw [spaced_cons, ih (List.cons_ne_nil _ _), List.intercalate_cons_cons, List.append_assoc,
        List.append_assoc, List.singleton_append]

theorem length_lt_spaced {t : Bytes} {ts : List Bytes} (hmem : t ∈ ts) :
    t.length < (spaced ts).length := by
  induction ts with
  | nil => cases hmem
  | cons u us ih =>
    rw [spaced_cons, List.length_append, List.length_cons]
    rcases List.mem_cons.mp hmem with rfl | hmem
    · omega
    · have := ih hmem
      omega

theorem length_spaced_filter_le (p : Bytes → Bool) (ts : List Bytes) :
    (spaced (ts.filter p)).length ≤ (spaced ts).length := by
  induction ts with
  | nil => exact le_rfl
  | cons t ts ih =>
    rw [List.filter_cons]
    split_ifs
    · rw [spaced_cons, spaced_cons, List.length_append, List.length_cons, List.length_append,
        List.length_cons]
      omega
    · rw [spaced_cons, List.length_append, List.length_cons]
      omega

theorem length_spaced_map_le {f : Bytes → Bytes} {ts : List Bytes}
    (hf : ∀ t ∈ ts, (f t).length ≤ t.length) :
    (spaced (ts.map f)).length ≤ (spaced ts).length := by
  induction ts with
  | nil => exact le_rfl
  | cons t ts ih =>
    have hhead := hf t List.mem_cons_self
    have htail := ih fun u hmem => hf u (List.mem_cons_of_mem _ hmem)
    rw [List.map_cons, spaced_cons, spaced_cons, List.length_append, List.length_cons,
      List.length_append, List.length_cons]
    omega

/-- One separator stands between two parts of a text. -/
theorem length_spaced_splitOnP (p : Byte → Bool) (text : Bytes) :
    (spaced (text.splitOnP p)).length = text.length+1 := by
  induction text with
  | nil => rw [List.splitOnP_nil]; rfl
  | cons c text ih =>
    rw [List.splitOnP_cons_eq_if_modifyHead]
    obtain ⟨head, rest, hsplit⟩ := List.exists_cons_of_ne_nil (List.splitOnP_ne_nil p text)
    rw [hsplit, spaced_cons, List.length_append] at ih
    split_ifs
    · rw [hsplit, spaced_cons, spaced_cons, List.length_append, List.length_cons,
        List.length_append, List.length_cons, List.length_nil]
      simp only [List.length_cons] at ih ⊢
      omega
    · rw [hsplit, List.modifyHead_cons, spaced_cons, List.length_append, List.length_cons]
      simp only [List.length_cons] at ih ⊢
      omega

theorem length_spaced_words_le (text : Bytes) :
    (spaced (words text)).length ≤ text.length+1 := by
  rw [← length_spaced_splitOnP isSep text]
  exact length_spaced_filter_le _ _

section
variable {text p : Bytes}

theorem word_ne_nil (hp : p ∈ words text) : p ≠ [] := ne_nil_of_mem_tokenizer hp

theorem zero_notMem_word (h0 : 0 ∉ text) (hp : p ∈ words text) : 0 ∉ p :=
  fun hmem => h0 (of_mem_tokenizer hp 0 hmem).1

theorem length_word_le (hp : p ∈ words text) : p.length ≤ text.length := by
  have hlt := length_lt_spaced hp
  have hle := length_spaced_words_le text
  omega

end

/-! ### Stems -/

section
variable {p : Bytes} (h0 : 0 ∉ p)
include h0

theorem stemOf_front (front : Byte) : stemOf front p = stemOf 0 p := by
  unfold stemOf
  rw [stem_front front h0]

variable (hne : p ≠ [])
include hne

theorem length_stemOf : ((stemOf 0 p).length : ℤ) = (stem 0 p (p.length-1)).2+1 := by
  obtain ⟨hlen, -, hnonneg, hlt⟩ := stem_inside 0 hne h0
  unfold stemOf
  dsimp only
  rw [List.length_take, hlen]
  omega

theorem length_stemOf_le : (stemOf 0 p).length ≤ p.length := by
  have hlen := length_stemOf h0 hne
  have hlt := (stem_inside 0 hne h0).2.2.2
  omega

theorem zero_notMem_stemOf : 0 ∉ stemOf 0 p := by
  intro hmem
  exact (stem_inside 0 hne h0).2.1 (List.mem_of_mem_take hmem)

end

/-! ### Buffers with a text in front of their tail -/

section
variable {b : Buffer} {u v : Bytes} (hb : b.pBuffer = some (u ++ 0 :: v))
  (hlo : u.length ≤ b.tail) (hhi : b.tail < (u ++ 0 :: v).length)
include hb hlo hhi

/-- Terminating a buffer behind the end of its text leaves the text as it is. -/
theorem makeString_behind : ∃ v', b.makeString = .ok { b with pBuffer := some (u ++ 0 :: v') } ∧
    (u ++ 0 :: v').length = (u ++ 0 :: v).length := by
  obtain ⟨n, hn⟩ := Int.eq_ofNat_of_zero_le (show 0 ≤ b.tail-u.length by omega)
  have htail : b.tail = ((u.length+n : ℕ) : ℤ) := by
    push_cast
    omega
  rw [List.length_append, List.length_cons] at hhi
  have hstore := @store_ok (u ++ 0 :: v) [0] (u.length+n) (by
    simp only [List.length_append, List.length_cons, List.length_nil]
    omega)
  unfold Buffer.makeString
  rw [hb, htail]
  dsimp only
  rw [hstore, ok_bind]
  cases n with
  | zero =>
    refine ⟨v, ?_, rfl⟩
    rw [Nat.add_zero, List.take_left, List.append_assoc, List.length_singleton,
      ← List.drop_drop, List.drop_left]
    rfl
  | succ n =>
    refine ⟨v.take n ++ [0] ++ v.drop (n+1), ?_, ?_⟩
    · rw [List.take_length_add_append, List.take_succ_cons, List.length_singleton,
        show u.length+(n+1)+1 = u.length+(n+2) by omega, List.drop_length_add_append,
        List.drop_succ_cons]
      simp only [List.append_assoc, List.cons_append, pure_eq_ok]
    · simp only [List.length_append, List.length_cons, List.length_take, List.length_drop,
        List.length_nil]
      omega

theorem getBuffer_behind : ∃ v', b.getBuffer = .ok (some (u ++ 0 :: v'),
    { b with pBuffer := some (u ++ 0 :: v') }) ∧
    (u ++ 0 :: v').length = (u ++ 0 :: v).length := by
  obtain ⟨v', hmake, hlen⟩ := makeString_behind hb hlo hhi
  refine ⟨v', ?_, hlen⟩
  rw [Buffer.getBuffer, hmake, ok_bind, pure_eq_ok]

end

/-- A block with a tail inside it. -/
theorem holds_take {mem : Bytes} {n : ℕ} (hn : n < mem.length) (hs : (mem.length : ℤ) ≤ intMax) :
    (⟨some mem, mem.length, n⟩ : Buffer).Holds (mem.take n) := by
  have hjunk : mem.drop n ≠ [] := by
    intro hnil
    have := List.drop_eq_nil_iff.mp hnil
    omega
  have hholds := Buffer.Holds.block (mem.take n) (mem.drop n) hjunk (by
    rwa [List.take_append_drop])
  rwa [List.take_append_drop, List.length_take, min_eq_left hn.le] at hholds

theorem store_over {u v : Bytes} (hlen : v.length = u.length) (rest : Bytes) :
    store (u ++ rest) 0 v = .ok (v ++ rest) := by
  have hstore := @store_ok (u ++ rest) v 0 (by
    rw [List.length_append]
    omega)
  rw [Nat.zero_add, List.take_zero, List.nil_append, hlen, List.drop_left] at hstore
  exact hstore

/-! ### One word -/

section
variable (front : Byte) {x : PorterStemming} {p c : Bytes} (hword : x.word.Holds c)
  (hne : p ≠ []) (h0 : 0 ∉ p) (hfit : (p.length : ℤ)+8 ≤ intMax)
include hword hne h0 hfit

/-- The block that the word is stemmed in. -/
theorem word_block [Malloc] : ∃ code word junk, ((p ++ 0 :: junk).length : ℤ) ≤ intMax ∧
    x.word.replaceWith (some (p ++ [0])) (-1) = .ok (code, word) ∧
    word.getBuffer = .ok (some (p ++ 0 :: junk),
      ⟨some (p ++ 0 :: junk), (p ++ 0 :: junk).length, p.length⟩) := by
  obtain ⟨word, hreplace, hholds⟩ := hword.replaceString h0 hfit
  obtain ⟨word', hmake, hsealed⟩ := hholds.makeString.resolve_left fun h => hne h.2
  obtain ⟨p, junk, hsize⟩ := hsealed
  refine ⟨0, word, junk, hsize, hreplace, ?_⟩
  rw [Buffer.getBuffer, hmake, ok_bind, pure_eq_ok]

/-- A stem that ends at offset 0 is not written. -/
theorem addWord_stop [Malloc] (hend : (stem front p (p.length-1)).2 = 0) : ∃ word d, word.Holds d ∧
    x.addWord front p = .ok (false, { x with word := word }) := by
  obtain ⟨code, word, junk, hsize, hreplace, hget⟩ := word_block hword hne h0 hfit
  obtain ⟨hlen, -⟩ := stem_inside front hne h0
  have hn : strlen (p ++ 0 :: junk) = .ok (p.length : ℤ) := by
    rw [strlen, if_pos (by simp), cstr_append_zero, cstr_eq_self h0]
  have hblock : ((stem front p (p.length-1)).1 ++ 0 :: junk).length = (p ++ 0 :: junk).length := by
    rw [List.length_append, hlen, List.length_append]
  have hholds := @holds_take ((stem front p (p.length-1)).1 ++ 0 :: junk) p.length
    (by rw [hblock, List.length_append, List.length_cons]; omega) (by rwa [hblock])
  rw [hblock] at hholds
  refine ⟨_, _, hholds, ?_⟩
  unfold addWord
  rw [hreplace, ok_bind]
  dsimp only
  rw [hget, ok_bind]
  dsimp only
  rw [hn, ok_bind, cstr_append_zero, cstr_eq_self h0, store_over hlen, ok_bind, if_pos hend,
    pure_eq_ok]

omit hword hfit in
/-- The stem is cut off inside the block of its word. -/
theorem cut_stem (junk : Bytes) : ∃ v, store ((stem front p (p.length-1)).1 ++ 0 :: junk)
      ((stem front p (p.length-1)).2+1) [0] = .ok (stemOf 0 p ++ 0 :: v) ∧
    (stemOf 0 p ++ 0 :: v).length = (p ++ 0 :: junk).length := by
  obtain ⟨hlen, -, hnonneg, hlt⟩ := stem_inside front hne h0
  obtain ⟨n, hn⟩ := Int.eq_ofNat_of_zero_le hnonneg
  have htake : (stem front p (p.length-1)).1.take (n+1) = stemOf 0 p := by
    rw [← stemOf_front h0 front]
    unfold stemOf
    dsimp only
    rw [hn]
    rfl
  have hstore := @store_ok ((stem front p (p.length-1)).1 ++ 0 :: junk) [0] (n+1) (by
      simp only [List.length_append, List.length_cons, List.length_nil]
      omega)
  rw [List.take_append_of_le_length (by omega), htake, List.append_assoc,
    List.singleton_append, List.length_singleton] at hstore
  rw [hn]
  refine ⟨_, hstore, ?_⟩
  rw [← htake]
  simp only [List.length_append, List.length_cons, List.length_take, List.length_drop]
  omega

/-- Any other stem goes behind the output, with a blank. -/
theorem addWord_next [Malloc] (hend : (stem front p (p.length-1)).2 ≠ 0) :
    ∃ word d v, word.Holds d ∧ x.addWord front p = (do
      let (_, outBuffer) ← x.outBuffer.append (some (stemOf 0 p ++ 0 :: v)) (-1)
      let outBuffer ← outBuffer.appendString (bytes " ")
      pure (true, { x with word := word, outBuffer := outBuffer })) := by
  obtain ⟨code, word, junk, hsize, hreplace, hget⟩ := word_block hword hne h0 hfit
  have hlen := (stem_inside front hne h0).1
  have hn : strlen (p ++ 0 :: junk) = .ok (p.length : ℤ) := by
    rw [strlen, if_pos (by simp), cstr_append_zero, cstr_eq_self h0]
  obtain ⟨v, hcut, hv⟩ := cut_stem front hne h0 junk
  have hle := length_stemOf_le h0 hne
  have hroom : p.length < (p ++ 0 :: junk).length := by
    rw [List.length_append, List.length_cons]
    omega
  -- the tail is still where the word ended, at or behind the new terminator
  obtain ⟨v₁, hmake, hv₁⟩ := makeString_behind
    (b := ⟨some (stemOf 0 p ++ 0 :: v), (p ++ 0 :: junk).length, p.length⟩) rfl
    (by dsimp only; omega) (by rw [hv]; dsimp only; exact_mod_cast hroom)
  obtain ⟨v₂, hget₂, hv₂⟩ := getBuffer_behind
    (b := ⟨some (stemOf 0 p ++ 0 :: v₁), (p ++ 0 :: junk).length, p.length⟩) rfl
    (by dsimp only; omega) (by rw [hv₁, hv]; dsimp only; exact_mod_cast hroom)
  have hblock := (hv₂.trans hv₁).trans hv
  have hholds := @holds_take (stemOf 0 p ++ 0 :: v₂) p.length (by rwa [hblock])
    (by rwa [hblock])
  rw [hblock] at hholds
  refine ⟨_, _, v₂, hholds, ?_⟩
  unfold addWord
  rw [hreplace, ok_bind]
  dsimp only
  rw [hget, ok_bind]
  dsimp only
  rw [hn, ok_bind, cstr_append_zero, cstr_eq_self h0, store_over hlen, ok_bind, if_neg hend,
    hcut, ok_bind, hmake, ok_bind]
  dsimp only
  rw [hget₂, ok_bind]

end

/-! ### The output -/

theorem lengthArg_text {u : Bytes} (h0 : 0 ∉ u) (rest : Bytes) :
    lengthArg (u ++ 0 :: rest) (-1) = .ok u.length := by
  rw [lengthArg, if_pos rfl, strlen, if_pos (by simp), cstr_append_zero, cstr_eq_self h0]

section
variable {b : Buffer} {c u : Bytes} (hb : b.Holds c) (h0 : 0 ∉ u) (v : Bytes)
include hb h0

theorem append_text_inv [Malloc] {r : ℤ × Buffer}
    (hr : b.append (some (u ++ 0 :: v)) (-1) = .ok r) : r.2.Holds (c ++ u) := by
  obtain ⟨n, hn, -, hholds⟩ := hb.append_inv (by decide) (lengthArg_text h0 v) hr
  have hlen : u.length = n := by exact_mod_cast hn
  rwa [← hlen, List.take_left] at hholds

theorem append_text [Malloc] (hfit : (c.length : ℤ)+u.length+8 ≤ intMax) :
    ∃ r, b.append (some (u ++ 0 :: v)) (-1) = .ok r := by
  obtain ⟨b', hb', -⟩ := hb.append_arg (by decide) (lengthArg_text h0 v)
    (by rw [List.length_append]; omega) (.inr (by rw [hb.tail_eq]; exact hfit))
  exact ⟨_, hb'⟩

/-- An append that fits the block keeps it. -/
theorem append_text_size [Malloc] {r : ℤ × Buffer} (hr : b.append (some (u ++ 0 :: v)) (-1) = .ok r)
    (hroom : (c.length : ℤ)+u.length < b.bufferSize) : r.2.bufferSize = b.bufferSize := by
  obtain ⟨hlo, hhi⟩ := hb.length_le
  have htail := hb.tail_eq
  have hspace : int32 (b.bufferSize-b.tail) = b.bufferSize-b.tail :=
    int32_eq (by omega) (by omega)
  have hgrow : b.appendRoom u.length = .ok b := by
    unfold Buffer.appendRoom
    rw [hspace]
    dsimp only
    rw [if_neg (by omega), pure_eq_ok]
  rw [Buffer.append, if_neg (by decide), lengthArg_text h0, ok_bind, hgrow, ok_bind] at hr
  cases hmem : b.pBuffer with
  | none =>
    rw [hmem] at hr
    cases hr
  | some mem =>
    rw [hmem] at hr
    obtain ⟨src, -, hr⟩ := bind_eq_ok.mp hr
    obtain ⟨mem', -, hr⟩ := bind_eq_ok.mp hr
    obtain ⟨b', hb', hr⟩ := bind_eq_ok.mp hr
    obtain ⟨mem'', -, hb'⟩ := bind_eq_ok.mp hb'
    rw [← Except.ok.inj hr, ← Except.ok.inj hb']

end

/-! ### The loop -/

/-- What is known of an object whatever it was used for before. -/
structure Sound (x : PorterStemming) : Prop where
  word : ∃ c, x.word.Holds c
  inBuffer : ∃ c, x.inBuffer.Holds c
  outBuffer : ∃ c, x.outBuffer.Holds c

/-- The stem of such a word ends the loop. -/
def EndsLoop (p : Bytes) : Prop := (stem 0 p (p.length-1)).2 = 0

instance (p : Bytes) : Decidable (EndsLoop p) := inferInstanceAs (Decidable (_ = _))

/-- The words that the loop takes. -/
def stemmed (ps : List Bytes) : List Bytes := ps.takeWhile fun p => ¬ EndsLoop p

def loopOutput (ps : List Bytes) : Bytes := spaced ((stemmed ps).map (stemOf 0))

/-- Words that a buffer has room for. -/
def Fitting (ps : List Bytes) : Prop := ∀ p ∈ ps, p ≠ [] ∧ 0 ∉ p ∧ (p.length : ℤ)+8 ≤ intMax

section
variable (front : Byte) {x x' : PorterStemming} {d p : Bytes} {ps : List Bytes}

theorem stemmed_stop (hp : EndsLoop p) : stemmed (p :: ps) = [] := by
  rw [stemmed, List.takeWhile_cons_of_neg (by simpa using hp)]

theorem stemmed_next (hp : ¬ EndsLoop p) : stemmed (p :: ps) = p :: stemmed ps := by
  rw [stemmed, List.takeWhile_cons_of_pos (by simpa using hp), stemmed]

theorem loopOutput_next (hp : ¬ EndsLoop p) :
    loopOutput (p :: ps) = stemOf 0 p ++ 32 :: loopOutput ps := by
  rw [loopOutput, stemmed_next hp, List.map_cons, spaced_cons, loopOutput]

section
variable (hx : x.Sound) (hout : x.outBuffer.Holds d)
  (hp : p ≠ [] ∧ 0 ∉ p ∧ (p.length : ℤ)+8 ≤ intMax)
include hx hp

theorem addWord_ends [Malloc] (hend : EndsLoop p) : ∃ y : PorterStemming,
    x.addWord front p = .ok (false, y) ∧ y.Sound ∧ y.outBuffer = x.outBuffer := by
  obtain ⟨c, hword⟩ := hx.word
  obtain ⟨word, c', hword', hrun⟩ := addWord_stop front hword hp.1 hp.2.1 hp.2.2 (by
    rw [stem_front front hp.2.1]
    exact hend)
  exact ⟨_, hrun, ⟨⟨c', hword'⟩, hx.inBuffer, hx.outBuffer⟩, rfl⟩

/-- The two appends of a word that does not end the loop. -/
theorem addWord_appends [Malloc] (hend : ¬ EndsLoop p) : ∃ word d v, word.Holds d ∧
    x.addWord front p = (do
      let (_, outBuffer) ← x.outBuffer.append (some (stemOf 0 p ++ 0 :: v)) (-1)
      let (_, outBuffer) ← outBuffer.append (some ([32] ++ 0 :: [])) (-1)
      pure (true, { x with word := word, outBuffer := outBuffer })) := by
  obtain ⟨c, hword⟩ := hx.word
  obtain ⟨word, d, v, hword', hrun⟩ := addWord_next front hword hp.1 hp.2.1 hp.2.2 (by
    rw [stem_front front hp.2.1]
    exact hend)
  refine ⟨word, d, v, hword', ?_⟩
  rw [hrun]
  cases x.outBuffer.append (some (stemOf 0 p ++ 0 :: v)) (-1) with
  | error e => rfl
  | ok r =>
    rw [ok_bind, ok_bind]
    dsimp only
    have hblank : bytes " " ++ [0] = [32] ++ 0 :: [] := by decide
    rw [Buffer.appendString, hblank]
    cases r.2.append (some ([32] ++ 0 :: [])) (-1) with
    | error e => rfl
    | ok r' => rfl

include hout

theorem addWord_inv [Malloc] (hend : ¬ EndsLoop p) {r : Bool × PorterStemming}
    (hrun : x.addWord front p = .ok r) : r.1 = true ∧ r.2.Sound ∧
      r.2.outBuffer.Holds (d ++ (stemOf 0 p ++ [32])) ∧
      ((d.length : ℤ)+(stemOf 0 p).length+1 < x.outBuffer.bufferSize →
        r.2.outBuffer.bufferSize = x.outBuffer.bufferSize) := by
  obtain ⟨word, c, v, hword, hrun'⟩ := addWord_appends front hx hp hend
  rw [hrun'] at hrun
  obtain ⟨r₁, hr₁, hrun⟩ := bind_eq_ok.mp hrun
  obtain ⟨r₂, hr₂, hrun⟩ := bind_eq_ok.mp hrun
  have hstem := zero_notMem_stemOf hp.2.1 hp.1
  have hout₁ := append_text_inv hout hstem v hr₁
  have hout₂ := append_text_inv hout₁ (show 0 ∉ [32] by decide) [] hr₂
  rw [← Except.ok.inj hrun]
  refine ⟨rfl, ⟨⟨c, hword⟩, hx.inBuffer, ⟨_, hout₂⟩⟩, ?_, fun hroom => ?_⟩
  · rw [← List.append_assoc]
    exact hout₂
  · have hsize := append_text_size hout hstem v hr₁ (by omega)
    rw [← hsize]
    refine append_text_size hout₁ (show 0 ∉ [32] by decide) [] hr₂ ?_
    rw [hsize, List.length_append, List.length_singleton]
    omega

theorem addWord_ok [Malloc] (hend : ¬ EndsLoop p)
    (hfit : (d.length : ℤ)+(stemOf 0 p).length+1+8 ≤ intMax) : ∃ r, x.addWord front p = .ok r := by
  obtain ⟨word, c, v, hword, hrun⟩ := addWord_appends front hx hp hend
  have hstem := zero_notMem_stemOf hp.2.1 hp.1
  obtain ⟨r₁, hr₁⟩ := append_text hout hstem v (by omega)
  have hout₁ := append_text_inv hout hstem v hr₁
  obtain ⟨r₂, hr₂⟩ := append_text hout₁ (show 0 ∉ [32] by decide) [] (by
    rw [List.length_append, List.length_singleton]
    omega)
  rw [hrun, hr₁, ok_bind]
  dsimp only
  rw [hr₂]
  exact ⟨_, rfl⟩

/-- In a block with room for the stem but not for the blank, a larger one was still there to be
allocated. -/
theorem addWord_room [Malloc] (hend : ¬ EndsLoop p)
    (hsize : x.outBuffer.bufferSize = d.length+(stemOf 0 p).length+1)
    {r : Bool × PorterStemming} (hrun : x.addWord front p = .ok r) :
    (d.length : ℤ)+(stemOf 0 p).length+1+8 ≤ intMax := by
  obtain ⟨word, c, v, hword, hrun'⟩ := addWord_appends front hx hp hend
  rw [hrun'] at hrun
  obtain ⟨r₁, hr₁, hrun⟩ := bind_eq_ok.mp hrun
  obtain ⟨r₂, hr₂, -⟩ := bind_eq_ok.mp hrun
  have hstem := zero_notMem_stemOf hp.2.1 hp.1
  have hout₁ := append_text_inv hout hstem v hr₁
  have hsize₁ := append_text_size hout hstem v hr₁ (by omega)
  have htail := hout₁.tail_eq
  rw [List.length_append, Nat.cast_add] at htail
  have hfits := hout₁.fits_of_append_arg (by decide)
    (lengthArg_text (show 0 ∉ [32] by decide) []) (by decide) (by decide) hr₂
  rcases hfits with hfits | hfits
  · rw [hsize₁, List.length_singleton] at hfits
    omega
  · rw [List.length_singleton] at hfits
    omega

end

/-! ### Runs of the loop -/

theorem Fitting.tail (h : Fitting (p :: ps)) : Fitting ps :=
  fun q hq => h q (List.mem_cons_of_mem _ hq)

/-- When the loop returns it has written the stems of the words that it takes. -/
theorem addWords_inv [Malloc] (hps : Fitting ps) (hx : x.Sound) (hout : x.outBuffer.Holds d)
    (hrun : addWords front x ps = .ok x') : x'.Sound ∧ x'.outBuffer.Holds (d ++ loopOutput ps) ∧
      (stemmed ps = [] → x'.outBuffer = x.outBuffer) := by
  induction ps generalizing x d with
  | nil =>
    rw [← Except.ok.inj hrun, loopOutput, stemmed, List.takeWhile_nil, List.map_nil, spaced_nil,
      List.append_nil]
    exact ⟨hx, hout, fun _ => rfl⟩
  | cons p ps ih =>
    have hp := hps p List.mem_cons_self
    obtain ⟨r, hr, hrun⟩ := bind_eq_ok.mp hrun
    by_cases hend : EndsLoop p
    · obtain ⟨y, hy, hsound, hsame⟩ := addWord_ends front hx hp hend
      rw [hy] at hr
      rw [← Except.ok.inj hr] at hrun
      rw [← Except.ok.inj hrun, loopOutput, stemmed_stop hend, List.map_nil, spaced_nil,
        List.append_nil]
      exact ⟨hsound, hsame ▸ hout, fun _ => hsame⟩
    · obtain ⟨hmore, hsound, hout', -⟩ := addWord_inv front hx hout hp hend hr
      dsimp only at hrun
      rw [hmore, if_pos rfl] at hrun
      obtain ⟨hsound', hholds, -⟩ := ih hps.tail hsound hout' hrun
      refine ⟨hsound', ?_, ?_⟩
      · rw [loopOutput_next hend]
        simpa only [List.append_assoc, List.singleton_append] using hholds
      · rw [stemmed_next hend]
        exact fun hnil => absurd hnil (List.cons_ne_nil _ _)

theorem addWords_ok [Malloc] (hps : Fitting ps) (hx : x.Sound) (hout : x.outBuffer.Holds d)
    (hfit : (d.length : ℤ)+(loopOutput ps).length+8 ≤ intMax) :
    ∃ x', addWords front x ps = .ok x' := by
  induction ps generalizing x d with
  | nil => exact ⟨x, rfl⟩
  | cons p ps ih =>
    have hp := hps p List.mem_cons_self
    by_cases hend : EndsLoop p
    · obtain ⟨y, hy, -⟩ := addWord_ends front hx hp hend
      refine ⟨y, ?_⟩
      rw [addWords, hy, ok_bind]
      rfl
    · rw [loopOutput_next hend, List.length_append, List.length_cons] at hfit
      obtain ⟨r, hr⟩ := addWord_ok front hx hout hp hend (by omega)
      obtain ⟨hmore, hsound, hout', -⟩ := addWord_inv front hx hout hp hend hr
      obtain ⟨x', hx'⟩ := ih hps.tail hsound hout' (by
        simp only [List.length_append, List.length_cons, List.length_nil]
        omega)
      refine ⟨x', ?_⟩
      rw [addWords, hr, ok_bind]
      dsimp only
      rw [hmore, if_pos rfl]
      exact hx'

/-- In a block that the last blank fills up, the loop needs a larger one. -/
theorem addWords_room [Malloc] (hps : Fitting ps) (hne : ps ≠ []) (hall : ∀ p ∈ ps, ¬ EndsLoop p)
    (hx : x.Sound) (hout : x.outBuffer.Holds d)
    (hsize : x.outBuffer.bufferSize = d.length+(loopOutput ps).length)
    (hrun : addWords front x ps = .ok x') : (d.length : ℤ)+(loopOutput ps).length+8 ≤ intMax := by
  induction ps generalizing x d with
  | nil => exact absurd rfl hne
  | cons p ps ih =>
    have hp := hps p List.mem_cons_self
    have hend := hall p List.mem_cons_self
    obtain ⟨r, hr, hrun⟩ := bind_eq_ok.mp hrun
    rw [loopOutput_next hend, List.length_append, List.length_cons] at hsize ⊢
    cases ps with
    | nil =>
      have hnil : loopOutput [] = [] := rfl
      rw [hnil, List.length_nil] at hsize ⊢
      have hroom := addWord_room front hx hout hp hend (by rw [hsize]; push_cast; ring) hr
      push_cast
      omega
    | cons q qs =>
      obtain ⟨hmore, hsound, hout', hkept⟩ := addWord_inv front hx hout hp hend hr
      have hnext := hall q (List.mem_cons_of_mem _ List.mem_cons_self)
      have hpos : 0 < (loopOutput (q :: qs)).length := by
        rw [loopOutput_next hnext, List.length_append, List.length_cons]
        omega
      dsimp only at hrun
      rw [hmore, if_pos rfl] at hrun
      have hrest := ih hps.tail (List.cons_ne_nil _ _)
        (fun w hw => hall w (List.mem_cons_of_mem _ hw)) hsound hout' (by
          rw [hkept (by omega), hsize]
          simp only [List.length_append, List.length_cons, List.length_nil]
          push_cast
          ring) hrun
      simp only [List.length_append, List.length_cons, List.length_nil] at hrest
      omega

end

end PorterStemming
end MsgCourier
