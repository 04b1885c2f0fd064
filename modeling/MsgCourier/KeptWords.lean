import MsgCourier.WordStems

/-! Which texts `cPorterStemming::Process` stems to the end. -/
namespace MsgCourier
open CText PorterStemmer ZeroFill

namespace PorterStemming

/-! ### The copy over `pszString` -/

section
variable {x : PorterStemming} {c pszString : Bytes}

/-- The blank behind the last stem becomes the terminator. -/
theorem cut_blank (c junk : Bytes) :
    store (c ++ [32] ++ 0 :: junk) (((c ++ [32]).length : ℤ)-1) [0] =
      .ok (c ++ 0 :: 0 :: junk) := by
  have hlen : (c ++ [32]).length = c.length+1 := List.length_append
  have hmem : c ++ [32] ++ 0 :: junk = c ++ 32 :: 0 :: junk := by simp
  have hstore := @store_ok (c ++ 32 :: 0 :: junk) [0] c.length (by
    simp only [List.length_append, List.length_cons, List.length_nil]
    omega)
  rw [List.take_left, List.length_singleton, List.append_assoc, List.singleton_append,
    List.drop_length_add_append, List.drop_succ_cons, List.drop_zero] at hstore
  rw [hmem, hlen, Nat.cast_add, Nat.cast_one, add_sub_cancel_right]
  exact hstore

theorem store_string (hroom : c.length < pszString.length) :
    ∃ rest, store pszString 0 (c ++ [0]) = .ok (c ++ 0 :: rest) := by
  have hcopy := @store_ok pszString (c ++ [0]) 0 (by
    rw [List.length_append, List.length_singleton]
    omega)
  rw [List.take_zero, List.nil_append, List.append_assoc, List.singleton_append] at hcopy
  exact ⟨_, hcopy⟩

theorem finish_ok (hx : x.Sound) (hout : x.outBuffer.Holds (c ++ [32])) (h0 : 0 ∉ c)
    (hroom : c.length < pszString.length) :
    ∃ mem y, x.finish pszString = .ok (mem, y) ∧ cstr mem = c ∧ y.Sound := by
  obtain ⟨b, hb, hsealed⟩ := hout.makeString.resolve_left fun h => by simp at h
  have hcut := cut_blank c
  generalize hd : c ++ [32] = d at hsealed hcut
  obtain ⟨d, junk, hsize⟩ := hsealed
  have hlen : d.length = c.length+1 := by rw [← hd, List.length_append, List.length_singleton]
  have hblock : (c ++ 0 :: 0 :: junk).length = (d ++ 0 :: junk).length := by
    simp only [List.length_append, List.length_cons, hlen]
    omega
  have hin : d.length < (d ++ 0 :: junk).length := by
    rw [List.length_append, List.length_cons]
    omega
  -- the tail stays one byte behind the new terminator
  obtain ⟨v₁, hmake, hv₁⟩ := makeString_behind
    (b := ⟨some (c ++ 0 :: 0 :: junk), (d ++ 0 :: junk).length, d.length⟩) rfl
    (by dsimp only; omega) (by dsimp only; omega)
  obtain ⟨v₂, hget, hv₂⟩ := getBuffer_behind
    (b := ⟨some (c ++ 0 :: v₁), (d ++ 0 :: junk).length, d.length⟩) rfl
    (by dsimp only; omega) (by rw [hv₁]; dsimp only; omega)
  have hsame := (hv₂.trans hv₁).trans hblock
  have hholds := @holds_take (c ++ 0 :: v₂) d.length (by rwa [hsame])
    (by rwa [hsame])
  rw [hsame] at hholds
  obtain ⟨rest, hcopy⟩ := store_string hroom
  refine ⟨c ++ 0 :: rest,
    { x with outBuffer := ⟨some (c ++ 0 :: v₂), (d ++ 0 :: junk).length, d.length⟩ }, ?_,
    by rw [cstr_append_zero, cstr_eq_self h0], hx.word, hx.inBuffer, ⟨_, hholds⟩⟩
  unfold finish
  rw [Buffer.getBuffer, hb, ok_bind, pure_eq_ok, ok_bind]
  dsimp only
  rw [hcut, ok_bind, hmake, ok_bind, hget, ok_bind]
  dsimp only
  rw [Option.getD_some, cstr_append_zero, cstr_eq_self h0, hcopy, ok_bind, pure_eq_ok]

/-- Without output the last byte is taken from in front of the block. -/
theorem finish_error (hout : x.outBuffer = Buffer.terminated []) :
    x.finish pszString = .error .undefined := by
  unfold finish
  rw [hout]
  rfl

end

/-! ### A whole text -/

section
variable (front : Byte) (rest : Bytes) {x : PorterStemming} {text : Bytes}

theorem fitting_words (h0 : 0 ∉ text) (hfit : (text.length : ℤ)+8 ≤ intMax) :
    Fitting (words text) := by
  intro p hp
  have hle := length_word_le hp
  exact ⟨word_ne_nil hp, zero_notMem_word h0 hp, by omega⟩

theorem mem_of_mem_stemmed {p : Bytes} {ps : List Bytes} (hp : p ∈ stemmed ps) : p ∈ ps :=
  (List.takeWhile_prefix _).subset hp

theorem length_loopOutput_le (h0 : 0 ∉ text) :
    (loopOutput (words text)).length ≤ text.length+1 := by
  have hstems : (loopOutput (words text)).length ≤ (spaced (stemmed (words text))).length :=
    length_spaced_map_le fun p hp =>
      have hp := mem_of_mem_stemmed hp
      length_stemOf_le (zero_notMem_word h0 hp) (word_ne_nil hp)
  have hstart : (spaced (stemmed (words text))).length ≤ (spaced (words text)).length := by
    conv_rhs => rw [← List.takeWhile_append_dropWhile (p := fun p => ¬ EndsLoop p)
      (l := words text)]
    rw [spaced_append, List.length_append]
    exact Nat.le_add_right _ _
  exact (hstems.trans hstart).trans (length_spaced_words_le text)

/-- The copy writes the stems of the words that the loop has taken, if there are any. -/
theorem finish_stemmed (h0 : 0 ∉ text) {y : PorterStemming} (hy : y.Sound)
    (hout : y.outBuffer.Holds (loopOutput (words text))) (hsome : stemmed (words text) ≠ []) :
    ∃ mem z, y.finish (text ++ 0 :: rest) = .ok (mem, z) ∧
      cstr mem = [32].intercalate ((stemmed (words text)).map (stemOf 0)) ∧ z.Sound := by
  have hle := length_loopOutput_le h0
  have hspaced : loopOutput (words text) =
      [32].intercalate ((stemmed (words text)).map (stemOf 0)) ++ [32] :=
    spaced_eq fun hnil => hsome (List.map_eq_nil_iff.mp hnil)
  have hzero : 0 ∉ loopOutput (words text) := by
    intro hmem
    obtain ⟨t, ht, hmem⟩ := List.mem_flatMap.mp hmem
    obtain ⟨p, hp, rfl⟩ := List.mem_map.mp ht
    have hp := mem_of_mem_stemmed hp
    have hstem := zero_notMem_stemOf (zero_notMem_word h0 hp) (word_ne_nil hp)
    exact zero_notMem_append hstem (by decide) hmem
  rw [hspaced] at hout hle hzero
  refine finish_ok hy hout (fun hmem => hzero (List.mem_append_left _ hmem)) ?_
  rw [List.length_append, List.length_singleton] at hle
  rw [List.length_append, List.length_cons]
  omega

variable (hx : x.Sound) (h0 : 0 ∉ text) (hne : text ≠ []) (hfit : (text.length : ℤ)+8 ≤ intMax)
include hx h0 hne hfit

/-- `Process` is its loop over the words, and the copy. -/
theorem process_eq [Malloc] : ∃ y : PorterStemming, y.Sound ∧ y.outBuffer = x.outBuffer.reset ∧
    x.process front (text ++ 0 :: rest) = (do
      let y ← addWords front y (words text)
      y.finish (text ++ 0 :: rest)) := by
  obtain ⟨c, hin⟩ := hx.inBuffer
  obtain ⟨d, hout⟩ := hx.outBuffer
  obtain ⟨b, hreplace, hholds⟩ := hin.replaceWith_arg (lengthArg_text h0 rest)
    (by rw [List.length_append]; omega) hfit
  rw [List.take_left] at hholds
  obtain ⟨p, b', hget, hholds', ⟨-, hnil⟩ | ⟨junk, rfl⟩⟩ := hholds.getBuffer_eq
  · exact absurd hnil hne
  · refine ⟨⟨x.word, b', x.outBuffer.reset⟩, ⟨hx.word, ⟨_, hholds'⟩, ⟨_, hout.reset⟩⟩, rfl, ?_⟩
    unfold process
    rw [hreplace, ok_bind]
    dsimp only
    rw [hget, ok_bind]
    dsimp only
    rw [cstr_append_zero, cstr_eq_self h0]

/-- Whenever `Process` returns, its output ends with the last word that the loop takes. -/
theorem process_inv [Malloc] (hsome : stemmed (words text) ≠ []) {mem : Bytes} {x' : PorterStemming}
    (hrun : x.process front (text ++ 0 :: rest) = .ok (mem, x')) :
    cstr mem = [32].intercalate ((stemmed (words text)).map (stemOf 0)) ∧ x'.Sound := by
  obtain ⟨y, hy, hreset, heq⟩ := process_eq front rest hx h0 hne hfit
  obtain ⟨c, hout⟩ := hx.outBuffer
  rw [heq] at hrun
  obtain ⟨z, hz, hfinish⟩ := bind_eq_ok.mp hrun
  obtain ⟨hsound, hholds, -⟩ := addWords_inv _ (fitting_words h0 hfit) hy
    (hreset ▸ hout.reset) hz
  obtain ⟨mem', x'', hfinish', hmem, hx'⟩ := finish_stemmed rest h0 hsound hholds hsome
  rw [hfinish', Except.ok.injEq, Prod.mk.injEq] at hfinish
  rw [← hfinish.1, ← hfinish.2]
  exact ⟨hmem, hx'⟩

/-- With room for the stems it does return. -/
theorem process_ok [Malloc] (hsome : stemmed (words text) ≠ [])
    (hstems : ((loopOutput (words text)).length : ℤ)+8 ≤ intMax) :
    ∃ mem x', x.process front (text ++ 0 :: rest) = .ok (mem, x') := by
  obtain ⟨y, hy, hreset, heq⟩ := process_eq front rest hx h0 hne hfit
  obtain ⟨c, hout⟩ := hx.outBuffer
  have hempty : y.outBuffer.Holds [] := hreset ▸ hout.reset
  obtain ⟨z, hz⟩ := addWords_ok front (fitting_words h0 hfit) hy hempty (by
    rw [List.length_nil]
    omega)
  obtain ⟨hsound, hholds, -⟩ := addWords_inv _ (fitting_words h0 hfit) hy hempty hz
  obtain ⟨mem, x', hfinish, -⟩ := finish_stemmed rest h0 hsound hholds hsome
  refine ⟨mem, x', ?_⟩
  rw [heq, hz, ok_bind, hfinish]

end

/-! ### Texts whose words are all kept -/

/-- `Process` puts the stems of all the words in place of the text, whatever the object was used
for before. -/
def KeepsWords [Malloc] (text : Bytes) : Prop :=
  ∀ (front : Byte) (x : PorterStemming) (rest : Bytes), x.Sound → ∃ mem x',
    x.process front (text ++ 0 :: rest) = .ok (mem, x') ∧
      cstr mem = [32].intercalate ((words text).map (stemOf 0))

structure Stemmable (text : Bytes) : Prop where
  some_word : words text ≠ []
  no_short : ∀ p ∈ words text, p.length ≠ 1 ∧ p ∉ oneLetterStems
  text_fits : (text.length : ℤ)+8 ≤ intMax
  stems_fit : ((spaced ((words text).map (stemOf 0))).length : ℤ)+8 ≤ intMax

theorem endsLoop_iff {p : Bytes} (hne : p ≠ []) (h0 : 0 ∉ p) :
    EndsLoop p ↔ p.length = 1 ∨ p ∈ oneLetterStems :=
  stem_end_eq_zero_iff 0 hne h0

theorem stemmed_eq_self {ps : List Bytes} (h : ∀ p ∈ ps, ¬ EndsLoop p) : stemmed ps = ps :=
  List.takeWhile_eq_self_iff.mpr fun p hp => by simpa using h p hp

theorem ne_nil_of_words {text : Bytes} (h : words text ≠ []) : text ≠ [] := by
  rintro rfl
  exact h (by decide)

theorem Stemmable.keepsWords [Malloc] {text : Bytes} (h0 : 0 ∉ text) (h : Stemmable text) :
    KeepsWords text := by
  intro front x rest hx
  have hgood : ∀ p ∈ words text, ¬ EndsLoop p := by
    intro p hp hend
    have hshort := (endsLoop_iff (word_ne_nil hp) (zero_notMem_word h0 hp)).mp hend
    exact hshort.elim (h.no_short p hp).1 (h.no_short p hp).2
  have hall := stemmed_eq_self hgood
  have hne := ne_nil_of_words h.some_word
  have hsome : stemmed (words text) ≠ [] := by
    rw [hall]
    exact h.some_word
  obtain ⟨mem, x', hrun⟩ := process_ok front rest hx h0 hne h.text_fits hsome
    (by rw [loopOutput, hall]; exact h.stems_fit)
  refine ⟨mem, x', hrun, ?_⟩
  rw [(process_inv _ _ hx h0 hne h.text_fits hsome hrun).1, hall]

/-! ### What becomes of the other texts -/

theorem sound_fresh : Sound {} :=
  ⟨⟨[], Buffer.Holds.null⟩, ⟨[], Buffer.Holds.null⟩, ⟨[], Buffer.Holds.null⟩⟩

/-- An object whose output block was allocated by an earlier text. -/
theorem sound_used {b : Buffer} {c : Bytes} (h : b.Holds c) : Sound { outBuffer := b } :=
  ⟨⟨[], Buffer.Holds.null⟩, ⟨[], Buffer.Holds.null⟩, ⟨c, h⟩⟩

theorem eq_nil_of_spaced {ts : List Bytes} (h : spaced ts = []) : ts = [] := by
  cases ts with
  | nil => rfl
  | cons t ts =>
    rw [spaced_cons] at h
    exact absurd h (List.append_ne_nil_of_right_ne_nil _ (List.cons_ne_nil _ _))

namespace KeepsWords

variable [Malloc] {text : Bytes} (h : KeepsWords text) (h0 : 0 ∉ text)
include h h0

/-- A fresh object has to allocate the block for the text. -/
theorem text_fits : (text.length : ℤ)+8 ≤ intMax := by
  obtain ⟨mem, x', hrun, -⟩ := h 0 {} [] sound_fresh
  obtain ⟨r, hr, -⟩ := bind_eq_ok.mp hrun
  by_cases hne : text = []
  · rw [hne]
    decide
  · have hpos := List.length_pos_iff.mpr hne
    have harg := lengthArg_text h0 []
    obtain ⟨n, hn, hle, hholds⟩ := Buffer.Holds.null.replaceWith_inv harg hr
    have hlen : text.length = n := by exact_mod_cast hn
    have hlt := hholds.length_lt
    rw [List.length_take, min_eq_left hle] at hlt
    rw [Buffer.replaceWith, harg, ok_bind] at hr
    have hfits := Buffer.Holds.null.reset.fits_of_append hpos (hlen ▸ hle) (by omega) hr
    rcases hfits with hfits | hfits
    · dsimp only [Buffer.reset] at hfits
      omega
    · dsimp only [Buffer.reset] at hfits
      omega

/-- Without a stem the last byte of the output is written in front of its block. -/
theorem some_stemmed : stemmed (words text) ≠ [] := by
  intro hnone
  have hx := sound_used (Buffer.holds_terminated (c := []) (by decide))
  obtain ⟨mem, x', hrun, -⟩ := h 0 _ [] hx
  by_cases hne : text = []
  · have herror : process 0 { outBuffer := Buffer.terminated [] } [0] = .error .undefined := rfl
    rw [hne, List.nil_append, herror] at hrun
    cases hrun
  · obtain ⟨y, hy, hreset, heq⟩ := process_eq 0 [] hx h0 hne (h.text_fits h0)
    rw [heq] at hrun
    obtain ⟨z, hz, hfinish⟩ := bind_eq_ok.mp hrun
    obtain ⟨c, hout⟩ := hy.outBuffer
    have hsame := (addWords_inv _ (fitting_words h0 (h.text_fits h0)) hy hout hz).2.2 hnone
    rw [finish_error (hsame.trans hreset)] at hfinish
    cases hfinish

/-- The words behind the end of the loop would be missing. -/
theorem not_endsLoop : ∀ p ∈ words text, ¬ EndsLoop p := by
  have hsome := h.some_stemmed h0
  have hwords : words text ≠ [] := by
    intro hnil
    rw [hnil] at hsome
    exact hsome rfl
  obtain ⟨mem, x', hrun, hmem⟩ := h 0 {} [] sound_fresh
  have hkept := (process_inv _ _ sound_fresh h0 (ne_nil_of_words hwords) (h.text_fits h0) hsome
    hrun).1
  have hsplit : stemmed (words text) ++ (words text).dropWhile (fun p => ¬ EndsLoop p) =
      words text := List.takeWhile_append_dropWhile
  have hspaced : spaced ((stemmed (words text)).map (stemOf 0)) =
      spaced ((words text).map (stemOf 0)) := by
    rw [spaced_eq (by simpa using hsome), spaced_eq (by simpa using hwords), ← hkept, hmem]
  conv_rhs at hspaced => rw [← hsplit]
  rw [List.map_append, spaced_append, List.self_eq_append_right] at hspaced
  have hnone := List.map_eq_nil_iff.mp (eq_nil_of_spaced hspaced)
  intro p hp
  simpa using List.dropWhile_eq_nil_iff.mp hnone p hp

/-- An output block that the stems and their blanks fill up is too small for the terminator. -/
theorem stems_fit : ((spaced ((words text).map (stemOf 0))).length : ℤ)+8 ≤ intMax := by
  have hgood := h.not_endsLoop h0
  have hsome := h.some_stemmed h0
  have hwords : words text ≠ [] := by
    intro hnil
    rw [hnil] at hsome
    exact hsome rfl
  have hfit := h.text_fits h0
  have hle := length_loopOutput_le h0
  have hspaced : loopOutput (words text) = spaced ((words text).map (stemOf 0)) := by
    rw [loopOutput, stemmed_eq_self hgood]
  have hblock : (⟨some (List.replicate (loopOutput (words text)).length 0),
      (loopOutput (words text)).length, 0⟩ : Buffer).Holds [] := by
    have hblock := Buffer.Holds.block [] (List.replicate (loopOutput (words text)).length 0)
    rw [List.nil_append, List.length_replicate] at hblock
    refine hblock ?_ (by omega)
    intro hnil
    rw [List.replicate_eq_nil_iff, List.length_eq_zero_iff, hspaced] at hnil
    exact hwords (List.map_eq_nil_iff.mp (eq_nil_of_spaced hnil))
  have hx := sound_used hblock
  obtain ⟨mem, x', hrun, -⟩ := h 0 _ [] hx
  obtain ⟨y, hy, hreset, heq⟩ := process_eq 0 [] hx h0
    (ne_nil_of_words hwords) hfit
  rw [heq] at hrun
  obtain ⟨z, hz, -⟩ := bind_eq_ok.mp hrun
  have hroom := addWords_room _ (fitting_words h0 hfit) hwords hgood hy
    (hreset ▸ hblock.reset) (by rw [hreset]; simp [Buffer.reset]) hz
  rw [List.length_nil, hspaced] at hroom
  omega

theorem stemmable : Stemmable text := by
  refine ⟨?_, ?_, h.text_fits h0, h.stems_fit h0⟩
  · intro hnil
    have hsome := h.some_stemmed h0
    rw [hnil] at hsome
    exact hsome rfl
  · intro p hp
    have hgood := h.not_endsLoop h0 p hp
    exact not_or.mp (mt (endsLoop_iff (word_ne_nil hp) (zero_notMem_word h0 hp)).mpr hgood)

end KeepsWords

/-- A text keeps its words when none of them is a single letter or loses all letters but one. -/
theorem keepsWords_iff [Malloc] {text : Bytes} (h0 : 0 ∉ text) : KeepsWords text ↔ Stemmable text :=
  ⟨fun h => h.stemmable h0, fun h => h.keepsWords h0⟩

theorem theCats_keepsWords : KeepsWords (bytes "the cats") := by
  have hstems : ∀ p ∈ words (bytes "the cats"), (stemOf 0 p).length ≤ p.length :=
    fun p hp => length_stemOf_le (zero_notMem_word (by decide) hp) (word_ne_nil hp)
  have hle := (length_spaced_map_le hstems).trans (length_spaced_words_le _)
  refine (keepsWords_iff (by decide)).mpr ⟨by decide, by decide, by decide, ?_⟩
  have hlen : (bytes "the cats").length = 8 := by decide
  rw [hlen] at hle
  unfold intMax
  omega

/-- The one-letter word ends the loop, and the word behind it is lost. -/
theorem theACat_stops : ¬ KeepsWords (bytes "the a cat") := by
  intro h
  obtain ⟨mem, x', hrun, hmem⟩ := h 0 {} [] sound_fresh
  have hout : (process 0 {} (bytes "the a cat" ++ [0])).toOption.map (fun r => cstr r.1) =
      some (bytes "the") := by decide +kernel
  have hstems : [32].intercalate ((words (bytes "the a cat")).map (stemOf 0)) =
      bytes "the a cat" := by decide +kernel
  have hsame : cstr mem = bytes "the" := by
    rw [hrun] at hout
    exact Option.some.inj hout
  rw [hmem, hstems] at hsame
  exact absurd hsame (by decide)

end PorterStemming
end MsgCourier
