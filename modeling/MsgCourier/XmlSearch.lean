import MsgCourier.XmlCursor

/-! The loops `while ((pElm = xml.FindNextTag(pTag, pNot)) != 0)` over the elements of a section. -/
namespace MsgCourier
open ListSearch CText

namespace XmlCursor

/-- The elements that such a loop meets while its body does not move the position. -/
def findEach (pTag pNot : Bytes) : ℕ → XmlCursor → Cxx (List XmlElement × XmlCursor)
  | 0, _ => .error .undefined
  | fuel+1, c =>
    match c.findNextTag pTag (some pNot) with
    | (none, c) => pure ([], c)
    | (some pElm, c) => do
      let (found, c) ← findEach pTag pNot fuel c
      pure (pElm :: found, c)

/-- Each round of a loop takes an element, so there are no more rounds than elements left. -/
def each (c : XmlCursor) (pTag pNot : String) : Cxx (List XmlElement × XmlCursor) :=
  findEach (bytes pTag) (bytes pNot) (c.rest.length+1) c

/-- The elements behind the current one that stand in front of the next `pNot`. -/
def ahead (c : XmlCursor) (pNot : Bytes) : List XmlElement :=
  c.rest.tail.takeWhile fun e => ! e.isTag pNot

variable {c c' : XmlCursor} {e : XmlElement} {pTag pNot : Bytes}

/-- What a search that stops at `pNot` does. -/
inductive Next (pTag pNot : Bytes) (c : XmlCursor) : Option XmlElement × XmlCursor → Prop
  | found {skipped rest : List XmlElement} {e : XmlElement} :
      c.rest.tail = skipped ++ e :: rest →
      (∀ d ∈ skipped, d.isTag pNot = false ∧ d.isTag pTag = false) →
      e.isTag pNot = false → e.isTag pTag = true →
      Next pTag pNot c (some e, { c with rest := e :: rest })
  | stopped {skipped rest : List XmlElement} {e : XmlElement} :
      c.rest.tail = skipped ++ e :: rest →
      (∀ d ∈ skipped, d.isTag pNot = false ∧ d.isTag pTag = false) → e.isTag pNot = true →
      Next pTag pNot c (none, { c with rest := e :: rest })
  | missing : (∀ d ∈ c.rest.tail, d.isTag pNot = false ∧ d.isTag pTag = false) →
      Next pTag pNot c (none, c)

theorem findNextTag_next (c : XmlCursor) (pTag pNot : Bytes) :
    Next pTag pNot c (c.findNextTag pTag (some pNot)) := by
  have hneither {d : XmlElement} (h : ¬ (! ((some pNot).any d.isTag || d.isTag pTag)) = false) :
      d.isTag pNot = false ∧ d.isTag pTag = false := by
    simpa using h
  unfold findNextTag
  cases hdrop : c.rest.tail.dropWhile fun e => ! ((some pNot).any e.isTag || e.isTag pTag) with
  | nil =>
    refine .missing fun d hd => hneither ?_
    rw [List.dropWhile_eq_nil_iff] at hdrop
    exact Bool.eq_false_iff.not.mpr (not_not.mpr (hdrop d hd))
  | cons e rest =>
    have hsplit := List.takeWhile_append_dropWhile
      (p := fun e => ! ((some pNot).any e.isTag || e.isTag pTag)) (l := c.rest.tail)
    rw [hdrop] at hsplit
    have hskip : ∀ d ∈ c.rest.tail.takeWhile
        (fun e => ! ((some pNot).any e.isTag || e.isTag pTag)),
        d.isTag pNot = false ∧ d.isTag pTag = false := by
      intro d hd
      exact hneither (by rw [List.mem_takeWhile_imp hd]; exact Bool.noConfusion)
    have hstop := List.head?_dropWhile_not
      (fun e => ! ((some pNot).any e.isTag || e.isTag pTag)) c.rest.tail
    rw [hdrop, List.head?_cons] at hstop
    have hfound : e.isTag pNot = false → e.isTag pTag = true := by simpa using hstop
    dsimp only
    rw [Option.any_some]
    cases hnot : e.isTag pNot with
    | true => exact .stopped hsplit.symm hskip hnot
    | false => exact .found hsplit.symm hskip hnot (hfound hnot)

theorem ahead_found {skipped rest : List XmlElement} (h : c.rest.tail = skipped ++ e :: rest)
    (hskip : ∀ d ∈ skipped, d.isTag pNot = false ∧ d.isTag pTag = false)
    (hnot : e.isTag pNot = false) (he : e.isTag pTag = true) :
    (c.ahead pNot).filter (·.isTag pTag) =
      e :: (({ c with rest := e :: rest } : XmlCursor).ahead pNot).filter (·.isTag pTag) := by
  unfold ahead
  rw [h, List.takeWhile_append_of_pos fun d hd => by rw [(hskip d hd).1]; rfl,
    List.takeWhile_cons_of_pos (by rw [hnot]; rfl), List.filter_append,
    List.filter_eq_nil_iff.mpr fun d hd => by rw [(hskip d hd).2]; exact Bool.false_ne_true,
    List.nil_append, List.filter_cons, if_pos he]
  rfl

/-- What stands behind the first stop ahead of the current element. -/
def Stops (c : XmlCursor) (pNot : Bytes) (rest : List XmlElement) : Prop :=
  ∃ before stop, c.rest.tail = before ++ stop :: rest ∧
    (∀ d ∈ before, d.isTag pNot = false) ∧ stop.isTag pNot = true

/-- The loop meets the elements of its name that are ahead. It ends at the stop, and where there is
none at the last element it met. -/
structure Sweeps (c : XmlCursor) (pTag pNot : Bytes) (found : List XmlElement) (c' : XmlCursor) :
    Prop where
  found : found = (c.ahead pNot).filter (·.isTag pTag)
  elements : c'.xmlElements = c.xmlElements
  short : c'.rest.length ≤ c.rest.length
  stop : ∀ rest, c.Stops pNot rest → c'.rest.tail = rest

theorem eq_of_first_stop {before skipped rest rest' : List XmlElement} {stop : XmlElement}
    (h : before ++ stop :: rest = skipped ++ e :: rest')
    (hbefore : ∀ d ∈ before, d.isTag pNot = false) (hstop : stop.isTag pNot = true)
    (hskipped : ∀ d ∈ skipped, d.isTag pNot = false) (he : e.isTag pNot = true) :
    rest = rest' := by
  have hdrop (l r : List XmlElement) (d : XmlElement) (hl : ∀ d ∈ l, d.isTag pNot = false)
      (hd : d.isTag pNot = true) :
      (l ++ d :: r).dropWhile (fun e => ! e.isTag pNot) = d :: r := by
    rw [List.dropWhile_append_of_pos fun d hd => by rw [hl d hd]; rfl,
      List.dropWhile_cons_of_neg (by rw [hd]; exact Bool.noConfusion)]
  have hsame := congrArg (List.dropWhile fun e => ! e.isTag pNot) h
  rw [hdrop before rest stop hbefore hstop, hdrop skipped rest' e hskipped he] at hsame
  exact (List.cons.inj hsame).2

theorem not_stops (h : ∀ d ∈ c.rest.tail, d.isTag pNot = false) (rest : List XmlElement) :
    ¬ c.Stops pNot rest := by
  intro hstops
  obtain ⟨before, stop, hsplit, -, hstop⟩ := hstops
  have hmem : stop ∈ c.rest.tail := hsplit ▸ List.mem_append_right _ List.mem_cons_self
  exact absurd hstop (by rw [h stop hmem]; exact Bool.false_ne_true)

theorem stops_found {skipped rest rest' : List XmlElement} (h : c.rest.tail = skipped ++ e :: rest)
    (hskip : ∀ d ∈ skipped, d.isTag pNot = false) (hnot : e.isTag pNot = false)
    (hstops : c.Stops pNot rest') :
    ({ c with rest := e :: rest } : XmlCursor).Stops pNot rest' := by
  obtain ⟨before, stop, hsplit, hbefore, hstop⟩ := hstops
  rw [h, List.append_eq_append_iff] at hsplit
  rcases hsplit with ⟨more, rfl, hmore⟩ | ⟨more, rfl, hmore⟩
  · -- the stop is behind what was skipped
    cases more with
    | nil =>
      obtain ⟨rfl, -⟩ := List.cons.inj hmore
      exact absurd hstop (by rw [hnot]; exact Bool.false_ne_true)
    | cons d more =>
      obtain ⟨-, htail⟩ := List.cons.inj hmore
      exact ⟨more, stop, htail, fun d hd => hbefore d (List.mem_append_right _
        (List.mem_cons_of_mem _ hd)), hstop⟩
  · cases more with
    | nil =>
      obtain ⟨rfl, -⟩ := List.cons.inj hmore
      exact absurd hstop (by rw [hnot]; exact Bool.false_ne_true)
    | cons d more =>
      obtain ⟨rfl, -⟩ := List.cons.inj hmore
      have hmem := hskip stop (List.mem_append_right _ List.mem_cons_self)
      exact absurd hstop (by rw [hmem]; exact Bool.false_ne_true)

/-- The rounds suffice, whatever the elements are. -/
theorem findEach_sweeps {fuel : ℕ} (c : XmlCursor) (hfuel : c.rest.tail.length < fuel) :
    ∃ found c', findEach pTag pNot fuel c = .ok (found, c') ∧ Sweeps c pTag pNot found c' := by
  induction fuel generalizing c with
  | zero => exact absurd hfuel (Nat.not_lt_zero _)
  | succ fuel ih =>
    unfold findEach
    have hnext := findNextTag_next c pTag pNot
    cases hnext' : c.findNextTag pTag (some pNot) with
    | mk pElm next =>
    rw [hnext'] at hnext
    cases hnext with
    | @found skipped rest e hsplit hskip hnot he =>
      have hlength : rest.length < c.rest.tail.length := by
        rw [hsplit, List.length_append, List.length_cons]
        omega
      obtain ⟨found, c', hloop, hsweeps⟩ := ih { c with rest := e :: rest } (by
        dsimp only
        rw [List.tail_cons]
        omega)
      refine ⟨e :: found, c', by dsimp only; rw [hloop]; rfl, ?_⟩
      refine ⟨?_, hsweeps.elements, ?_, ?_⟩
      · rw [ahead_found hsplit hskip hnot he, hsweeps.found]
      · have hshort := hsweeps.short
        have htail : c.rest.tail.length = c.rest.length - 1 := List.length_tail
        dsimp only at hshort
        rw [List.length_cons] at hshort
        omega
      · intro rest' hstops
        exact hsweeps.stop rest' (stops_found hsplit (fun d hd => (hskip d hd).1) hnot hstops)
    | @stopped skipped rest e hsplit hskip he =>
      refine ⟨[], { c with rest := e :: rest }, rfl, ?_, rfl, ?_, ?_⟩
      · unfold ahead
        rw [hsplit, List.takeWhile_append_of_pos fun d hd => by rw [(hskip d hd).1]; rfl,
          List.takeWhile_cons_of_neg (by rw [he]; exact Bool.noConfusion), List.append_nil,
          List.filter_eq_nil_iff.mpr fun d hd => by rw [(hskip d hd).2]; exact Bool.false_ne_true]
      · have htail : c.rest.tail.length = c.rest.length - 1 := List.length_tail
        rw [hsplit, List.length_append, List.length_cons] at htail
        dsimp only
        rw [List.length_cons]
        omega
      · intro rest' hstops
        obtain ⟨before, stop, hbehind, hbefore, hstop⟩ := hstops
        exact (eq_of_first_stop (hbehind.symm.trans hsplit) hbefore hstop
          (fun d hd => (hskip d hd).1) he).symm
    | missing hnone =>
      refine ⟨[], c, rfl, ?_, rfl, Nat.le_refl _, ?_⟩
      · symm
        rw [List.filter_eq_nil_iff]
        intro d hd
        rw [(hnone d (List.takeWhile_sublist _ |>.subset hd)).2]
        exact Bool.false_ne_true
      · intro rest' hstops
        exact absurd hstops (not_stops (fun d hd => (hnone d hd).1) rest')

theorem each_sweeps (c : XmlCursor) (pTag pNot : String) : ∃ found c',
    c.each pTag pNot = .ok (found, c') ∧ Sweeps c (bytes pTag) (bytes pNot) found c' :=
  findEach_sweeps c (by rw [List.length_tail]; omega)

end XmlCursor

end MsgCourier
