import MsgCourier.Buffer
import MsgCourier.LinkedCells
import MsgCourier.XmlCursor

/-! `cXMLLiteList` as the source has it, with its nodes in the memory of the process, and the list
with a position that it stands for. -/
namespace MsgCourier
open ListSearch CText LinkedCells

def xmllitelistOk : ℤ := 0
def xmllitelistEmpty : ℤ := 1
def xmllitelistBegin : ℤ := 2
def xmllitelistEnd : ℤ := 3

/-- The data of a node is the address of an object. The marker has no value before `SavePos`. -/
structure XmlList where
  heap : Heap ℕ
  head : Option ℕ := none
  tail : Option ℕ := none
  current : Option ℕ := none
  marker : Option (Option ℕ) := none
  totalEntries : ℤ := 0

namespace XmlList

/-- A read through a pointer. -/
def node (l : XmlList) : Option ℕ → Cxx (Cell ℕ)
  | none => .error .undefined
  | some p =>
    match l.heap p with
    | none => .error .undefined
    | some cell => pure cell

/-- `m_iTotalEntries++` of an `int`; nothing takes an entry off again. -/
def countEntry (l : XmlList) : Cxx XmlList :=
  if l.totalEntries < intMax then pure { l with totalEntries := l.totalEntries+1 }
  else .error .undefined

/-- `mem` is what `malloc` returns. -/
def placeAtHead (l : XmlList) (mem : Option ℕ) (pData : ℕ) : Cxx (ℤ × XmlList) :=
  match mem with
  | none => pure (xmlliteparserAlloc, { l with head := none })
  | some p => do
    let l ← countEntry { l with
      heap := Function.update l.heap p (some ⟨pData, none, none⟩)
      head := some p
      tail := some p
      current := some p }
    pure (xmllitelistOk, l)

def add (l : XmlList) (mem : Option ℕ) (pData : ℕ) : Cxx (ℤ × XmlList) :=
  match l.head with
  | none => l.placeAtHead mem pData
  | some _ => do
    let last ← l.node l.tail
    let p := l.tail.getD 0
    let heap := Function.update l.heap p (some { last with next := mem })
    match mem with
    | none => pure (xmlliteparserAlloc, { l with heap })
    | some new => do
      let l ← countEntry { l with
        heap := Function.update heap new (some ⟨pData, none, l.tail⟩)
        tail := some new }
      pure (xmllitelistOk, l)

/-- The loop from the tail to the head. -/
def clearLoop : ℕ → Option ℕ → Heap ℕ → Cxx (Heap ℕ)
  | _, none, heap => pure heap
  | 0, some _, _ => .error .undefined
  | n+1, some p, heap =>
    match heap p with
    | none => .error .undefined
    | some cell => clearLoop n cell.prev (Function.update heap p none)

def clear (l : XmlList) : Cxx XmlList :=
  match l.head with
  | none => pure l
  | some _ => do
    let heap ← clearLoop l.totalEntries.toNat l.tail l.heap
    pure { l with heap, head := none, tail := none, current := none }

def getData (l : XmlList) : Cxx (Option ℕ) :=
  match l.current with
  | none => pure none
  | some p => do pure (some (← l.node (some p)).data)

def moveToHead (l : XmlList) : ℤ × XmlList :=
  match l.head with
  | none => (xmllitelistEmpty, { l with current := none })
  | some p => (xmllitelistOk, { l with current := some p })

def moveToTail (l : XmlList) : ℤ × XmlList :=
  match l.tail with
  | none => (xmllitelistEmpty, { l with current := none })
  | some p => (xmllitelistOk, { l with current := some p })

def moveNext (l : XmlList) : Cxx (ℤ × XmlList) :=
  match l.head, l.current with
  | none, _ => pure (xmllitelistEmpty, { l with current := none })
  | some _, none => pure (xmllitelistEnd, l)
  | some _, some p => do
    match (← l.node (some p)).next with
    | none => pure (xmllitelistEnd, { l with current := none })
    | some next => pure (xmllitelistOk, { l with current := some next })

def movePrev (l : XmlList) : Cxx (ℤ × XmlList) :=
  match l.head, l.current with
  | none, _ => pure (xmllitelistEmpty, { l with current := none })
  | some _, none => pure (xmllitelistBegin, l)
  | some _, some p => do
    match (← l.node (some p)).prev with
    | none => pure (xmllitelistBegin, { l with current := none })
    | some prev => pure (xmllitelistOk, { l with current := some prev })

def savePos (l : XmlList) : XmlList := { l with marker := some l.current }

def restorePos (l : XmlList) : Cxx XmlList :=
  match l.marker with
  | none => .error .undefined
  | some current => pure { l with current }

end XmlList

/-- The calls, `Add` with what `malloc` returns for it. -/
inductive ListCall
  | add (mem : Option ℕ) (pData : ℕ)
  | clear
  | getData
  | moveToHead
  | moveToTail
  | moveNext
  | movePrev
  | savePos
  | restorePos
  | isEmpty
  | getTotalEntries
  deriving DecidableEq, Repr

inductive ListAnswer
  | none
  | code (rc : ℤ)
  | data (p : Option ℕ)
  deriving DecidableEq, Repr

def XmlList.call (l : XmlList) : ListCall → Cxx (ListAnswer × XmlList)
  | .add mem pData => do let (rc, l) ← l.add mem pData; pure (.code rc, l)
  | .clear => do pure (.none, ← l.clear)
  | .getData => do pure (.data (← l.getData), l)
  | .moveToHead => pure (.code l.moveToHead.1, l.moveToHead.2)
  | .moveToTail => pure (.code l.moveToTail.1, l.moveToTail.2)
  | .moveNext => do let (rc, l) ← l.moveNext; pure (.code rc, l)
  | .movePrev => do let (rc, l) ← l.movePrev; pure (.code rc, l)
  | .savePos => pure (.none, l.savePos)
  | .restorePos => do pure (.none, ← l.restorePos)
  | .isEmpty => pure (.code (if l.head.isNone then 1 else 0), l)
  | .getTotalEntries => pure (.code l.totalEntries, l)

/-! ### The list that it stands for -/

/-- Addresses and data in their order, and positions by number. A position saved before the nodes
were freed is lost. -/
structure Listed where
  nodes : List (ℕ × ℕ) := []
  pos : Option ℕ := none
  mark : Option (Option ℕ) := none
  added : ℕ := 0
  deriving DecidableEq, Repr

namespace Listed

/-- A move to a place, or off the list with the code for it. -/
def moveTo (v : Listed) (i : ℕ) (rc : ℤ) : ListAnswer × Listed :=
  if v.nodes = [] then (.code xmllitelistEmpty, { v with pos := none })
  else if i < v.nodes.length then (.code xmllitelistOk, { v with pos := some i })
  else (.code rc, { v with pos := none })

/-- The place behind the position; off the list, there is none. -/
def nextPlace (v : Listed) : ℕ := (v.pos.map (·+1)).getD v.nodes.length

def prevPlace (v : Listed) : ℕ :=
  (v.pos.bind fun i => if i = 0 then none else some (i-1)).getD v.nodes.length

def call (v : Listed) : ListCall → ListAnswer × Listed
  | .add none _ => (.code xmlliteparserAlloc, v)
  | .add (some a) pData =>
    (.code xmllitelistOk, { v with
      nodes := v.nodes ++ [(a, pData)]
      pos := if v.nodes = [] then some 0 else v.pos
      added := v.added+1 })
  | .clear => (.none, if v.nodes = [] then v else
      { v with nodes := [], pos := none, mark := v.mark.filter (· = none) })
  | .getData => (.data (v.pos.bind fun i => v.nodes[i]?.map Prod.snd), v)
  | .moveToHead => v.moveTo 0 xmllitelistOk
  | .moveToTail => v.moveTo (v.nodes.length-1) xmllitelistOk
  | .moveNext => v.moveTo v.nextPlace xmllitelistEnd
  | .movePrev => v.moveTo v.prevPlace xmllitelistBegin
  | .savePos => (.none, { v with mark := some v.pos })
  | .restorePos => (.none, { v with pos := v.mark.getD v.pos })
  | .isEmpty => (.code (if v.nodes = [] then 1 else 0), v)
  | .getTotalEntries => (.code v.added, v)

theorem call_clear (v : Listed) : (v.call .clear).2 = if v.nodes = [] then v else
    { v with nodes := [], pos := none, mark := v.mark.filter (· = none) } := rfl

theorem nodes_clear (v : Listed) : (v.call .clear).2.nodes = [] := by
  rw [call_clear]
  split_ifs with hnil
  · exact hnil
  · rfl

def run (v : Listed) : List ListCall → List ListAnswer × Listed
  | [] => ([], v)
  | c :: cs => ((v.call c).1 :: ((v.call c).2.run cs).1, ((v.call c).2.run cs).2)

end Listed

def XmlList.run (l : XmlList) : List ListCall → Cxx (List ListAnswer × XmlList)
  | [] => pure ([], l)
  | c :: cs => do
    let (answer, l) ← l.call c
    let (answers, l) ← l.run cs
    pure (answer :: answers, l)

/-! ### The refinement -/

/-- The memory of a list: its nodes are linked, at addresses that were free in `h0`, and everything
else is as in `h0`. -/
structure Represents (h0 : Heap ℕ) (l : XmlList) (v : Listed) : Prop where
  linked : Linked l.heap v.nodes
  others : ∀ a ∉ v.nodes.map Prod.fst, l.heap a = h0 a
  fresh : ∀ a ∈ v.nodes.map Prod.fst, h0 a = none
  head : l.head = addrAt v.nodes 0
  tail : l.tail = addrAt v.nodes (v.nodes.length-1)
  current : l.current = v.pos.bind (addrAt v.nodes)
  pos : ∀ i, v.pos = some i → i < v.nodes.length
  marker : ∀ m, v.mark = some m → l.marker = some (m.bind (addrAt v.nodes)) ∧
    ∀ i, m = some i → i < v.nodes.length
  count : l.totalEntries = v.added
  length : v.nodes.length ≤ v.added

/-- What a caller and `malloc` answer for: new memory is free, no more nodes are made than an `int`
counts, and a position is put back only while its node is there. -/
def ListCall.Allowed (l : XmlList) (v : Listed) : ListCall → Prop
  | .add (some a) _ => l.heap a = none ∧ (v.added : ℤ) < intMax
  | .restorePos => v.mark.isSome
  | _ => True

namespace Represents

variable {h0 : Heap ℕ} {l : XmlList} {v : Listed}

theorem head_none (h : Represents h0 l v) : l.head = none ↔ v.nodes = [] := by
  have hsome := @addrAt_isSome _ v.nodes 0
  rw [← h.head] at hsome
  rw [← Option.not_isSome_iff_eq_none, hsome, List.length_pos_iff, not_not]

/-- A place of the list is read through its address. -/
theorem node (h : Represents h0 l v) {i a : ℕ} (ha : addrAt v.nodes i = some a) : ∃ d,
    v.nodes[i]? = some (a, d) ∧
      l.node (some a) = .ok ⟨d, addrAt v.nodes (i+1), addrBefore v.nodes i⟩ := by
  obtain ⟨d, hd⟩ := addrAt_eq_some ha
  refine ⟨d, hd, ?_⟩
  unfold XmlList.node
  dsimp only
  rw [h.linked.cell i a d hd]
  rfl

/-- Only the current node changes. -/
theorem withPos (h : Represents h0 l v) (pos : Option ℕ)
    (hpos : ∀ i, pos = some i → i < v.nodes.length) :
    Represents h0 { l with current := pos.bind (addrAt v.nodes) } { v with pos } :=
  ⟨h.linked, h.others, h.fresh, h.head, h.tail, rfl, hpos, h.marker, h.count, h.length⟩

/-- A move that ends at a place of the list or off it. -/
theorem moveTo (h : Represents h0 l v) (i : ℕ) (rc : ℤ) :
    Represents h0 { l with current := addrAt v.nodes i } (v.moveTo i rc).2 ∧
      (v.moveTo i rc).1 = .code (if l.head = none then xmllitelistEmpty
        else if (addrAt v.nodes i).isSome then xmllitelistOk else rc) := by
  unfold Listed.moveTo
  by_cases hnil : v.nodes = []
  · have hnone : addrAt v.nodes i = none := by rw [hnil]; rfl
    rw [if_pos hnil, if_pos (h.head_none.mpr hnil), hnone]
    exact ⟨h.withPos none (fun _ hi => by cases hi), rfl⟩
  · rw [if_neg hnil, if_neg (mt h.head_none.mp hnil)]
    by_cases hi : i < v.nodes.length
    · rw [if_pos hi, if_pos (addrAt_isSome.mpr hi)]
      exact ⟨h.withPos (some i) fun j hj => Option.some.inj hj ▸ hi, rfl⟩
    · have hnone : addrAt v.nodes i = none :=
        Option.not_isSome_iff_eq_none.mp (mt addrAt_isSome.mp hi)
      rw [if_neg hi, hnone]
      exact ⟨h.withPos none (fun _ hi => by cases hi), rfl⟩

theorem moveToHead (h : Represents h0 l v) :
    l.moveToHead.1 = (if l.head = none then xmllitelistEmpty
        else if (addrAt v.nodes 0).isSome then xmllitelistOk else xmllitelistOk) ∧
      l.moveToHead.2 = { l with current := addrAt v.nodes 0 } := by
  unfold XmlList.moveToHead
  rw [← h.head]
  cases l.head with
  | none => exact ⟨rfl, rfl⟩
  | some p => exact ⟨rfl, rfl⟩

theorem moveToTail (h : Represents h0 l v) :
    l.moveToTail.1 = (if l.head = none then xmllitelistEmpty
        else if (addrAt v.nodes (v.nodes.length-1)).isSome then xmllitelistOk
        else xmllitelistOk) ∧
      l.moveToTail.2 = { l with current := addrAt v.nodes (v.nodes.length-1) } := by
  have hboth : l.head = none ↔ addrAt v.nodes (v.nodes.length-1) = none := by
    rw [h.head_none, ← Option.not_isSome_iff_eq_none, addrAt_isSome, ← List.length_eq_zero_iff]
    omega
  unfold XmlList.moveToTail
  rw [h.tail]
  cases htail : addrAt v.nodes (v.nodes.length-1) with
  | none => rw [if_pos (hboth.mpr htail)]; exact ⟨rfl, rfl⟩
  | some p =>
    have hne : l.head ≠ none := fun hnone => by
      rw [hboth.mp hnone] at htail
      cases htail
    rw [if_neg hne]
    exact ⟨rfl, rfl⟩

theorem addrAt_length_none (nodes : List (ℕ × ℕ)) : addrAt nodes nodes.length = none :=
  Option.not_isSome_iff_eq_none.mp (mt addrAt_isSome.mp (Nat.lt_irrefl _))

theorem node_at (h : Represents h0 l v) {i : ℕ} (hi : v.pos = some i) : ∃ a d,
    addrAt v.nodes i = some a ∧
      l.node (some a) = .ok ⟨d, addrAt v.nodes (i+1), addrBefore v.nodes i⟩ := by
  obtain ⟨a, ha⟩ := Option.isSome_iff_exists.mp (addrAt_isSome.mpr (h.pos i hi))
  obtain ⟨d, -, hnode⟩ := h.node ha
  exact ⟨a, d, ha, hnode⟩

/-- A step along the pointers of the current node is a move to the place it points to. -/
theorem moveNext (h : Represents h0 l v) : l.moveNext = .ok
    (if l.head = none then xmllitelistEmpty
      else if (addrAt v.nodes v.nextPlace).isSome then xmllitelistOk
      else xmllitelistEnd, { l with current := addrAt v.nodes v.nextPlace }) := by
  have hcurrent := h.current
  have hempty := h.head_none
  have hread {i : ℕ} (hi : v.pos = some i) := h.node_at hi
  obtain ⟨heap, head, tail, current, marker, totalEntries⟩ := l
  cases head with
  | none =>
    rw [hempty.mp rfl]
    rfl
  | some first =>
    cases hpos : v.pos with
    | none =>
      rw [hpos] at hcurrent
      obtain rfl : current = none := hcurrent
      rw [Listed.nextPlace, hpos, Option.map_none, Option.getD_none, addrAt_length_none]
      rfl
    | some i =>
      obtain ⟨a, d, ha, hnode⟩ := hread hpos
      rw [hpos, Option.bind_some, ha] at hcurrent
      obtain rfl : current = some a := hcurrent
      unfold XmlList.moveNext
      dsimp only
      rw [hnode, ok_bind, Listed.nextPlace, hpos, Option.map_some, Option.getD_some]
      dsimp only
      cases addrAt v.nodes (i+1) with
      | none => rfl
      | some next => rfl

theorem movePrev (h : Represents h0 l v) : l.movePrev = .ok
    (if l.head = none then xmllitelistEmpty
      else if (addrAt v.nodes v.prevPlace).isSome then xmllitelistOk
      else xmllitelistBegin, { l with current := addrAt v.nodes v.prevPlace }) := by
  have hcurrent := h.current
  have hempty := h.head_none
  have hread {i : ℕ} (hi : v.pos = some i) := h.node_at hi
  obtain ⟨heap, head, tail, current, marker, totalEntries⟩ := l
  cases head with
  | none =>
    rw [hempty.mp rfl]
    rfl
  | some first =>
    cases hpos : v.pos with
    | none =>
      rw [hpos] at hcurrent
      obtain rfl : current = none := hcurrent
      rw [Listed.prevPlace, hpos, Option.bind_none, Option.getD_none, addrAt_length_none]
      rfl
    | some i =>
      obtain ⟨a, d, ha, hnode⟩ := hread hpos
      rw [hpos, Option.bind_some, ha] at hcurrent
      obtain rfl : current = some a := hcurrent
      unfold XmlList.movePrev
      dsimp only
      rw [hnode, ok_bind, Listed.prevPlace, hpos, Option.bind_some]
      dsimp only
      cases i with
      | zero =>
        rw [if_pos rfl, Option.getD_none, addrAt_length_none]
        rfl
      | succ i =>
        rw [if_neg (Nat.succ_ne_zero i), Option.getD_some, Nat.add_sub_cancel, addrBefore]
        cases addrAt v.nodes i with
        | none => rfl
        | some prev => rfl

/-- The node at the tail of a list that is not empty. -/
theorem tail_node (h : Represents h0 l v) {front : List (ℕ × ℕ)} {last : ℕ × ℕ}
    (hnodes : v.nodes = front ++ [last]) : l.tail = some last.1 ∧
      l.node (some last.1) = .ok ⟨last.2, none, addrBefore front front.length⟩ := by
  have hlength : v.nodes.length-1 = front.length := by rw [hnodes]; simp
  have hplace : addrAt v.nodes front.length = some last.1 := by
    rw [hnodes]
    exact addrAt_length front last
  have hend : addrAt v.nodes (front.length+1) = none := by
    rw [hnodes, addrAt, List.getElem?_eq_none (by simp)]
    rfl
  obtain ⟨d, hd, hnode⟩ := h.node hplace
  rw [hnodes, List.getElem?_concat_length] at hd
  obtain rfl : last.2 = d := (congrArg Prod.snd (Option.some.inj hd))
  rw [hend, hnodes, addrBefore_append_left _ (Nat.le_refl _)] at hnode
  exact ⟨by rw [h.tail, hlength, hplace], hnode⟩

/-- Positions keep their addresses when nodes come behind them. -/
theorem bind_append (m : Option ℕ) (nodes added : List (ℕ × ℕ))
    (hm : ∀ i, m = some i → i < nodes.length) :
    m.bind (addrAt (nodes ++ added)) = m.bind (addrAt nodes) := by
  cases m with
  | none => rfl
  | some i => exact addrAt_append_left added (hm i rfl)

/-- A node behind the last one, or the first node. -/
theorem add (h : Represents h0 l v) {a : ℕ} (hfresh : l.heap a = none)
    (hint : (v.added : ℤ) < intMax) (pData : ℕ) :
    ∃ l', l.add (some a) pData = .ok (xmllitelistOk, l') ∧
      Represents h0 l' (v.call (.add (some a) pData)).2 := by
  have hnew : a ∉ v.nodes.map Prod.fst := fun hmem => h.linked.allocated hmem hfresh
  have hfree : h0 a = none := by rw [← h.others a hnew, hfresh]
  have hfresh' : ∀ b ∈ (v.nodes ++ [(a, pData)]).map Prod.fst, h0 b = none := by
    intro b hb
    rw [List.map_append, List.mem_append] at hb
    rcases hb with hb | hb
    · exact h.fresh b hb
    · rw [List.mem_singleton.mp hb]
      exact hfree
  have hlonger {i : ℕ} (hi : i < v.nodes.length) : i < (v.nodes ++ [(a, pData)]).length := by
    rw [List.length_append]
    omega
  have hmarker : ∀ m, v.mark = some m →
      l.marker = some (m.bind (addrAt (v.nodes ++ [(a, pData)]))) ∧
        ∀ i, m = some i → i < (v.nodes ++ [(a, pData)]).length := by
    intro m hm
    obtain ⟨hmark, hin⟩ := h.marker m hm
    rw [bind_append m v.nodes _ hin]
    exact ⟨hmark, fun i hi => hlonger (hin i hi)⟩
  have hcount : l.totalEntries+1 = (v.added+1 : ℕ) := by rw [h.count]; rfl
  rw [← h.count] at hint
  have hlength : (v.nodes ++ [(a, pData)]).length ≤ v.added+1 := by
    rw [List.length_append]
    exact Nat.succ_le_succ h.length
  unfold XmlList.add
  cases hhead : l.head with
  | none =>
    have hnil := h.head_none.mp hhead
    dsimp only [XmlList.placeAtHead, XmlList.countEntry]
    rw [if_pos hint]
    refine ⟨_, rfl, ?_⟩
    simp only [Listed.call, hnil, if_pos, List.nil_append]
    rw [hnil, List.nil_append] at hfresh' hmarker hlength
    refine ⟨Linked.single l.heap a pData, ?_, hfresh', rfl, rfl, rfl, ?_, hmarker, hcount, hlength⟩
    · intro b hb
      have hne : b ≠ a := fun heq => hb (heq ▸ List.mem_singleton_self b)
      dsimp only
      rw [Function.update_of_ne hne, h.others b (by rw [hnil]; exact List.not_mem_nil)]
    · intro i hi
      obtain rfl := Option.some.inj hi
      exact Nat.one_pos
  | some first =>
    have hne : v.nodes ≠ [] := fun hnil => by
      rw [h.head_none.mpr hnil] at hhead
      cases hhead
    obtain ⟨front, last, hnodes⟩ := (List.eq_nil_or_concat' v.nodes).resolve_left hne
    obtain ⟨htail, hnode⟩ := h.tail_node hnodes
    have hlinked := h.linked
    rw [hnodes] at hlinked
    have happend := hlinked.append (d := pData) hfresh
    rw [← hnodes] at happend
    rw [htail]
    dsimp only
    rw [hnode, ok_bind]
    dsimp only [XmlList.countEntry]
    rw [if_pos hint]
    refine ⟨_, rfl, ?_⟩
    dsimp only [Listed.call, Option.getD_some]
    rw [if_neg hne]
    refine ⟨happend, ?_, hfresh', ?_, ?_, ?_, fun i hi => hlonger (h.pos i hi), hmarker, hcount,
      hlength⟩
    · intro b hb
      rw [List.map_append, List.mem_append, not_or] at hb
      have hlast : b ≠ last.1 := by
        intro heq
        apply hb.1
        rw [hnodes, List.map_append, heq]
        exact List.mem_append_right _ (List.mem_singleton_self _)
      dsimp only
      rw [Function.update_of_ne fun heq => hb.2 (List.mem_singleton.mpr heq),
        Function.update_of_ne hlast, h.others b hb.1]
    · dsimp only
      rw [← hhead, h.head, addrAt_append_left _ (List.length_pos_iff.mpr hne)]
    · dsimp only
      rw [List.length_append, List.length_singleton, Nat.add_sub_cancel, addrAt_length]
    · dsimp only
      rw [bind_append v.pos v.nodes _ h.pos, h.current]

/-- A failed allocation leaves the list as it was. -/
theorem add_failed (h : Represents h0 l v) (pData : ℕ) :
    l.add none pData = .ok (xmlliteparserAlloc, l) := by
  cases hhead : l.head with
  | none =>
    obtain ⟨heap, head, tail, current, marker, totalEntries⟩ := l
    obtain rfl : head = none := hhead
    rfl
  | some first =>
    have hne : v.nodes ≠ [] := fun hnil => by
      rw [h.head_none.mpr hnil] at hhead
      cases hhead
    obtain ⟨front, last, hnodes⟩ := List.eq_nil_or_concat' v.nodes |>.resolve_left hne
    obtain ⟨htail, hnode⟩ := h.tail_node hnodes
    have hcell : l.heap last.1 = some ⟨last.2, none, addrBefore front front.length⟩ := by
      unfold XmlList.node at hnode
      dsimp only at hnode
      cases hheap : l.heap last.1 with
      | none => rw [hheap] at hnode; cases hnode
      | some cell => rw [hheap] at hnode; rw [Except.ok.inj hnode]
    unfold XmlList.add
    rw [hhead, htail]
    dsimp only
    rw [hnode, ok_bind]
    dsimp only [Option.getD_some]
    rw [← hcell, Function.update_eq_self, ← hhead, ← htail]
    rfl

theorem clearLoop {nodes : List (ℕ × ℕ)} {heap : Heap ℕ} (h : Backed heap nodes) {n : ℕ}
    (hn : nodes.length ≤ n) : ∃ heap',
    XmlList.clearLoop n (addrAt nodes (nodes.length-1)) heap = .ok heap' ∧
      (∀ a ∈ nodes.map Prod.fst, heap' a = none) ∧
      ∀ a ∉ nodes.map Prod.fst, heap' a = heap a := by
  induction nodes using List.reverseRecOn generalizing n heap with
  | nil =>
    refine ⟨heap, ?_, fun _ ha => absurd ha List.not_mem_nil, fun _ _ => rfl⟩
    cases n <;> rfl
  | append_singleton front last ih =>
    rw [List.length_append, List.length_singleton] at hn
    obtain ⟨n, rfl⟩ := Nat.exists_eq_add_one.mpr (show 0 < n by omega)
    obtain ⟨⟨next, hcell⟩, hrest⟩ := h.dropLast
    obtain ⟨heap', hloop, hfreed, hothers⟩ := ih hrest (show front.length ≤ n by omega)
    have hnodup := h.nodup
    rw [List.map_append, List.nodup_append] at hnodup
    refine ⟨heap', ?_, ?_, ?_⟩
    · rw [List.length_append, List.length_singleton, Nat.add_sub_cancel, addrAt_length]
      unfold XmlList.clearLoop
      rw [hcell]
      dsimp only
      rw [addrBefore_length, hloop]
    · intro a ha
      rw [List.map_append, List.mem_append] at ha
      by_cases hin : a ∈ front.map Prod.fst
      · exact hfreed a hin
      · rw [hothers a hin, List.mem_singleton.mp (ha.resolve_left hin)]
        exact Function.update_self ..
    · intro a ha
      rw [List.map_append, List.mem_append, not_or] at ha
      rw [hothers a ha.1, Function.update_of_ne fun heq => ha.2 (List.mem_singleton.mpr heq)]

/-- Every node is freed once, and the memory is as it was before the list. -/
theorem clear (h : Represents h0 l v) : ∃ l', l.clear = .ok l' ∧
    Represents h0 l' (v.call .clear).2 := by
  rw [Listed.call_clear]
  unfold XmlList.clear
  cases hhead : l.head with
  | none =>
    refine ⟨l, rfl, ?_⟩
    rw [if_pos (h.head_none.mp hhead)]
    exact h
  | some first =>
    have hne : v.nodes ≠ [] := fun hnil => by
      rw [h.head_none.mpr hnil] at hhead
      cases hhead
    have hfuel : v.nodes.length ≤ l.totalEntries.toNat := by
      have hlength := h.length
      rw [h.count]
      omega
    obtain ⟨heap', hloop, hfreed, hothers⟩ := clearLoop h.linked.backed hfuel
    rw [← h.tail] at hloop
    dsimp only
    rw [hloop, ok_bind, if_neg hne]
    refine ⟨_, rfl, Linked.empty _, ?_, fun _ ha => absurd ha List.not_mem_nil, rfl, rfl, rfl,
      fun _ hi => (by cases hi), ?_, h.count, Nat.zero_le _⟩
    · intro a _
      dsimp only
      by_cases hin : a ∈ v.nodes.map Prod.fst
      · rw [hfreed a hin, h.fresh a hin]
      · rw [hothers a hin, h.others a hin]
    · intro m hm
      -- what was saved is kept only if it was no node
      obtain ⟨hmark, hnone⟩ := Option.filter_eq_some_iff.mp hm
      obtain rfl := of_decide_eq_true hnone
      exact ⟨(h.marker none hmark).1, fun i hi => (by cases hi)⟩

theorem getData (h : Represents h0 l v) :
    l.getData = .ok (v.pos.bind fun i => v.nodes[i]?.map Prod.snd) := by
  unfold XmlList.getData
  rw [h.current]
  cases hpos : v.pos with
  | none => rfl
  | some i =>
    obtain ⟨a, ha⟩ := Option.isSome_iff_exists.mp (addrAt_isSome.mpr (h.pos i hpos))
    obtain ⟨d, hd, hnode⟩ := h.node ha
    rw [Option.bind_some, ha, Option.bind_some, hd]
    dsimp only
    rw [hnode]
    rfl

/-- Each call does to the nodes what it does to the list. -/
theorem call (h : Represents h0 l v) {c : ListCall} (hc : c.Allowed l v) :
    ∃ l', l.call c = .ok ((v.call c).1, l') ∧ Represents h0 l' (v.call c).2 := by
  cases c with
  | add mem pData =>
    cases mem with
    | none =>
      refine ⟨l, ?_, h⟩
      unfold XmlList.call
      dsimp only
      rw [h.add_failed pData]
      rfl
    | some a =>
      obtain ⟨l', hadd, hrep⟩ := h.add hc.1 hc.2 pData
      refine ⟨l', ?_, hrep⟩
      unfold XmlList.call
      dsimp only
      rw [hadd]
      rfl
  | clear =>
    obtain ⟨l', hclear, hrep⟩ := h.clear
    refine ⟨l', ?_, hrep⟩
    unfold XmlList.call
    dsimp only
    rw [hclear]
    rfl
  | getData =>
    refine ⟨l, ?_, h⟩
    unfold XmlList.call
    dsimp only
    rw [h.getData]
    rfl
  | moveToHead =>
    obtain ⟨hrep, hcode⟩ := h.moveTo 0 xmllitelistOk
    obtain ⟨hrc, hstate⟩ := h.moveToHead
    refine ⟨_, ?_, hrep⟩
    unfold XmlList.call Listed.call
    dsimp only
    rw [hcode, hrc, hstate]
    rfl
  | moveToTail =>
    obtain ⟨hrep, hcode⟩ := h.moveTo (v.nodes.length-1) xmllitelistOk
    obtain ⟨hrc, hstate⟩ := h.moveToTail
    refine ⟨_, ?_, hrep⟩
    unfold XmlList.call Listed.call
    dsimp only
    rw [hcode, hrc, hstate]
    rfl
  | moveNext =>
    obtain ⟨hrep, hcode⟩ := h.moveTo v.nextPlace xmllitelistEnd
    refine ⟨_, ?_, hrep⟩
    unfold XmlList.call Listed.call
    dsimp only
    rw [h.moveNext, hcode]
    rfl
  | movePrev =>
    obtain ⟨hrep, hcode⟩ := h.moveTo v.prevPlace xmllitelistBegin
    refine ⟨_, ?_, hrep⟩
    unfold XmlList.call Listed.call
    dsimp only
    rw [h.movePrev, hcode]
    rfl
  | savePos =>
    refine ⟨l.savePos, rfl, ⟨h.linked, h.others, h.fresh, h.head, h.tail, h.current, h.pos, ?_,
      h.count, h.length⟩⟩
    intro m hm
    obtain rfl := Option.some.inj hm
    exact ⟨congrArg some h.current, h.pos⟩
  | restorePos =>
    obtain ⟨m, hm⟩ := Option.isSome_iff_exists.mp hc
    obtain ⟨hmark, hin⟩ := h.marker m hm
    refine ⟨{ l with current := m.bind (addrAt v.nodes) }, ?_, ?_⟩
    · unfold XmlList.call XmlList.restorePos
      dsimp only
      rw [hmark]
      rfl
    · unfold Listed.call
      dsimp only
      have hget : v.mark.getD v.pos = m := by rw [hm]; rfl
      rw [hget]
      exact h.withPos m hin
  | isEmpty =>
    refine ⟨l, ?_, h⟩
    unfold XmlList.call Listed.call
    dsimp only
    by_cases hnil : v.nodes = []
    · rw [if_pos hnil, h.head_none.mpr hnil]
      rfl
    · have hsome : l.head.isNone = false := Option.isNone_eq_false_iff.mpr
        (Option.isSome_iff_ne_none.mpr (mt h.head_none.mp hnil))
      rw [if_neg hnil, hsome]
      rfl
  | getTotalEntries =>
    refine ⟨l, ?_, h⟩
    unfold XmlList.call Listed.call
    dsimp only
    rw [h.count]
    rfl

end Represents

/-! ### Whole runs -/

/-- Every call of a run keeps to its contract where it is made. -/
def AllowedRun : XmlList → Listed → List ListCall → Prop
  | _, _, [] => True
  | l, v, c :: cs => c.Allowed l v ∧
      match l.call c with
      | .ok (_, l') => AllowedRun l' (v.call c).2 cs
      | .error _ => True

theorem Represents.run {h0 : Heap ℕ} {l : XmlList} {v : Listed} (h : Represents h0 l v)
    {cs : List ListCall} (hcs : AllowedRun l v cs) :
    ∃ l', l.run cs = .ok ((v.run cs).1, l') ∧ Represents h0 l' (v.run cs).2 := by
  induction cs generalizing l v with
  | nil => exact ⟨l, rfl, h⟩
  | cons c cs ih =>
    obtain ⟨hc, hrest⟩ := hcs
    obtain ⟨l', hcall, hrep⟩ := h.call hc
    rw [hcall] at hrest
    obtain ⟨l'', hrun, hrep'⟩ := ih hrep hrest
    refine ⟨l'', ?_, hrep'⟩
    unfold XmlList.run Listed.run
    rw [hcall, ok_bind]
    dsimp only
    rw [hrun]
    rfl

/-- Over any run the nodes give the answers of the list: no pointer is read that does not lead to a
node, no node is freed twice, and what is not in the list is not touched. -/
theorem XmlList.run_refines {h0 : Heap ℕ} {l : XmlList} {v : Listed} (h : Represents h0 l v)
    {cs : List ListCall} (hcs : AllowedRun l v cs) :
    ∃ l', l.run cs = .ok ((v.run cs).1, l') ∧ Represents h0 l' (v.run cs).2 := h.run hcs

theorem represents_empty (h0 : Heap ℕ) : Represents h0 { heap := h0 } {} where
  linked := Linked.empty h0
  others := fun _ _ => rfl
  fresh := fun _ ha => absurd ha List.not_mem_nil
  head := rfl
  tail := rfl
  current := rfl
  pos := fun _ hi => by cases hi
  marker := fun _ hm => by cases hm
  count := rfl
  length := Nat.le_refl 0

/-- Two nodes, a walk with a saved position, and the nodes freed. -/
def smallRun : List ListCall :=
  [.add (some 8) 1, .add (some 4) 2, .add none 3, .moveToHead, .savePos, .moveNext, .getData,
    .restorePos, .getData, .clear, .getTotalEntries]

theorem run_smallRun : ∃ l', ({ heap := fun _ => none } : XmlList).run smallRun = .ok
    ([.code 0, .code 0, .code 3, .code 0, .none, .code 0, .data (some 2), .none, .data (some 1),
      .none, .code 2], l') ∧ Represents (fun _ => none) l' (({} : Listed).run smallRun).2 :=
  XmlList.run_refines (represents_empty _)
    ⟨⟨rfl, by decide⟩, ⟨rfl, by decide⟩, trivial, trivial, trivial, trivial, trivial, rfl, trivial,
      trivial, trivial, trivial⟩

/-! ### The searches of the parser -/

namespace XmlList

/-- The loop of the two searches; `objects` are the elements that the data point to. -/
def searchLoop (objects : ℕ → XmlElement) (pTag : Bytes) (pNot : Option Bytes) :
    ℕ → XmlList → Cxx (Option ℕ × XmlList)
  | 0, _ => .error .undefined
  | n+1, l => do
    let hit := (← l.getData).bind fun pElement =>
      if pNot.any (objects pElement).isTag then some none
      else if (objects pElement).isTag pTag then some (some pElement)
      else none
    match hit with
    | some found => pure (found, l)
    | none => do
      let (rc, l) ← l.moveNext
      if rc = xmllitelistOk then searchLoop objects pTag pNot n l
      else do pure (none, ← l.restorePos)

def findTag (objects : ℕ → XmlElement) (pTag : Bytes) (l : XmlList) :
    Cxx (Option ℕ × XmlList) :=
  let (rc, l) := l.savePos.moveToHead
  if rc = xmllitelistOk then searchLoop objects pTag none (l.totalEntries.toNat+1) l
  else do pure (none, ← l.restorePos)

def findNextTag (objects : ℕ → XmlElement) (pTag : Bytes) (pNot : Option Bytes) (l : XmlList) :
    Cxx (Option ℕ × XmlList) := do
  let (_, l) ← l.savePos.moveNext
  searchLoop objects pTag pNot (l.totalEntries.toNat+1) l

/-- `Flush` of the parser: the objects deleted, in their order, and the list behind it. -/
def flushLoop : ℕ → XmlList → Cxx (List ℕ × XmlList)
  | 0, _ => .error .undefined
  | n+1, l => do
    let deleted := (← l.getData).toList
    let (rc, l) ← l.movePrev
    if rc = xmllitelistOk then do
      let (more, l) ← flushLoop n l
      pure (deleted ++ more, l)
    else pure (deleted, l)

def flush (l : XmlList) : Cxx (List ℕ × XmlList) := do
  let (rc, l) := l.moveToTail
  if rc = xmllitelistOk then
    let (deleted, l) ← flushLoop (l.totalEntries.toNat+1) l
    pure (deleted, ← l.clear)
  else pure ([], ← l.clear)

end XmlList

namespace Listed

variable (objects : ℕ → XmlElement)

def elements (v : Listed) : List XmlElement := v.nodes.map fun node => objects node.2

/-- The elements from a position on. -/
def restFrom (v : Listed) (pos : Option ℕ) : List XmlElement :=
  (pos.map (v.elements objects).drop).getD []

def cursor (v : Listed) : XmlCursor := ⟨v.elements objects, v.restFrom objects v.pos⟩

end Listed

namespace Represents

variable {h0 : Heap ℕ} {l : XmlList} {v : Listed} (objects : ℕ → XmlElement)

theorem moveTo_eq (v : Listed) (i : ℕ) (rc : ℤ) : v.moveTo i rc =
    (.code (if i < v.nodes.length then xmllitelistOk
      else if v.nodes = [] then xmllitelistEmpty else rc),
      { v with pos := if i < v.nodes.length then some i else none }) := by
  unfold Listed.moveTo
  by_cases hnil : v.nodes = []
  · have hnot : ¬ i < v.nodes.length := by rw [hnil]; exact Nat.not_lt_zero i
    rw [if_pos hnil, if_neg hnot, if_pos hnil, if_neg hnot]
  · by_cases hlt : i < v.nodes.length
    · rw [if_neg hnil, if_pos hlt, if_pos hlt, if_pos hlt]
    · rw [if_neg hnil, if_neg hlt, if_neg hlt, if_neg hnil, if_neg hlt]

/-- A step to the next node, or off the list. -/
theorem moved (h : Represents h0 l v) : ∃ l', l.moveNext = .ok
    ((if v.nextPlace < v.nodes.length then xmllitelistOk
      else if v.nodes = [] then xmllitelistEmpty else xmllitelistEnd), l') ∧
    Represents h0 l' { v with
      pos := if v.nextPlace < v.nodes.length then some v.nextPlace else none } := by
  obtain ⟨hrep, hcode⟩ := h.moveTo v.nextPlace xmllitelistEnd
  rw [moveTo_eq] at hrep hcode
  refine ⟨{ l with current := addrAt v.nodes v.nextPlace }, ?_, hrep⟩
  rw [h.moveNext, ListAnswer.code.inj hcode]

theorem restored (h : Represents h0 l v) {m : Option ℕ} (hm : v.mark = some m) :
    ∃ l', l.restorePos = .ok l' ∧ Represents h0 l' { v with pos := m } := by
  obtain ⟨hmark, hin⟩ := h.marker m hm
  refine ⟨{ l with current := m.bind (addrAt v.nodes) }, ?_, h.withPos m hin⟩
  unfold XmlList.restorePos
  rw [hmark]
  rfl

theorem restFrom_cons {i a d : ℕ} (hi : v.nodes[i]? = some (a, d)) :
    v.restFrom objects (some i) = objects d :: v.restFrom objects (some (i+1)) := by
  obtain ⟨hlt, hnode⟩ := List.getElem?_eq_some_iff.mp hi
  have hdrop := List.drop_eq_getElem_cons hlt
  have helements (j : ℕ) : v.restFrom objects (some j) =
      (v.nodes.drop j).map fun node => objects node.2 := List.map_drop.symm
  rw [helements, helements, hdrop, hnode, List.map_cons]

/-- The loop ends at the first element from the position on that it looks for, and otherwise goes
back to the saved position. -/
theorem searchLoop (pTag : Bytes) (pNot : Option Bytes) {m : Option ℕ} (hm : v.mark = some m)
    {n : ℕ} (h : Represents h0 l v) (hn : (v.restFrom objects v.pos).length < n) :
    ∃ found l' v', XmlList.searchLoop objects pTag pNot n l = .ok (found, l') ∧
      Represents h0 l' v' ∧ v'.nodes = v.nodes ∧
      (found.map objects, v'.restFrom objects v'.pos) =
        match (v.restFrom objects v.pos).dropWhile fun e =>
          ! (pNot.any e.isTag || e.isTag pTag) with
        | [] => (none, v.restFrom objects m)
        | e :: rest => (if pNot.any e.isTag then none else some e, e :: rest) := by
  induction n generalizing l v with
  | zero => exact absurd hn (Nat.not_lt_zero _)
  | succ n ih =>
    have hdata := h.getData
    unfold XmlList.searchLoop
    rw [hdata, ok_bind]
    cases hpos : v.pos with
    | none =>
      -- off the list
      obtain ⟨l₁, hmove, hrep₁⟩ := h.moved
      have hplace : v.nextPlace = v.nodes.length := by rw [Listed.nextPlace, hpos]; rfl
      have hnot : ¬ v.nextPlace < v.nodes.length := by rw [hplace]; exact Nat.lt_irrefl _
      rw [if_neg hnot] at hmove hrep₁
      obtain ⟨l₂, hrestore, hrep₂⟩ := hrep₁.restored hm
      have hcode : (if v.nodes = [] then xmllitelistEmpty else xmllitelistEnd) ≠ xmllitelistOk := by
        split_ifs <;> decide
      refine ⟨none, l₂, _, ?_, hrep₂, rfl, rfl⟩
      rw [Option.bind_none, Option.bind_none]
      dsimp only
      rw [hmove, ok_bind]
      dsimp only
      rw [if_neg hcode, hrestore]
      rfl
    | some i =>
      have hi := h.pos i hpos
      obtain ⟨⟨a, d⟩, hnode⟩ : ∃ node, v.nodes[i]? = some node := ⟨_, List.getElem?_eq_getElem hi⟩
      have hsplit := restFrom_cons objects hnode
      rw [hpos] at hn
      rw [Option.bind_some, hnode, Option.map_some, Option.bind_some, hsplit]
      by_cases hnot : pNot.any (objects d).isTag = true
      · refine ⟨none, l, v, by rw [if_pos hnot]; rfl, h, rfl, ?_⟩
        rw [List.dropWhile_cons_of_neg (by rw [hnot]; exact Bool.noConfusion), hpos, hsplit]
        dsimp only
        rw [if_pos hnot]
        rfl
      · by_cases htag : (objects d).isTag pTag = true
        · refine ⟨some d, l, v, by rw [if_neg hnot, if_pos htag]; rfl, h, rfl, ?_⟩
          rw [List.dropWhile_cons_of_neg (by rw [htag, Bool.or_true]; exact Bool.noConfusion),
            hpos, hsplit]
          dsimp only
          rw [if_neg hnot]
          rfl
        · -- the element is passed over
          have hskip : (! (pNot.any (objects d).isTag || (objects d).isTag pTag)) = true := by
            rw [Bool.eq_false_iff.mpr hnot, Bool.eq_false_iff.mpr htag]
            rfl
          have hplace : v.nextPlace = i+1 := by rw [Listed.nextPlace, hpos]; rfl
          obtain ⟨l₁, hmove, hrep₁⟩ := h.moved
          have hdrop (r : List XmlElement) :
              (objects d :: r).dropWhile (fun e => ! (pNot.any e.isTag || e.isTag pTag)) =
                r.dropWhile fun e => ! (pNot.any e.isTag || e.isTag pTag) :=
            List.dropWhile_cons_of_pos hskip
          rw [if_neg hnot, if_neg htag, hdrop]
          dsimp only
          rw [hmove, ok_bind]
          dsimp only
          rw [hplace] at hrep₁ ⊢
          by_cases hlt : i+1 < v.nodes.length
          · rw [if_pos hlt] at hrep₁ ⊢
            rw [if_pos rfl]
            have hshort : (v.restFrom objects (some (i+1))).length < n := by
              rw [hsplit, List.length_cons] at hn
              omega
            exact ih (v := { v with pos := some (i+1) }) hm hrep₁ hshort
          · rw [if_neg hlt] at hrep₁ ⊢
            obtain ⟨l₂, hrestore, hrep₂⟩ := hrep₁.restored hm
            have hcode : (if v.nodes = [] then xmllitelistEmpty else xmllitelistEnd) ≠
                xmllitelistOk := by
              split_ifs <;> decide
            have hend : v.restFrom objects (some (i+1)) = [] :=
              List.drop_eq_nil_of_le (by rw [Listed.elements, List.length_map]; omega)
            refine ⟨none, l₂, _, ?_, hrep₂, rfl, ?_⟩
            · rw [if_neg hcode, hrestore]
              rfl
            · rw [hend]
              rfl

theorem saved (h : Represents h0 l v) : Represents h0 l.savePos { v with mark := some v.pos } := by
  obtain ⟨l', hcall, hrep⟩ := h.call (c := .savePos) trivial
  obtain rfl : l.savePos = l' := (Prod.mk.inj (Except.ok.inj hcall)).2
  exact hrep

theorem headed (h : Represents h0 l v) :
    l.moveToHead.1 = (if v.nodes = [] then xmllitelistEmpty else xmllitelistOk) ∧
      Represents h0 l.moveToHead.2
        { v with pos := if 0 < v.nodes.length then some 0 else none } := by
  obtain ⟨hrc, hstate⟩ := h.moveToHead
  obtain ⟨hrep, -⟩ := h.moveTo 0 xmllitelistOk
  rw [moveTo_eq] at hrep
  rw [hrc, hstate, ite_self]
  refine ⟨?_, hrep⟩
  by_cases hnil : v.nodes = []
  · rw [if_pos (h.head_none.mpr hnil), if_pos hnil]
  · rw [if_neg (mt h.head_none.mp hnil), if_neg hnil]

theorem fuel (h : Represents h0 l v) (pos : Option ℕ) :
    (v.restFrom objects pos).length < l.totalEntries.toNat+1 := by
  have hlength := h.length
  have hrest : (v.restFrom objects pos).length ≤ v.nodes.length := by
    cases pos with
    | none => exact Nat.zero_le _
    | some i =>
      have hdrop := List.length_drop (i := i) (l := v.elements objects)
      have hmap : (v.elements objects).length = v.nodes.length := List.length_map _
      change ((v.elements objects).drop i).length ≤ _
      omega
  rw [h.count]
  omega

/-- Behind the current element comes the rest without it. -/
theorem restFrom_next (h : Represents h0 l v) :
    v.restFrom objects (if v.nextPlace < v.nodes.length then some v.nextPlace else none) =
      (v.restFrom objects v.pos).tail := by
  cases hpos : v.pos with
  | none =>
    have hplace : v.nextPlace = v.nodes.length := by rw [Listed.nextPlace, hpos]; rfl
    rw [hplace, if_neg (Nat.lt_irrefl _)]
    rfl
  | some i =>
    have hi := h.pos i hpos
    have hplace : v.nextPlace = i+1 := by rw [Listed.nextPlace, hpos]; rfl
    obtain ⟨⟨a, d⟩, hnode⟩ : ∃ node, v.nodes[i]? = some node := ⟨_, List.getElem?_eq_getElem hi⟩
    rw [hplace, restFrom_cons objects hnode, List.tail_cons]
    by_cases hlt : i+1 < v.nodes.length
    · rw [if_pos hlt]
    · have hend : v.restFrom objects (some (i+1)) = [] :=
        List.drop_eq_nil_of_le (by rw [Listed.elements, List.length_map]; omega)
      rw [if_neg hlt, hend]
      rfl

theorem cursor_eq {v' : Listed} (hnodes : v'.nodes = v.nodes) :
    v'.cursor objects = { v.cursor objects with rest := v'.restFrom objects v'.pos } := by
  unfold Listed.cursor Listed.elements
  rw [hnodes]

/-- The search from the head is that of the cursor over the elements. -/
theorem findTag (h : Represents h0 l v) (pTag : Bytes) :
    ∃ found l' v', XmlList.findTag objects pTag l = .ok (found, l') ∧ Represents h0 l' v' ∧
      (found.map objects, v'.cursor objects) = (v.cursor objects).findTag pTag := by
  obtain ⟨hcode, hrep⟩ := h.saved.headed
  unfold XmlList.findTag
  by_cases hnil : v.nodes = []
  · obtain ⟨l', hrestore, hrep'⟩ := hrep.restored rfl
    refine ⟨none, l', _, ?_, hrep', ?_⟩
    · dsimp only
      rw [hcode, if_pos hnil, if_neg (by decide), hrestore]
      rfl
    · have helements : (v.cursor objects).xmlElements = [] := by
        unfold Listed.cursor Listed.elements
        rw [hnil]
        rfl
      have hfind : (v.cursor objects).findTag pTag = (none, v.cursor objects) := by
        unfold XmlCursor.findTag
        rw [helements]
        rfl
      rw [hfind]
      rfl
  · have hpos : 0 < v.nodes.length := List.length_pos_iff.mpr hnil
    rw [if_pos hpos] at hrep
    obtain ⟨found, l', v', hloop, hrep', hnodes, hfound⟩ :=
      hrep.searchLoop objects pTag none rfl (hrep.fuel objects _)
    refine ⟨found, l', v', ?_, hrep', ?_⟩
    · dsimp only
      rw [hcode, if_neg hnil, if_pos rfl, hloop]
    · rw [cursor_eq objects (v := v) hnodes]
      unfold XmlCursor.findTag
      change (found.map objects, v'.restFrom objects v'.pos) =
        match (v.elements objects).dropWhile fun e => ! e.isTag pTag with
        | [] => (none, v.restFrom objects v.pos)
        | e :: rest => (some e, e :: rest) at hfound
      change _ = match (v.elements objects).dropWhile fun e => ! e.isTag pTag with
        | [] => (none, v.cursor objects)
        | e :: rest => (some e, { v.cursor objects with rest := e :: rest })
      cases hdrop : (v.elements objects).dropWhile fun e => ! e.isTag pTag with
      | nil =>
        rw [hdrop] at hfound
        rw [(Prod.mk.inj hfound).1, (Prod.mk.inj hfound).2]
        rfl
      | cons e rest =>
        rw [hdrop] at hfound
        rw [(Prod.mk.inj hfound).1, (Prod.mk.inj hfound).2]

/-- The search from the next element on is that of the cursor. -/
theorem findNextTag (h : Represents h0 l v) (pTag : Bytes) (pNot : Option Bytes) :
    ∃ found l' v', XmlList.findNextTag objects pTag pNot l = .ok (found, l') ∧
      Represents h0 l' v' ∧
      (found.map objects, v'.cursor objects) = (v.cursor objects).findNextTag pTag pNot := by
  obtain ⟨l₁, hmove, hrep⟩ := h.saved.moved
  obtain ⟨found, l', v', hloop, hrep', hnodes, hfound⟩ :=
    hrep.searchLoop objects pTag pNot rfl (hrep.fuel objects _)
  refine ⟨found, l', v', ?_, hrep', ?_⟩
  · unfold XmlList.findNextTag
    rw [hmove, ok_bind]
    exact hloop
  · have htail := h.restFrom_next objects
    change (found.map objects, v'.restFrom objects v'.pos) =
      match (v.restFrom objects (if v.nextPlace < v.nodes.length then some v.nextPlace
          else none)).dropWhile fun e => ! (pNot.any e.isTag || e.isTag pTag) with
      | [] => (none, v.restFrom objects v.pos)
      | e :: rest => (if pNot.any e.isTag then none else some e, e :: rest) at hfound
    rw [htail] at hfound
    rw [cursor_eq objects (v := v) hnodes]
    unfold XmlCursor.findNextTag
    change _ = match (v.restFrom objects v.pos).tail.dropWhile fun e =>
        ! (pNot.any e.isTag || e.isTag pTag) with
      | [] => (none, v.cursor objects)
      | e :: rest => (if pNot.any e.isTag then none else some e,
          { v.cursor objects with rest := e :: rest })
    cases hdrop : (v.restFrom objects v.pos).tail.dropWhile fun e =>
        ! (pNot.any e.isTag || e.isTag pTag) with
    | nil =>
      rw [hdrop] at hfound
      rw [(Prod.mk.inj hfound).1, (Prod.mk.inj hfound).2]
      rfl
    | cons e rest =>
      rw [hdrop] at hfound
      rw [(Prod.mk.inj hfound).1, (Prod.mk.inj hfound).2]

/-- `Flush` from a place of the list deletes the objects from there to the head. -/
theorem flushLoop (h : Represents h0 l v) {i n : ℕ} (hi : v.pos = some i) (hn : i < n) :
    ∃ l' v', XmlList.flushLoop n l = .ok (((v.nodes.take (i+1)).map Prod.snd).reverse, l') ∧
      Represents h0 l' v' ∧ v'.nodes = v.nodes := by
  induction n generalizing l v i with
  | zero => exact absurd hn (Nat.not_lt_zero _)
  | succ n ih =>
    have hlt := h.pos i hi
    obtain ⟨⟨a, d⟩, hnode⟩ : ∃ node, v.nodes[i]? = some node := ⟨_, List.getElem?_eq_getElem hlt⟩
    have htake : ((v.nodes.take (i+1)).map Prod.snd).reverse =
        d :: ((v.nodes.take i).map Prod.snd).reverse := by
      rw [List.take_add_one, hnode, Option.toList_some, List.map_append, List.reverse_append]
      rfl
    obtain ⟨hrep, hcode⟩ := h.moveTo v.prevPlace xmllitelistBegin
    rw [moveTo_eq] at hrep hcode
    unfold XmlList.flushLoop
    rw [h.getData, ok_bind, hi, Option.bind_some, hnode, htake, h.movePrev, ok_bind,
      ← ListAnswer.code.inj hcode]
    dsimp only
    have hnil : v.nodes ≠ [] := fun hnil => by
      rw [hnil] at hlt
      exact Nat.not_lt_zero _ hlt
    cases i with
    | zero =>
      have hplace : v.prevPlace = v.nodes.length := by rw [Listed.prevPlace, hi]; rfl
      rw [hplace, if_neg (Nat.lt_irrefl _)] at hrep ⊢
      rw [if_neg hnil, if_neg (by decide)]
      exact ⟨_, _, rfl, hrep, rfl⟩
    | succ i =>
      have hplace : v.prevPlace = i := by rw [Listed.prevPlace, hi]; rfl
      have hin : i < v.nodes.length := by omega
      rw [hplace] at hrep ⊢
      rw [if_pos hin, if_pos rfl]
      obtain ⟨l', v', hloop, hrep', hnodes⟩ := ih (i := i) hrep (if_pos hin) (by omega)
      refine ⟨l', v', ?_, hrep', hnodes⟩
      rw [hloop]
      rfl

/-- `Flush` deletes every object once, the last one first, and leaves the memory as it was before
the list. -/
theorem flush (h : Represents h0 l v) : ∃ l' v',
    l.flush = .ok ((v.nodes.map Prod.snd).reverse, l') ∧ Represents h0 l' v' ∧ v'.nodes = [] ∧
      l'.heap = h0 := by
  have hempty {l' : XmlList} {v' : Listed} (hrep : Represents h0 l' v') (hnil : v'.nodes = []) :
      l'.heap = h0 := by
    funext a
    exact hrep.others a (by rw [hnil]; exact List.not_mem_nil)
  obtain ⟨hrc, hstate⟩ := h.moveToTail
  obtain ⟨hrep, hcode⟩ := h.moveTo (v.nodes.length-1) xmllitelistOk
  rw [moveTo_eq] at hrep hcode
  rw [← ListAnswer.code.inj hcode] at hrc
  rw [← hstate] at hrep
  unfold XmlList.flush
  by_cases hnil : v.nodes = []
  · have hlength : ¬ v.nodes.length-1 < v.nodes.length := by
      rw [hnil]
      exact Nat.lt_irrefl 0
    obtain ⟨l', hclear, hrep'⟩ := hrep.clear
    refine ⟨l', _, ?_, hrep', Listed.nodes_clear _, hempty hrep' (Listed.nodes_clear _)⟩
    dsimp only
    rw [hrc, if_neg hlength, if_pos hnil, if_neg (by decide), hclear, hnil]
    rfl
  · have hlength : v.nodes.length-1 < v.nodes.length := by
      have hpos := List.length_pos_iff.mpr hnil
      omega
    have hfuel : v.nodes.length-1 < l.moveToTail.2.totalEntries.toNat+1 := by
      have hcount := hrep.count
      have hadded := h.length
      dsimp only at hcount
      omega
    obtain ⟨l₁, v₁, hloop, hrep₁, hnodes⟩ := hrep.flushLoop (if_pos hlength) hfuel
    obtain ⟨l', hclear, hrep'⟩ := hrep₁.clear
    have hall : v.nodes.take (v.nodes.length-1+1) = v.nodes :=
      List.take_of_length_le (by omega)
    refine ⟨l', _, ?_, hrep', Listed.nodes_clear _, hempty hrep' (Listed.nodes_clear _)⟩
    dsimp only at hloop ⊢
    rw [hrc, if_pos hlength, if_pos rfl, hloop, ok_bind, hall]
    dsimp only
    rw [hclear]
    rfl

end Represents

/-- The searches that a reader of a document makes. -/
inductive SearchCall
  | findTag (pTag : Bytes)
  | findNextTag (pTag : Bytes) (pNot : Option Bytes)

def XmlList.search (objects : ℕ → XmlElement) (l : XmlList) : SearchCall → Cxx (Option ℕ × XmlList)
  | .findTag pTag => XmlList.findTag objects pTag l
  | .findNextTag pTag pNot => XmlList.findNextTag objects pTag pNot l

def XmlList.searchRun (objects : ℕ → XmlElement) (l : XmlList) :
    List SearchCall → Cxx (List (Option ℕ) × XmlList)
  | [] => pure ([], l)
  | c :: cs => do
    let (found, l) ← l.search objects c
    let (more, l) ← l.searchRun objects cs
    pure (found :: more, l)

def XmlCursor.search (c : XmlCursor) : SearchCall → Option XmlElement × XmlCursor
  | .findTag pTag => c.findTag pTag
  | .findNextTag pTag pNot => c.findNextTag pTag pNot

def XmlCursor.searchRun (c : XmlCursor) : List SearchCall → List (Option XmlElement) × XmlCursor
  | [] => ([], c)
  | s :: ss =>
    ((c.search s).1 :: ((c.search s).2.searchRun ss).1, ((c.search s).2.searchRun ss).2)

theorem Represents.search {h0 : Heap ℕ} {l : XmlList} {v : Listed} (h : Represents h0 l v)
    (objects : ℕ → XmlElement) (c : SearchCall) : ∃ found l' v',
    l.search objects c = .ok (found, l') ∧ Represents h0 l' v' ∧
      (found.map objects, v'.cursor objects) = (v.cursor objects).search c := by
  cases c with
  | findTag pTag => exact h.findTag objects pTag
  | findNextTag pTag pNot => exact h.findNextTag objects pTag pNot

/-- Whatever a reader searches for, one search after the other, the pointers of the list lead it to
the elements that the cursor over the elements gives. -/
theorem XmlList.searchRun_refines {h0 : Heap ℕ} {l : XmlList} {v : Listed} (h : Represents h0 l v)
    (objects : ℕ → XmlElement) (cs : List SearchCall) : ∃ found l' v',
    l.searchRun objects cs = .ok (found, l') ∧ Represents h0 l' v' ∧
      (found.map (·.map objects), v'.cursor objects) = (v.cursor objects).searchRun cs := by
  induction cs generalizing l v with
  | nil => exact ⟨[], l, v, rfl, h, rfl⟩
  | cons c cs ih =>
    obtain ⟨first, l₁, v₁, hsearch, hrep, hfirst⟩ := h.search objects c
    obtain ⟨found, l', v', hrun, hrep', hfound⟩ := ih hrep
    refine ⟨first :: found, l', v', ?_, hrep', ?_⟩
    · unfold XmlList.searchRun
      rw [hsearch, ok_bind]
      dsimp only
      rw [hrun]
      rfl
    · unfold XmlCursor.searchRun
      rw [← hfirst]
      dsimp only
      rw [← hfound]
      rfl

/-- After any run, `Flush` deletes the objects of the list once each, from the last to the first,
and gives back all of its memory. -/
theorem XmlList.flush_run (h0 : Heap ℕ) {cs : List ListCall}
    (hcs : AllowedRun { heap := h0 } {} cs) : ∃ l l',
    ({ heap := h0 } : XmlList).run cs = .ok ((({} : Listed).run cs).1, l) ∧
      l.flush = .ok (((({} : Listed).run cs).2.nodes.map Prod.snd).reverse, l') ∧
      l'.heap = h0 := by
  obtain ⟨l, hrun, hrep⟩ := (represents_empty h0).run hcs
  obtain ⟨l', -, hflush, -, -, hheap⟩ := hrep.flush
  exact ⟨l, l', hrun, hflush, hheap⟩

theorem flush_smallRun : ∃ l l', ({ heap := fun _ => none } : XmlList).run
    [.add (some 8) 1, .add (some 4) 2, .add none 3, .moveNext] =
      .ok ([.code 0, .code 0, .code 3, .code 0], l) ∧
    l.flush = .ok ([2, 1], l') ∧ l'.heap = fun _ => none :=
  XmlList.flush_run _ ⟨⟨rfl, by decide⟩, ⟨rfl, by decide⟩, trivial, trivial, trivial⟩

/-- The objects at odd and at even addresses have different tags. -/
def twoTags (d : ℕ) : XmlElement := { xmlTagName := some (bytes (if d % 2 = 1 then "a" else "b")) }

/-- Three nodes, a search for the second, one that goes on to the third, one that is stopped there,
and one that finds nothing and goes back. -/
theorem searchRun_three : ∃ l found l' v',
    ({ heap := fun _ => none } : XmlList).run [.add (some 8) 1, .add (some 4) 2, .add (some 6) 3] =
        .ok ([.code 0, .code 0, .code 0], l) ∧
      l.searchRun twoTags [.findTag (bytes "b"), .findNextTag (bytes "a") none,
        .findTag (bytes "a"), .findNextTag (bytes "a") (some (bytes "b")), .findTag (bytes "c")] =
        .ok (found, l') ∧ Represents (fun _ => none) l' v' ∧
      (found.map (·.map twoTags), v'.cursor twoTags) =
        ([some (twoTags 2), some (twoTags 3), some (twoTags 1), none, none],
          ⟨[twoTags 1, twoTags 2, twoTags 3], [twoTags 2, twoTags 3]⟩) := by
  obtain ⟨l, hrun, hrep⟩ := @Represents.run _ _ _ (represents_empty fun _ => none)
    [.add (some 8) 1, .add (some 4) 2, .add (some 6) 3]
    ⟨⟨rfl, by decide⟩, ⟨rfl, by decide⟩, ⟨rfl, by decide⟩, trivial⟩
  obtain ⟨found, l', v', hsearch, hrep', hfound⟩ := XmlList.searchRun_refines hrep twoTags
    [.findTag (bytes "b"), .findNextTag (bytes "a") none, .findTag (bytes "a"),
      .findNextTag (bytes "a") (some (bytes "b")), .findTag (bytes "c")]
  exact ⟨l, found, l', v', hrun, hsearch, hrep', hfound.trans rfl⟩

end MsgCourier
