import MsgCourier.RoutingForms

/-! The five forms of a tag, with any name, address and port, and the tags that a second hop leaves
as the first one normalised them. -/
namespace MsgCourier
open ListSearch CText

namespace RoutingTag

def getTagName (x : RoutingTag) : Bytes := x.sTagName
def getTagIPAddr (x : RoutingTag) : Bytes := x.sTagIPAddr
def getTagPort (x : RoutingTag) : Bytes := x.sTagPort

end RoutingTag

/-- A name, address or port a tag can be put together from. -/
structure TagPart where
  text : Bytes
  nul : 0 ∉ text
  noAt : 64 ∉ text
  noColon : 58 ∉ text

/-- The five forms of a tag, and a tag of any form that is set again. -/
inductive TagInput
  | complete (name ip port : TagPart)
  | noPort (name ip : TagPart)
  | noName (ip port : TagPart)
  | address (ip port : TagPart)
  | nameOnly (name : TagPart)
  | again (tag : Bytes)

namespace RoutingTag

/-- The accessors give these parts, and the default for each that is missing. -/
def Gives (y : RoutingTag) (name ip port : Bytes) : Prop :=
  y.getTagName = orDefault (bytes "unknown") name ∧
    y.getTagIPAddr = orDefault (bytes "0.0.0.0") ip ∧
    y.getTagPort = orDefault (bytes "0000") port

/-- What normal forms are for: the tag stays, and so finds the record stored under it. -/
def Stable (y : RoutingTag) : Prop :=
  (y.setTag y.getTag).getTag = y.getTag ∧
    ∀ (peers : PeerRoutingMap) (ip : Bytes) (port fd : ℤ),
      (peers.addRecord y.getTag ip port fd).getSocket (y.setTag y.getTag).getTag = fd

/-- What is asked of `SetTag` for an input, on an object that has held any tag before. -/
def Normalises (x : RoutingTag) : TagInput → Prop
  | .complete n i p =>
    (x.setTag (n.text ++ 64 :: (i.text ++ 58 :: p.text))).Gives n.text i.text p.text
  | .noPort n i => (x.setTag (n.text ++ 64 :: i.text)).Gives n.text i.text []
  | .noName i p => (x.setTag (64 :: (i.text ++ 58 :: p.text))).Gives [] i.text p.text
  | .address i p => (x.setTag (i.text ++ 58 :: p.text)).Gives [] i.text p.text
  | .nameOnly n => (x.setTag n.text).Gives n.text [] []
  | .again tag => (x.setTag tag).Stable

/-- An address that comes out of a tag with a `:` after it. -/
def CutsAddress (ip tag : Bytes) : Prop := if ip = [] then 46 ∉ tag else (ip.length : ℤ) ≤ intMax

/-- The inputs for which `SetTag` does it. -/
def Regular (x : RoutingTag) : TagInput → Prop
  | .complete n i p =>
    p.text ≠ [] ∧ CutsAddress i.text (n.text ++ 64 :: (i.text ++ 58 :: p.text))
  | .noPort n i =>
    -- without a `:` an address is only cut out behind a name of 2 GiB
    if 0 < int32 (-2-n.text.length) then i.text ≠ [] ∧ i.text.length ≤ int32 (-2-n.text.length)
    else i.text = [] ∧ 46 ∉ n.text
  | .noName i p => p.text ≠ [] ∧ CutsAddress i.text (64 :: (i.text ++ 58 :: p.text))
  | .address i p =>
    if i.text = [] then p.text = [] ∨ p.text = bytes "0000"
    else p.text ≠ [] ∧ (i.text.length : ℤ) ≤ intMax
  | .nameOnly n =>
    n.text ≠ [] ∧ x.sTagIPAddr = bytes "0.0.0.0" ∧ x.sTagPort = bytes "0000"
  | .again tag => KeepsTag (cstr tag)

variable (x : RoutingTag) {tag n u v r : Bytes}

theorem gives_built (name addr port n i p : Bytes) :
    (built name addr port).Gives n i p ↔ name = orDefault (bytes "unknown") n ∧
      addr = orDefault (bytes "0.0.0.0") i ∧ port = orDefault (bytes "0000") p := Iff.rfl

theorem port_eq_iff (p : Bytes) : p = orDefault (bytes "0000") p ↔ p ≠ [] := by
  constructor
  · rintro heq rfl
    exact absurd heq (by decide)
  · exact fun h => (orDefault_ne h _).symm

/-- The address of a tag with a `:` is the given one when it was cut out, and the default when there
is none to cut out and no dot in the tag. -/
theorem cutsAddress_iff (hlen : u.length < tag.length) (hdot : 46 ∈ u → 46 ∈ tag)
    (hmark : 64 ∈ tag ∨ 58 ∈ tag) :
    (if 0 < int32 u.length then u.take (int32 u.length).toNat else wholeAddr tag) =
      orDefault (bytes "0.0.0.0") u ↔ CutsAddress u tag := by
  have hcut := cut_eq_iff hlen hdot
  unfold CutsAddress
  split_ifs at hcut ⊢ with hpos hnil hnil
  · rw [hnil] at hpos
    exact absurd hpos (by decide)
  · rw [orDefault_ne hnil, hcut]
    exact and_iff_right hnil
  · rw [hnil, orDefault_nil, wholeAddr_eq_zeros hmark]
  · rw [orDefault_ne hnil, hcut]
    exact and_iff_right hnil

theorem complete_iff (n i p : TagPart) :
    (x.setTag (n.text ++ 64 :: (i.text ++ 58 :: p.text))).Gives n.text i.text p.text ↔
      p.text ≠ [] ∧ CutsAddress i.text (n.text ++ 64 :: (i.text ++ 58 :: p.text)) := by
  have h0 : 0 ∉ n.text ++ 64 :: (i.text ++ 58 :: p.text) := by
    simp only [List.mem_append, List.mem_cons, not_or]
    exact ⟨n.nul, by decide, i.nul, by decide, p.nul⟩
  have hlen : i.text.length < (n.text ++ 64 :: (i.text ++ 58 :: p.text)).length := by
    simp only [List.length_append, List.length_cons]
    omega
  rw [setTag_both x h0 n.noAt n.noColon i.noColon, gives_built, port_eq_iff,
    cutsAddress_iff hlen (fun h => by simp [h]) (Or.inl (by simp))]
  exact ⟨fun h => ⟨h.2.2, h.2.1⟩, fun h => ⟨rfl, h.2, h.1⟩⟩

theorem noPort_iff (n i : TagPart) :
    (x.setTag (n.text ++ 64 :: i.text)).Gives n.text i.text [] ↔
      if 0 < int32 (-2-n.text.length) then i.text ≠ [] ∧ i.text.length ≤ int32 (-2-n.text.length)
      else i.text = [] ∧ 46 ∉ n.text := by
  have h0 : 0 ∉ n.text ++ 64 :: i.text := by
    simp only [List.mem_append, List.mem_cons, not_or]
    exact ⟨n.nul, by decide, i.nul⟩
  have hcolon : 58 ∉ n.text ++ 64 :: i.text := by
    simp only [List.mem_append, List.mem_cons, not_or]
    exact ⟨n.noColon, by decide, i.noColon⟩
  rw [setTag_at x h0 n.noAt hcolon, gives_built, eq_self_iff_true, true_and, orDefault_nil,
    eq_self_iff_true, and_true]
  generalize int32 (-2-n.text.length) = L
  by_cases hnil : i.text = []
  · rw [hnil, orDefault_nil, List.take_nil]
    split_ifs
    · exact iff_of_false (by decide) fun h => h.1 rfl
    · have hdot : 46 ∉ n.text ++ [64] ↔ 46 ∉ n.text := by simp
      rw [wholeAddr_eq_zeros (Or.inl (by simp)), hdot]
      exact ⟨fun h => ⟨rfl, h⟩, And.right⟩
  · rw [orDefault_ne hnil]
    split_ifs with hpos
    · rw [List.take_eq_self_iff]
      exact ⟨fun h => ⟨hnil, (Int.le_toNat hpos.le).mp h⟩, fun h => (Int.le_toNat hpos.le).mpr h.2⟩
    · have hlen : i.text.length < (n.text ++ 64 :: i.text).length := by
        simp only [List.length_append, List.length_cons]
        omega
      have hne := wholeAddr_ne hlen fun h => by simp [h]
      exact iff_of_false hne fun h => hnil h.1

theorem address_iff (i p : TagPart) :
    (x.setTag (i.text ++ 58 :: p.text)).Gives [] i.text p.text ↔
      if i.text = [] then p.text = [] ∨ p.text = bytes "0000"
      else p.text ≠ [] ∧ (i.text.length : ℤ) ≤ intMax := by
  have h0 : 0 ∉ i.text ++ 58 :: p.text := by
    simp only [List.mem_append, List.mem_cons, not_or]
    exact ⟨i.nul, by decide, p.nul⟩
  have hat : 64 ∉ i.text ++ 58 :: p.text := by
    simp only [List.mem_append, List.mem_cons, not_or]
    exact ⟨i.noAt, by decide, p.noAt⟩
  have hlen : i.text.length < (i.text ++ 58 :: p.text).length := by
    simp only [List.length_append, List.length_cons]
    omega
  rw [setTag_colon x h0 hat i.noColon, gives_built, orDefault_nil, eq_self_iff_true, true_and,
    cutsAddress_iff hlen (fun h => by simp [h]) (Or.inr (by simp)), CutsAddress]
  by_cases hnil : i.text = []
  · rw [if_pos hnil, if_pos hnil, if_pos hnil, hnil]
    have hport : bytes "0000" = orDefault (bytes "0000") p.text ↔
        p.text = [] ∨ p.text = bytes "0000" := by
      by_cases hp : p.text = []
      · rw [hp, orDefault_nil]
        exact iff_of_true rfl (Or.inl rfl)
      · rw [orDefault_ne hp]
        exact ⟨fun h => Or.inr h.symm, fun h => (h.resolve_left hp).symm⟩
    rw [hport]
    refine ⟨And.right, fun h => ⟨?_, h⟩⟩
    -- neither of the two ports has a dot
    rcases h with h | h
    · rw [h]
      decide
    · rw [h]
      decide
  · rw [if_neg hnil, if_neg hnil, if_neg hnil, port_eq_iff]
    exact And.comm

theorem nameOnly_iff (n : TagPart) :
    (x.setTag n.text).Gives n.text [] [] ↔
      n.text ≠ [] ∧ x.sTagIPAddr = bytes "0.0.0.0" ∧ x.sTagPort = bytes "0000" := by
  have hname : n.text = orDefault (bytes "unknown") n.text ↔ n.text ≠ [] := by
    constructor
    · intro heq hnil
      rw [hnil] at heq
      exact absurd heq (by decide)
    · exact fun h => (orDefault_ne h _).symm
  rw [setTag_name x n.nul n.noAt n.noColon, ← hname]
  rfl

theorem stable_iff (tag : Bytes) : (x.setTag tag).Stable ↔ KeepsTag (cstr tag) := by
  rw [← stays_iff x (zero_notMem_cstr tag), setTag_cstr]
  constructor
  · exact And.left
  · intro h
    refine ⟨h, fun peers ip port fd => ?_⟩
    rw [h]
    exact PeerRoutingMap.getSocket_addRecord peers _ ip port fd

/-- Which inputs `SetTag` brings into normal form, with every part as given. -/
theorem normalises_iff_regular (x : RoutingTag) (input : TagInput) :
    x.Normalises input ↔ x.Regular input := by
  cases input with
  | complete n i p => exact complete_iff x n i p
  | noPort n i => exact noPort_iff x n i
  | noName i p =>
    exact complete_iff x ⟨[], List.not_mem_nil, List.not_mem_nil, List.not_mem_nil⟩ i p
  | address i p => exact address_iff x i p
  | nameOnly n => exact nameOnly_iff x n
  | again tag => exact stable_iff x tag

/-- `bob@10.0.0.1`: the address is the whole tag. -/
theorem noPort_takes_whole_tag : ¬ ∀ (x : RoutingTag) (input : TagInput), x.Normalises input := by
  intro h
  have hparts := h {} (.noPort ⟨bytes "bob", by decide, by decide, by decide⟩
    ⟨bytes "10.0.0.1", by decide, by decide, by decide⟩)
  exact absurd hparts.2.1 (by decide)

end RoutingTag
end MsgCourier
