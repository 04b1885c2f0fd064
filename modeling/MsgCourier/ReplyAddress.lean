import MsgCourier.DatagramRun
import MsgCourier.HandlerIndependence
import MsgCourier.MsgQueue
import MsgCourier.RoutingForms

/-! The address of a reply: what `TransmitMsg` cuts out of `To` between the first `@` and the first
`:`, beside what `cRoutingTag` reads in the same text. -/
namespace MsgCourier
open ListSearch CText ZeroFill

/-- Bytes that the address has in `To`; negative when the marks are in the wrong order. -/
def serverLength (msgTo : Bytes) : ℤ := serverEnd msgTo-serverStart msgTo-1

/-- The cut lies in the text and is the address of the tag, and the port is its port. -/
structure CutAgrees (msgTo : Bytes) : Prop where
  nonneg : 0 ≤ serverLength msgTo
  inside : serverStart msgTo+1+serverLength msgTo ≤ msgTo.length
  address : (msgTo.drop (serverStart msgTo+1).toNat).take (serverLength msgTo).toNat =
    (({} : RoutingTag).setTag msgTo).sTagIPAddr
  port : atoi (msgTo.drop (serverEnd msgTo+1).toNat) =
    atoi (({} : RoutingTag).setTag msgTo).sTagPort

namespace CutAgrees
open RoutingTag

variable {tag n u v : Bytes}

/-- With the marks in order the cut is the text between them. -/
theorem of_both (h0 : 0 ∉ n ++ 64 :: (u ++ 58 :: v)) (hn : 64 ∉ n) (hcn : 58 ∉ n) (hu : 58 ∉ u) :
    CutAgrees (n ++ 64 :: (u ++ 58 :: v)) ↔ u ≠ [] ∧ (u.length : ℤ) ≤ intMax := by
  have hstart : serverStart (n ++ 64 :: (u ++ 58 :: v)) = n.length := findByte_append hn _
  have hend : serverEnd (n ++ 64 :: (u ++ 58 :: v)) = n.length+1+u.length := findByte_both hcn hu v
  have hlength : serverLength (n ++ 64 :: (u ++ 58 :: v)) = u.length := by
    rw [serverLength, hstart, hend]
    omega
  have hlen : u.length < (n ++ 64 :: (u ++ 58 :: v)).length := by
    simp only [List.length_append, List.length_cons]
    omega
  have htag := setTag_both {} h0 hn hcn hu
  have hport : (n ++ 64 :: (u ++ 58 :: v)).drop ((n.length : ℤ)+1+u.length+1).toNat = v := by
    have hcount : (n.length : ℤ)+1+u.length = (n ++ 64 :: u).length := by
      rw [List.length_append, List.length_cons]
      omega
    have hsplit : n ++ 64 :: (u ++ 58 :: v) = (n ++ 64 :: u) ++ 58 :: v := by
      rw [List.append_assoc, List.cons_append]
    rw [hcount, hsplit, after_mark]
  have hcut : ((n ++ 64 :: (u ++ 58 :: v)).drop ((n.length : ℤ)+1).toNat).take
      (u.length : ℤ).toNat = u := by
    rw [after_mark, Int.toNat_natCast, List.take_left]
  rw [← cut_eq_iff hlen fun h => by simp [h]]
  constructor
  · intro h
    have haddr := h.address
    rw [hstart, hlength, hcut, htag, built_addr] at haddr
    exact haddr.symm
  · intro haddr
    refine ⟨by omega, by rw [hstart, hlength, List.length_append, List.length_cons,
      List.length_append]; omega, ?_, ?_⟩
    · rw [hstart, hlength, hcut, htag, built_addr]
      exact haddr.symm
    · rw [hend, hport, htag, built_port]

/-- On a full tag the two readings agree when a clean address stands between the marks. -/
theorem iff_clean {name addr port : Bytes} (hname : name ≠ []) (hn : 64 ∉ name)
    (h0 : 0 ∉ name ++ 64 :: (addr ++ 58 :: port)) :
    CutAgrees (name ++ 64 :: (addr ++ 58 :: port)) ↔
      CleanAddress (name ++ 64 :: (addr ++ 58 :: port)) := by
  rcases findByte_cases 58 name with ⟨hcn, -⟩ | ⟨a, e, rfl, ha, -⟩
  · rcases findByte_cases 58 addr with ⟨haddr, -⟩ | ⟨u, v, rfl, hu, -⟩
    · rw [of_both h0 hn hcn haddr, clean_iff hn hcn haddr]
      exact (and_iff_right hname).symm
    · rw [List.append_assoc, List.cons_append] at h0 ⊢
      rw [of_both h0 hn hcn hu, clean_iff hn hcn hu]
      exact (and_iff_right hname).symm
  · -- the name holds a `:`, so the cut would end before it starts
    have hstart := findByte_append hn (addr ++ 58 :: port)
    have hend : findByte 58 ((a ++ 58 :: e) ++ 64 :: (addr ++ 58 :: port)) = a.length := by
      rw [List.append_assoc, List.cons_append]
      exact findByte_append ha _
    rw [List.length_append, List.length_cons] at hstart
    refine iff_of_false (fun h => ?_) fun h => ?_
    · have hnonneg := h.nonneg
      change 0 ≤ findByte 58 _-findByte 64 _-1 at hnonneg
      omega
    · have horder := h.2.1
      omega

theorem iff_addressStands {F : Bytes} (h0 : 0 ∉ F) :
    CutAgrees (({} : RoutingTag).setTag F).getTag ↔ AddressStands F := by
  rw [← clean_getTag_iff {} h0]
  have hzero := zero_notMem_getTag {} h0
  rcases getTag_forms {} h0 with ⟨hfull, hat, hcolon⟩ | ⟨name, addr, port, hfull, hname, hn⟩
  · -- without marks the length is -1, and `Append` would take the rest of the block
    rw [hfull]
    have hstart : serverStart F = -1 := findByte_none hat
    have hend : serverEnd F = -1 := findByte_none hcolon
    refine iff_of_false (fun h => ?_) fun h => ?_
    · have hnonneg := h.nonneg
      rw [serverLength, hstart, hend] at hnonneg
      omega
    · have hpos := h.1
      rw [findByte_none hat] at hpos
      omega
  · rw [hfull] at hzero ⊢
    exact iff_clean hname hn hzero

end CutAgrees

namespace ConnectionHandlerOutbound

/-- Where the cut agrees with the tag, a handler with any history sets the address and the port of
the tag. -/
theorem setServer_of_cutAgrees [Malloc] {h : ConnectionHandlerOutbound} {m : Msg} (hs : h.Sound)
    (hto : cstr m.msgTo ≠ []) (hsize : ((cstr m.msgTo).length : ℤ)+8 ≤ intMax)
    (hcut : CutAgrees (cstr m.msgTo)) :
    ∃ h', h.setServer m = .ok h' ∧
      h'.serverAddr.Holds (({} : RoutingTag).setTag (cstr m.msgTo)).sTagIPAddr ∧
      h'.serverPort = atoi (({} : RoutingTag).setTag (cstr m.msgTo)).sTagPort := by
  have hnonneg := hcut.nonneg
  unfold serverLength at hnonneg
  have hserver : serverOf (cstr m.msgTo) = some
      (((cstr m.msgTo).drop (serverStart (cstr m.msgTo)+1).toNat).take
        (serverLength (cstr m.msgTo)).toNat,
        atoi ((cstr m.msgTo).drop (serverEnd (cstr m.msgTo)+1).toNat)) := by
    unfold serverOf
    dsimp only
    rw [if_neg (by omega), if_neg (by omega)]
    rfl
  rw [hcut.address, hcut.port] at hserver
  exact (setServer_of_to hs hto hsize).2 _ _ hserver

end ConnectionHandlerOutbound

namespace Msg

/-- What a transmission takes from `To`, if there is one: the cut agrees with the tag, and every
handler that can hold the text sets the address and the port of the tag. -/
def AddressTaken [Malloc] (m : Msg) : Prop :=
  cstr m.msgTo ≠ [] → CutAgrees (cstr m.msgTo) ∧
    ∀ h : ConnectionHandlerOutbound, h.Sound → ((cstr m.msgTo).length : ℤ)+8 ≤ intMax →
      ∃ h', h.setServer m = .ok h' ∧
        h'.serverAddr.Holds (({} : RoutingTag).setTag (cstr m.msgTo)).sTagIPAddr ∧
        h'.serverPort = atoi (({} : RoutingTag).setTag (cstr m.msgTo)).sTagPort

/-- The `From` text of the header a message was parsed from. -/
def fromText (m : Msg) : Bytes := cstr (m.headerExtract.getValue (bytes "From"))

theorem replyTo_msgTo (pNewMsg pToThisMsg : Msg) :
    (pNewMsg.replyTo pToThisMsg).msgTo = cstr pToThisMsg.msgFrom := by
  unfold replyTo
  cases pToThisMsg.msgConnectionType <;> rfl

theorem tagField_eq (value : Bytes) :
    tagField value = (({} : RoutingTag).setTag (cstr value)).getTag := by
  unfold tagField
  split_ifs with hne
  · rw [normalizeTag, RoutingTag.setTag_cstr]
  · have hnil : value = [] := List.eq_nil_of_length_eq_zero (not_not.mp hne)
    rw [hnil]
    decide

theorem msgFrom_of_parse [Malloc] {m : Msg} {ct : MsgConnectionType} {ms : MsgFormat}
    {newID : Bytes} {r : ℤ × Msg} (hok : m.parse ct ms newID = .ok r) :
    r.2.msgFrom = (({} : RoutingTag).setTag r.2.fromText).getTag := by
  obtain ⟨status, command, x, b, raw, i, rc, -, rfl⟩ := parse_inv hok
  exact tagField_eq (x.getValue (bytes "From"))

theorem getTag_eq_nil_iff {F : Bytes} (h0 : 0 ∉ F) :
    (({} : RoutingTag).setTag F).getTag = [] ↔ F = [] := by
  constructor
  · intro hnil
    rcases RoutingTag.getTag_forms {} h0 with ⟨hfull, -⟩ | ⟨name, addr, port, hfull, -⟩
    · exact hfull.symm.trans hnil
    · rw [hfull] at hnil
      exact absurd hnil (List.append_ne_nil_of_right_ne_nil _ (List.cons_ne_nil _ _))
  · rintro rfl
    decide

/-- For which `From` headers the reply to a parsed message gets the address of its sender. -/
theorem addressTaken_replyTo_iff [Malloc] {m : Msg} {ct : MsgConnectionType} {ms : MsgFormat}
    {newID : Bytes} {r : ℤ × Msg} (hok : m.parse ct ms newID = .ok r) (pNewMsg : Msg) :
    (pNewMsg.replyTo r.2).AddressTaken ↔
      r.2.fromText = [] ∨ RoutingTag.AddressStands r.2.fromText := by
  have h0 : 0 ∉ r.2.fromText := zero_notMem_cstr _
  have hzero := RoutingTag.zero_notMem_getTag {} h0
  have hto : cstr (pNewMsg.replyTo r.2).msgTo = (({} : RoutingTag).setTag r.2.fromText).getTag := by
    rw [replyTo_msgTo, msgFrom_of_parse hok, cstr_eq_self hzero, cstr_eq_self hzero]
  have hnil := getTag_eq_nil_iff h0
  constructor
  · intro h
    by_cases hempty : r.2.fromText = []
    · exact Or.inl hempty
    · have hne : cstr (pNewMsg.replyTo r.2).msgTo ≠ [] := by
        rw [hto]
        exact fun h => hempty (hnil.mp h)
      have hcut := (h hne).1
      rw [hto] at hcut
      exact Or.inr ((CutAgrees.iff_addressStands h0).mp hcut)
  · rintro (hempty | hstands) hne
    · rw [hto] at hne
      exact absurd (hnil.mpr hempty) hne
    · have hcut : CutAgrees (cstr (pNewMsg.replyTo r.2).msgTo) := by
        rw [hto]
        exact (CutAgrees.iff_addressStands h0).mpr hstands
      refine ⟨hcut, fun h hs hsize => ?_⟩
      exact ConnectionHandlerOutbound.setServer_of_cutAgrees hs hne hsize hcut

/-- A message as it lies in the buffer of a connection. -/
def arrived (text : Bytes) : Msg :=
  { msgBuffer :=
      { pBuffer := some (text ++ [0]), bufferSize := text.length+1, tail := text.length } }

theorem fromText_of_arrived [Malloc] {text F : Bytes}
    (h : ((arrived text).parse .ibTcp .notify (bytes "1")).map (fun r => r.2.fromText) = .ok F) :
    ∃ r, (arrived text).parse .ibTcp .notify (bytes "1") = .ok r ∧ r.2.fromText = F := by
  cases hr : (arrived text).parse .ibTcp .notify (bytes "1") with
  | ok r =>
    rw [hr] at h
    exact ⟨r, rfl, Except.ok.inj h⟩
  | error e =>
    rw [hr] at h
    cases h

def bobHeader : Bytes := bytes "NOTIFY MCP/1.0\r\nFrom: bob@10.0.0.1:3400\r\n\r\n"

theorem bobHeader_from : ((arrived bobHeader).parse .ibTcp .notify (bytes "1")).map
    (fun r => r.2.fromText) = .ok (bytes "bob@10.0.0.1:3400") := by decide

theorem addressTaken_complete : ∃ r,
    (arrived bobHeader).parse .ibTcp .notify (bytes "1") = .ok r ∧
      (({} : Msg).replyTo r.2).AddressTaken := by
  obtain ⟨r, hr, hF⟩ := fromText_of_arrived bobHeader_from
  refine ⟨r, hr, (addressTaken_replyTo_iff hr {}).mpr (Or.inr ?_)⟩
  rw [hF]
  unfold RoutingTag.AddressStands
  decide

def nodeHeader : Bytes := bytes "NOTIFY MCP/1.0\r\nFrom: node\r\n\r\n"

theorem nodeHeader_from : ((arrived nodeHeader).parse .ibTcp .notify (bytes "1")).map
    (fun r => r.2.fromText) = .ok (bytes "node") := by decide

/-- `From: node`: the length is -1, and the tag has no address at all. -/
theorem addressTaken_node : ¬ ∀ (m : Msg) (ct : MsgConnectionType) (ms : MsgFormat) (newID : Bytes)
    (r : ℤ × Msg), m.parse ct ms newID = .ok r → ∀ pNewMsg : Msg,
      (pNewMsg.replyTo r.2).AddressTaken := by
  intro h
  obtain ⟨r, hr, hF⟩ := fromText_of_arrived nodeHeader_from
  have hfrom := msgFrom_of_parse hr
  rw [hF] at hfrom
  have hto : cstr (({} : Msg).replyTo r.2).msgTo = bytes "node" := by
    rw [replyTo_msgTo, hfrom]
    decide
  have htaken := h _ _ _ _ r hr {}
  unfold AddressTaken at htaken
  rw [hto] at htaken
  have hnonneg := (htaken (by decide)).1.nonneg
  exact absurd hnonneg (by decide)

end Msg
end MsgCourier
