import MsgCourier.OutboundContent

/-! The long-lived outbound handler: the states its earlier messages can leave it in, and what of
them a later message can see. -/
namespace MsgCourier
open ListSearch CText

/-! ### Buffers of the handler -/

namespace Buffer

theorem Holds.replaceWith_holds [Malloc] {b : Buffer} {c : Bytes} (h : b.Holds c) {p : Bytes}
    {z : ℤ} {r : ℤ × Buffer} (hr : b.replaceWith (some p) z = .ok r) : ∃ c', r.2.Holds c' := by
  obtain ⟨k, hk, -⟩ := bind_eq_ok.mp hr
  obtain ⟨n, -, -, hholds⟩ := h.replaceWith_inv hk hr
  exact ⟨_, hholds⟩

theorem Holds.getBuffer_holds {b : Buffer} {c : Bytes} (h : b.Holds c) {r : Option Bytes × Buffer}
    (hr : b.getBuffer = .ok r) : r.2.Holds c := by
  obtain ⟨b', hb', hr⟩ := bind_eq_ok.mp hr
  rw [← Except.ok.inj hr]
  rcases h.makeString with ⟨rfl, rfl⟩ | ⟨b'', hb'', hseal⟩
  · rw [← Except.ok.inj hb']
    exact Holds.null
  · rw [hb', Except.ok.injEq] at hb''
    exact hb'' ▸ hseal.holds

end Buffer

namespace ConnectionHandlerOutbound

/-- The three buffers are buffers. -/
structure Sound (h : ConnectionHandlerOutbound) : Prop where
  response : ∃ c, h.response.Holds c
  serverAddr : ∃ c, h.serverAddr.Holds c
  temp : ∃ c, h.temp.Holds c

theorem Sound.setResponse {h : ConnectionHandlerOutbound} (hs : h.Sound) {b : Buffer} {c : Bytes}
    (hb : b.Holds c) : (h.setResponse b).Sound :=
  ⟨⟨c, hb⟩, hs.serverAddr, hs.temp⟩

theorem formatResponse_none [Malloc] {h : ConnectionHandlerOutbound} {env : OutboundEnv} {m : Msg}
    {b : Buffer} (hown : m.ownText env.elapsed.text = none)
    (hb : h.formatResponse env m = .ok b) : b = h.response := by
  unfold formatResponse at hb
  unfold Msg.ownText at hown
  split_ifs at hb hown
  exact (Except.ok.inj hb).symm

theorem formatResponse_holds [Malloc] {h : ConnectionHandlerOutbound} {env : OutboundEnv} {m : Msg}
    {b : Buffer} (hs : h.Sound) (hb : h.formatResponse env m = .ok b) : ∃ c, b.Holds c := by
  obtain ⟨c, hc⟩ := hs.response
  cases hown : m.ownText env.elapsed.text with
  | none => exact ⟨c, formatResponse_none hown hb ▸ hc⟩
  | some text => exact ⟨text, formatResponse_inv hc hown hb⟩

/-- `setServer` changes the address and the port only. -/
theorem setServer_inv [Malloc] {h h' : ConnectionHandlerOutbound} {m : Msg} (hs : h.Sound)
    (hb : h.setServer m = .ok h') : h'.Sound ∧ h'.response = h.response ∧
      h'.bSocketCreated = h.bSocketCreated ∧ h'.bCloseConnection = h.bCloseConnection := by
  unfold setServer at hb
  split_ifs at hb
  · obtain ⟨r, hr, hb⟩ := bind_eq_ok.mp hb
    obtain ⟨q, hq, hb⟩ := bind_eq_ok.mp hb
    obtain ⟨ct, hct⟩ := hs.temp
    obtain ⟨ca, hca⟩ := hs.serverAddr
    obtain ⟨ct', hct'⟩ := hct.replaceWith_holds hr
    have htemp := hct'.getBuffer_holds hq
    obtain ⟨p, temp⟩ := q
    cases p with
    | none => cases hb
    | some mem =>
      obtain ⟨a, ha, hb⟩ := bind_eq_ok.mp hb
      rw [← Except.ok.inj hb]
      exact ⟨⟨hs.response, hca.replaceWith_holds ha, ⟨ct', htemp⟩⟩, rfl, rfl, rfl⟩
  · rw [← Except.ok.inj hb]
    exact ⟨hs, rfl, rfl, rfl⟩

end ConnectionHandlerOutbound

namespace OutboundState

variable {s : OutboundState} {env : OutboundEnv}

/-! ### Steps of a transmission -/

theorem fetch_all (data : Bytes) : fetch data 0 data.length = .ok data := by
  have hf := fetch_ok (show 0+data.length ≤ data.length by omega)
  rwa [Nat.cast_zero, List.drop_zero, List.take_length] at hf

theorem tcpSend_eq_ok {fd : ℤ} {p : Bytes} {n : ℤ} {r : Bool × OutboundState} :
    s.tcpSend fd p n = .ok r ↔ ∃ buf, fetch p 0 n = .ok buf ∧
      r = ((sendLoop buf (s.schedule fd)).bRet, s.afterSend fd (sendLoop buf (s.schedule fd))) := by
  unfold tcpSend
  rw [bind_eq_ok]
  constructor
  · rintro ⟨buf, hbuf, hr⟩
    exact ⟨buf, hbuf, (Except.ok.inj hr).symm⟩
  · rintro ⟨buf, hbuf, hr⟩
    exact ⟨buf, hbuf, by rw [hr, pure_eq_ok]⟩

/-- Sending a whole text. -/
theorem tcpSend_all (s : OutboundState) (fd : ℤ) (data : Bytes) :
    s.tcpSend fd data data.length = .ok ((sendLoop data (s.schedule fd)).bRet,
      s.afterSend fd (sendLoop data (s.schedule fd))) :=
  tcpSend_eq_ok.mpr ⟨data, fetch_all data, rfl⟩

theorem responseBytes_of_holds {c : Bytes} (h : s.handler.response.Holds c) :
    s.responseBytes = .ok c := by
  unfold responseBytes
  rw [h.tail_eq]
  rcases eq_or_ne c [] with rfl | hc
  · have hf := fetch_ok (show 0+0 ≤ (s.handler.response.pBuffer.getD []).length by omega)
    rwa [Nat.cast_zero, List.take_zero] at hf
  · obtain ⟨junk, hb⟩ := h.pBuffer_eq hc
    have hf := fetch_ok (show 0+c.length ≤ (c ++ junk).length by simp)
    rw [hb, Option.getD_some]
    rwa [Nat.cast_zero, List.drop_zero, List.take_left] at hf

/-- What looking for a socket leaves alone. -/
structure Prepared (s t : OutboundState) : Prop where
  sound : t.handler.Sound
  response : t.handler.response = s.handler.response
  sends : t.sends = s.sends
  accepted : acceptedBytes t.actions = acceptedBytes s.actions
  delivered : t.msgDelivered = s.msgDelivered

theorem openTCP_inv {r : ℤ × OutboundState} (hs : s.handler.Sound)
    (hr : s.openTCP env = .ok r) :
    r.1 = env.connect.elim (-1) (fun n => (n : ℤ)) ∧ r.2.pMsg = s.pMsg ∧ Prepared s r.2 := by
  obtain ⟨q, hq, hr⟩ := bind_eq_ok.mp hr
  obtain ⟨c, hc⟩ := hs.serverAddr
  have haddr := hc.getBuffer_holds hq
  obtain ⟨p, serverAddr⟩ := q
  cases p with
  | none => cases hr
  | some mem =>
    cases hconnect : env.connect with
    | none =>
      simp only [hconnect] at hr
      rw [← Except.ok.inj hr]
      exact ⟨rfl, rfl, ⟨hs.response, ⟨c, haddr⟩, hs.temp⟩, rfl, rfl, by simp [act, acceptedBytes],
        rfl⟩
    | some fd =>
      simp only [hconnect] at hr
      rw [← Except.ok.inj hr]
      exact ⟨rfl, rfl, ⟨hs.response, ⟨c, haddr⟩, hs.temp⟩, rfl, rfl, by simp [act, acceptedBytes],
        rfl⟩

end OutboundState

/-- The descriptor the text of a message is sent on. Descriptor 0 of a new connection is not stored
in the message, so -1 is used. -/
def Msg.descriptor (m : Msg) (env : OutboundEnv) : ℤ :=
  if m.tcpSocketHandle = -1 then
    match env.connect with
    | some (n+1) => (n+1 : ℕ)
    | some 0 | none => -1
  else m.tcpSocketHandle

namespace OutboundState

variable {s : OutboundState} {env : OutboundEnv}

theorem findSocket_inv {r : ℤ × OutboundState} (hs : s.handler.Sound)
    (hr : s.findSocket env = .ok r) :
    (r.1 = -1 ↔ s.pMsg.tcpSocketHandle = -1 ∧ env.connect = none) ∧
      r.2.pMsg.tcpSocketHandle = s.pMsg.descriptor env ∧ Prepared s r.2 := by
  unfold findSocket at hr
  unfold Msg.descriptor
  split_ifs at hr ⊢ with hown
  · obtain ⟨q, hq, hr⟩ := bind_eq_ok.mp hr
    obtain ⟨hfd, hmsg, hprep⟩ := openTCP_inv hs hq
    obtain ⟨fd, t⟩ := q
    dsimp only at hfd hmsg hprep hr
    cases hconnect : env.connect with
    | none =>
      rw [hconnect, Option.elim_none] at hfd
      subst hfd
      rw [if_pos (by decide)] at hr
      rw [← Except.ok.inj hr]
      exact ⟨by simp [hown], rfl, ⟨hprep.sound, hprep.response, hprep.sends, hprep.accepted,
        hprep.delivered⟩⟩
    | some n =>
      rw [hconnect, Option.elim_some] at hfd
      subst hfd
      cases n with
      | zero =>
        rw [if_neg (by simp)] at hr
        rw [← Except.ok.inj hr]
        exact ⟨by simp, by rw [hmsg]; exact hown, hprep⟩
      | succ n =>
        rw [if_pos (by omega)] at hr
        rw [← Except.ok.inj hr]
        have hne : ((n+1 : ℕ) : ℤ) ≠ -1 := by omega
        exact ⟨⟨fun h => absurd h hne, fun h => absurd h.2 (Option.some_ne_none _)⟩, rfl,
          ⟨hprep.sound, hprep.response, hprep.sends, hprep.accepted, hprep.delivered⟩⟩
  · rw [← Except.ok.inj hr]
    exact ⟨by simp [hown], rfl, ⟨hs, rfl, rfl, rfl, rfl⟩⟩

@[simp] theorem finish_handler (s : OutboundState) (bRet : Bool) :
    (s.finish bRet).2.handler = s.handler := by
  cases bRet <;> rfl

@[simp] theorem finish_actions (s : OutboundState) (bRet : Bool) :
    (s.finish bRet).2.actions = s.actions := by
  cases bRet <;> rfl

theorem sound_afterSend {fd : ℤ} {r : SendRun} (hs : s.handler.Sound) :
    (s.afterSend fd r).handler.Sound := by
  rw [afterSend_eq]
  exact ⟨hs.response, hs.serverAddr, hs.temp⟩

/-- The header of a page, when the page has none. -/
theorem sendHeader_inv [Malloc] {p : Bytes} {t : OutboundState} (hs : s.handler.Sound)
    (hr : s.sendHeader env p = .ok t) :
    (strstr p (bytes "HTTP/1.") = none ∧ ∃ b, b.Holds (s.pMsg.httpHeader env.serverName) ∧
      t = (s.setHandler (s.handler.setResponse b)).afterSend s.pMsg.tcpSocketHandle
        (sendLoop (s.pMsg.httpHeader env.serverName) (s.schedule s.pMsg.tcpSocketHandle))) ∨
    (strstr p (bytes "HTTP/1.") ≠ none ∧ t = s) := by
  unfold sendHeader at hr
  split_ifs at hr with hpage
  · obtain ⟨b, hb, hr⟩ := bind_eq_ok.mp hr
    obtain ⟨data, hdata, hr⟩ := bind_eq_ok.mp hr
    obtain ⟨q, hq, hr⟩ := bind_eq_ok.mp hr
    obtain ⟨c, hc⟩ := hs.response
    have hprinted := hc.sprintf_inv (s.pMsg.zero_notMem_httpHeader env.serverName) hb
    rw [responseBytes_of_holds hprinted, Except.ok.injEq] at hdata
    rw [← hdata, tcpSend_all, Except.ok.injEq] at hq
    refine Or.inl ⟨hpage, b, hprinted, ?_⟩
    rw [← Except.ok.inj hr, ← hq]
    rfl
  · exact Or.inr ⟨hpage, (Except.ok.inj hr).symm⟩

theorem sendHeader_sound [Malloc] {p : Bytes} {t : OutboundState} (hs : s.handler.Sound)
    (hr : s.sendHeader env p = .ok t) : t.handler.Sound ∧ t.pMsg = s.pMsg := by
  rcases sendHeader_inv hs hr with ⟨-, b, hb, rfl⟩ | ⟨-, rfl⟩
  · exact ⟨sound_afterSend ⟨⟨_, hb⟩, hs.serverAddr, hs.temp⟩, by simp⟩
  · exact ⟨hs, rfl⟩

theorem sendPage_inv [Malloc] {p : Bytes} {r : ℤ × OutboundState} (hs : s.handler.Sound)
    (hr : s.sendPage env p = .ok r) : ∃ t buf, s.sendHeader env p = .ok t ∧
      fetch p 0 s.pMsg.msgContentLength = .ok buf ∧
      r = (t.afterSend s.pMsg.tcpSocketHandle
        (sendLoop buf (t.schedule s.pMsg.tcpSocketHandle))).finish
        (sendLoop buf (t.schedule s.pMsg.tcpSocketHandle)).bRet := by
  obtain ⟨_, -, hr⟩ := bind_eq_ok.mp hr
  obtain ⟨t, ht, hr⟩ := bind_eq_ok.mp hr
  obtain ⟨q, hq, hr⟩ := bind_eq_ok.mp hr
  obtain ⟨buf, hbuf, rfl⟩ := tcpSend_eq_ok.mp hq
  rw [(sendHeader_sound hs ht).2] at hbuf hr
  exact ⟨t, buf, ht, hbuf, (Except.ok.inj hr).symm⟩

theorem sendResponse_inv {c : Bytes} {r : Bool × OutboundState} (hs : s.handler.Sound)
    (hc : s.handler.response.Holds c) (hr : s.sendResponse env = .ok r) :
    ∃ fd t, s.findSocket env = .ok (fd, t) ∧
      ((fd = -1 ∧ r = (false, t)) ∨ (fd ≠ -1 ∧ r = (true, t.afterSend (s.pMsg.descriptor env)
        (sendLoop c (t.schedule (s.pMsg.descriptor env)))))) := by
  obtain ⟨⟨fd, t⟩, ht, hr⟩ := bind_eq_ok.mp hr
  obtain ⟨-, hfd, hprep⟩ := findSocket_inv hs ht
  refine ⟨fd, t, ht, ?_⟩
  dsimp only at hr hfd
  split_ifs at hr with hnone
  · obtain ⟨data, hdata, hr⟩ := bind_eq_ok.mp hr
    obtain ⟨q, hq, hr⟩ := bind_eq_ok.mp hr
    rw [responseBytes_of_holds (hprep.response ▸ hc), Except.ok.injEq] at hdata
    rw [← hdata, hfd, tcpSend_all, Except.ok.injEq] at hq
    refine Or.inr ⟨hnone, ?_⟩
    rw [← Except.ok.inj hr, ← hq]
  · exact Or.inl ⟨not_not.mp hnone, (Except.ok.inj hr).symm⟩

theorem udpSend_sound {r : Bool × OutboundState} (hs : s.handler.Sound)
    (hr : s.udpSend env = .ok r) : r.2.handler.Sound := by
  unfold udpSend at hr
  split_ifs at hr
  · cases hsocket : env.udpSocket with
    | none =>
      rw [hsocket] at hr
      rw [← Except.ok.inj hr]
      exact hs
    | some fd =>
      rw [hsocket] at hr
      obtain ⟨q, hq, hr⟩ := bind_eq_ok.mp hr
      obtain ⟨c, hc⟩ := hs.serverAddr
      have haddr := hc.getBuffer_holds hq
      obtain ⟨p, serverAddr⟩ := q
      cases p with
      | none => cases hr
      | some mem =>
        obtain ⟨data, -, hr⟩ := bind_eq_ok.mp hr
        rw [← Except.ok.inj hr]
        exact ⟨hs.response, ⟨c, haddr⟩, hs.temp⟩
  · obtain ⟨data, -, hr⟩ := bind_eq_ok.mp hr
    rw [← Except.ok.inj hr]
    exact hs

/-- Before anything is sent the text is in the response and the address is set. -/
theorem transmitMsg_inv [Malloc] {r : ℤ × OutboundState}
    (hpage : ¬ (s.pMsg.msgProtocolType = .httpGet ∨ s.pMsg.msgProtocolType = .httpPost))
    (hr : s.transmitMsg env = .ok r) : ∃ response handler q,
      s.handler.formatResponse env s.pMsg = .ok response ∧
      (s.handler.setResponse response).setServer s.pMsg = .ok handler ∧
      (s.setHandler handler).sendByType env = .ok q ∧ r = q.2.finish q.1 := by
  unfold transmitMsg at hr
  rw [if_neg hpage] at hr
  obtain ⟨response, hresponse, hr⟩ := bind_eq_ok.mp hr
  obtain ⟨handler, hhandler, hr⟩ := bind_eq_ok.mp hr
  obtain ⟨q, hq, hr⟩ := bind_eq_ok.mp hr
  exact ⟨response, handler, q, hresponse, hhandler, hq, (Except.ok.inj hr).symm⟩

theorem sendByType_inv {q : Bool × OutboundState} (hq : s.sendByType env = .ok q) :
    (s.pMsg.msgConnectionType = .obUdp ∧ s.udpSend env = .ok q) ∨
      (s.pMsg.msgConnectionType = .obTcp ∧ s.sendResponse env = .ok q) := by
  unfold sendByType at hq
  split_ifs at hq with hudp htcp
  · exact Or.inl ⟨hudp, hq⟩
  · exact Or.inr ⟨htcp, hq⟩

theorem transmitMsg_sound [Malloc] {r : ℤ × OutboundState} (hs : s.handler.Sound)
    (hr : s.transmitMsg env = .ok r) : r.2.handler.Sound := by
  by_cases hpage : s.pMsg.msgProtocolType = .httpGet ∨ s.pMsg.msgProtocolType = .httpPost
  · unfold transmitMsg at hr
    rw [if_pos hpage] at hr
    cases hp : s.pMsg.payloadMem with
    | none =>
      rw [hp] at hr
      rw [← Except.ok.inj hr, finish_handler]
      exact hs
    | some p =>
      rw [hp] at hr
      obtain ⟨t, buf, ht, -, rfl⟩ := sendPage_inv hs hr
      rw [finish_handler]
      exact sound_afterSend (sendHeader_sound hs ht).1
  · obtain ⟨response, handler, q, hresponse, hhandler, hq, rfl⟩ := transmitMsg_inv hpage hr
    obtain ⟨c, hc⟩ := ConnectionHandlerOutbound.formatResponse_holds hs hresponse
    obtain ⟨hset, hkept, -, -⟩ := ConnectionHandlerOutbound.setServer_inv
      (hs.setResponse hc) hhandler
    rw [finish_handler]
    rcases sendByType_inv hq with ⟨-, hq⟩ | ⟨-, hq⟩
    · exact udpSend_sound hset hq
    · obtain ⟨fd, t, ht, hr⟩ := sendResponse_inv (c := c) hset
        (by rw [setHandler_handler, hkept]; exact hc) hq
      have hprep := (findSocket_inv hset ht).2.2
      rcases hr with ⟨-, rfl⟩ | ⟨-, rfl⟩
      · exact hprep.sound
      · exact sound_afterSend hprep.sound

end OutboundState

/-! ### Histories -/

namespace ConnectionHandlerOutbound

/-- The handlers that earlier messages can leave: a call returns, or it throws with the response and
the address already changed. -/
inductive Left [Malloc] : ConnectionHandlerOutbound → Prop
  | fresh : Left {}
  | sent {h : ConnectionHandlerOutbound} {env : OutboundEnv} {m : Msg} {sends : List SendResult}
      {s : OutboundState} :
      Left h → OutboundState.handleConnection h env m sends = .ok s → Left s.handler
  | thrown {h h' : ConnectionHandlerOutbound} {env : OutboundEnv} {m : Msg}
      {sends : List SendResult} {response : Buffer} :
      Left h → OutboundState.handleConnection h env m sends = .error .cException →
      h.formatResponse env m = .ok response →
      (h.setResponse response).setServer m = .ok h' →
      Left { h' with bCloseConnection := false }

theorem Left.sound [Malloc] {h : ConnectionHandlerOutbound} (hleft : h.Left) : h.Sound := by
  induction hleft with
  | fresh => exact ⟨⟨_, Buffer.Holds.null⟩, ⟨_, Buffer.Holds.null⟩, ⟨_, Buffer.Holds.null⟩⟩
  | sent _ hs ih =>
    obtain ⟨r, hr, hs⟩ := bind_eq_ok.mp hs
    rw [← Except.ok.inj hs]
    exact OutboundState.transmitMsg_sound ⟨ih.response, ih.serverAddr, ih.temp⟩ hr
  | thrown _ _ hresponse hset ih =>
    obtain ⟨c, hc⟩ := formatResponse_holds ih hresponse
    have hsound := (setServer_inv (ih.setResponse hc) hset).1
    exact ⟨hsound.response, hsound.serverAddr, hsound.temp⟩

end ConnectionHandlerOutbound
end MsgCourier
