import MsgCourier.HandlerHistory
import MsgCourier.Delivery

/-! Which messages are transmitted without regard to what the handler did before. -/
namespace MsgCourier
open ListSearch CText ZeroFill

/-! ### The address in a `To` field -/

theorem Buffer.Holds.findChar {b : Buffer} {c : Bytes} (h : b.Holds c) (ch : Byte) :
    b.findChar ch = (firstOcc [ch] c).elim (-1) fun k => (k : ℤ) := by
  have hcontent : (b.pBuffer.getD []).take b.tail.toNat = c := by
    cases h with
    | null => rfl
    | block c junk hj hs => simp
  unfold Buffer.findChar
  rw [hcontent]
  cases firstOcc [ch] c <;> rfl

/-- Start and length of the server part of a text `name@address:port`, as `int`s. -/
def serverStart (c : Bytes) : ℤ := (firstOcc [64] c).elim (-1) fun k => (k : ℤ)

def serverEnd (c : Bytes) : ℤ := (firstOcc [58] c).elim (-1) fun k => (k : ℤ)

/-- Address and port a `To` text sets. Without `@` and `:` the address is the whole text; with the
two in the wrong order the length is negative, which is no call at all. -/
def serverOf (c : Bytes) : Option (Bytes × ℤ) :=
  let length := serverEnd c - serverStart c - 1
  if length < -1 then none
  else
    let server := c.drop (serverStart c + 1).toNat
    some (if length = -1 then server else server.take length.toNat,
      atoi (c.drop (serverEnd c + 1).toNat))

theorem atoi_append_zero (s r : Bytes) : atoi (s ++ 0 :: r) = atoi (cstr s) := by
  have h : strtol (s ++ 0 :: r) = strtol (cstr s) := by
    unfold strtol
    rw [cstr_append_zero, cstr_eq_self (zero_notMem_cstr s)]
  rw [atoi, h]
  rfl

theorem firstOcc_singleton_lt {c : Bytes} {b : Byte} {k : ℕ} (h : firstOcc [b] c = some k) :
    k < c.length := by
  have := firstOcc_le [b] h
  simp only [List.length_singleton] at this
  omega

theorem serverStart_lt (c : Bytes) : -1 ≤ serverStart c ∧ serverStart c < c.length := by
  unfold serverStart
  cases h : firstOcc [64] c with
  | none => exact ⟨le_rfl, by rw [Option.elim_none]; omega⟩
  | some k =>
    have := firstOcc_singleton_lt h
    rw [Option.elim_some]
    omega

theorem serverEnd_lt (c : Bytes) : -1 ≤ serverEnd c ∧ serverEnd c < c.length := by
  unfold serverEnd
  cases h : firstOcc [58] c with
  | none => exact ⟨le_rfl, by rw [Option.elim_none]; omega⟩
  | some k =>
    have := firstOcc_singleton_lt h
    rw [Option.elim_some]
    omega

namespace ConnectionHandlerOutbound

theorem replaceWith_negative [Malloc] {b : Buffer} {c : Bytes} (hb : b.Holds c) (p : Bytes) {n : ℤ}
    (hn : n < -1) : b.replaceWith (some p) n = .error .undefined := by
  have hreset := hb.reset
  obtain ⟨hlo, hhi⟩ := hreset.length_le
  have htail := hreset.tail_eq
  rw [List.length_nil, Nat.cast_zero] at hlo htail
  have hfree : int32 (b.reset.bufferSize-b.reset.tail) = b.reset.bufferSize := by
    rw [htail, sub_zero]
    exact int32_eq (by omega) hhi
  have hroom : b.reset.appendRoom n = .ok b.reset := by
    unfold Buffer.appendRoom
    rw [hfree]
    dsimp only
    rw [if_neg (by omega), pure_eq_ok]
  have hcopy : fetch p 0 n = .error .undefined := if_neg (by omega)
  have harg : lengthArg p n = .ok n := if_neg (by omega)
  rw [Buffer.replaceWith, harg, ok_bind, Buffer.append, if_neg (by omega), harg, ok_bind, hroom,
    ok_bind]
  cases b.reset.pBuffer with
  | none => rfl
  | some mem =>
    dsimp only
    rw [hcopy, error_bind]

/-- The address set from a `To` text does not depend on what the handler held. -/
theorem setServer_of_to [Malloc] {h : ConnectionHandlerOutbound} {m : Msg} (hs : h.Sound)
    (hto : cstr m.msgTo ≠ []) (hsize : ((cstr m.msgTo).length : ℤ)+8 ≤ intMax) :
    (serverOf (cstr m.msgTo) = none → h.setServer m = .error .undefined) ∧
    ∀ server port, serverOf (cstr m.msgTo) = some (server, port) →
      ∃ h', h.setServer m = .ok h' ∧ h'.serverAddr.Holds server ∧ h'.serverPort = port := by
  generalize hc : cstr m.msgTo = c at hto hsize
  have h0 : 0 ∉ c := hc ▸ zero_notMem_cstr m.msgTo
  obtain ⟨ct, hct⟩ := hs.temp
  obtain ⟨ca, hca⟩ := hs.serverAddr
  obtain ⟨temp, htemp, hholds⟩ := hct.replaceString h0 hsize
  have hstart : temp.findChar 64 = serverStart c := hholds.findChar 64
  have hend : temp.findChar 58 = serverEnd c := hholds.findChar 58
  obtain ⟨temp', hterm, hseal⟩ := (hholds.makeString).resolve_left fun h => hto h.2
  obtain ⟨junk, hblock⟩ := hseal.pBuffer_eq
  have hget : temp.getBuffer = .ok (some (c ++ 0 :: junk), temp') := by
    rw [Buffer.getBuffer, hterm, ok_bind, hblock, pure_eq_ok]
  have hrun : h.setServer m = (h.serverAddr.replaceWith
      (some ((c ++ 0 :: junk).drop (serverStart c+1).toNat)) (serverEnd c-serverStart c-1) >>=
      fun r => .ok { h with
        temp := temp'
        serverAddr := r.2
        serverPort := atoi ((c ++ 0 :: junk).drop (serverEnd c+1).toNat) }) := by
    unfold setServer
    rw [hc, if_pos (List.length_pos_iff.mpr hto), htemp, ok_bind]
    dsimp only
    rw [hget, ok_bind, hstart, hend]
    rfl
  obtain ⟨hstart₁, hstart₂⟩ := serverStart_lt c
  obtain ⟨hend₁, hend₂⟩ := serverEnd_lt c
  have hdrop {z : ℤ} (hz₁ : -1 ≤ z) (hz₂ : z < c.length) :
      (c ++ 0 :: junk).drop (z+1).toNat = c.drop (z+1).toNat ++ 0 :: junk :=
    List.drop_append_of_le_length (by omega)
  have hplain (k : ℕ) : 0 ∉ c.drop k := fun h => h0 (List.mem_of_mem_drop h)
  rw [hdrop hstart₁ hstart₂, hdrop hend₁ hend₂, atoi_append_zero, cstr_eq_self (hplain _)] at hrun
  constructor
  · intro hnone
    unfold serverOf at hnone
    dsimp only at hnone
    split_ifs at hnone with hneg
    rw [hrun, replaceWith_negative hca _ hneg, error_bind]
  · intro server port hsome
    unfold serverOf at hsome
    dsimp only at hsome
    generalize hlength : serverEnd c-serverStart c-1 = length at hsome hrun
    split_ifs at hsome with hneg hall
    · -- no length: the rest of the text
      obtain ⟨rfl, rfl⟩ := Prod.mk.inj (Option.some.inj hsome)
      have harg : lengthArg (c.drop (serverStart c+1).toNat ++ 0 :: junk) length =
          .ok (c.drop (serverStart c+1).toNat).length := by
        rw [hall, lengthArg, if_pos rfl, strlen, if_pos (by simp), cstr_append_zero,
          cstr_eq_self (hplain _)]
      obtain ⟨b', hb', haddr⟩ := hca.replaceWith_arg harg (by simp)
        (by rw [List.length_drop]; omega)
      rw [List.take_left] at haddr
      exact ⟨_, by rw [hrun, hb']; rfl, haddr, rfl⟩
    · obtain ⟨rfl, rfl⟩ := Prod.mk.inj (Option.some.inj hsome)
      have harg : lengthArg (c.drop (serverStart c+1).toNat ++ 0 :: junk) length =
          .ok length.toNat := by
        rw [lengthArg, if_neg hall, pure_eq_ok, Int.toNat_of_nonneg (by omega)]
      have hle : length.toNat ≤ (c.drop (serverStart c+1).toNat).length := by
        rw [List.length_drop]
        omega
      obtain ⟨b', hb', haddr⟩ := hca.replaceWith_arg harg
        (by rw [List.length_append]; omega) (by omega)
      rw [List.take_append_of_le_length hle] at haddr
      exact ⟨_, by rw [hrun, hb']; rfl, haddr, rfl⟩

end ConnectionHandlerOutbound
/-! ### What a transmission asks of the sockets -/

/-- A transmission of `m` that fails on an own descriptor, or needs an address that the message does
not name, or has no text of its own that fits, is not in this class. -/
structure Msg.SelfContained (m : Msg) (env : OutboundEnv) (sends : List SendResult) : Prop where
  /-- The header of a page that brings none of its own fits, and everything is taken. -/
  page : m.msgProtocolType = .httpGet ∨ m.msgProtocolType = .httpPost →
    ∀ p, m.payloadMem = some p →
      (strstr p (bytes "HTTP/1.") = none → (m.httpHeader env.serverName).length ≤ 5000) ∧
        m.pageSends env sends p = (true, true)
  text : ¬ (m.msgProtocolType = .httpGet ∨ m.msgProtocolType = .httpPost) →
    ∃ text, m.Printable env.elapsed.text text ∧
      (m.msgConnectionType = .obTcp → m.tcpSocketHandle ≠ -1 →
        (taken text.length (Msg.resultsOn sends m.tcpSocketHandle)).1 = true)
  address : ¬ (m.msgProtocolType = .httpGet ∨ m.msgProtocolType = .httpPost) →
    (m.msgConnectionType = .obTcp ∧ m.tcpSocketHandle = -1) ∨
      (m.msgConnectionType = .obUdp ∧ m.udpSocketHandle = -1 ∧ env.udpSocket ≠ none) →
    cstr m.msgTo ≠ [] ∧ ∀ server port, serverOf (cstr m.msgTo) = some (server, port) → server ≠ []

/-- What the outside sees of a call: the actions and the close flag, or how it ended otherwise. -/
def visible (r : Cxx OutboundState) : Cxx (List NetAction × Bool) :=
  match r with
  | .ok s => .ok (s.actions, s.handler.bCloseConnection)
  | .error e => .error e

namespace Msg

/-- A `TCPSend` that succeeds or that is on a socket of the handler's own. -/
def sendOutcome (m : Msg) (fd : ℤ) (data : Bytes) (sends : List SendResult) :
    List NetAction × Bool :=
  let r := sendLoop data (resultsOn sends fd)
  ([.tcpSend fd r.offered r.accepted] ++ if r.bRet then [] else [.close fd], !m.keepAlive)

/-- What becomes of a text over TCP. -/
def tcpOutcome (m : Msg) (env : OutboundEnv) (sends : List SendResult) (text server : Bytes)
    (port : ℤ) : List NetAction × Bool :=
  if m.tcpSocketHandle = -1 then
    if env.connect = none then ([.openTCP server port], false)
    else
      let r := m.sendOutcome (m.descriptor env) text sends
      (.openTCP server port :: r.1, r.2)
  else m.sendOutcome m.tcpSocketHandle text sends

def udpOutcome (m : Msg) (env : OutboundEnv) (text server : Bytes) (port : ℤ) : List NetAction :=
  if m.udpSocketHandle = -1 then
    match env.udpSocket with
    | none => []
    | some fd => [.sendto fd server (htons port) text, .close fd]
  else [.sendto m.udpSocketHandle (cstr m.sourceIP) m.sourcePort text]

/-- What becomes of the header of a page. -/
def headerOutcome (m : Msg) (env : OutboundEnv) (sends : List SendResult) (p : Bytes) :
    List NetAction × Bool :=
  if strstr p (bytes "HTTP/1.") = none then
    m.sendOutcome m.tcpSocketHandle (m.httpHeader env.serverName) sends
  else ([], false)

def pageOutcome (m : Msg) (env : OutboundEnv) (sends : List SendResult) (p : Bytes) :
    Cxx (List NetAction × Bool) := do
  let _ ← strlen p
  let buf ← fetch p 0 m.msgContentLength
  let header := m.headerOutcome env sends p
  let page := m.sendOutcome m.tcpSocketHandle buf (m.headerSend env sends p).2
  pure (header.1 ++ page.1, header.2 || page.2)

end Msg

namespace OutboundState

variable {s : OutboundState} {env : OutboundEnv}

/-- What a send adds, when the handler's earlier sockets play no part. -/
theorem afterSend_visible (s : OutboundState) (fd : ℤ) {data : Bytes}
    (h : (taken data.length (s.schedule fd)).1 = true ∨ s.handler.bSocketCreated = true) :
    (s.afterSend fd (sendLoop data (s.schedule fd))).actions =
        s.actions ++ (s.pMsg.sendOutcome fd data s.sends).1 ∧
      (s.afterSend fd (sendLoop data (s.schedule fd))).handler.bCloseConnection =
        (s.handler.bCloseConnection || (s.pMsg.sendOutcome fd data s.sends).2) := by
  rw [← sendLoop_bRet] at h
  have hschedule : Msg.resultsOn s.sends fd = s.schedule fd := rfl
  rw [afterSend_eq, Msg.sendOutcome, hschedule]
  generalize sendLoop data (s.schedule fd) = r at h ⊢
  rcases h with hret | hcreated
  · simp [hret]
  · cases r.bRet <;> simp [hcreated]

/-- The address a handler connects to, when it holds one. -/
theorem getBuffer_serverAddr {b : Buffer} {c : Bytes} (hb : b.Holds c) (hne : c ≠ [])
    (h0 : 0 ∉ c) : ∃ mem b', b.getBuffer = .ok (some mem, b') ∧ cstr mem = c := by
  obtain ⟨b', hb', hseal⟩ := (hb.makeString).resolve_left fun h => hne h.2
  obtain ⟨junk, hblock⟩ := hseal.pBuffer_eq
  refine ⟨c ++ 0 :: junk, b', ?_, by rw [cstr_append_zero, cstr_eq_self h0]⟩
  rw [Buffer.getBuffer, hb', ok_bind, hblock, pure_eq_ok]

/-- A connect to a named server. -/
structure Connecting (s t : OutboundState) (env : OutboundEnv) (server : Bytes) (port : ℤ) :
    Prop where
  actions : t.actions = s.actions ++ [.openTCP server port]
  response : t.handler.response = s.handler.response
  flag : t.handler.bCloseConnection = s.handler.bCloseConnection
  created : env.connect ≠ none → t.handler.bSocketCreated = true
  sends : t.sends = s.sends
  keepAlive : t.pMsg.keepAlive = s.pMsg.keepAlive

theorem openTCP_named (env : OutboundEnv) {server : Bytes}
    (hserver : s.handler.serverAddr.Holds server)
    (hne : server ≠ []) (h0 : 0 ∉ server) : ∃ t,
      s.openTCP env = .ok (env.connect.elim (-1) (fun n => (n : ℤ)), t) ∧ t.pMsg = s.pMsg ∧
      Connecting s t env server s.handler.serverPort := by
  obtain ⟨mem, b', hget, hmem⟩ := getBuffer_serverAddr hserver hne h0
  cases hconnect : env.connect with
  | none =>
    refine ⟨(s.setHandler (s.handler.setServerAddr b')).act (.openTCP server s.handler.serverPort),
      ?_, rfl, ⟨rfl, rfl, rfl, fun h => absurd hconnect h, rfl, rfl⟩⟩
    rw [openTCP, hget, ok_bind]
    simp only [hconnect, hmem, Option.elim_none, pure_eq_ok]
    rfl
  | some fd =>
    refine ⟨((s.setHandler (s.handler.setServerAddr b')).act
      (.openTCP server s.handler.serverPort)).setHandler
        (s.handler.setServerAddr b').socketCreated, ?_, rfl,
        ⟨rfl, rfl, rfl, fun _ => rfl, rfl, rfl⟩⟩
    rw [openTCP, hget, ok_bind]
    simp only [hconnect, hmem, Option.elim_some, pure_eq_ok]
    rfl

theorem findSocket_named (env : OutboundEnv) {server : Bytes} (hfd : s.pMsg.tcpSocketHandle = -1)
    (hserver : s.handler.serverAddr.Holds server) (hne : server ≠ []) (h0 : 0 ∉ server) :
    ∃ t, s.findSocket env = .ok (env.connect.elim (-1) (fun n => (n : ℤ)), t) ∧
      t.pMsg.tcpSocketHandle = s.pMsg.descriptor env ∧
      Connecting s t env server s.handler.serverPort := by
  obtain ⟨t, ht, hmsg, hconn⟩ := openTCP_named env hserver hne h0
  rw [findSocket, if_pos hfd, ht, ok_bind]
  dsimp only
  unfold Msg.descriptor
  rw [if_pos hfd]
  by_cases hzero : env.connect.elim (-1) (fun n => (n : ℤ)) = 0
  · -- descriptor 0 is not stored
    refine ⟨t, if_neg (not_not.mpr hzero), ?_, hconn⟩
    rw [hmsg, hfd]
    cases hconnect : env.connect with
    | none => rfl
    | some n =>
      rw [hconnect, Option.elim_some] at hzero
      have hn : n = 0 := by exact_mod_cast hzero
      rw [hn]
  · refine ⟨{ t with pMsg := t.pMsg.setTCPSocketHandle (env.connect.elim (-1) fun n => (n : ℤ)) },
      if_pos hzero, ?_, ⟨hconn.actions, hconn.response, hconn.flag, hconn.created, hconn.sends,
        hconn.keepAlive⟩⟩
    cases hconnect : env.connect with
    | none => rfl
    | some n =>
      cases n with
      | zero =>
        rw [hconnect] at hzero
        exact absurd rfl hzero
      | succ n => rfl

theorem sendResponse_visible (env : OutboundEnv) {text server : Bytes} {port : ℤ}
    (htext : s.handler.response.Holds text) (hactions : s.actions = [])
    (hflag : s.handler.bCloseConnection = false)
    (hown : s.pMsg.tcpSocketHandle ≠ -1 →
      (taken text.length (Msg.resultsOn s.sends s.pMsg.tcpSocketHandle)).1 = true)
    (haddr : s.pMsg.tcpSocketHandle = -1 → s.handler.serverAddr.Holds server ∧ server ≠ [] ∧
      0 ∉ server ∧ s.handler.serverPort = port) :
    ∃ q, s.sendResponse env = .ok q ∧
      (q.2.actions, q.2.handler.bCloseConnection) =
        s.pMsg.tcpOutcome env s.sends text server port := by
  unfold Msg.tcpOutcome
  by_cases hfd : s.pMsg.tcpSocketHandle = -1
  · obtain ⟨hserver, hne, h0, hport⟩ := haddr hfd
    obtain ⟨t, ht, hdesc, hconn⟩ := findSocket_named env hfd hserver hne h0
    rw [hport] at hconn
    rw [if_pos hfd, sendResponse, ht, ok_bind]
    dsimp only
    by_cases hconnect : env.connect = none
    · refine ⟨(false, t), ?_, ?_⟩
      · rw [hconnect]
        rfl
      · rw [if_pos hconnect, hconn.actions, hactions, hconn.flag, hflag]
        rfl
    · -- the new socket is the handler's own
      have hsocket : env.connect.elim (-1) (fun n => (n : ℤ)) ≠ -1 := by
        obtain ⟨n, hn⟩ := Option.ne_none_iff_exists'.mp hconnect
        rw [hn, Option.elim_some]
        omega
      have hdata : t.responseBytes = .ok text := responseBytes_of_holds (hconn.response ▸ htext)
      obtain ⟨hact, hclose⟩ := afterSend_visible t (s.pMsg.descriptor env)
        (Or.inr (hconn.created hconnect))
      have houtcome : t.pMsg.sendOutcome (s.pMsg.descriptor env) text t.sends =
          s.pMsg.sendOutcome (s.pMsg.descriptor env) text s.sends := by
        rw [Msg.sendOutcome, Msg.sendOutcome, hconn.keepAlive, hconn.sends]
      refine ⟨(true, t.afterSend (s.pMsg.descriptor env)
        (sendLoop text (t.schedule (s.pMsg.descriptor env)))), ?_, ?_⟩
      · rw [if_pos hsocket, hdata, ok_bind, hdesc, tcpSend_all, ok_bind, pure_eq_ok]
      · rw [if_neg hconnect, hact, hclose, houtcome, hconn.actions, hactions, hconn.flag, hflag]
        rfl
  · -- its own descriptor, which takes everything
    have hfind : s.findSocket env = .ok (s.pMsg.tcpSocketHandle, s) := if_neg hfd
    obtain ⟨hact, hclose⟩ := afterSend_visible s s.pMsg.tcpSocketHandle
      (Or.inl (hown hfd))
    refine ⟨(true, s.afterSend s.pMsg.tcpSocketHandle
      (sendLoop text (s.schedule s.pMsg.tcpSocketHandle))), ?_, ?_⟩
    · rw [sendResponse, hfind, ok_bind]
      dsimp only
      rw [if_pos hfd, responseBytes_of_holds htext, ok_bind, tcpSend_all, ok_bind, pure_eq_ok]
    · rw [if_neg hfd, hact, hclose, hactions, hflag]
      rfl

theorem udpSend_visible (env : OutboundEnv) {text server : Bytes} {port : ℤ}
    (htext : s.handler.response.Holds text) (hactions : s.actions = [])
    (haddr : s.pMsg.udpSocketHandle = -1 → env.udpSocket ≠ none →
      s.handler.serverAddr.Holds server ∧ server ≠ [] ∧ 0 ∉ server ∧
        s.handler.serverPort = port) :
    ∃ q, s.udpSend env = .ok q ∧ q.2.actions = s.pMsg.udpOutcome env text server port ∧
      q.2.handler.bCloseConnection = s.handler.bCloseConnection := by
  have hdata := responseBytes_of_holds htext
  unfold Msg.udpOutcome udpSend
  by_cases hfd : s.pMsg.udpSocketHandle = -1
  · rw [if_pos hfd, if_pos hfd]
    cases hsocket : env.udpSocket with
    | none => exact ⟨_, rfl, hactions, rfl⟩
    | some fd =>
      obtain ⟨hserver, hne, h0, hport⟩ := haddr hfd (by rw [hsocket]; exact Option.some_ne_none _)
      obtain ⟨mem, b', hget, hmem⟩ := getBuffer_serverAddr hserver hne h0
      refine ⟨(env.sendto, ((s.setHandler (s.handler.setServerAddr b')).act
        (.sendto fd server (htons port) text)).act (.close fd)), ?_, ?_, rfl⟩
      · simp only [hget, ok_bind, hdata, hmem, pure_eq_ok, ← hport]
        rfl
      · simp [act, hactions]
  · rw [if_neg hfd, if_neg hfd, hdata, ok_bind]
    exact ⟨_, rfl, by simp [act, hactions], rfl⟩

theorem sendHeader_visible [Malloc] {p : Bytes} (hs : s.handler.Sound)
    (hlen : strstr p (bytes "HTTP/1.") = none →
      (s.pMsg.httpHeader env.serverName).length ≤ 5000)
    (htaken : (s.pMsg.headerSend env s.sends p).1 = true) :
    ∃ t, s.sendHeader env p = .ok t ∧ t.pMsg = s.pMsg ∧
      t.schedule s.pMsg.tcpSocketHandle = (s.pMsg.headerSend env s.sends p).2 ∧
      t.actions = s.actions ++ (s.pMsg.headerOutcome env s.sends p).1 ∧
      t.handler.bCloseConnection =
        (s.handler.bCloseConnection || (s.pMsg.headerOutcome env s.sends p).2) := by
  unfold Msg.headerOutcome Msg.headerSend at *
  unfold sendHeader
  split_ifs at htaken ⊢ with hpage
  · obtain ⟨c, hc⟩ := hs.response
    obtain ⟨b, hb, hprinted⟩ := hc.sprintf_fits (s.pMsg.zero_notMem_httpHeader env.serverName)
      (hlen hpage)
    generalize hheader : s.pMsg.httpHeader env.serverName = header at *
    have hdata : (s.setHandler (s.handler.setResponse b)).responseBytes = .ok header :=
      responseBytes_of_holds hprinted
    obtain ⟨hact, hclose⟩ := afterSend_visible (s.setHandler (s.handler.setResponse b))
      s.pMsg.tcpSocketHandle (Or.inl htaken)
    refine ⟨_, ?_, ?_, schedule_afterSend (s.setHandler (s.handler.setResponse b)) _ header,
      hact, hclose⟩
    · rw [hb, ok_bind]
      dsimp only
      rw [hdata, ok_bind, setHandler_pMsg, tcpSend_all, ok_bind, pure_eq_ok]
    · rw [afterSend_pMsg, setHandler_pMsg]
  · exact ⟨s, rfl, rfl, rfl, (List.append_nil _).symm, (Bool.or_false _).symm⟩

theorem sendPage_visible [Malloc] (env : OutboundEnv) {p : Bytes} (hs : s.handler.Sound)
    (hactions : s.actions = []) (hflag : s.handler.bCloseConnection = false)
    (hlen : strstr p (bytes "HTTP/1.") = none →
      (s.pMsg.httpHeader env.serverName).length ≤ 5000)
    (htaken : s.pMsg.pageSends env s.sends p = (true, true)) :
    visible ((s.sendPage env p).map Prod.snd) = s.pMsg.pageOutcome env s.sends p := by
  have hboth := Prod.mk.inj htaken
  obtain ⟨t, ht, hmsg, hrest, hact, hclose⟩ := sendHeader_visible (p := p) hs hlen hboth.1
  unfold sendPage Msg.pageOutcome
  cases hstr : strlen p with
  | error e => rfl
  | ok z =>
    rw [ok_bind, ok_bind, ht, ok_bind, hmsg]
    cases hfetch : fetch p 0 s.pMsg.msgContentLength with
    | error e =>
      unfold tcpSend
      rw [hfetch]
      rfl
    | ok buf =>
      obtain ⟨-, -, hbuf⟩ := fetch_zero_inv hfetch
      have hsecond : (taken buf.length (t.schedule s.pMsg.tcpSocketHandle)).1 = true := by
        rw [hrest, hbuf]
        exact hboth.2
      obtain ⟨hact', hclose'⟩ := afterSend_visible _ _ (Or.inl hsecond)
      have hsend : t.tcpSend s.pMsg.tcpSocketHandle p s.pMsg.msgContentLength =
          .ok ((sendLoop buf (t.schedule s.pMsg.tcpSocketHandle)).bRet,
            t.afterSend s.pMsg.tcpSocketHandle
              (sendLoop buf (t.schedule s.pMsg.tcpSocketHandle))) :=
        tcpSend_eq_ok.mpr ⟨buf, hfetch, rfl⟩
      have houtcome : t.pMsg.sendOutcome s.pMsg.tcpSocketHandle buf t.sends =
          s.pMsg.sendOutcome s.pMsg.tcpSocketHandle buf (s.pMsg.headerSend env s.sends p).2 := by
        have htwice : Msg.resultsOn (t.schedule s.pMsg.tcpSocketHandle) s.pMsg.tcpSocketHandle =
            Msg.resultsOn t.sends s.pMsg.tcpSocketHandle := by
          unfold Msg.resultsOn schedule
          split_ifs <;> rfl
        rw [← hrest, hmsg, Msg.sendOutcome, Msg.sendOutcome, htwice]
      rw [houtcome] at hact' hclose'
      rw [hact, hactions] at hact'
      rw [hclose, hflag] at hclose'
      rw [hsend, ok_bind, ok_bind]
      simp only [pure_eq_ok, Except.map, visible, finish_actions, finish_handler, hact', hclose',
        List.nil_append, Bool.false_or]

end OutboundState
open ConnectionHandlerOutbound OutboundState

namespace Msg

/-- What the sockets see of a message that is no page. -/
def textOutcome (m : Msg) (env : OutboundEnv) (sends : List SendResult) (text : Bytes) :
    Cxx (List NetAction × Bool) :=
  match (if cstr m.msgTo = [] then some ([], 0) else serverOf (cstr m.msgTo)) with
  | none => .error .undefined
  | some (server, port) =>
    if m.msgConnectionType = .obUdp then .ok (m.udpOutcome env text server port, false)
    else if m.msgConnectionType = .obTcp then .ok (m.tcpOutcome env sends text server port)
    else .error .cException

theorem length_to_le_ownText {m : Msg} {elapsed text : Bytes} (h : m.ownText elapsed = some text) :
    (cstr m.msgTo).length ≤ text.length := by
  have hfield : (cstr m.msgTo).length ≤ (headerField "To" m.msgTo).length := by
    simp only [headerField, List.length_append]
    omega
  have hrouting : (headerField "To" m.msgTo).length ≤ m.routingFields.length := by
    simp only [routingFields, List.length_append]
    omega
  unfold ownText at h
  split_ifs at h
  · rw [← Option.some.inj h, emptyReplyText]
    split_ifs <;> simp only [List.length_append] <;> omega
  · rw [← Option.some.inj h, replyHeader]
    simp only [List.length_append]
    omega
  · rw [← Option.some.inj h, requestHeader]
    simp only [List.length_append]
    omega
  · rw [← Option.some.inj h, requestHeader]
    simp only [List.length_append]
    omega

end Msg

theorem zero_notMem_serverOf {c server : Bytes} {port : ℤ} (h0 : 0 ∉ c)
    (h : serverOf c = some (server, port)) : 0 ∉ server := by
  unfold serverOf at h
  dsimp only at h
  split_ifs at h
  · rw [← (Prod.mk.inj (Option.some.inj h)).1]
    exact fun hmem => h0 (List.mem_of_mem_drop hmem)
  · rw [← (Prod.mk.inj (Option.some.inj h)).1]
    exact fun hmem => h0 (List.mem_of_mem_drop (List.mem_of_mem_take hmem))

/-- The last part of a transmission, for a handler whose response is the text and whose address, if
one is needed, is the server. -/
theorem sendByType_visible {s : OutboundState} {env : OutboundEnv} {text server : Bytes} {port : ℤ}
    (htext : s.handler.response.Holds text) (hactions : s.actions = [])
    (hflag : s.handler.bCloseConnection = false)
    (hown : s.pMsg.msgConnectionType = .obTcp → s.pMsg.tcpSocketHandle ≠ -1 →
      (taken text.length (Msg.resultsOn s.sends s.pMsg.tcpSocketHandle)).1 = true)
    (haddr : (s.pMsg.msgConnectionType = .obTcp ∧ s.pMsg.tcpSocketHandle = -1) ∨
      (s.pMsg.msgConnectionType = .obUdp ∧ s.pMsg.udpSocketHandle = -1 ∧ env.udpSocket ≠ none) →
      s.handler.serverAddr.Holds server ∧ server ≠ [] ∧ 0 ∉ server ∧
        s.handler.serverPort = port) :
    visible (s.sendByType env >>= fun q => .ok (q.2.finish q.1).2) =
      if s.pMsg.msgConnectionType = .obUdp then .ok (s.pMsg.udpOutcome env text server port, false)
      else if s.pMsg.msgConnectionType = .obTcp then
        .ok (s.pMsg.tcpOutcome env s.sends text server port)
      else .error .cException := by
  unfold sendByType
  split_ifs with hudp htcp
  · obtain ⟨q, hq, hact, hclose⟩ := udpSend_visible env htext hactions
      fun hfd hsocket => haddr (Or.inr ⟨hudp, hfd, hsocket⟩)
    rw [hq, ok_bind]
    simp only [visible, finish_actions, finish_handler, hact, hclose, hflag]
  · obtain ⟨q, hq, hact⟩ := sendResponse_visible env htext hactions hflag (hown htcp)
      fun hfd => haddr (Or.inl ⟨htcp, hfd⟩)
    rw [hq, ok_bind]
    simp only [visible, finish_actions, finish_handler, hact]
  · rfl

/-- A self-contained message that is no page has one outcome, whatever the handler held. -/
theorem transmitMsg_text [Malloc] {h : ConnectionHandlerOutbound} {env : OutboundEnv} {m : Msg}
    {sends : List SendResult} {text : Bytes} (hs : h.Sound)
    (hpage : ¬ (m.msgProtocolType = .httpGet ∨ m.msgProtocolType = .httpPost))
    (hm : m.Printable env.elapsed.text text)
    (hown : m.msgConnectionType = .obTcp → m.tcpSocketHandle ≠ -1 →
      (taken text.length (Msg.resultsOn sends m.tcpSocketHandle)).1 = true)
    (haddress : (m.msgConnectionType = .obTcp ∧ m.tcpSocketHandle = -1) ∨
      (m.msgConnectionType = .obUdp ∧ m.udpSocketHandle = -1 ∧ env.udpSocket ≠ none) →
      cstr m.msgTo ≠ [] ∧ ∀ server port, serverOf (cstr m.msgTo) = some (server, port) →
        server ≠ []) :
    visible (handleConnection h env m sends) = m.textOutcome env sends text := by
  generalize hh : { h with bCloseConnection := false } = h₀
  have hs₀ : h₀.Sound := hh ▸ ⟨hs.response, hs.serverAddr, hs.temp⟩
  have hflag : h₀.bCloseConnection = false := by rw [← hh]
  obtain ⟨c, hc⟩ := hs₀.response
  obtain ⟨b, hb, hprinted⟩ := formatResponse_fits hc hm
  have hrun : handleConnection h env m sends =
      ((h₀.setResponse b).setServer m >>= fun handler =>
        (OutboundState.sendByType { handler, pMsg := m, sends } env >>= fun q =>
          .ok (q.2.finish q.1).2)) := by
    rw [handleConnection, hh, transmitMsg, if_neg (by exact hpage)]
    dsimp only
    rw [hb, ok_bind]
    cases (h₀.setResponse b).setServer m with
    | error e => rfl
    | ok handler =>
      rw [ok_bind, ok_bind]
      dsimp only [setHandler]
      cases OutboundState.sendByType { handler, pMsg := m, sends } env <;> rfl
  have hs₁ : (h₀.setResponse b).Sound := hs₀.setResponse hprinted
  rw [hrun, Msg.textOutcome]
  by_cases hto : cstr m.msgTo = []
  · -- no server is named and none is needed
    have hset : (h₀.setResponse b).setServer m = .ok (h₀.setResponse b) := by
      unfold setServer
      rw [if_neg (by rw [hto]; simp)]
      rfl
    rw [hset, ok_bind, if_pos hto]
    exact sendByType_visible hprinted rfl hflag hown fun h => absurd hto (haddress h).1
  · obtain ⟨hnone, hsome⟩ := setServer_of_to (m := m) hs₁ hto (by
      have hle := Msg.length_to_le_ownText hm.own
      have hsize := hm.size
      omega)
    rw [if_neg hto]
    cases hserver : serverOf (cstr m.msgTo) with
    | none =>
      rw [hnone hserver]
      rfl
    | some r =>
      obtain ⟨server, port⟩ := r
      obtain ⟨handler, hset, haddr, hport⟩ := hsome server port hserver
      obtain ⟨-, hresponse, -, hkept⟩ := setServer_inv hs₁ hset
      rw [hset, ok_bind]
      refine sendByType_visible (s := { handler, pMsg := m, sends }) ?_ rfl (hkept.trans hflag)
        hown fun h => ⟨haddr, (haddress h).2 server port hserver, ?_, hport⟩
      · rw [hresponse]
        exact hprinted
      · exact zero_notMem_serverOf (zero_notMem_cstr m.msgTo) hserver

/-- A self-contained message has one outcome, whatever the handler held. -/
theorem transmitMsg_outcome [Malloc] {h : ConnectionHandlerOutbound} {env : OutboundEnv} {m : Msg}
    {sends : List SendResult} (hs : h.Sound) (hm : m.SelfContained env sends) :
    visible (handleConnection h env m sends) =
      visible (handleConnection {} env m sends) := by
  have hfresh : ({} : ConnectionHandlerOutbound).Sound := Left.fresh.sound
  by_cases hpage : m.msgProtocolType = .httpGet ∨ m.msgProtocolType = .httpPost
  · have hrun (k : ConnectionHandlerOutbound) (hk : k.Sound) :
        visible (handleConnection k env m sends) =
          m.payloadMem.elim (.ok ([], false)) fun p => m.pageOutcome env sends p := by
      rw [handleConnection, transmitMsg, if_pos (by exact hpage)]
      cases hp : m.payloadMem with
      | none => rfl
      | some p =>
        obtain ⟨hlen, htaken⟩ := hm.page hpage p hp
        have hvisible := sendPage_visible env (p := p)
          (s := { handler := { k with bCloseConnection := false }, pMsg := m, sends })
          ⟨hk.response, hk.serverAddr, hk.temp⟩ rfl rfl hlen htaken
        refine Eq.trans ?_ hvisible
        dsimp only
        cases OutboundState.sendPage
          { handler := { k with bCloseConnection := false }, pMsg := m, sends } env p <;> rfl
    rw [hrun h hs, hrun {} hfresh]
  · obtain ⟨text, htext, hown⟩ := hm.text hpage
    rw [transmitMsg_text hs hpage htext hown (hm.address hpage),
      transmitMsg_text hfresh hpage htext hown (hm.address hpage)]

/-- After any two histories a self-contained message asks the same of the sockets and ends with the
same decision on the connection. -/
theorem transmission_independent [Malloc] {env : OutboundEnv} {m : Msg} {sends : List SendResult}
    (hm : m.SelfContained env sends) {h₁ h₂ : ConnectionHandlerOutbound} (h₁left : h₁.Left)
    (h₂left : h₂.Left) :
    visible (handleConnection h₁ env m sends) = visible (handleConnection h₂ env m sends) :=
  (transmitMsg_outcome h₁left.sound hm).trans (transmitMsg_outcome h₂left.sound hm).symm


/-- A reply to a peer without socket: the server of its `To` field is connected to. -/
def routedReply : Msg :=
  { msgFormat := .res, msgProtocolType := .mcp, msgConnectionType := .obTcp,
    msgID := bytes "7", msgTo := bytes "a@b:80" }

set_option maxRecDepth 8000 in
/-- The handler after `sampleReply`. -/
theorem sampleReply_left : ∃ s, handleConnection {} quietEnv sampleReply [.sent 100] = .ok s ∧
    s.handler.Left := by
  have hrun : ∃ s, handleConnection {} quietEnv sampleReply [.sent 100] = .ok s := ⟨_, rfl⟩
  obtain ⟨s, hs⟩ := hrun
  exact ⟨s, hs, Left.sent Left.fresh hs⟩

theorem printable_routedReply :
    routedReply.Printable quietEnv.elapsed.text (routedReply.emptyReplyText (bytes "0.0000")) where
  own := rfl
  size := by decide
  payload := by simp [routedReply, Msg.payloadMem]
  emptyReply _ _ := by decide
  reply _ h := absurd rfl h
  request h := absurd (Or.inl rfl) h
  emptyRequest h := absurd (Or.inl rfl) h

theorem transmission_independent_routedReply : ∃ s : OutboundState,
    handleConnection {} quietEnv sampleReply [.sent 100] = .ok s ∧
      visible (handleConnection s.handler quietEnv routedReply []) =
        visible (handleConnection {} quietEnv routedReply []) := by
  obtain ⟨s, hs, hleft⟩ := sampleReply_left
  refine ⟨s, hs, transmission_independent ⟨?_, fun _ => ⟨_, printable_routedReply, ?_⟩, ?_⟩ hleft
    Left.fresh⟩
  · exact fun h => absurd h (by decide)
  · exact fun _ h => absurd rfl h
  · intro _ _
    refine ⟨by decide, fun server port h => ?_⟩
    have hserver : serverOf (cstr routedReply.msgTo) = some (bytes "b", 80) := by decide
    rw [hserver] at h
    rw [← (Prod.mk.inj (Option.some.inj h)).1]
    decide

/-- A reply of unknown protocol type on descriptor 6. -/
def unknownReply : Msg :=
  { msgFormat := .res, msgConnectionType := .obTcp, tcpSocketHandle := 6 }

set_option maxRecDepth 8000 in
/-- After `sampleReply` to descriptor 5 the text of it goes to descriptor 6 too; a fresh handler
sends nothing there. -/
theorem unknownReply_sends_earlier_text : ∃ s : OutboundState,
    handleConnection {} quietEnv sampleReply [.sent 100] = .ok s ∧ s.handler.Left ∧
      visible (handleConnection s.handler quietEnv unknownReply [.sent 100]) ≠
        visible (handleConnection {} quietEnv unknownReply [.sent 100]) := by
  have hrun : ∃ s : OutboundState,
      handleConnection {} quietEnv sampleReply [.sent 100] = .ok s ∧
      visible (handleConnection s.handler quietEnv unknownReply [.sent 100]) ≠
        visible (handleConnection {} quietEnv unknownReply [.sent 100]) :=
    ⟨_, rfl, by decide⟩
  obtain ⟨s, hs, hne⟩ := hrun
  exact ⟨s, hs, Left.sent Left.fresh hs, hne⟩

end MsgCourier
