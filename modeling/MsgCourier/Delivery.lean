import MsgCourier.HandlerHistory
import MsgCourier.PendingSweep

/-! When a message counts as delivered, against what the socket accepted of it. -/
namespace MsgCourier
open ListSearch CText ZeroFill

/-! ### Delivered and sent -/

namespace Msg

/-- A web page or a message of type `OB_TCP`. -/
def OverTcp (m : Msg) : Prop :=
  (m.msgProtocolType = .httpGet ∨ m.msgProtocolType = .httpPost) ∨ m.msgConnectionType = .obTcp

/-- What goes in front of a page. -/
def pageHeader (m : Msg) (env : OutboundEnv) (p : Bytes) : Bytes :=
  if strstr p (bytes "HTTP/1.") = none then m.httpHeader env.serverName else []

/-- Header and payload of a message. -/
def wireText (m : Msg) (env : OutboundEnv) : Option Bytes :=
  if m.msgProtocolType = .httpGet ∨ m.msgProtocolType = .httpPost then
    match m.payloadMem with
    | none => some (m.httpHeader env.serverName)
    | some p => some (m.pageHeader env p ++ p.take m.msgContentLength.toNat)
  else m.ownText env.elapsed.text

/-- `ProcessPendingMessages` drops the message or puts it in line again, in any pool. -/
def SeenAsFailed (m : Msg) : Prop :=
  ∀ (x : MsgPool) (p : ℕ) (clock : ℕ → ℤ × ℤ), x.Sweepable → p ∈ x.messages →
    x.objects p = some m → ∃ x' queue, x.processPendingMessages clock = .ok (x', queue) ∧
      x'.objects p = some (m.failedDelivery (clock p).1 (clock p).2) ∧ p ∉ queue

theorem seenAsFailed_of_undelivered {m : Msg} (h : m.msgState = .undelivered) :
    m.SeenAsFailed := by
  intro x p clock hx hp hm
  obtain ⟨x', hrun, hpassed⟩ := MsgPool.processPendingMessages_spec hx clock
  have hr : m.processPending (clock p).1 (clock p).2 =
      .ok (m.failedDelivery (clock p).1 (clock p).2, false) := by
    unfold processPending
    rw [h]
    rfl
  refine ⟨x', _, hrun, hpassed.processed p hp m _ hm hr, fun hqueue => ?_⟩
  have hwaiting := (List.mem_filter.mp hqueue).2
  rw [MsgPool.waiting_of_processPending hm hr] at hwaiting
  cases hwaiting

/-- The send results a descriptor sees. -/
def resultsOn (sends : List SendResult) (fd : ℤ) : List SendResult := if fd < 0 then [] else sends

/-- Whether the header of a page is taken, and the results left for the payload. -/
def headerSend (m : Msg) (env : OutboundEnv) (sends : List SendResult) (p : Bytes) :
    Bool × List SendResult :=
  if strstr p (bytes "HTTP/1.") = none then
    taken (m.httpHeader env.serverName).length (resultsOn sends m.tcpSocketHandle)
  else (true, resultsOn sends m.tcpSocketHandle)

/-- How the two sends of a page end. -/
def pageSends (m : Msg) (env : OutboundEnv) (sends : List SendResult) (p : Bytes) : Bool × Bool :=
  ((m.headerSend env sends p).1,
    (taken m.msgContentLength.toNat (m.headerSend env sends p).2).1)

/-- The condition under which the state tells what was sent. For a page: a payload is not sent after
a header that failed, and nothing fails that has no bytes. Otherwise: there is no connection, or a
text that is taken whole by the descriptor it is sent on. -/
def ResultMatches (m : Msg) (env : OutboundEnv) (sends : List SendResult) : Prop :=
  if m.msgProtocolType = .httpGet ∨ m.msgProtocolType = .httpPost then
    ∀ p, m.payloadMem = some p →
      ((m.pageSends env sends p).2 = true → (m.pageSends env sends p).1 = true) ∧
      ((m.pageSends env sends p).1 = true → m.msgContentLength = 0 →
        (m.pageSends env sends p).2 = true)
  else
    (m.tcpSocketHandle = -1 ∧ env.connect = none) ∨ ∃ text,
      m.ownText env.elapsed.text = some text ∧
        (taken text.length (resultsOn sends (m.descriptor env))).1 = true

theorem ownText_ne_nil {m : Msg} {elapsed text : Bytes} (h : m.ownText elapsed = some text) :
    text ≠ [] := by
  have hend : crlf ≠ [] := List.cons_ne_nil _ _
  unfold ownText at h
  split_ifs at h
  · rw [← Option.some.inj h]
    simp [emptyReplyText, hend]
  · rw [← Option.some.inj h]
    simp [replyHeader, hend]
  · rw [← Option.some.inj h]
    simp [requestHeader, hend]
  · rw [← Option.some.inj h]
    simp [requestHeader, hend]

theorem httpHeader_ne_nil (m : Msg) (serverName : Bytes) : m.httpHeader serverName ≠ [] := by
  have hend : crlf ≠ [] := List.cons_ne_nil _ _
  simp [httpHeader, hend]

end Msg

namespace OutboundState

/-- DELIVERED and counted exactly if the whole text was accepted, otherwise UNDELIVERED, not counted
and taken for a failed delivery. -/
def DeliveredMeansSent (s : OutboundState) (text : Option Bytes) : Prop :=
  (s.pMsg.msgState = .delivered ∧ s.msgDelivered = 1 ↔ text = some (acceptedBytes s.actions)) ∧
  (text ≠ some (acceptedBytes s.actions) →
    s.pMsg.msgState = .undelivered ∧ s.msgDelivered = 0 ∧ s.pMsg.SeenAsFailed)

/-- After the last step of a transmission the result alone decides. -/
theorem deliveredMeansSent_finish {s : OutboundState} {bRet : Bool} {text : Option Bytes}
    (h0 : s.msgDelivered = 0) : (s.finish bRet).2.DeliveredMeansSent text ↔
      (bRet = true ↔ text = some (acceptedBytes s.actions)) := by
  unfold DeliveredMeansSent
  rw [finish_actions]
  cases bRet with
  | true => simp [finish, h0]
  | false =>
    have hseen : (s.pMsg.setMsgState .undelivered).SeenAsFailed :=
      Msg.seenAsFailed_of_undelivered rfl
    simp [finish, h0, hseen]

/-- Two starts make up the whole only if each is whole. -/
theorem append_eq_of_prefix {a b c d : Bytes} (hac : a <+: c) (hbd : b <+: d) :
    c ++ d = a ++ b ↔ a = c ∧ b = d := by
  constructor
  · intro h
    have hlen := congrArg List.length h
    simp only [List.length_append] at hlen
    have ha := hac.length_le
    have hb := hbd.length_le
    exact ⟨hac.eq_of_length (by omega), hbd.eq_of_length (by omega)⟩
  · rintro ⟨rfl, rfl⟩
    rfl

theorem fetch_zero_inv {p buf : Bytes} {n : ℤ} (h : fetch p 0 n = .ok buf) :
    0 ≤ n ∧ buf = p.take n.toNat ∧ buf.length = n.toNat := by
  unfold fetch at h
  split_ifs at h with hrange
  have hbuf := Except.ok.inj h
  rw [Int.toNat_zero, List.drop_zero] at hbuf
  refine ⟨hrange.2.1, hbuf.symm, ?_⟩
  rw [← hbuf, List.length_take]
  omega

/-- The results left for the next send on the same descriptor. -/
theorem schedule_afterSend (s : OutboundState) (fd : ℤ) (c : Bytes) :
    (s.afterSend fd (sendLoop c (s.schedule fd))).schedule fd =
      (taken c.length (s.schedule fd)).2 := by
  rw [schedule, afterSend_sends, ← sendLoop_rest]
  split_ifs with hfd
  · rw [schedule, if_pos hfd]
    rfl
  · rfl

variable {s : OutboundState} {env : OutboundEnv}

/-- A result that stands for two is right if the second never succeeds alone and never fails for
nothing. -/
theorem second_iff_both {a b z : Prop} : (b ↔ a ∧ (b ∨ z)) ↔ (b → a) ∧ (a → z → b) := by
  constructor
  · intro h
    exact ⟨fun hb => (h.mp hb).1, fun ha hz => h.mpr ⟨ha, Or.inr hz⟩⟩
  · rintro ⟨hba, haz⟩
    exact ⟨fun hb => ⟨hba hb, Or.inl hb⟩, fun h => h.2.elim id (haz h.1)⟩

theorem sendPage_delivery_iff [Malloc] {p : Bytes} {r : ℤ × OutboundState} (hs : s.handler.Sound)
    (h0 : s.msgDelivered = 0) (hactions : s.actions = []) (hr : s.sendPage env p = .ok r) :
    r.2.DeliveredMeansSent
        (some (s.pMsg.pageHeader env p ++ p.take s.pMsg.msgContentLength.toNat)) ↔
      ((s.pMsg.pageSends env s.sends p).2 = true → (s.pMsg.pageSends env s.sends p).1 = true) ∧
      ((s.pMsg.pageSends env s.sends p).1 = true → s.pMsg.msgContentLength = 0 →
        (s.pMsg.pageSends env s.sends p).2 = true) := by
  obtain ⟨t, buf, ht, hbuf, rfl⟩ := sendPage_inv hs hr
  obtain ⟨hn, hbuf, hlen⟩ := fetch_zero_inv hbuf
  have hempty : buf = [] ↔ s.pMsg.msgContentLength = 0 := by
    rw [← List.length_eq_zero_iff, hlen]
    omega
  have hsecond := sendLoop_bRet buf (t.schedule s.pMsg.tcpSocketHandle)
  have hwhole := sendLoop_accepted_iff buf (t.schedule s.pMsg.tcpSocketHandle)
  have hstart := sendLoop_prefix buf (t.schedule s.pMsg.tcpSocketHandle)
  rw [hempty] at hwhole
  rcases sendHeader_inv hs ht with ⟨hpage, b, hb, hsent⟩ | ⟨hpage, hsent⟩
  · -- two sends: the header and the payload
    generalize hheader : s.pMsg.httpHeader env.serverName = header at hsent
    have hfirst := sendLoop_bRet header (s.schedule s.pMsg.tcpSocketHandle)
    have hwhole₁ := sendLoop_accepted_iff header (s.schedule s.pMsg.tcpSocketHandle)
    have hstart₁ := sendLoop_prefix header (s.schedule s.pMsg.tcpSocketHandle)
    rw [or_iff_left (hheader ▸ s.pMsg.httpHeader_ne_nil env.serverName)] at hwhole₁
    have hsend : s.pMsg.pageSends env s.sends p =
        ((sendLoop header (s.schedule s.pMsg.tcpSocketHandle)).bRet,
          (sendLoop buf (t.schedule s.pMsg.tcpSocketHandle)).bRet) := by
      have hrest : t.schedule s.pMsg.tcpSocketHandle =
          (taken header.length (s.schedule s.pMsg.tcpSocketHandle)).2 := by
        rw [hsent]
        exact schedule_afterSend (s.setHandler (s.handler.setResponse b)) _ header
      rw [Msg.pageSends, Msg.headerSend, if_pos hpage, hheader, ← hlen, hfirst, hsecond, hrest]
      rfl
    have haccepted : acceptedBytes t.actions =
        (sendLoop header (s.schedule s.pMsg.tcpSocketHandle)).accepted := by
      rw [hsent, acceptedBytes_afterSend, setHandler_actions, hactions]
      rfl
    rw [deliveredMeansSent_finish (by rw [afterSend_msgDelivered, hsent]; simpa using h0),
      acceptedBytes_afterSend, haccepted, Msg.pageHeader, if_pos hpage, hheader, ← hbuf, hsend,
      Option.some.injEq, append_eq_of_prefix hstart₁ hstart, hwhole, hwhole₁]
    exact second_iff_both
  · -- the page brings its header
    rw [hsent] at hwhole hsecond ⊢
    have hsend : s.pMsg.pageSends env s.sends p =
        (true, (sendLoop buf (s.schedule s.pMsg.tcpSocketHandle)).bRet) := by
      rw [Msg.pageSends, Msg.headerSend, if_neg hpage, ← hlen, hsecond]
      rfl
    rw [deliveredMeansSent_finish (by rw [afterSend_msgDelivered, h0]), acceptedBytes_afterSend,
      hactions, Msg.pageHeader, if_neg hpage, ← hbuf, hsend, Option.some.injEq]
    change (_ ↔ buf = (sendLoop buf (s.schedule s.pMsg.tcpSocketHandle)).accepted) ↔ _
    rw [eq_comm (a := buf), hwhole, ← second_iff_both]
    simp only [true_and]

/-- The result of sending a response is that there was a descriptor. -/
theorem sendResponse_delivery_iff {c : Bytes} {text : Option Bytes} {q : Bool × OutboundState}
    (hs : s.handler.Sound) (hc : s.handler.response.Holds c) (h0 : s.msgDelivered = 0)
    (hactions : s.actions = []) (htext : ∀ t, text = some t → t = c ∧ t ≠ [])
    (hq : s.sendResponse env = .ok q) :
    (q.2.finish q.1).2.DeliveredMeansSent text ↔
      (s.pMsg.tcpSocketHandle = -1 ∧ env.connect = none) ∨ ∃ t, text = some t ∧
        (taken t.length (Msg.resultsOn s.sends (s.pMsg.descriptor env))).1 = true := by
  obtain ⟨fd, t, ht, hq⟩ := sendResponse_inv hs hc hq
  obtain ⟨hnone, -, hprep⟩ := findSocket_inv hs ht
  have hdelivered : t.msgDelivered = 0 := hprep.delivered.trans h0
  have haccepted : acceptedBytes t.actions = [] := by
    rw [hprep.accepted, hactions]
    rfl
  rcases hq with ⟨hfd, rfl⟩ | ⟨hfd, rfl⟩
  · -- no descriptor: nothing is sent and nothing counts
    rw [deliveredMeansSent_finish hdelivered, haccepted]
    refine iff_of_true ?_ (Or.inl (hnone.mp hfd))
    refine iff_of_false Bool.false_ne_true fun h => ?_
    exact (htext [] h).2 rfl
  · -- the result is true whatever the descriptor took
    have hschedule : t.schedule (s.pMsg.descriptor env) =
        Msg.resultsOn s.sends (s.pMsg.descriptor env) := by
      rw [schedule, hprep.sends]
      rfl
    rw [deliveredMeansSent_finish (by rw [afterSend_msgDelivered, hdelivered]),
      acceptedBytes_afterSend, haccepted, List.nil_append, hschedule,
      or_iff_right (mt hnone.mpr hfd)]
    simp only [true_iff]
    constructor
    · intro h
      obtain ⟨heq, hne⟩ := htext _ h
      have hall := (sendLoop_accepted_iff c _).mp heq
      rw [or_iff_left (heq ▸ hne), sendLoop_bRet] at hall
      exact ⟨_, h, by rw [heq]; exact hall⟩
    · rintro ⟨t', h, htaken⟩
      obtain ⟨rfl, -⟩ := htext t' h
      rw [← sendLoop_bRet] at htaken
      rw [h, (sendLoop_accepted_iff t' _).mpr (Or.inl htaken)]

end OutboundState
open ConnectionHandlerOutbound OutboundState

/-- What a returning transmission says about a message is what the socket took of it exactly when
no result of a send is ignored. -/
theorem delivery_of_sound [Malloc] {h : ConnectionHandlerOutbound} {env : OutboundEnv} {m : Msg}
    {sends : List SendResult} {s : OutboundState} (hs : h.Sound) (hm : m.OverTcp)
    (hrun : handleConnection h env m sends = .ok s) :
    s.DeliveredMeansSent (m.wireText env) ↔ m.ResultMatches env sends := by
  obtain ⟨r, hr, hrun⟩ := bind_eq_ok.mp hrun
  rw [← Except.ok.inj hrun]
  have hsound : Sound { h with bCloseConnection := false } :=
    ⟨hs.response, hs.serverAddr, hs.temp⟩
  unfold Msg.wireText Msg.ResultMatches
  by_cases hpage : m.msgProtocolType = .httpGet ∨ m.msgProtocolType = .httpPost
  · rw [if_pos hpage, if_pos hpage]
    rw [transmitMsg, if_pos (by exact hpage)] at hr
    cases hp : m.payloadMem with
    | none =>
      -- without a payload nothing is sent and the header is missing
      simp only [hp] at hr
      rw [← Except.ok.inj hr, deliveredMeansSent_finish rfl]
      refine iff_of_true (iff_of_false Bool.false_ne_true fun hnil => ?_) (by simp)
      exact m.httpHeader_ne_nil env.serverName (Option.some.inj hnil)
    | some p =>
      simp only [hp] at hr
      have hiff := sendPage_delivery_iff hsound rfl rfl hr
      simpa only [Option.some.injEq, forall_eq'] using hiff
  · rw [if_neg hpage, if_neg hpage]
    have hct : m.msgConnectionType = .obTcp := hm.resolve_left hpage
    obtain ⟨response, handler, q, hresponse, hhandler, hq, rfl⟩ := transmitMsg_inv hpage hr
    obtain ⟨c, hc⟩ := formatResponse_holds hsound hresponse
    obtain ⟨hset, hkept, -, -⟩ := setServer_inv (hsound.setResponse hc) hhandler
    rcases sendByType_inv hq with ⟨hudp, -⟩ | ⟨-, hq⟩
    · have hboth := hudp.symm.trans hct
      cases hboth
    · have hholds : handler.response.Holds c := hkept ▸ hc
      refine sendResponse_delivery_iff hset hholds rfl rfl ?_ hq
      intro t ht
      obtain ⟨c', hc'⟩ := hs.response
      have htext := formatResponse_inv (h := { h with bCloseConnection := false }) hc' ht hresponse
      exact ⟨htext.unique hc, Msg.ownText_ne_nil ht⟩

/-- After any history a message over TCP that the handler gets through is DELIVERED, and counted,
exactly if all of its header and payload was accepted, and otherwise a failed delivery, if and only
if no failing send is one whose result is ignored. -/
theorem delivered_iff_sent [Malloc] {h : ConnectionHandlerOutbound} {env : OutboundEnv} {m : Msg}
    {sends : List SendResult} {s : OutboundState} (hleft : h.Left) (hm : m.OverTcp)
    (hrun : handleConnection h env m sends = .ok s) :
    s.DeliveredMeansSent (m.wireText env) ↔ m.ResultMatches env sends :=
  delivery_of_sound hleft.sound hm hrun

/-- An empty reply on descriptor 5. -/
def sampleReply : Msg :=
  { msgFormat := .res, msgProtocolType := .mcp, msgConnectionType := .obTcp, tcpSocketHandle := 5,
    msgID := bytes "7" }

def quietEnv : OutboundEnv where
  serverName := bytes "mc"
  elapsed := ⟨bytes "0.0000", by simp [bytes]⟩
  connect := none
  udpSocket := none
  sendto := false

set_option maxRecDepth 8000 in
theorem delivered_iff_sent_reply : ∃ s,
    handleConnection {} quietEnv sampleReply [.sent 40, .again, .sent 100] = .ok s ∧
      s.DeliveredMeansSent (sampleReply.wireText quietEnv) := by
  have hrun : ∃ s, handleConnection {} quietEnv sampleReply [.sent 40, .again, .sent 100] = .ok s :=
    ⟨_, rfl⟩
  obtain ⟨s, hs⟩ := hrun
  refine ⟨s, hs, (delivered_iff_sent Left.fresh (Or.inr rfl) hs).mpr (Or.inr ⟨_, rfl, by decide⟩)⟩

set_option maxRecDepth 8000 in
/-- The first `send` fails and the reply counts as delivered. -/
theorem failed_reply_delivered : ∃ s, handleConnection {} quietEnv sampleReply [.failed] = .ok s ∧
    s.pMsg.msgState = .delivered ∧ acceptedBytes s.actions = [] ∧
      ¬ s.DeliveredMeansSent (sampleReply.wireText quietEnv) := by
  have hrun : ∃ s, handleConnection {} quietEnv sampleReply [.failed] = .ok s ∧
      s.pMsg.msgState = .delivered ∧ acceptedBytes s.actions = [] := ⟨_, rfl, rfl, rfl⟩
  obtain ⟨s, hs, hstate, haccepted⟩ := hrun
  refine ⟨s, hs, hstate, haccepted, fun hd => ?_⟩
  have hne : sampleReply.wireText quietEnv ≠ some (acceptedBytes s.actions) := by
    rw [haccepted]
    decide
  rw [(hd.2 hne).1] at hstate
  cases hstate

end MsgCourier
