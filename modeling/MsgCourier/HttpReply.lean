import MsgCourier.BufferRefinement
import MsgCourier.FileCoherence
import MsgCourier.OutboundContent
import MsgCourier.WireHeaders

/-! The replies of `cWebRequestHandler::Process`, and where they end on a stream. -/
namespace MsgCourier
open ListSearch CText Runs

/-! ### The date -/

/-- The fields of `struct tm` that the date is made of. -/
structure CalendarTime where
  wday : ℤ
  mday : ℤ
  mon : ℤ
  year : ℤ
  hour : ℤ
  min : ℤ
  sec : ℤ

/-- A `switch` over numbers that start with zero, without a default. -/
def tableName (names : List Bytes) (k : ℤ) : Bytes :=
  if k < 0 then [] else (names[k.toNat]?).getD []

def dayNames : List Bytes :=
  [bytes "Sun, ", bytes "Mon, ", bytes "Tue, ", bytes "Wed, ", bytes "Thu, ", bytes "Fri, ",
    bytes "Sat, "]

def monthNames : List Bytes :=
  [bytes "Jan ", bytes "Feb ", bytes "Mar ", bytes "Apr ", bytes "May ", bytes "Jun ",
    bytes "Jul ", bytes "Aug ", bytes "Sep ", bytes "Oct ", bytes "Nov ", bytes "Dec "]

/-- `%2.2d`: at least two digits, filled with zeros. -/
def formatInt2 (z : ℤ) : Bytes :=
  let ds := decimal z.natAbs
  let padded := List.replicate (2-ds.length) 48 ++ ds
  if z < 0 then 45 :: padded else padded

def getDate (t : CalendarTime) : Bytes :=
  tableName dayNames t.wday ++ formatInt2 t.mday ++ bytes " " ++ tableName monthNames t.mon ++
    formatInt (int32 (int32 (t.year-100)+2000)) ++ bytes " " ++ formatInt2 t.hour ++ bytes ":" ++
    formatInt2 t.min ++ bytes ":" ++ formatInt2 t.sec ++ bytes " GMT"

/-! ### The texts -/

def appVersion : Bytes := bytes "v0.3.0207"

/-- The clock and the configuration, as a reply finds them. -/
structure ReplyEnv where
  date : CalendarTime
  serverName : Bytes
  bZeroConfig : Bool

namespace WebRequestHandler

variable (h : WebRequestHandler) (env : ReplyEnv)

def serverLabel : Bytes := bytes "msgCourier/" ++ appVersion

def nodeLabel : Bytes := serverLabel ++ bytes " node(" ++ cstr env.serverName ++ bytes ")"

def connectionValue (keepAlive : Bool) : Bytes :=
  if keepAlive then bytes "Keep-Alive" else bytes "close"

def quoted (s : Bytes) : Bytes := bytes "\"" ++ s ++ bytes "\""

def notModifiedHeader (keepAlive : Bool) : Bytes :=
  bytes "HTTP/1.1 304 Not Modified\r\n" ++ headerField "Connection" (connectionValue keepAlive) ++
    headerField "Date" (getDate env.date) ++ headerField "Server" serverLabel ++ crlf

def okHeader (keepAlive : Bool) (bufferCount : ℤ) : Bytes :=
  bytes "HTTP/1.1 200 OK\r\n" ++ headerField "Connection" (connectionValue keepAlive) ++
    headerField "Date" (getDate env.date) ++ headerField "Server" serverLabel ++
    headerField "ETag" (quoted (cstr h.sEntityTag)) ++
    headerField "Content-Type" (cstr h.sContentType) ++
    headerField "Content-Length" (formatInt bufferCount) ++ crlf

def address : Bytes := bytes "<hr><address>" ++ serverLabel ++ bytes "</address></body></html>"

def zeroConfigBody : Bytes :=
  bytes "<html><head><title>Node: " ++ cstr env.serverName ++
    bytes "</title></head><body><h2>Node: " ++ cstr env.serverName ++
    bytes "</h2><p>Running based on zero-configuration. Note: this node will only accept " ++
    bytes "connections on the same subnet.</p>" ++ address

/-- The tag is inserted as a `string`, the rest as C strings. -/
def zeroConfigReply : Bytes :=
  bytes "HTTP/1.1 200 OK\r\n" ++ headerField "Date" (getDate env.date) ++
    headerField "Server" (nodeLabel env) ++ bytes "ETag: " ++ quoted h.sEntityTag ++ crlf ++
    headerField "Content-Type" (bytes "text/html") ++
    headerField "Content-Length" (decimal (zeroConfigBody env).length) ++ crlf ++
    zeroConfigBody env

def notFoundBody : Bytes :=
  bytes "<html><head><title>404 Not Found</title></head><body><h1>Resource Not Found</h1>" ++
    bytes "</title></head><body><p>The requested resource was not found on this server</p></h2>" ++
    address

def notFoundReply (keepAlive : Bool) : Bytes :=
  bytes "HTTP/1.1 404 Not Found\r\n" ++ headerField "Connection" (connectionValue keepAlive) ++
    headerField "Date" (getDate env.date) ++ headerField "Server" (nodeLabel env) ++
    headerField "Content-Type" (bytes "text/html") ++
    headerField "Content-Length" (decimal notFoundBody.length) ++ crlf ++ notFoundBody

/-- The reply of `Process` behind `GetResource`. The buffer `m_Response` is given as `GetResource`
leaves it and as the scripts of the page leave it. -/
def postReply [Malloc] (response page : Buffer) (pMsgReply : Msg) : Cxx Msg :=
  if h.bCachedNotModified then do
    let sheader := notModifiedHeader env pMsgReply.keepAlive
    let (_, b) ← response.replaceWith (some (sheader ++ [0])) (-1)
    pMsgReply.setContentPayload b.pBuffer b.tail
  else if response.tail ≠ 0 then do
    let sheader := h.okHeader env pMsgReply.keepAlive page.tail
    let (_, b) ← page.prepend (some (sheader ++ [0])) (-1)
    pMsgReply.setContentPayload b.pBuffer b.tail
  else
    let sheader :=
      if env.bZeroConfig then h.zeroConfigReply env else notFoundReply env pMsgReply.keepAlive
    pMsgReply.setContentPayload (some (sheader ++ [0])) sheader.length

/-- The text that is posted, with `c` for the page. -/
def replyText (keepAlive : Bool) (c : Bytes) : Bytes :=
  if h.bCachedNotModified then notModifiedHeader env keepAlive
  else if h.response ≠ [] then h.okHeader env keepAlive c.length ++ c
  else if env.bZeroConfig then h.zeroConfigReply env
  else notFoundReply env keepAlive

end WebRequestHandler

/-! ### Texts that stay in their line -/

theorem plain_decimal (n : ℕ) : Plain (decimal n) :=
  plain_of_digits fun _ hc => .inr (isDigit_of_mem_decimal hc)

theorem mem_formatInt2 {z : ℤ} {c : Byte} (hc : c ∈ formatInt2 z) : c = 45 ∨ isDigit c = true := by
  have hpad (hc : c ∈ List.replicate (2-(decimal z.natAbs).length) (48 : Byte) ++
      decimal z.natAbs) : c = 45 ∨ isDigit c = true := by
    rcases List.mem_append.mp hc with hc | hc
    · rw [List.eq_of_mem_replicate hc]
      exact .inr (by decide)
    · exact .inr (isDigit_of_mem_decimal hc)
  unfold formatInt2 at hc
  dsimp only at hc
  split_ifs at hc
  · rcases List.mem_cons.mp hc with hc | hc
    · exact .inl hc
    · exact hpad hc
  · exact hpad hc

theorem mem_formatInt {z : ℤ} {c : Byte} (hc : c ∈ formatInt z) : c = 45 ∨ isDigit c = true := by
  unfold formatInt at hc
  split_ifs at hc
  · exact (List.mem_cons.mp hc).imp_right isDigit_of_mem_decimal
  · exact .inr (isDigit_of_mem_decimal hc)

theorem plain_formatInt2 (z : ℤ) : Plain (formatInt2 z) := plain_of_digits fun _ => mem_formatInt2

theorem plain_nil : Plain [] := ⟨List.not_mem_nil, List.not_mem_nil, List.not_mem_nil⟩

theorem plain_tableName {names : List Bytes} (hnames : ∀ name ∈ names, Plain name) (k : ℤ) :
    Plain (tableName names k) := by
  unfold tableName
  split_ifs
  · exact plain_nil
  · rcases hget : names[k.toNat]? with _ | name
    · exact plain_nil
    · exact hnames name (List.mem_of_getElem? hget)

theorem plain_dayNames : ∀ name ∈ dayNames, Plain name := by
  have hall : ∀ name ∈ dayNames, 13 ∉ name ∧ 10 ∉ name ∧ 0 ∉ name := by decide
  exact hall

theorem plain_monthNames : ∀ name ∈ monthNames, Plain name := by
  have hall : ∀ name ∈ monthNames, 13 ∉ name ∧ 10 ∉ name ∧ 0 ∉ name := by decide
  exact hall

/-- Whatever the clock says, the date is one line. -/
theorem plain_getDate (t : CalendarTime) : Plain (getDate t) := by
  have hblank : Plain (bytes " ") := ⟨by decide, by decide, by decide⟩
  have hcolon : Plain (bytes ":") := ⟨by decide, by decide, by decide⟩
  have hzone : Plain (bytes " GMT") := ⟨by decide, by decide, by decide⟩
  have hday := (plain_tableName plain_dayNames t.wday).append (plain_formatInt2 t.mday)
  have hmonth := (hday.append hblank).append (plain_tableName plain_monthNames t.mon)
  have hyear := (hmonth.append (plain_formatInt (int32 (int32 (t.year-100)+2000)))).append hblank
  have htime := ((hyear.append (plain_formatInt2 t.hour)).append hcolon).append
    (plain_formatInt2 t.min)
  exact ((htime.append hcolon).append (plain_formatInt2 t.sec)).append hzone

/-! ### A header and the body it announces -/

namespace FieldHeader

variable (h : FieldHeader)

/-- The fields of a header of at least four bytes, whatever follows it. -/
theorem headerFields_block (h4 : 4 ≤ (joinLines h.lines).length) (r : Bytes) :
    headerFields (h.headerBlock.block ++ r) = (h.lines ++ [bytes "end"]).foldl addLine ∅ := by
  have htext := h.headerBlock.headerText_block h.zero_notMem_block h4
  rw [MsgCourier.headerFields_append htext, headerFields_of_joinLines h.headerBlock rfl rfl
    h.zero_notMem_block h4 (List.cons_ne_nil _ _) fun l hl => (h.lines_plain hl).1]

theorem fieldValue_block (h4 : 4 ≤ (joinLines h.lines).length) {name value : Bytes}
    (hmem : (name, value) ∈ h.fields) (r : Bytes) :
    fieldValue (h.headerBlock.block ++ r) name = value := by
  rw [fieldValue, h.headerFields_block h4, h.lookup_of_mem hmem, Option.getD_some]

theorem fieldValue_block_none (h4 : 4 ≤ (joinLines h.lines).length) {name : Bytes}
    (hfirst : NotField name h.first) (hmem : name ∉ h.fields.map Prod.fst) (r : Bytes) :
    fieldValue (h.headerBlock.block ++ r) name = [] := by
  rw [fieldValue, h.headerFields_block h4, h.lookup_of_notMem hfirst hmem, Option.getD_none]

end FieldHeader

/-- A reply: the first line starts with the version, and the length of the body is announced, unless
there is no body. -/
structure HttpMessage where
  header : FieldHeader
  body : Bytes
  version : bytes "HTTP/1.1 " <+: header.first
  noColon : 58 ∉ header.first
  sized : (bytes "Content-Length", decimal body.length) ∈ header.fields ∨
    body = [] ∧ bytes "Content-Length" ∉ header.fields.map Prod.fst
  spelled : bytes "Content-length" ∉ header.fields.map Prod.fst

namespace HttpMessage

variable (m : HttpMessage)

def text : Bytes := m.header.headerBlock.block ++ m.body

theorem length_text : m.text.length = (joinLines m.header.lines).length+4+m.body.length := by
  rw [text, List.length_append, m.header.headerBlock.length_eq]
  rfl

/-- The version alone has nine bytes. -/
theorem four_le : 4 ≤ (joinLines m.header.lines).length := by
  have hpre := (m.header.start_joinLines (show 13 ∉ bytes "HTTP/1.1 " by decide)).mpr m.version
  have hlen : (bytes "HTTP/1.1 ").length = 9 := by decide
  have hle := hpre.length_le
  omega

theorem notField_first (name : Bytes) : NotField name m.header.first := by
  intro value hvalue
  rw [splitLine_none m.noColon] at hvalue
  cases hvalue

theorem not_isGet (r : Bytes) : ¬ isGet (m.header.headerBlock.block ++ r) := by
  intro hget
  have hpre := (m.header.headerBlock.start_iff (by decide) r).mp hget.1
  have hlines : bytes "GET " <+: joinLines m.header.lines :=
    List.prefix_of_prefix_length_le hpre (List.prefix_append _ _)
      (m.header.headerBlock.length_le_of_start (by decide) hpre)
  have hfirst := (m.header.start_joinLines (by decide)).mp hlines
  have hboth := List.prefix_of_prefix_length_le hfirst m.version (by decide)
  exact absurd hboth (by decide)

/-- The length that is read is the one of the body. -/
theorem contentLength_eq (hmax : (m.text.length : ℤ) ≤ intMax) (r : Bytes) :
    contentLength (m.header.headerBlock.block ++ r) = some (m.body.length : ℤ) ∨
      m.body = [] ∧ contentLength (m.header.headerBlock.block ++ r) = none := by
  have hlen := m.length_text
  have hsecond : fieldValue (m.header.headerBlock.block ++ r) (bytes "Content-length") = [] :=
    m.header.fieldValue_block_none m.four_le (m.notField_first _) m.spelled r
  unfold contentLength lengthText
  rcases m.sized with hmem | ⟨hbody, hnone⟩
  · left
    have hne : (decimal m.body.length).length ≠ 0 := fun h0 =>
      decimal_ne_nil _ (List.length_eq_zero_iff.mp h0)
    rw [m.header.fieldValue_block m.four_le hmem, if_neg hne, if_neg hne, atoi_decimal (by omega)]
  · right
    have hfirst : fieldValue (m.header.headerBlock.block ++ r) (bytes "Content-Length") = [] :=
      m.header.fieldValue_block_none m.four_le (m.notField_first _) hnone r
    rw [hfirst, hsecond]
    exact ⟨hbody, rfl⟩

/-- On a stream that starts with the reply, the framing ends with its last byte. -/
theorem frameAt_text (hmax : (m.text.length : ℤ) ≤ intMax) (r : Bytes) :
    (frameAt (m.text ++ r) (joinLines m.header.lines).length).msgSize = m.text.length := by
  have hlen := m.length_text
  have happend : m.text ++ r = m.header.headerBlock.block ++ (m.body ++ r) := by
    rw [text, List.append_assoc]
  have hget := m.not_isGet (m.body ++ r)
  rcases m.contentLength_eq hmax (m.body ++ r) with hn | ⟨hbody, hn⟩
  · have hend : int32 ((joinLines m.header.lines).length+4+(m.body.length : ℤ)) =
        m.text.length := by
      rw [int32_eq (by omega) (by omega)]
      omega
    have hge : int32 ((joinLines m.header.lines).length+4+(m.body.length : ℤ)) ≤
        (m.header.headerBlock.block ++ (m.body ++ r)).length := by
      rw [hend, ← happend, List.length_append]
      omega
    rw [happend, frameAt_complete hget hn hge]
    dsimp only
    rw [hend]
  · rw [happend, frameAt_noLength hget hn]
    rw [hbody, List.length_nil] at hlen
    exact (show ((joinLines m.header.lines).length : ℤ)+4 = m.text.length by omega)

/-- The header ends at its first empty line. -/
theorem strstr_text (r : Bytes) :
    strstr (m.text ++ r) crlfcrlf = some (joinLines m.header.lines).length := by
  rw [text, List.append_assoc]
  exact m.header.headerBlock.strstr_block m.header.zero_notMem_block _

end HttpMessage

/-! ### Replies one behind the other -/

/-- The first reply of a stream, as `AnalyzeProtocol` frames it, and what follows. -/
def cutReply (stream : Bytes) : Option (Bytes × Bytes) :=
  (strstr stream crlfcrlf).map fun (p : ℕ) =>
    (stream.take (frameAt stream p).msgSize.toNat, stream.drop (frameAt stream p).msgSize.toNat)

def cutReplies : ℕ → Bytes → Option (List Bytes × Bytes)
  | 0, stream => some ([], stream)
  | n+1, stream => do
    let (reply, rest) ← cutReply stream
    let (replies, rest) ← cutReplies n rest
    some (reply :: replies, rest)

theorem HttpMessage.cutReply_text (m : HttpMessage) (hmax : (m.text.length : ℤ) ≤ intMax)
    (r : Bytes) : cutReply (m.text ++ r) = some (m.text, r) := by
  rw [cutReply, m.strstr_text, Option.map_some, m.frameAt_text hmax, Int.toNat_natCast,
    List.take_left, List.drop_left]

/-- The replies on a stream come apart where one was put behind the other. -/
theorem cutReplies_texts {rs : List Bytes}
    (hrs : ∀ r ∈ rs, ∃ m : HttpMessage, m.text = r ∧ (r.length : ℤ) ≤ intMax) (rest : Bytes) :
    cutReplies rs.length (rs.flatten ++ rest) = some (rs, rest) := by
  induction rs with
  | nil => rfl
  | cons r rs ih =>
    obtain ⟨m, htext, hmax⟩ := hrs r List.mem_cons_self
    have hcut := m.cutReply_text (htext.symm ▸ hmax) (rs.flatten ++ rest)
    have htail := ih fun x hx => hrs x (List.mem_cons_of_mem _ hx)
    rw [htext] at hcut
    rw [List.length_cons, List.flatten_cons, List.append_assoc, cutReplies, hcut]
    dsimp only [Option.bind_eq_bind, Option.bind_some]
    rw [htail]
    rfl

/-! ### The replies of a handler -/

namespace WebRequestHandler

section Parts

variable (h : WebRequestHandler) (env : ReplyEnv) (keepAlive : Bool) (c : Bytes)

def replyFirst : Bytes :=
  if h.bCachedNotModified then bytes "HTTP/1.1 304 Not Modified"
  else if h.response ≠ [] ∨ env.bZeroConfig then bytes "HTTP/1.1 200 OK"
  else bytes "HTTP/1.1 404 Not Found"

def replyBody : Bytes :=
  if h.bCachedNotModified then []
  else if h.response ≠ [] then c
  else if env.bZeroConfig then zeroConfigBody env
  else notFoundBody

def lengthPair (n : ℕ) : Bytes × Bytes := (bytes "Content-Length", decimal n)

/-- Only the page of the zero configuration has no `Connection` field. -/
def replyFields : List (Bytes × Bytes) :=
  let connection := (bytes "Connection", connectionValue keepAlive)
  let date := (bytes "Date", getDate env.date)
  let html := (bytes "Content-Type", bytes "text/html")
  if h.bCachedNotModified then [connection, date, (bytes "Server", serverLabel)]
  else if h.response ≠ [] then
    [connection, date, (bytes "Server", serverLabel),
      (bytes "ETag", quoted (cstr h.sEntityTag)), (bytes "Content-Type", cstr h.sContentType),
      lengthPair c.length]
  else if env.bZeroConfig then
    [date, (bytes "Server", nodeLabel env), (bytes "ETag", quoted h.sEntityTag), html,
      lengthPair (zeroConfigBody env).length]
  else
    [connection, date, (bytes "Server", nodeLabel env), html, lengthPair notFoundBody.length]

end Parts

/-- The texts that go into the header stay in their lines. The content type counts if there is a
page to send: else it may be the one of an earlier request. -/
structure InLine (h : WebRequestHandler) (env : ReplyEnv) : Prop where
  sEntityTag : Plain h.sEntityTag
  sContentType : h.bCachedNotModified = false → h.response ≠ [] → Plain h.sContentType
  serverName : Plain env.serverName

theorem plain_serverLabel : Plain serverLabel := ⟨by decide, by decide, by decide⟩

theorem plain_connectionValue (keepAlive : Bool) : Plain (connectionValue keepAlive) := by
  cases keepAlive
  · exact ⟨by decide, by decide, by decide⟩
  · exact ⟨by decide, by decide, by decide⟩

theorem plain_quoted {s : Bytes} (hs : Plain s) : Plain (quoted s) := by
  have hquote : Plain (bytes "\"") := ⟨by decide, by decide, by decide⟩
  exact (hquote.append hs).append hquote

theorem plain_nodeLabel {env : ReplyEnv} (hname : Plain env.serverName) :
    Plain (nodeLabel env) := by
  have hopen : Plain (bytes " node(") := ⟨by decide, by decide, by decide⟩
  have hclose : Plain (bytes ")") := ⟨by decide, by decide, by decide⟩
  exact ((plain_serverLabel.append hopen).append hname.cstr).append hclose

theorem formatInt_natCast (n : ℕ) : formatInt n = decimal n := by
  rw [formatInt, if_neg (by omega), Int.natAbs_natCast]

variable {h : WebRequestHandler} {env : ReplyEnv} {keepAlive : Bool} {c : Bytes}

/-- A printed field is a line, if its value is plain. -/
theorem headerField_line (name : String) {value : Bytes} (hvalue : Plain value) :
    headerField name value = fieldLine (bytes name, value) ++ crlf := by
  rw [headerField_eq, hvalue.cstr_eq]

theorem tagLine_eq (s r : Bytes) :
    bytes "ETag: " ++ (s ++ r) = fieldLine (bytes "ETag", s) ++ r := by
  have hname : bytes "ETag: " = bytes "ETag" ++ [58, 32] := by decide
  rw [hname, fieldLine, List.append_assoc, List.append_assoc]
  rfl

/-- The reply is its first line, its fields, an empty line and its body. -/
theorem replyText_eq (hline : h.InLine env) : h.replyText env keepAlive c =
    joinLines (h.replyFirst env :: (h.replyFields env keepAlive c).map fieldLine) ++ crlfcrlf ++
      h.replyBody env c := by
  have hconnection := headerField_line "Connection" (plain_connectionValue keepAlive)
  have hdate := headerField_line "Date" (plain_getDate env.date)
  have hserver := headerField_line "Server" plain_serverLabel
  have hnode := headerField_line "Server" (plain_nodeLabel hline.serverName)
  have htag := headerField_line "ETag" (plain_quoted hline.sEntityTag.cstr)
  have hhtml : headerField "Content-Type" (bytes "text/html") =
      fieldLine (bytes "Content-Type", bytes "text/html") ++ crlf :=
    headerField_line "Content-Type" ⟨by decide, by decide, by decide⟩
  have hlength (n : ℕ) : headerField "Content-Length" (decimal n) =
      fieldLine (lengthPair n) ++ crlf :=
    headerField_line "Content-Length" (plain_decimal n)
  have h304 : bytes "HTTP/1.1 304 Not Modified\r\n" =
      bytes "HTTP/1.1 304 Not Modified" ++ crlf := by decide
  have h200 : bytes "HTTP/1.1 200 OK\r\n" = bytes "HTTP/1.1 200 OK" ++ crlf := by decide
  have h404 : bytes "HTTP/1.1 404 Not Found\r\n" = bytes "HTTP/1.1 404 Not Found" ++ crlf := by
    decide
  rw [← printed_eq]
  unfold replyText replyFirst replyFields replyBody
  by_cases hcached : h.bCachedNotModified = true
  · simp only [if_pos hcached, notModifiedHeader, h304, hconnection, hdate, hserver, List.map_cons,
      List.map_nil, List.flatten_cons, List.flatten_nil, List.append_nil, List.append_assoc]
  by_cases hresponse : h.response ≠ []
  · have hfirst : h.response ≠ [] ∨ env.bZeroConfig = true := .inl hresponse
    have htype := headerField_line "Content-Type"
      (hline.sContentType (Bool.eq_false_iff.mpr hcached) hresponse).cstr
    simp only [if_neg hcached, if_pos hresponse, if_pos hfirst, okHeader, h200, hconnection, hdate,
      hserver, htag, htype, formatInt_natCast, hlength, List.map_cons, List.map_nil,
      List.flatten_cons, List.flatten_nil, List.append_nil, List.append_assoc]
  by_cases hzero : env.bZeroConfig = true
  · have hfirst : h.response ≠ [] ∨ env.bZeroConfig = true := .inr hzero
    simp only [if_neg hcached, if_neg hresponse, if_pos hzero, if_pos hfirst, zeroConfigReply, h200,
      hdate, hnode, hhtml, hlength, tagLine_eq, List.map_cons, List.map_nil, List.flatten_cons,
      List.flatten_nil, List.append_nil, List.append_assoc]
  · have hfirst : ¬ (h.response ≠ [] ∨ env.bZeroConfig = true) :=
      fun hor => hor.elim hresponse hzero
    simp only [if_neg hcached, if_neg hresponse, if_neg hzero, if_neg hfirst, notFoundReply, h404,
      hconnection, hdate, hnode, hhtml, hlength, List.map_cons, List.map_nil, List.flatten_cons,
      List.flatten_nil, List.append_nil, List.append_assoc]

theorem replyFirst_spec (h : WebRequestHandler) (env : ReplyEnv) :
    bytes "HTTP/1.1 " <+: h.replyFirst env ∧ 13 ∉ h.replyFirst env ∧ 0 ∉ h.replyFirst env ∧
      58 ∉ h.replyFirst env := by
  unfold replyFirst
  split_ifs
  · exact ⟨by decide, by decide, by decide, by decide⟩
  · exact ⟨by decide, by decide, by decide, by decide⟩
  · exact ⟨by decide, by decide, by decide, by decide⟩

def replyNames : List Bytes :=
  [bytes "Connection", bytes "Date", bytes "Server", bytes "ETag", bytes "Content-Type",
    bytes "Content-Length"]

theorem plain_replyNames : ∀ name ∈ replyNames, 58 ∉ name ∧ Plain name := by
  have hall : ∀ name ∈ replyNames, 58 ∉ name ∧ 13 ∉ name ∧ 10 ∉ name ∧ 0 ∉ name := by decide
  exact hall

theorem names_replyFields (h : WebRequestHandler) (env : ReplyEnv) (keepAlive : Bool) (c : Bytes) :
    ((h.replyFields env keepAlive c).map Prod.fst).Sublist replyNames := by
  unfold replyFields lengthPair
  dsimp only
  split_ifs <;> simp only [List.map_cons, List.map_nil] <;> decide

theorem nodup_replyFields (h : WebRequestHandler) (env : ReplyEnv) (keepAlive : Bool) (c : Bytes) :
    ((h.replyFields env keepAlive c).map Prod.fst).Nodup := by
  have hnames : replyNames.Nodup := by decide
  exact hnames.sublist (h.names_replyFields env keepAlive c)

theorem InLine.plain_replyFields (hline : h.InLine env) :
    ∀ f ∈ h.replyFields env keepAlive c, Plain f.2 := by
  have hnone : ∀ f ∈ ([] : List (Bytes × Bytes)), Plain f.2 :=
    fun f hf => absurd hf List.not_mem_nil
  have hconnection := plain_connectionValue keepAlive
  have hdate := plain_getDate env.date
  have hserver := plain_serverLabel
  have hnode := plain_nodeLabel hline.serverName
  have htag := plain_quoted hline.sEntityTag
  have hcut := plain_quoted hline.sEntityTag.cstr
  have hhtml : Plain (bytes "text/html") := ⟨by decide, by decide, by decide⟩
  have hlength (n : ℕ) : Plain (lengthPair n).2 := plain_decimal n
  unfold replyFields
  dsimp only
  split_ifs with hcached hresponse <;> simp only [List.forall_mem_cons]
  · exact ⟨hconnection, hdate, hserver, hnone⟩
  · have htype := (hline.sContentType (Bool.eq_false_iff.mpr hcached) hresponse).cstr
    exact ⟨hconnection, hdate, hserver, hcut, htype, hlength _, hnone⟩
  · exact ⟨hdate, hnode, htag, hhtml, hlength _, hnone⟩
  · exact ⟨hconnection, hdate, hnode, hhtml, hlength _, hnone⟩

theorem length_replyBody : lengthPair (h.replyBody env c).length ∈ h.replyFields env keepAlive c ∨
    h.replyBody env c = [] ∧
      bytes "Content-Length" ∉ (h.replyFields env keepAlive c).map Prod.fst := by
  unfold replyBody replyFields
  by_cases hcached : h.bCachedNotModified = true
  · right
    simp only [if_pos hcached, List.map_cons, List.map_nil]
    exact ⟨trivial, by decide⟩
  left
  by_cases hresponse : h.response ≠ []
  · simp only [if_neg hcached, if_pos hresponse, List.mem_cons, true_or, or_true]
  by_cases hzero : env.bZeroConfig = true
  · simp only [if_neg hcached, if_neg hresponse, if_pos hzero, List.mem_cons, true_or, or_true]
  · simp only [if_neg hcached, if_neg hresponse, if_neg hzero, List.mem_cons, true_or, or_true]

/-- The reply of a handler whose texts stay in their lines. -/
def replyMessage (hline : h.InLine env) (keepAlive : Bool) (c : Bytes) : HttpMessage where
  header :=
    { first := h.replyFirst env
      fields := h.replyFields env keepAlive c
      first_plain := by
        obtain ⟨hversion, h13, h0, -⟩ := h.replyFirst_spec env
        refine ⟨h13, h0, fun hnil => ?_⟩
        rw [hnil] at hversion
        exact absurd (List.prefix_nil.mp hversion) (by decide)
      plain := by
        intro f hf
        have hname := (h.names_replyFields env keepAlive c).subset (List.mem_map_of_mem hf)
        obtain ⟨hcolon, hplain⟩ := plain_replyNames _ hname
        have hmiddle : Plain [58, 32] := ⟨by decide, by decide, by decide⟩
        have hvalue := hline.plain_replyFields f hf
        have hall : Plain (fieldLine f) := hplain.append (hmiddle.append hvalue)
        exact ⟨hcolon, hall.1, hall.2.2⟩
      nodup := h.nodup_replyFields env keepAlive c }
  body := h.replyBody env c
  version := (h.replyFirst_spec env).1
  noColon := (h.replyFirst_spec env).2.2.2
  sized := length_replyBody
  spelled := by
    intro hmem
    have hname := (h.names_replyFields env keepAlive c).subset hmem
    exact absurd hname (by decide)

theorem text_replyMessage (hline : h.InLine env) (keepAlive : Bool) (c : Bytes) :
    (replyMessage hline keepAlive c).text = h.replyText env keepAlive c := by
  rw [replyText_eq hline]
  rfl

end WebRequestHandler

/-! ### Posting -/

theorem Buffer.prepend_of_lengthArg [Malloc] {b : Buffer} {p : Bytes} {z : ℤ} {n : ℕ}
    (h : lengthArg p z = .ok n) : b.prepend (some p) z = b.prepend (some p) n := by
  unfold prepend
  dsimp only
  rw [h, lengthArg_natCast]

theorem Buffer.replaceWith_of_lengthArg [Malloc] {b : Buffer} {p : Bytes} {z : ℤ} {n : ℕ}
    (h : lengthArg p z = .ok n) : b.replaceWith (some p) z = b.replaceWith (some p) n := by
  unfold replaceWith
  dsimp only
  rw [h, lengthArg_natCast]

theorem Buffer.Keeps.pBuffer_eq {b : Buffer} {c : Bytes} (h : b.Keeps c) (hc : c ≠ []) :
    ∃ junk, b.pBuffer = some (c ++ junk) := by
  cases h with
  | null => exact absurd rfl hc
  | block c junk => exact ⟨junk, rfl⟩

/-- The first `n` bytes behind a pointer become the payload. -/
theorem Msg.setContentPayload_prefix [Malloc] {m : Msg} {old p : Bytes}
    (hm : m.msgBuffer.Holds old) {n : ℕ}
    (h0 : 0 < n) (hn : n ≤ p.length) (hmax : (n : ℤ)+8 ≤ intMax) :
    ∃ b, m.setContentPayload (some p) n =
        .ok { m with msgBuffer := b, pPayload := .own 0, msgContentLength := n } ∧
      b.Sealed (p.take n) := by
  obtain ⟨b, hb, -, hsealed⟩ := hm.replaceWith p hn (Buffer.Holds.fits_reset hmax)
  obtain ⟨junk, hblock⟩ := (hsealed h0).pBuffer_eq
  have hsome : ¬ b.pBuffer = none := by simp [hblock]
  refine ⟨b, ?_, hsealed h0⟩
  unfold setContentPayload
  rw [hb, ok_bind]
  dsimp only
  rw [if_neg hsome]
  rfl

/-- The content of a buffer becomes the payload. -/
theorem Msg.setContentPayload_keeps [Malloc] {m : Msg} {old c : Bytes} (hm : m.msgBuffer.Holds old)
    {b : Buffer} (hb : b.Keeps c) (hc : c ≠ []) (hmax : (c.length : ℤ)+8 ≤ intMax) :
    ∃ b', m.setContentPayload b.pBuffer b.tail =
        .ok { m with msgBuffer := b', pPayload := .own 0, msgContentLength := c.length } ∧
      b'.Sealed c := by
  obtain ⟨junk, hblock⟩ := hb.pBuffer_eq hc
  have hlen : c.length ≤ (c ++ junk).length := by
    rw [List.length_append]
    exact Nat.le_add_right _ _
  have hset := setContentPayload_prefix hm (List.length_pos_iff.mpr hc) hlen hmax
  rw [List.take_left] at hset
  rw [hblock, hb.tail_eq]
  exact hset

namespace WebRequestHandler

variable {h : WebRequestHandler} {env : ReplyEnv} {c : Bytes}

theorem replyText_ne_nil (hline : h.InLine env) (keepAlive : Bool) :
    h.replyText env keepAlive c ≠ [] := by
  intro hnil
  have hlen := (replyMessage hline keepAlive c).length_text
  rw [text_replyMessage, hnil] at hlen
  simp only [List.length_nil] at hlen
  omega

/-- `Process` posts the reply whatever the scripts have made of the page. -/
theorem postReply_ok [Malloc] (hline : h.InLine env) {response page : Buffer} {m : Msg}
    {old : Bytes}
    (hresponse : response.Keeps h.response) (hpage : page.Keeps c) (hm : m.msgBuffer.Holds old)
    (hmax : ((h.replyText env m.keepAlive c).length : ℤ)+10 ≤ intMax) :
    ∃ b, h.postReply env response page m = .ok { m with
        msgBuffer := b
        pPayload := .own 0
        msgContentLength := (h.replyText env m.keepAlive c).length } ∧
      b.Sealed (h.replyText env m.keepAlive c) := by
  have hne := replyText_ne_nil (c := c) hline m.keepAlive
  have hnul := (replyMessage hline m.keepAlive c).header.zero_notMem_block
  have htext : (replyMessage hline m.keepAlive c).header.headerBlock.block ++ h.replyBody env c =
      h.replyText env m.keepAlive c := text_replyMessage hline m.keepAlive c
  have htail : response.tail = h.response.length := hresponse.tail_eq
  unfold postReply
  by_cases hcached : h.bCachedNotModified = true
  · have hreply : h.replyText env m.keepAlive c = notModifiedHeader env m.keepAlive := by
      rw [replyText, if_pos hcached]
    have hbody : h.replyBody env c = [] := by
      rw [replyBody, if_pos hcached]
    rw [hbody, List.append_nil] at htext
    rw [htext, hreply] at hnul
    rw [hreply] at hmax hne ⊢
    have hlength := Buffer.lengthArg_string hnul
    have hle : (notModifiedHeader env m.keepAlive).length ≤
        (notModifiedHeader env m.keepAlive ++ [0]).length := by
      rw [List.length_append]
      exact Nat.le_add_right _ _
    obtain ⟨b, hb, hkeeps⟩ := hresponse.replaceWith (notModifiedHeader env m.keepAlive ++ [0]) hle
      (Buffer.Holds.fits_reset (by omega))
    rw [List.take_left] at hkeeps
    rw [if_pos hcached]
    dsimp only
    rw [Buffer.replaceWith_of_lengthArg hlength, hb, ok_bind]
    exact Msg.setContentPayload_keeps hm hkeeps hne (by omega)
  rw [if_neg hcached]
  by_cases hempty : h.response ≠ []
  · have hreply : h.replyText env m.keepAlive c = h.okHeader env m.keepAlive c.length ++ c := by
      rw [replyText, if_neg hcached, if_pos hempty]
    have hbody : h.replyBody env c = c := by
      rw [replyBody, if_neg hcached, if_pos hempty]
    rw [hbody, hreply] at htext
    rw [List.append_cancel_right htext] at hnul
    rw [hreply] at hmax hne ⊢
    rw [List.length_append] at hmax
    have hlength := Buffer.lengthArg_string hnul
    have hle : (h.okHeader env m.keepAlive c.length).length ≤
        (h.okHeader env m.keepAlive c.length ++ [0]).length := by
      rw [List.length_append]
      exact Nat.le_add_right _ _
    obtain ⟨b, hb, hkeeps⟩ := hpage.prepend (h.okHeader env m.keepAlive c.length ++ [0]) hle
      (.inr (by rw [hpage.tail_eq]; omega))
    rw [List.take_left] at hkeeps
    have hcount : response.tail ≠ 0 := by
      rw [htail]
      exact fun h0 => hempty (List.length_eq_zero_iff.mp (Int.natCast_eq_zero.mp h0))
    rw [if_pos hcount]
    dsimp only
    rw [hpage.tail_eq, Buffer.prepend_of_lengthArg hlength, hb, ok_bind]
    exact Msg.setContentPayload_keeps hm hkeeps hne (by rw [List.length_append]; omega)
  · -- nothing to send: the reply is a page of the server itself
    have hreply : h.replyText env m.keepAlive c =
        if env.bZeroConfig then h.zeroConfigReply env else notFoundReply env m.keepAlive := by
      rw [replyText, if_neg hcached, if_neg hempty]
    have hcount : ¬ response.tail ≠ 0 := by
      rw [htail, not_not.mp hempty]
      exact fun hne => hne rfl
    rw [if_neg hcount]
    dsimp only
    rw [← hreply]
    have hset := Msg.setContentPayload_prefix (p := h.replyText env m.keepAlive c ++ [0]) hm
      (List.length_pos_iff.mpr hne) (by rw [List.length_append]; omega) (by omega)
    rwa [List.take_left] at hset

end WebRequestHandler
end MsgCourier
