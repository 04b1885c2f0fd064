import MsgCourier.Msg
import MsgCourier.Url

/-! `cWebRequestHandler`: from the text of an HTTP request to the file that is sent. -/
namespace MsgCourier
open ListSearch CText

/-- `m_Response` is kept as the bytes it holds; a `cBuffer` holds less than `INT_MAX` of them. -/
structure WebRequestHandler where
  uri : List Bytes := []
  cgi : List Bytes := []
  cgiParams : Bytes := []
  cgiScript : Bytes := []
  bMessageTypeGet : Bool := false
  bCachedNotModified : Bool := false
  response : Bytes := []
  sPath : Bytes := []
  sContentType : Bytes := []
  sEntityTag : Bytes := []
  sMessageETag : Bytes := []
  sInterpreterNamespace : Bytes := []
  bWebPage : Bool := false

/-! ### The virtual directory -/

/-- The directories come from the attributes of a configuration file: they are C strings, and an
empty one is not mapped. -/
structure VirtualDirectoryMap where
  map : AList fun _ : Bytes => Bytes := ∅
  isDirectory : ∀ portName directory, map.lookup portName = some directory →
    directory ≠ [] ∧ 0 ∉ directory := by simp

namespace VirtualDirectoryMap

def getVirtualDirectory (x : VirtualDirectoryMap) (portName : Bytes) : Bytes :=
  (x.map.lookup portName).getD []

/-- `map::insert` keeps an entry that is there already. -/
def mapVirtualDirectory (x : VirtualDirectoryMap) (portName virtualDirectory : Bytes)
    (hd : virtualDirectory ≠ [] ∧ 0 ∉ virtualDirectory) : VirtualDirectoryMap :=
  if (x.map.lookup portName).isSome then x
  else
    { map := x.map.insert portName virtualDirectory
      isDirectory := by
        intro name directory hlookup
        by_cases hname : name = portName
        · rw [hname, AList.lookup_insert, Option.some.injEq] at hlookup
          exact hlookup ▸ hd
        · rw [AList.lookup_insert_ne hname] at hlookup
          exact x.isDirectory name directory hlookup }

/-- The directory of the host of a request, or else of the port on which it arrived. -/
def directoryFor (x : VirtualDirectoryMap) (sHost : Bytes) (iPort : ℤ) : Bytes :=
  let byHost := if 0 < sHost.length then x.getVirtualDirectory (bytes "host_" ++ sHost) else []
  if byHost.length < 1 then x.getVirtualDirectory (bytes "port_" ++ formatInt iPort) else byHost

theorem zero_notMem_getVirtualDirectory (x : VirtualDirectoryMap) (portName : Bytes) :
    0 ∉ x.getVirtualDirectory portName := by
  unfold getVirtualDirectory
  rcases hd : x.map.lookup portName with _ | directory
  · exact List.not_mem_nil
  · exact (x.isDirectory portName directory hd).2

theorem zero_notMem_directoryFor (x : VirtualDirectoryMap) (sHost : Bytes) (iPort : ℤ) :
    0 ∉ x.directoryFor sHost iPort := by
  unfold directoryFor
  dsimp only
  split_ifs
  · exact x.zero_notMem_getVirtualDirectory _
  · exact x.zero_notMem_getVirtualDirectory _
  · exact x.zero_notMem_getVirtualDirectory _
  · exact List.not_mem_nil

end VirtualDirectoryMap

/-! ### The header of a request -/

/-- `string::assign` of a part. A length below zero becomes a huge `size_t`. -/
def substr (s : Bytes) (pos : ℕ) (n : ℤ) : Cxx Bytes :=
  if s.length < pos then .error .stdException
  else .ok (if n < 0 then s.drop pos else (s.drop pos).take n.toNat)

/-- `cBuffer::ReplaceAll` on a text, with one round for each match. -/
def replaceRounds (pPattern pWith : Bytes) : ℕ → Bytes → Bytes
  | 0, s => s
  | n+1, s =>
    match firstOcc pPattern s with
    | none => s
    | some k => s.take k ++ pWith ++ replaceRounds pPattern pWith n (s.drop (k+pPattern.length))

def replaceAll (s : Bytes) (pPattern pWith : String) : Bytes :=
  replaceRounds (bytes pPattern) (bytes pWith) s.length s

/-- The mark-up an editor leaves in a script. -/
def withoutMarkup (s : Bytes) : Bytes :=
  [("<PRE>", "\n"), ("<pre>", "\n"), ("</PRE>", "\n"), ("</pre>", "\n"), ("<BR>", "\n"),
    ("<br>", "\n"), ("<P>", ""), ("<p>", ""), ("</P>", "\n"), ("</p>", "\n"), ("&nbsp;", " "),
    ("&lt;", "<"), ("&gt;", ">")].foldl (fun s (pat, w) => replaceAll s pat w) s

def uriSeparator (b : Byte) : Bool := b == 92 || b == 47 || b == 63

namespace WebRequestHandler

def isGet (pHTTPMessage : Bytes) : Bool := (bytes "GET").isPrefixOf (cstr pHTTPMessage)

/-- The text between the method and the version. Without a version the difference of the pointers
means nothing. -/
def sourceURI (pHTTPMessage : Bytes) : Cxx Bytes :=
  let iMessageTypeOffset := (if isGet pHTTPMessage then 3 else 4) + 1
  match strstr pHTTPMessage (bytes " HTTP/") with
  | none => .error .undefined
  | some iHeaderEnd =>
    substr (cstr pHTTPMessage) iMessageTypeOffset ((iHeaderEnd : ℤ)-iMessageTypeOffset)

/-- The loop over the tokens of the URI: the last one with a `=` has the parameters. -/
def setURI (h : WebRequestHandler) (decURI : Bytes) : WebRequestHandler :=
  let tokens := tokenizer uriSeparator decURI
  let uri := tokens.filter (61 ∉ ·)
  { h with
    cgiParams := (tokens.filter (61 ∈ ·)).getLast?.getD []
    cgiScript := []
    uri := if uri = [] then [bytes "index.html"] else uri }

def setETag (h : WebRequestHandler) (he : HeaderExtract) : Cxx WebRequestHandler :=
  let sETag := he.getValue (bytes "If-None-Match")
  if sETag.length ≠ 0 then do
    let sMessageETag ← substr sETag 1 ((sETag.length : ℤ)-2)
    pure { h with sMessageETag }
  else pure h

/-- A posted script replaces `m_CGIScript`, other posted text is added to the parameters. -/
def readBody (h : WebRequestHandler) (he : HeaderExtract) (buf : Buffer) (iSize : ℤ) :
    Cxx WebRequestHandler :=
  let length := atoi (he.getValue (bytes "Content-Length"))
  if h.bMessageTypeGet then pure h
  else if 0 < length then do
    let (p, _) ← buf.getBuffer
    let srcURI ← fetch (p.getD []) (iSize-length) length
    let decURI ← URL.decode srcURI
    if he.getValue (bytes "Content-Type") = bytes "application/x-www-form-urlencoded" then
      match firstOcc (bytes "tclscript=") decURI with
      | some pos => pure { h with cgiScript := withoutMarkup (decURI.drop (pos+10)) }
      | none => pure { h with cgiParams := h.cgiParams ++ decURI }
    else pure h
  else pure h

/-- Nothing in the `try` block throws an exception that the handler catches. -/
def processHTTPHeader [Malloc] (h : WebRequestHandler) (dirs : VirtualDirectoryMap) (pIMsg : Msg) :
    Cxx (Bool × WebRequestHandler) :=
  match pIMsg.msgRawBuffer.pBuffer with
  | none => .error .undefined
  | some pHTTPMessage => do
    let iSize := pIMsg.msgRawBuffer.tail
    let srcURI ← sourceURI pHTTPMessage
    let decURI ← URL.decode srcURI
    let h := { h with bMessageTypeGet := isGet pHTTPMessage }.setURI decURI
    let (_, buf) ← ({} : Buffer).replaceWith (some pHTTPMessage) iSize
    let (he, buf) ← ({} : HeaderExtract).parse buf
    let h ← h.setETag he
    let h ← h.readBody he buf iSize
    let sPath := dirs.directoryFor (he.getValue (bytes "Host")) pIMsg.msgArrivalPort
    if sPath.length = 0 then pure (false, { h with sPath })
    else pure (true, { h with sPath := h.uri.foldl (fun sPath name => sPath ++ 47 :: name) sPath })

end WebRequestHandler

/-! ### The file -/

structure FileCacheEntry where
  fileName : Bytes
  fileData : Bytes
  fileTimeStamp : ℤ
  fileLastAccessedTimeStamp : ℤ
  accessCount : ℤ
  entityTag : Bytes

structure FileCache where
  map : AList fun _ : Bytes => FileCacheEntry := ∅
  cacheSize : ℤ := 4096000

/-- What a request finds outside the process: the time a file was modified, its bytes, and the
clock at the three places where it is read. -/
structure ResourceEnv where
  modified : Bytes → Option ℤ
  contents : Bytes → Option Bytes
  checkedAt : ℤ
  accessedAt : ℤ
  storedAt : ℤ
  md5 : Bytes → Bytes
  mimeMap : AList fun _ : Bytes => Bytes

namespace FileCache

def update (x : FileCache) (fileName : Bytes) (f : FileCacheEntry → FileCacheEntry) : FileCache :=
  match x.map.lookup fileName with
  | some entry => { x with map := x.map.insert fileName (f entry) }
  | none => x

/-- `GetFileEntry` counts the access. -/
def getFileEntry (x : FileCache) (fileName : Bytes) : Option FileCacheEntry × FileCache :=
  let x := x.update fileName fun entry => { entry with accessCount := entry.accessCount+1 }
  (x.map.lookup fileName, x)

def updateFileAccessTime (x : FileCache) (fileName : Bytes) (now : ℤ) : FileCache :=
  x.update fileName fun entry => { entry with fileLastAccessedTimeStamp := now }

def store [Malloc] (x : FileCache) (env : ResourceEnv) (fileName fileData : Bytes)
    (fileTimeStamp : ℤ) : Cxx (Bool × FileCache) :=
  if x.cacheSize < fileData.length then pure (false, x)
  else do
    let ent ← ({} : Buffer).sprintf 1024 (cstr fileName ++ formatInt fileTimeStamp)
    let entry : FileCacheEntry :=
      { fileName, fileData, fileTimeStamp, fileLastAccessedTimeStamp := env.storedAt
        accessCount := 0, entityTag := env.md5 (cstr (ent.pBuffer.getD [])) }
    pure (true, { x with map := x.map.insert fileName entry })

def getEntityTag (x : FileCache) (fileName : Bytes) : Bytes :=
  (x.map.lookup fileName).elim [] fun entry => cstr entry.entityTag

end FileCache

namespace WebRequestHandler

/-- The extension counts from the last dot of the path on. -/
def getResourceContentType (h : WebRequestHandler) (env : ResourceEnv) : WebRequestHandler :=
  match firstOcc [46] h.sPath.reverse with
  | some k =>
      { h with sContentType := (env.mimeMap.lookup (h.sPath.drop (h.sPath.length-(k+1)))).getD [] }
  | none => { h with sContentType := bytes "application/octet-stream" }

/-- A page with a script in it is sent again even if the client has it. -/
def serveEntry (h : WebRequestHandler) (env : ResourceEnv) (entry : FileCacheEntry) :
    WebRequestHandler :=
  let h := { h with sEntityTag := entry.entityTag }
  if h.sMessageETag = h.sEntityTag then
    if h.bWebPage && (strstr entry.fileData (bytes "<?mc")).isSome then
      { h with bCachedNotModified := false, response := entry.fileData }.getResourceContentType env
    else { h with bCachedNotModified := true }
  else { h with response := entry.fileData }.getResourceContentType env

/-- The list has the paths that are opened, in order. -/
def getResource [Malloc] (h : WebRequestHandler) (env : ResourceEnv) (pFileCache : FileCache) :
    Cxx (WebRequestHandler × FileCache × List Bytes) :=
  let h := { h with response := [], bWebPage := h.bWebPage || occursIn (bytes ".htm") h.sPath }
  let (pFileEntry, pFileCache) := pFileCache.getFileEntry h.sPath
  let fileTimeStamp := pFileEntry.elim 0 (·.fileTimeStamp)
  let bStat := pFileEntry.all (·.fileLastAccessedTimeStamp < env.checkedAt)
  let opened := if bStat then [cstr h.sPath] else []
  let fileTimeStamp :=
    if bStat then ((env.modified (cstr h.sPath)).map int32).getD fileTimeStamp else fileTimeStamp
  let pFileCache := pFileCache.updateFileAccessTime h.sPath env.accessedAt
  match pFileEntry.filter (·.fileTimeStamp = fileTimeStamp) with
  | some entry => pure (h.serveEntry env entry, pFileCache, opened)
  | none =>
    if h.sPath.length = 0 then pure (h, pFileCache, opened)
    else
      let opened := opened ++ [cstr h.sPath]
      match env.contents (cstr h.sPath) with
      | none => pure (h, pFileCache, opened)
      | some data => do
        let (bStored, pFileCache) ← pFileCache.store env h.sPath data fileTimeStamp
        let h := { h with
          response := data
          sEntityTag := if bStored then pFileCache.getEntityTag h.sPath else h.sEntityTag }
        pure (h.getResourceContentType env, pFileCache, opened)

end WebRequestHandler
end MsgCourier
