import MsgCourier.VirtualDirectory
import MsgCourier.Runs

/-! Files that are served from the cache while they change on the disk. -/
namespace MsgCourier
open ListSearch CText Runs ZeroFill

/-! ### The entity tag -/

/-- 1024 bytes are asked for, and `AdjustSize` adds eight. -/
theorem sprintf_1024 [Malloc] {text : Bytes} (ht : 0 ∉ text) :
    (text.length < 1032 → ∃ b, ({} : Buffer).sprintf 1024 text = .ok b ∧ b.Sealed text) ∧
      (1032 ≤ text.length → ({} : Buffer).sprintf 1024 text = .error .undefined) := by
  have hblock : (Malloc.block {} 1032).length = 1032 := Malloc.length_block _ _
  obtain ⟨a, junk, hnew⟩ :=
    List.exists_cons_of_length_pos (show 0 < (Malloc.block {} 1032).length by omega)
  rw [hnew] at hblock
  have hlen : ([] ++ a :: junk).length = 1032 := hblock
  have hset : ({} : Buffer).setBufferSize 1024 =
      .ok ⟨some ([] ++ a :: junk), ([] ++ a :: junk).length, ([] : Bytes).length⟩ := by
    have hadjust : Buffer.adjustSize 1024 = 1032 := by decide
    unfold Buffer.setBufferSize
    dsimp only
    rw [hadjust, malloc, if_neg (by decide), ok_bind, hlen, List.nil_append, ← hnew]
    rfl
  have hprint := Buffer.sprintf_of_setBufferSize hset (by rw [hlen]; decide) ht
  rwa [hlen] at hprint

/-- What the tag of a version is the hash of. -/
def entityTagText (path : Bytes) (fileTimeStamp : ℤ) : Bytes :=
  cstr path ++ formatInt fileTimeStamp

namespace FileCache

variable {x y : FileCache} {env : ResourceEnv} {fileName fileData : Bytes} {fileTimeStamp : ℤ}

/-- What is stored for a version that was read. -/
def entryFor (env : ResourceEnv) (fileName fileData : Bytes) (fileTimeStamp : ℤ) :
    FileCacheEntry where
  fileName := fileName
  fileData := fileData
  fileTimeStamp := fileTimeStamp
  fileLastAccessedTimeStamp := env.storedAt
  accessCount := 0
  entityTag := env.md5 (entityTagText fileName fileTimeStamp)

theorem store_oversize [Malloc] (hsize : x.cacheSize < fileData.length) :
    x.store env fileName fileData fileTimeStamp = .ok (false, x) := by
  rw [store, if_pos hsize]
  rfl

theorem store_fits [Malloc] (hsize : (fileData.length : ℤ) ≤ x.cacheSize)
    (hname : (entityTagText fileName fileTimeStamp).length < 1032) :
    x.store env fileName fileData fileTimeStamp = .ok (true, { x with
      map := x.map.insert fileName (entryFor env fileName fileData fileTimeStamp) }) := by
  have h0 : 0 ∉ entityTagText fileName fileTimeStamp :=
    List.not_mem_append (zero_notMem_cstr _) (zero_notMem_formatInt _)
  obtain ⟨b, hprint, hsealed⟩ := (sprintf_1024 h0).1 hname
  obtain ⟨junk, hblock⟩ := hsealed.pBuffer_eq
  unfold entityTagText at hprint
  rw [store, if_neg (not_lt.mpr hsize), hprint, ok_bind]
  dsimp only
  rw [hblock, Option.getD_some, cstr_append_zero, cstr_eq_self h0]
  rfl

theorem store_overflow [Malloc] (hsize : (fileData.length : ℤ) ≤ x.cacheSize)
    (hname : 1032 ≤ (entityTagText fileName fileTimeStamp).length) :
    x.store env fileName fileData fileTimeStamp = .error .undefined := by
  have hprint := (sprintf_1024 (List.not_mem_append (zero_notMem_cstr fileName)
    (zero_notMem_formatInt fileTimeStamp))).2 hname
  rw [store, if_neg (not_lt.mpr hsize), hprint]
  rfl

/-- Nothing is stored, or the version under its name. -/
theorem store_inv [Malloc] {bStored : Bool}
    (hok : x.store env fileName fileData fileTimeStamp = .ok (bStored, y)) : y = x ∨ y = { x with
      map := x.map.insert fileName (entryFor env fileName fileData fileTimeStamp) } := by
  rcases lt_or_ge x.cacheSize fileData.length with hsize | hsize
  · rw [store_oversize hsize] at hok
    exact Or.inl (Prod.mk.inj (Except.ok.inj hok)).2.symm
  · rcases lt_or_ge (entityTagText fileName fileTimeStamp).length 1032 with hname | hname
    · rw [store_fits hsize hname] at hok
      exact Or.inr (Prod.mk.inj (Except.ok.inj hok)).2.symm
    · rw [store_overflow hsize hname] at hok
      cases hok

theorem update_cacheSize (f : FileCacheEntry → FileCacheEntry) :
    (x.update fileName f).cacheSize = x.cacheSize := by
  unfold update
  split <;> rfl

theorem lookup_update (f : FileCacheEntry → FileCacheEntry) (k : Bytes) :
    (x.update fileName f).map.lookup k =
      if k = fileName then (x.map.lookup k).map f else x.map.lookup k := by
  unfold update
  split
  · rename_i entry hentry
    dsimp only
    split_ifs with hk
    · rw [hk, AList.lookup_insert, hentry, Option.map_some]
    · exact AList.lookup_insert_ne hk
  · rename_i hnone
    split_ifs with hk
    · rw [hk, hnone, Option.map_none]
    · rfl

end FileCache

/-! ### The handler when it looks for the file -/

/-- The tag that a request sends, without the quotes around it. -/
def messageETag (c : Bytes) : Bytes := ((fieldValue c (bytes "If-None-Match")).drop 1).dropLast

namespace WebRequestHandler

variable {h h' : WebRequestHandler}

/-- What `Process` clears before it reads the header. -/
def cleared (h : WebRequestHandler) : WebRequestHandler :=
  { h with bWebPage := false, bCachedNotModified := false, sEntityTag := [], sMessageETag := [] }

theorem substr_quoted {s : Bytes} (hs : s.length ≠ 0) :
    substr s 1 ((s.length : ℤ)-2) = .ok (s.drop 1).dropLast := by
  rw [substr, if_neg (by omega)]
  split_ifs with hshort
  · have hnil : s.drop 1 = [] := List.drop_eq_nil_of_le (by omega)
    rw [hnil]
    rfl
  · have hlen : ((s.length : ℤ)-2).toNat = (s.drop 1).length-1 := by
      rw [List.length_drop]
      omega
    rw [hlen, List.dropLast_eq_take]

theorem setETag_eq (he : HeaderExtract) (hfresh : h.sMessageETag = []) :
    h.setETag he = .ok { h with
      sMessageETag := ((he.getValue (bytes "If-None-Match")).drop 1).dropLast } := by
  unfold setETag
  dsimp only
  split_ifs with hlen
  · rw [substr_quoted hlen]
    rfl
  · rw [not_not, List.length_eq_zero_iff] at hlen
    rw [hlen, List.drop_nil, List.dropLast_nil, ← hfresh]
    rfl

/-- The body changes nothing but the script and its parameters. -/
theorem readBody_inv {he : HeaderExtract} {buf : Buffer} {iSize : ℤ}
    (hok : h.readBody he buf iSize = .ok h') :
    ∃ script params, h' = { h with cgiScript := script, cgiParams := params } := by
  unfold readBody at hok
  dsimp only at hok
  split_ifs at hok with hget hlen htype
  · exact ⟨_, _, (Except.ok.inj hok).symm⟩
  · obtain ⟨p, _, hok⟩ := bind_eq_ok.mp hok
    obtain ⟨srcURI, _, hok⟩ := bind_eq_ok.mp hok
    obtain ⟨decURI, _, hok⟩ := bind_eq_ok.mp hok
    split at hok
    · exact ⟨_, _, (Except.ok.inj hok).symm⟩
    · exact ⟨_, _, (Except.ok.inj hok).symm⟩
  · obtain ⟨p, _, hok⟩ := bind_eq_ok.mp hok
    obtain ⟨srcURI, _, hok⟩ := bind_eq_ok.mp hok
    obtain ⟨decURI, _, hok⟩ := bind_eq_ok.mp hok
    exact ⟨_, _, (Except.ok.inj hok).symm⟩
  · exact ⟨_, _, (Except.ok.inj hok).symm⟩

/-- The handler that `GetResource` works on: nothing but the tag of the request is set. -/
structure Asking (h : WebRequestHandler) (sPath sMessageETag : Bytes) : Prop where
  sPath : h.sPath = sPath
  bWebPage : h.bWebPage = false
  bCachedNotModified : h.bCachedNotModified = false
  sEntityTag : h.sEntityTag = []
  sMessageETag : h.sMessageETag = sMessageETag

theorem asking_of_processHTTPHeader [Malloc] {dirs : VirtualDirectoryMap} {m : Msg} {c : Bytes}
    {b : Bool}
    (hraw : m.msgRawBuffer.Sealed c) (hok : h.cleared.processHTTPHeader dirs m = .ok (b, h')) :
    h'.Asking h'.sPath (messageETag c) := by
  obtain ⟨junk, hblock⟩ := hraw.pBuffer_eq
  unfold processHTTPHeader at hok
  rw [hblock] at hok
  dsimp only at hok
  obtain ⟨srcURI, hsrc, hok⟩ := bind_eq_ok.mp hok
  obtain ⟨decURI, hdec, hok⟩ := bind_eq_ok.mp hok
  obtain ⟨⟨rc, buf⟩, hbuf, hok⟩ := bind_eq_ok.mp hok
  obtain ⟨⟨he, buf'⟩, hhe, hok⟩ := bind_eq_ok.mp hok
  rw [sourceURI_terminated] at hsrc
  have hvalue := getValue_of_parse hraw (four_le_of_sourceURI hsrc) hbuf hhe
  have hfresh : ({ h.cleared with bMessageTypeGet := isGet (c ++ 0 :: junk) }.setURI
      decURI).sMessageETag = [] := rfl
  dsimp only at hok
  rw [setETag_eq he hfresh, ok_bind, hvalue] at hok
  obtain ⟨h₂, hbody, hok⟩ := bind_eq_ok.mp hok
  obtain ⟨script, params, rfl⟩ := readBody_inv hbody
  split_ifs at hok
  · obtain ⟨rfl, rfl⟩ := Prod.mk.inj (Except.ok.inj hok)
    exact ⟨rfl, rfl, rfl, rfl, rfl⟩
  · obtain ⟨rfl, rfl⟩ := Prod.mk.inj (Except.ok.inj hok)
    exact ⟨rfl, rfl, rfl, rfl, rfl⟩

/-! ### `GetResource` case by case -/

variable {env : ResourceEnv} {x : FileCache}

/-- The handler when the answer is looked for. -/
def searching (h : WebRequestHandler) : WebRequestHandler :=
  { h with response := [], bWebPage := h.bWebPage || occursIn (bytes ".htm") h.sPath }

/-- The cache after the access was counted and its time noted. -/
def noted (x : FileCache) (env : ResourceEnv) (sPath : Bytes) : FileCache :=
  (x.getFileEntry sPath).2.updateFileAccessTime sPath env.accessedAt

theorem noted_cacheSize (x : FileCache) (env : ResourceEnv) (sPath : Bytes) :
    (noted x env sPath).cacheSize = x.cacheSize :=
  (FileCache.update_cacheSize _).trans (FileCache.update_cacheSize _)

theorem lookup_noted (x : FileCache) (env : ResourceEnv) (sPath k : Bytes) :
    (noted x env sPath).map.lookup k =
      if k = sPath then (x.map.lookup k).map fun entry => { entry with
        accessCount := entry.accessCount+1, fileLastAccessedTimeStamp := env.accessedAt }
      else x.map.lookup k := by
  unfold noted FileCache.updateFileAccessTime FileCache.getFileEntry
  rw [FileCache.lookup_update, FileCache.lookup_update]
  split_ifs
  · rw [Option.map_map]
    rfl
  · rfl

theorem getFileEntry_eq (x : FileCache) (sPath : Bytes) :
    x.getFileEntry sPath = ((x.map.lookup sPath).map fun entry =>
      { entry with accessCount := entry.accessCount+1 }, (x.getFileEntry sPath).2) := by
  have hlookup := @FileCache.lookup_update x sPath
    (fun entry => { entry with accessCount := entry.accessCount+1 }) sPath
  rw [if_pos rfl] at hlookup
  exact Prod.ext hlookup rfl

/-- The copy has the time stamp that the disk has, or the disk has no such file. -/
theorem getResource_cached [Malloc] {entry : FileCacheEntry}
    (hentry : x.map.lookup h.sPath = some entry)
    (hstat : entry.fileLastAccessedTimeStamp < env.checkedAt)
    (htime : ((env.modified (cstr h.sPath)).map int32).getD entry.fileTimeStamp =
      entry.fileTimeStamp) :
    h.getResource env x = .ok (h.searching.serveEntry env
      { entry with accessCount := entry.accessCount+1 }, noted x env h.sPath, [cstr h.sPath]) := by
  unfold getResource
  dsimp only
  rw [getFileEntry_eq, hentry]
  simp only [Option.map_some, Option.all_some, Option.elim_some, decide_eq_true hstat, if_true,
    htime, Option.filter_some, decide_true]
  rfl

/-- There is no copy, or one with another time stamp. -/
theorem getResource_read [Malloc] {modified : ℤ} {data : Bytes} (hpath : h.sPath ≠ [])
    (hentry : ∀ entry, x.map.lookup h.sPath = some entry →
      entry.fileLastAccessedTimeStamp < env.checkedAt ∧ entry.fileTimeStamp ≠ int32 modified)
    (hmodified : env.modified (cstr h.sPath) = some modified)
    (hdata : env.contents (cstr h.sPath) = some data) :
    h.getResource env x = ((noted x env h.sPath).store env h.sPath data (int32 modified) >>=
      fun r => pure (({ h.searching with
        response := data
        sEntityTag := if r.1 then r.2.getEntityTag h.sPath else h.sEntityTag } :
          WebRequestHandler).getResourceContentType env, r.2, [cstr h.sPath, cstr h.sPath])) := by
  have hlen : h.sPath.length ≠ 0 := fun hlen => hpath (List.length_eq_zero_iff.mp hlen)
  unfold getResource
  dsimp only
  rw [getFileEntry_eq]
  rcases hlookup : x.map.lookup h.sPath with _ | entry
  · simp only [Option.map_none, Option.all_none, Option.elim_none, Option.filter_none, if_true,
      if_neg hlen, hdata, hmodified, Option.map_some, Option.getD_some]
    rfl
  · obtain ⟨hstat, hne⟩ := hentry entry hlookup
    simp only [Option.map_some, Option.all_some, Option.elim_some, decide_eq_true hstat, if_true,
      hmodified, Option.getD_some, Option.filter_some, decide_eq_false hne, Bool.false_eq_true,
      if_false, if_neg hlen, hdata]
    rfl

/-- The file cannot be opened and there is no copy of it. -/
theorem getResource_missing [Malloc] (hentry : x.map.lookup h.sPath = none)
    (hdata : env.contents (cstr h.sPath) = none) :
    ∃ opened, h.getResource env x = .ok (h.searching, noted x env h.sPath, opened) := by
  unfold getResource
  dsimp only
  rw [getFileEntry_eq, hentry]
  simp only [Option.map_none, Option.all_none, Option.elim_none, Option.filter_none, hdata]
  by_cases hlen : h.sPath.length = 0
  · rw [if_pos hlen]
    exact ⟨_, rfl⟩
  · rw [if_neg hlen]
    exact ⟨_, rfl⟩

/-- Only the version that was read is added to the cache. -/
theorem getResource_cache [Malloc] {cache : FileCache} {opened : List Bytes}
    (hok : h.getResource env x = .ok (h', cache, opened)) :
    cache = noted x env h.sPath ∨ ∃ data fileTimeStamp, cache = { noted x env h.sPath with
      map := (noted x env h.sPath).map.insert h.sPath
        (FileCache.entryFor env h.sPath data fileTimeStamp) } := by
  unfold getResource at hok
  dsimp only at hok
  have hend {r : WebRequestHandler × FileCache × List Bytes}
      (hr : pure r = (.ok (h', cache, opened) : Cxx _)) : cache = r.2.1 := by
    obtain rfl : r = (h', cache, opened) := Except.ok.inj hr
    rfl
  split at hok
  · exact Or.inl (hend hok)
  · by_cases hlen : h.sPath.length = 0
    · rw [if_pos hlen] at hok
      exact Or.inl (hend hok)
    · rw [if_neg hlen] at hok
      split at hok
      · exact Or.inl (hend hok)
      · obtain ⟨⟨bStored, y⟩, hstore, hok⟩ := bind_eq_ok.mp hok
        have hy : cache = y := hend hok
        rw [hy]
        exact (FileCache.store_inv hstore).imp id fun hins => ⟨_, _, hins⟩

end WebRequestHandler

/-! ### The disk and the server -/

structure DiskFile where
  modified : ℤ
  contents : Bytes

/-- No file has the empty path. -/
structure Disk where
  file : Bytes → Option DiskFile
  file_nil : file [] = none

/-- Files are created, deleted and modified, and another content comes with another time. -/
def Disk.Edited (x y : Disk) : Prop :=
  ∀ path old new, x.file path = some old → y.file path = some new →
    old.modified = new.modified → old = new

/-- What does not change while the server runs. -/
structure Site where
  dirs : VirtualDirectoryMap
  md5 : Bytes → Bytes
  mimeMap : AList fun _ : Bytes => Bytes

/-- A handler may have served other requests before, and the clock does not go back while it is at
work. -/
structure FileRequest where
  handler : WebRequestHandler
  msg : Msg
  text : Bytes
  isText : msg.msgRawBuffer.Sealed text
  checkedAt : ℤ
  accessedAt : ℤ
  storedAt : ℤ
  inOrder : checkedAt ≤ accessedAt ∧ accessedAt ≤ storedAt

/-- The time is in seconds, and `servedAt` is when a request for the path was last served. -/
structure FileServer where
  disk : Disk
  fileCache : FileCache
  servedAt : Bytes → Option ℤ

variable (site : Site)

def FileRequest.path (q : FileRequest) : Bytes :=
  let dir := site.dirs.directoryFor (fieldValue q.text (bytes "Host")) q.msg.msgArrivalPort
  if dir = [] then [] else appendNames dir (requestNames q.text)

namespace FileServer

def env (s : FileServer) (q : FileRequest) : ResourceEnv where
  modified path := (s.disk.file path).map (·.modified)
  contents path := (s.disk.file path).map (·.contents)
  checkedAt := q.checkedAt
  accessedAt := q.accessedAt
  storedAt := q.storedAt
  md5 := site.md5
  mimeMap := site.mimeMap

/-- `Process` has read the header, and the last request for the path was in an earlier second. -/
structure Asks [Malloc] (s : FileServer) (q : FileRequest) (h : WebRequestHandler) : Prop where
  header : ∃ b, q.handler.cleared.processHTTPHeader site.dirs q.msg = .ok (b, h)
  spaced : ∀ t, s.servedAt (q.path site) = some t → t < q.checkedAt

inductive Event
  | edit
  | request (q : FileRequest)

inductive Step [Malloc] : FileServer → Event → FileServer → Prop
  | edit {s : FileServer} {disk : Disk} (hedit : s.disk.Edited disk) :
      Step s .edit { s with disk := disk }
  | request {s : FileServer} {q : FileRequest} {h h' : WebRequestHandler} {cache : FileCache}
      {opened : List Bytes} (hask : s.Asks site q h)
      (hres : h.getResource (s.env site q) s.fileCache = .ok (h', cache, opened)) :
      Step s (.request q) { s with
        fileCache := cache
        servedAt := Function.update s.servedAt (q.path site) (some q.storedAt) }

/-- The size of the cache is set when the server starts. -/
def start (cacheSize : ℤ) (disk : Disk) : FileServer where
  disk := disk
  fileCache := { cacheSize }
  servedAt _ := none

variable {site : Site} {s t : FileServer} {q : FileRequest} {h h' : WebRequestHandler}

theorem asking_of_asks [Malloc] (hask : s.Asks site q h) :
    h.Asking (q.path site) (messageETag q.text) := by
  obtain ⟨b, hheader⟩ := hask.header
  have hasking := WebRequestHandler.asking_of_processHTTPHeader q.isText hheader
  have hinv := WebRequestHandler.processHTTPHeader_inv q.isText hheader
  have hpath : h.sPath = q.path site := by
    unfold FileRequest.path
    dsimp only
    split_ifs with hdir
    · exact (hinv.1 hdir).2
    · exact (hinv.2 hdir).2
  exact { hasking with sPath := hpath }

/-! ### What is in the cache -/

/-- A copy has the tag of its time stamp, and was used last when its path was asked for last. -/
structure CopyOf (site : Site) (servedAt : Option ℤ) (k : Bytes) (entry : FileCacheEntry) :
    Prop where
  used : ∃ now, servedAt = some now ∧ entry.fileLastAccessedTimeStamp ≤ now
  tagged : entry.entityTag = site.md5 (entityTagText k entry.fileTimeStamp)

def Inv (site : Site) (s : FileServer) : Prop :=
  ∀ k entry, s.fileCache.map.lookup k = some entry → CopyOf site (s.servedAt k) k entry

theorem Inv.noted (hinv : Inv site s) {k : Bytes} {entry : FileCacheEntry}
    (hlookup : (WebRequestHandler.noted s.fileCache (s.env site q) (q.path site)).map.lookup k =
      some entry) :
    CopyOf site (Function.update s.servedAt (q.path site) (some q.storedAt) k) k entry := by
  rw [WebRequestHandler.lookup_noted] at hlookup
  split_ifs at hlookup with hk
  · obtain ⟨entry', hentry', rfl⟩ := Option.map_eq_some_iff.mp hlookup
    rw [hk, Function.update_self]
    exact ⟨⟨_, rfl, q.inOrder.2⟩, hk ▸ (hinv k entry' hentry').tagged⟩
  · rw [Function.update_of_ne hk]
    exact hinv k entry hlookup

theorem inv_step [Malloc] (s : FileServer) (e : Event) (t : FileServer) (hinv : Inv site s)
    (hstep : Step site s e t) : Inv site t := by
  cases hstep with
  | edit _ => exact hinv
  | @request q h h' cache opened hask hres =>
    have hpath := (asking_of_asks hask).sPath
    intro k entry hlookup
    dsimp only at hlookup ⊢
    obtain hcache | ⟨data, fileTimeStamp, hcache⟩ := WebRequestHandler.getResource_cache hres
    · rw [hcache, hpath] at hlookup
      exact hinv.noted hlookup
    · rw [hcache, hpath] at hlookup
      dsimp only at hlookup
      by_cases hk : k = q.path site
      · rw [hk, AList.lookup_insert, Option.some.injEq] at hlookup
        rw [hk, ← hlookup, Function.update_self]
        exact ⟨⟨_, rfl, le_rfl⟩, rfl⟩
      · rw [AList.lookup_insert_ne hk] at hlookup
        exact hinv.noted hlookup

theorem inv_of_run [Malloc] {cacheSize : ℤ} {disk : Disk} {es : List Event}
    (hrun : Run (Step site) (start cacheSize disk) es s) : Inv site s := by
  apply hrun.invariant inv_step
  intro k entry hlookup
  rw [start, AList.lookup_empty] at hlookup
  cases hlookup

/-! ### What a request is owed -/

end FileServer

/-- The content of the file as it is now with the tag of its time, or nothing if there is no file.
`m_bCachedNotModified` stands for a reply without content. -/
def Coherent (site : Site) (q : FileRequest) (file : Option DiskFile) (h : WebRequestHandler) :
    Prop :=
  match file with
  | none => h.response = [] ∧ h.bCachedNotModified = false
  | some f =>
    h.sEntityTag = site.md5 (entityTagText (q.path site) (int32 f.modified)) ∧
      if h.bCachedNotModified = true then
        messageETag q.text = site.md5 (entityTagText (q.path site) (int32 f.modified))
      else h.response = f.contents

/-- The client is told to keep the copy it has. -/
def FileRequest.Keeps (site : Site) (q : FileRequest) (entry : FileCacheEntry) : Prop :=
  messageETag q.text = entry.entityTag ∧
    ¬ (occursIn (bytes ".htm") (q.path site) = true ∧
      (strstr entry.fileData (bytes "<?mc")).isSome = true)

namespace FileServer

/-- The file goes into the cache, and its name with the time stamp into 1032 bytes. -/
def Readable (s : FileServer) (path : Bytes) (f : DiskFile) : Prop :=
  (f.contents.length : ℤ) ≤ s.fileCache.cacheSize ∧
    (entityTagText path (int32 f.modified)).length < 1032

/-- The cache has no copy of a file that is gone, unless it is empty and the client has another; a
copy with the time stamp of the file has its content, or the client keeps its own; and a file that
has to be read can be stored. -/
def Servable (site : Site) (s : FileServer) (q : FileRequest) : Prop :=
  match s.fileCache.map.lookup (q.path site), s.disk.file (cstr (q.path site)) with
  | none, none => True
  | some entry, none => entry.fileData = [] ∧ messageETag q.text ≠ entry.entityTag
  | none, some f => s.Readable (q.path site) f
  | some entry, some f =>
    if entry.fileTimeStamp = int32 f.modified then entry.fileData = f.contents ∨ q.Keeps site entry
    else s.Readable (q.path site) f

end FileServer

namespace WebRequestHandler

variable {site : Site} {q : FileRequest} {h : WebRequestHandler} {env : ResourceEnv}

@[simp] theorem getResourceContentType_sEntityTag (h : WebRequestHandler) (env : ResourceEnv) :
    (h.getResourceContentType env).sEntityTag = h.sEntityTag := by
  unfold getResourceContentType
  split <;> rfl

@[simp] theorem getResourceContentType_bCachedNotModified (h : WebRequestHandler)
    (env : ResourceEnv) :
    (h.getResourceContentType env).bCachedNotModified = h.bCachedNotModified := by
  unfold getResourceContentType
  split <;> rfl

@[simp] theorem getResourceContentType_response (h : WebRequestHandler) (env : ResourceEnv) :
    (h.getResourceContentType env).response = h.response := by
  unfold getResourceContentType
  split <;> rfl

/-- A copy is sent with its tag, unless the client keeps its own. -/
theorem serveEntry_eq (hask : h.Asking (q.path site) (messageETag q.text))
    (entry : FileCacheEntry) : (h.searching.serveEntry env entry).sEntityTag = entry.entityTag ∧
      (q.Keeps site entry → (h.searching.serveEntry env entry).bCachedNotModified = true ∧
        (h.searching.serveEntry env entry).response = []) ∧
      (¬ q.Keeps site entry → (h.searching.serveEntry env entry).bCachedNotModified = false ∧
        (h.searching.serveEntry env entry).response = entry.fileData) := by
  have hpage : h.searching.bWebPage = occursIn (bytes ".htm") (q.path site) := by
    unfold searching
    rw [hask.bWebPage, hask.sPath]
    exact Bool.false_or _
  have htag : h.searching.sMessageETag = messageETag q.text := hask.sMessageETag
  have hkept : h.searching.bCachedNotModified = false := hask.bCachedNotModified
  unfold serveEntry FileRequest.Keeps
  dsimp only
  rw [htag, hpage]
  split_ifs with heq hmc
  · rw [Bool.and_eq_true] at hmc
    rw [getResourceContentType_sEntityTag, getResourceContentType_bCachedNotModified,
      getResourceContentType_response]
    exact ⟨rfl, fun hkeeps => absurd hmc hkeeps.2, fun _ => ⟨rfl, rfl⟩⟩
  · rw [Bool.and_eq_true] at hmc
    exact ⟨rfl, fun _ => ⟨rfl, rfl⟩, fun hnot => absurd ⟨heq, hmc⟩ hnot⟩
  · rw [getResourceContentType_sEntityTag, getResourceContentType_bCachedNotModified,
      getResourceContentType_response]
    exact ⟨rfl, fun hkeeps => absurd hkeeps.1 heq, fun _ => ⟨hkept, rfl⟩⟩

end WebRequestHandler

namespace FileServer

variable {site : Site} {s : FileServer} {q : FileRequest} {h : WebRequestHandler}

/-- `GetResource` returns, and the answer is coherent. -/
def Answered [Malloc] (site : Site) (s : FileServer) (q : FileRequest) (h : WebRequestHandler) :
    Prop :=
  ∃ h' cache opened, h.getResource (s.env site q) s.fileCache = .ok (h', cache, opened) ∧
    Coherent site q (s.disk.file (cstr (q.path site))) h'

/-- A file without a current copy is sent as it is, and has a tag when it is stored. -/
theorem answered_read_iff [Malloc] (hmd5 : ∀ text, site.md5 text ≠ [] ∧ 0 ∉ site.md5 text)
    (hask : h.Asking (q.path site) (messageETag q.text)) {f : DiskFile}
    (hfile : s.disk.file (cstr (q.path site)) = some f)
    (hcopy : ∀ entry, s.fileCache.map.lookup (q.path site) = some entry →
      entry.fileLastAccessedTimeStamp < q.checkedAt ∧ entry.fileTimeStamp ≠ int32 f.modified) :
    s.Answered site q h ↔ s.Readable (q.path site) f := by
  have hpath : q.path site ≠ [] := by
    intro hnil
    rw [hnil, show cstr [] = [] from rfl, s.disk.file_nil] at hfile
    cases hfile
  have hmodified : (s.env site q).modified (cstr h.sPath) = some f.modified := by
    rw [hask.sPath]
    exact congrArg (Option.map (·.modified)) hfile
  have hdata : (s.env site q).contents (cstr h.sPath) = some f.contents := by
    rw [hask.sPath]
    exact congrArg (Option.map (·.contents)) hfile
  have hread := WebRequestHandler.getResource_read (x := s.fileCache) (by rwa [hask.sPath])
    (by rwa [hask.sPath]) hmodified hdata
  have hcacheSize := WebRequestHandler.noted_cacheSize s.fileCache (s.env site q) (q.path site)
  rw [hask.sPath] at hread
  unfold Answered Readable
  rw [hread, hfile, ← hcacheSize]
  rcases lt_or_ge (WebRequestHandler.noted s.fileCache (s.env site q) (q.path site)).cacheSize
    (f.contents.length : ℤ) with hsize | hsize
  · -- the file is sent without a tag
    rw [FileCache.store_oversize hsize, ok_bind]
    refine iff_of_false ?_ fun hreadable => absurd hreadable.1 (not_le.mpr hsize)
    rintro ⟨h', cache, opened, hok, hcoherent⟩
    obtain ⟨rfl, _⟩ := Prod.mk.inj (Except.ok.inj hok)
    have htag := hcoherent.1
    rw [WebRequestHandler.getResourceContentType_sEntityTag] at htag
    exact (hmd5 _).1 (htag.symm.trans hask.sEntityTag)
  · rcases lt_or_ge (entityTagText (q.path site) (int32 f.modified)).length 1032 with hname | hname
    · rw [FileCache.store_fits hsize hname, ok_bind]
      refine iff_of_true ⟨_, _, _, rfl, ?_⟩ ⟨hsize, hname⟩
      have htag : FileCache.getEntityTag { WebRequestHandler.noted s.fileCache (s.env site q)
          (q.path site) with map := (WebRequestHandler.noted s.fileCache (s.env site q)
          (q.path site)).map.insert (q.path site) (FileCache.entryFor (s.env site q) (q.path site)
            f.contents (int32 f.modified)) } (q.path site) =
          site.md5 (entityTagText (q.path site) (int32 f.modified)) := by
        rw [FileCache.getEntityTag, AList.lookup_insert]
        exact cstr_eq_self (hmd5 _).2
      have hkept : h.searching.bCachedNotModified = false := hask.bCachedNotModified
      refine ⟨?_, ?_⟩
      · rw [WebRequestHandler.getResourceContentType_sEntityTag]
        exact htag
      · rw [WebRequestHandler.getResourceContentType_bCachedNotModified,
          WebRequestHandler.getResourceContentType_response, if_neg (by rw [hkept]; decide)]
    · rw [FileCache.store_overflow hsize hname]
      refine iff_of_false ?_ fun hreadable => absurd hreadable.2 (not_lt.mpr hname)
      rintro ⟨h', cache, opened, hok, _⟩
      cases hok

/-- A copy of a file that is gone is sent in its place. -/
theorem answered_gone_iff [Malloc] (hask : h.Asking (q.path site) (messageETag q.text))
    {entry : FileCacheEntry} (hentry : s.fileCache.map.lookup (q.path site) = some entry)
    (hstat : entry.fileLastAccessedTimeStamp < q.checkedAt)
    (hfile : s.disk.file (cstr (q.path site)) = none) :
    s.Answered site q h ↔ entry.fileData = [] ∧ messageETag q.text ≠ entry.entityTag := by
  have hmodified : (s.env site q).modified (cstr h.sPath) = none := by
    rw [hask.sPath]
    exact congrArg (Option.map (·.modified)) hfile
  have hentry' : s.fileCache.map.lookup h.sPath = some entry := by rwa [hask.sPath]
  have hstat' : entry.fileLastAccessedTimeStamp < (s.env site q).checkedAt := hstat
  have hserve := WebRequestHandler.getResource_cached hentry' hstat' (by rw [hmodified]; rfl)
  obtain ⟨_, hkeeps, hsends⟩ := @WebRequestHandler.serveEntry_eq site q h (s.env site q) hask
    { entry with accessCount := entry.accessCount+1 }
  unfold Answered
  rw [hserve, hfile]
  constructor
  · rintro ⟨h', cache, opened, hok, hcoherent⟩
    obtain ⟨rfl, _⟩ := Prod.mk.inj (Except.ok.inj hok)
    by_cases hk : q.Keeps site { entry with accessCount := entry.accessCount+1 }
    · exact absurd ((hkeeps hk).1.symm.trans hcoherent.2) (by decide)
    · have hempty : entry.fileData = [] := (hsends hk).2.symm.trans hcoherent.1
      refine ⟨hempty, fun htag => hk ⟨htag, ?_⟩⟩
      rw [hempty]
      exact fun hscript => absurd hscript.2 (by decide)
  · rintro ⟨hempty, htag⟩
    have hnot : ¬ q.Keeps site { entry with accessCount := entry.accessCount+1 } :=
      fun hk => htag hk.1
    exact ⟨_, _, _, rfl, (hsends hnot).2.trans hempty, (hsends hnot).1⟩

/-- A copy with the time stamp of the file is sent for it. -/
theorem answered_copy_iff [Malloc] (hask : h.Asking (q.path site) (messageETag q.text))
    {entry : FileCacheEntry} (hentry : s.fileCache.map.lookup (q.path site) = some entry)
    (hstat : entry.fileLastAccessedTimeStamp < q.checkedAt) {f : DiskFile}
    (hfile : s.disk.file (cstr (q.path site)) = some f)
    (htime : entry.fileTimeStamp = int32 f.modified)
    (htagged : entry.entityTag = site.md5 (entityTagText (q.path site) entry.fileTimeStamp)) :
    s.Answered site q h ↔ entry.fileData = f.contents ∨ q.Keeps site entry := by
  have hmodified : (s.env site q).modified (cstr h.sPath) = some f.modified := by
    rw [hask.sPath]
    exact congrArg (Option.map (·.modified)) hfile
  have hentry' : s.fileCache.map.lookup h.sPath = some entry := by rwa [hask.sPath]
  have hstat' : entry.fileLastAccessedTimeStamp < (s.env site q).checkedAt := hstat
  have hserve := WebRequestHandler.getResource_cached hentry' hstat' (by rw [hmodified, htime]; rfl)
  obtain ⟨htag, hkeeps, hsends⟩ := @WebRequestHandler.serveEntry_eq site q h (s.env site q) hask
    { entry with accessCount := entry.accessCount+1 }
  rw [htime] at htagged
  unfold Answered
  rw [hserve, hfile]
  by_cases hk : q.Keeps site entry
  · refine iff_of_true ⟨_, _, _, rfl, htag.trans htagged, ?_⟩ (Or.inr hk)
    rw [if_pos (hkeeps hk).1]
    exact hk.1.trans htagged
  · rw [or_iff_left hk]
    constructor
    · rintro ⟨h', cache, opened, hok, hcoherent⟩
      obtain ⟨rfl, _⟩ := Prod.mk.inj (Except.ok.inj hok)
      have hsent := hcoherent.2
      rw [if_neg (by rw [(hsends hk).1]; decide)] at hsent
      exact (hsends hk).2.symm.trans hsent
    · intro hsame
      refine ⟨_, _, _, rfl, htag.trans htagged, ?_⟩
      rw [if_neg (by rw [(hsends hk).1]; decide)]
      exact (hsends hk).2.trans hsame

/-- In every run and for every next request, the answer is coherent with the disk exactly when the
cache and the disk are as `Servable` says. -/
theorem getResource_coherent_iff [Malloc] {cacheSize : ℤ} {disk : Disk} {es : List Event}
    (hmd5 : ∀ text, site.md5 text ≠ [] ∧ 0 ∉ site.md5 text)
    (hrun : Run (Step site) (start cacheSize disk) es s) (hask : s.Asks site q h) :
    s.Answered site q h ↔ s.Servable site q := by
  have hinv := inv_of_run hrun
  have hasking := asking_of_asks hask
  have hstat (entry : FileCacheEntry) (hentry : s.fileCache.map.lookup (q.path site) = some entry) :
      entry.fileLastAccessedTimeStamp < q.checkedAt := by
    obtain ⟨now, hserved, hle⟩ := (hinv _ entry hentry).used
    exact hle.trans_lt (hask.spaced now hserved)
  unfold Servable
  rcases hentry : s.fileCache.map.lookup (q.path site) with _ | entry
  · rcases hfile : s.disk.file (cstr (q.path site)) with _ | f
    · have hdata : (s.env site q).contents (cstr h.sPath) = none := by
        rw [hasking.sPath]
        exact congrArg (Option.map (·.contents)) hfile
      obtain ⟨opened, hok⟩ := WebRequestHandler.getResource_missing (h := h) (x := s.fileCache)
        (by rwa [hasking.sPath]) hdata
      refine iff_of_true ⟨_, _, _, hok, ?_⟩ trivial
      rw [hfile]
      exact ⟨rfl, hasking.bCachedNotModified⟩
    · apply answered_read_iff hmd5 hasking hfile
      intro entry hsome
      rw [hentry] at hsome
      cases hsome
  · rcases hfile : s.disk.file (cstr (q.path site)) with _ | f
    · exact answered_gone_iff hasking hentry (hstat entry hentry) hfile
    · dsimp only
      split_ifs with htime
      · exact answered_copy_iff hasking hentry (hstat entry hentry) hfile htime
          (hinv _ entry hentry).tagged
      · apply answered_read_iff hmd5 hasking hfile
        intro entry' hsome
        obtain rfl := Option.some_inj.mp (hentry.symm.trans hsome)
        exact ⟨hstat entry hentry, htime⟩

/-! ### A file that is deleted -/

end FileServer

/-- A request for `/a` in the second `now`. -/
def askAt (now : ℤ) : FileRequest where
  handler := {}
  msg := requestMsg (fileRequest "/a")
  text := fileRequest "/a"
  isText := sealed_requestMsg "/a" (by decide)
  checkedAt := now
  accessedAt := now
  storedAt := now
  inOrder := ⟨le_rfl, le_rfl⟩

/-- The only text that is hashed is `/srv/a5`. -/
def plainSite : Site where
  dirs := plainDirectories
  md5 _ := bytes "2FBE9832FB54ADF83041D96B8A792A92"
  mimeMap := ∅

def oneFile : Disk where
  file path := if path = bytes "/srv/a" then some ⟨5, bytes "x"⟩ else none
  file_nil := rfl

def noFile : Disk where
  file _ := none
  file_nil := rfl

theorem path_askAt (now : ℤ) : (askAt now).path plainSite = bytes "/srv/a" := by
  have hpath : (askAt 1).path plainSite = bytes "/srv/a" := by decide
  exact hpath

set_option maxRecDepth 8000 in
theorem header_askAt [Malloc] (now : ℤ) : ∃ b h,
    (askAt now).handler.cleared.processHTTPHeader plainSite.dirs (askAt now).msg = .ok (b, h) := by
  obtain ⟨b, h, _, _, hheader, _⟩ := fileRequest_answered "/a" (bytes "/a") (bytes "/srv/a")
    (by decide) (by decide) rfl (by decide) (by decide)
    (by decide) (by decide) (by decide) (by decide)
  exact ⟨b, h, hheader⟩

namespace FileServer

/-- The server before the first request. -/
def firstStart : FileServer := start 4096000 oneFile

theorem oneFile_file : oneFile.file (cstr (bytes "/srv/a")) = some ⟨5, bytes "x"⟩ := by
  have hcstr : cstr (bytes "/srv/a") = bytes "/srv/a" := by decide
  unfold oneFile
  dsimp only
  rw [hcstr, if_pos rfl]

theorem plainSite_md5 (text : Bytes) : plainSite.md5 text ≠ [] ∧ 0 ∉ plainSite.md5 text := by
  have htag : plainSite.md5 [] ≠ [] ∧ 0 ∉ plainSite.md5 [] := by decide
  exact htag

theorem asks_first : ∃ h, firstStart.Asks plainSite (askAt 1) h := by
  obtain ⟨b, h, hheader⟩ := header_askAt 1
  exact ⟨h, ⟨b, hheader⟩, nofun⟩

/-- The first request stores the file. -/
theorem first_stored : ∃ s entry, Step plainSite firstStart (.request (askAt 1)) s ∧
    s.servedAt (bytes "/srv/a") = some 1 ∧
    s.fileCache.map.lookup (bytes "/srv/a") = some entry ∧ entry.fileData = bytes "x" ∧
    entry.fileLastAccessedTimeStamp = 1 ∧ entry.fileTimeStamp = 5 ∧ s.disk = oneFile ∧
    s.fileCache.cacheSize = 4096000 := by
  obtain ⟨h, hask⟩ := asks_first
  have hpath : h.sPath = bytes "/srv/a" := (asking_of_asks hask).sPath.trans (path_askAt 1)
  have hmodified : (firstStart.env plainSite (askAt 1)).modified (cstr h.sPath) = some 5 := by
    rw [hpath]
    exact congrArg (Option.map (·.modified)) oneFile_file
  have hdata : (firstStart.env plainSite (askAt 1)).contents (cstr h.sPath) = some (bytes "x") := by
    rw [hpath]
    exact congrArg (Option.map (·.contents)) oneFile_file
  have hres := WebRequestHandler.getResource_read (x := firstStart.fileCache)
    (by rw [hpath]; decide) (fun entry hentry => by cases hentry) hmodified hdata
  rw [FileCache.store_fits (by rw [WebRequestHandler.noted_cacheSize]; decide)
    (by rw [hpath]; decide), ok_bind] at hres
  refine ⟨_, FileCache.entryFor (firstStart.env plainSite (askAt 1)) h.sPath (bytes "x") (int32 5),
    .request hask hres, ?_, ?_, rfl, rfl, (show int32 5 = 5 by decide), rfl, ?_⟩
  · dsimp only
    rw [path_askAt, Function.update_self]
    rfl
  · rw [← hpath]
    exact AList.lookup_insert _
  · exact WebRequestHandler.noted_cacheSize _ _ _

/-- The file with another content and another time. -/
def editedFile : Disk where
  file path := if path = bytes "/srv/a" then some ⟨6, bytes "yz"⟩ else none
  file_nil := rfl

theorem editedFile_file : editedFile.file (cstr (bytes "/srv/a")) = some ⟨6, bytes "yz"⟩ := by
  have hcstr : cstr (bytes "/srv/a") = bytes "/srv/a" := by decide
  unfold editedFile
  dsimp only
  rw [hcstr, if_pos rfl]

theorem edited_oneFile : oneFile.Edited editedFile := by
  intro path old new hold hnew htime
  unfold oneFile at hold
  unfold editedFile at hnew
  dsimp only at hold hnew
  split_ifs at hold hnew with hpath
  rw [← Option.some.inj hold, ← Option.some.inj hnew] at htime
  exact absurd htime (by decide)

/-- The file is served, edited, and asked for again: the cache has the old content, and the new one
is sent. -/
theorem getResource_coherent_iff_edited : ∃ es s h, Run (Step plainSite) firstStart es s ∧
    s.Asks plainSite (askAt 2) h ∧ s.Servable plainSite (askAt 2) ∧
    s.Answered plainSite (askAt 2) h ∧
    (s.fileCache.map.lookup (bytes "/srv/a")).map (·.fileData) = some (bytes "x") ∧
    s.disk.file (cstr ((askAt 2).path plainSite)) = some ⟨6, bytes "yz"⟩ := by
  obtain ⟨s, entry, hstep, hserved, hentry, hdata, -, htime, hdisk, hsize⟩ := first_stored
  obtain ⟨b, h, hheader⟩ := header_askAt 2
  have hedited : Step plainSite s .edit { s with disk := editedFile } :=
    .edit (hdisk.symm ▸ edited_oneFile)
  have hask : FileServer.Asks plainSite { s with disk := editedFile } (askAt 2) h := by
    refine ⟨⟨b, hheader⟩, fun now hnow => ?_⟩
    rw [path_askAt, hserved, Option.some.injEq] at hnow
    rw [← hnow]
    decide
  have hnew : ¬ entry.fileTimeStamp = int32 6 := by
    rw [htime]
    decide
  have hservable : FileServer.Servable plainSite { s with disk := editedFile } (askAt 2) := by
    unfold Servable
    dsimp only
    rw [path_askAt, hentry, editedFile_file]
    dsimp only
    rw [if_neg hnew]
    refine ⟨?_, by decide⟩
    dsimp only
    rw [hsize]
    decide
  have hrun := (Run.nil.snoc hstep).snoc hedited
  refine ⟨_, _, h, hrun, hask, hservable,
    (getResource_coherent_iff plainSite_md5 hrun hask).mpr hservable, ?_, ?_⟩
  · dsimp only
    rw [hentry, Option.map_some, hdata]
  · dsimp only
    rw [path_askAt, editedFile_file]

/-- The file is served, deleted, and served again. -/
theorem deleted_file_served : ∃ es s h, Run (Step plainSite) firstStart es s ∧
    s.Asks plainSite (askAt 2) h ∧ s.disk.file (cstr ((askAt 2).path plainSite)) = none ∧
    ¬ s.Answered plainSite (askAt 2) h := by
  obtain ⟨s, entry, hstep, hserved, hentry, hdata, hused, -⟩ := first_stored
  obtain ⟨b, h, hheader⟩ := header_askAt 2
  have hdeleted : Step plainSite s .edit { s with disk := noFile } :=
    .edit fun path old new _ hnew => by cases hnew
  have hask : FileServer.Asks plainSite { s with disk := noFile } (askAt 2) h := by
    refine ⟨⟨b, hheader⟩, fun now hnow => ?_⟩
    rw [path_askAt, hserved, Option.some.injEq] at hnow
    rw [← hnow]
    decide
  refine ⟨_, _, h, (Run.nil.snoc hstep).snoc hdeleted, hask, rfl, ?_⟩
  rw [answered_gone_iff (asking_of_asks hask) (by rwa [path_askAt]) (by rw [hused]; decide) rfl,
    hdata]
  exact fun hempty => absurd hempty.1 (by decide)

end FileServer
end MsgCourier
