import MsgCourier.WebRequest
import MsgCourier.PathPlaces

/-! Requests for files outside the virtual directory. -/
namespace MsgCourier
open ListSearch CText PathPlaces ZeroFill

/-! ### What a request asks for -/

/-- The names that the URI of a request consists of. -/
def requestNames (pHTTPMessage : Bytes) : List Bytes :=
  match WebRequestHandler.sourceURI pHTTPMessage with
  | .ok srcURI =>
    (({} : WebRequestHandler).setURI (cstr (URL.decodeLoop (cstr srcURI)))).uri
  | .error _ => []

theorem strstr_terminated (c junk pat : Bytes) : strstr (c ++ 0 :: junk) pat = strstr c pat := by
  rw [strstr, strstr, cstr_append_zero]

theorem sourceURI_terminated (c junk : Bytes) :
    WebRequestHandler.sourceURI (c ++ 0 :: junk) = WebRequestHandler.sourceURI c := by
  unfold WebRequestHandler.sourceURI WebRequestHandler.isGet
  rw [strstr_terminated, cstr_append_zero]

namespace WebRequestHandler

variable {h h' : WebRequestHandler}

theorem four_le_of_sourceURI {c srcURI : Bytes} (hsrc : sourceURI c = .ok srcURI) :
    4 ≤ c.length := by
  unfold sourceURI at hsrc
  rcases hk : strstr c (bytes " HTTP/") with _ | k
  · rw [hk] at hsrc
    cases hsrc
  · have hle := strstr_le hk
    have hpat : (bytes " HTTP/").length = 6 := rfl
    omega

theorem setETag_kept {he : HeaderExtract} (hok : h.setETag he = .ok h') :
    h'.uri = h.uri ∧ h'.bMessageTypeGet = h.bMessageTypeGet := by
  unfold setETag at hok
  dsimp only at hok
  split_ifs at hok
  · obtain ⟨tag, _, hok⟩ := bind_eq_ok.mp hok
    rw [← Except.ok.inj hok]
    exact ⟨rfl, rfl⟩
  · rw [← Except.ok.inj hok]
    exact ⟨rfl, rfl⟩

theorem readBody_uri {he : HeaderExtract} {buf : Buffer} {iSize : ℤ}
    (hok : h.readBody he buf iSize = .ok h') : h'.uri = h.uri := by
  unfold readBody at hok
  dsimp only at hok
  split_ifs at hok with hget hlen htype
  · rw [← Except.ok.inj hok]
  · obtain ⟨p, _, hok⟩ := bind_eq_ok.mp hok
    obtain ⟨srcURI, _, hok⟩ := bind_eq_ok.mp hok
    obtain ⟨decURI, _, hok⟩ := bind_eq_ok.mp hok
    split at hok
    · rw [← Except.ok.inj hok]
    · rw [← Except.ok.inj hok]
  · obtain ⟨p, _, hok⟩ := bind_eq_ok.mp hok
    obtain ⟨srcURI, _, hok⟩ := bind_eq_ok.mp hok
    obtain ⟨decURI, _, hok⟩ := bind_eq_ok.mp hok
    rw [← Except.ok.inj hok]
  · rw [← Except.ok.inj hok]

/-- The header that is parsed from a copy of the raw bytes has the fields of the text. -/
theorem getValue_of_parse [Malloc] {m : Msg} {c junk : Bytes} {rc : ℤ} {buf buf' : Buffer}
    {he : HeaderExtract} (hraw : m.msgRawBuffer.Sealed c) (hlen : 4 ≤ c.length)
    (hbuf : ({} : Buffer).replaceWith (some (c ++ 0 :: junk)) m.msgRawBuffer.tail = .ok (rc, buf))
    (hhe : ({} : HeaderExtract).parse buf = .ok (he, buf')) (name : Bytes) :
    he.getValue name = fieldValue c name := by
  have harg : lengthArg (c ++ 0 :: junk) m.msgRawBuffer.tail = .ok (c.length : ℤ) := by
    rw [hraw.holds.tail_eq, Buffer.lengthArg_natCast]
  obtain ⟨n, hn, _, hholds⟩ := Buffer.Holds.null.replaceWith_inv harg hbuf
  obtain rfl : c.length = n := by exact_mod_cast hn
  rw [List.take_left] at hholds
  obtain ⟨b', x', _, hparse, hparams⟩ := ({} : HeaderExtract).parse_holds hholds hlen
  rw [hparse] at hhe
  obtain ⟨rfl, _⟩ := Prod.mk.inj (Except.ok.inj hhe)
  rw [HeaderExtract.getValue, hparams]
  rfl

/-- The path is the virtual directory with the names of the URI behind it. -/
theorem processHTTPHeader_inv [Malloc] {dirs : VirtualDirectoryMap} {m : Msg} {c : Bytes} {b : Bool}
    (hraw : m.msgRawBuffer.Sealed c) (hok : h.processHTTPHeader dirs m = .ok (b, h')) :
    (dirs.directoryFor (fieldValue c (bytes "Host")) m.msgArrivalPort = [] →
        b = false ∧ h'.sPath = []) ∧
      (dirs.directoryFor (fieldValue c (bytes "Host")) m.msgArrivalPort ≠ [] →
        b = true ∧ h'.sPath = (requestNames c).foldl (fun sPath name => sPath ++ 47 :: name)
          (dirs.directoryFor (fieldValue c (bytes "Host")) m.msgArrivalPort)) := by
  obtain ⟨junk, hblock⟩ := hraw.pBuffer_eq
  unfold processHTTPHeader at hok
  rw [hblock] at hok
  dsimp only at hok
  obtain ⟨srcURI, hsrc, hok⟩ := bind_eq_ok.mp hok
  obtain ⟨decURI, hdec, hok⟩ := bind_eq_ok.mp hok
  obtain ⟨⟨rc, buf⟩, hbuf, hok⟩ := bind_eq_ok.mp hok
  obtain ⟨⟨he, buf'⟩, hhe, hok⟩ := bind_eq_ok.mp hok
  obtain ⟨h₁, htag, hok⟩ := bind_eq_ok.mp hok
  obtain ⟨h₂, hbody, hok⟩ := bind_eq_ok.mp hok
  rw [sourceURI_terminated] at hsrc
  -- the URI is kept while the header and the body are read
  have huri : h₂.uri = requestNames c := by
    rw [readBody_uri hbody, (setETag_kept htag).1, requestNames, hsrc, URL.decode_inv hdec]
    rfl
  have hheader := getValue_of_parse hraw (four_le_of_sourceURI hsrc) hbuf hhe (bytes "Host")
  rw [hheader] at hok
  constructor
  · intro hdir
    rw [hdir, List.length_nil, if_pos rfl] at hok
    have hres := Except.ok.inj hok
    obtain ⟨rfl, rfl⟩ := Prod.mk.inj hres
    exact ⟨rfl, rfl⟩
  · intro hdir
    rw [if_neg (fun hlen => hdir (List.length_eq_zero_iff.mp hlen))] at hok
    have hres := Except.ok.inj hok
    obtain ⟨rfl, rfl⟩ := Prod.mk.inj hres
    exact ⟨rfl, congrArg (List.foldl _ _) huri⟩

theorem setETag_ok (h : WebRequestHandler) (he : HeaderExtract) : ∃ h', h.setETag he = .ok h' := by
  unfold setETag
  dsimp only
  split_ifs with hlen
  · rw [substr, if_neg (by omega), ok_bind]
    exact ⟨_, rfl⟩
  · exact ⟨_, rfl⟩

/-- Every `GET` request with a URI is processed. -/
theorem processHTTPHeader_get [Malloc] (h : WebRequestHandler) (dirs : VirtualDirectoryMap)
    {m : Msg} {c srcURI : Bytes} (hraw : m.msgRawBuffer.Sealed c) (hlen : (c.length : ℤ)+8 ≤ intMax)
    (hget : isGet c = true) (hsrc : sourceURI c = .ok srcURI) (huri : srcURI ≠ []) :
    ∃ r, h.processHTTPHeader dirs m = .ok r := by
  obtain ⟨junk, hblock⟩ := hraw.pBuffer_eq
  have htail := hraw.holds.tail_eq
  have hfits : ({} : Buffer).reset.Fits c.length := Buffer.Holds.fits_reset hlen
  have hfour := four_le_of_sourceURI hsrc
  obtain ⟨buf, hbuf, hholds, _⟩ := Buffer.Holds.null.replaceWith (c ++ 0 :: junk)
    (by simp) hfits
  rw [List.take_left] at hholds
  obtain ⟨buf', he, _, hparse, _⟩ := ({} : HeaderExtract).parse_holds hholds hfour
  have hget' : isGet (c ++ 0 :: junk) = true := by
    rwa [isGet, cstr_append_zero]
  unfold processHTTPHeader
  rw [hblock]
  dsimp only
  rw [sourceURI_terminated, hsrc, ok_bind, URL.decode_of_ne_nil huri, ok_bind, htail, hbuf, ok_bind]
  dsimp only
  rw [hparse, ok_bind]
  dsimp only
  obtain ⟨h₁, htag⟩ := setETag_ok
    ({ h with bMessageTypeGet := isGet (c ++ 0 :: junk) }.setURI
      (cstr (URL.decodeLoop (cstr srcURI)))) he
  have hget₁ : h₁.bMessageTypeGet = true := (setETag_kept htag).2.trans hget'
  rw [htag, ok_bind, readBody, if_pos hget₁, pure_eq_ok, ok_bind]
  split_ifs
  · exact ⟨_, rfl⟩
  · exact ⟨_, rfl⟩

/-- `GetResource` opens nothing but the path. -/
theorem getResource_opened [Malloc] {env : ResourceEnv} {pFileCache cache : FileCache}
    {opened : List Bytes} (hok : h.getResource env pFileCache = .ok (h', cache, opened)) :
    ∀ p ∈ opened, p = cstr h.sPath := by
  unfold getResource at hok
  dsimp only at hok
  have hstat (c : Bool) : ∀ p ∈ (if c = true then [cstr h.sPath] else []), p = cstr h.sPath := by
    intro p hp
    split_ifs at hp
    · exact List.mem_singleton.mp hp
    · cases hp
  have hboth (c : Bool) : ∀ p ∈ (if c = true then [cstr h.sPath] else []) ++ [cstr h.sPath],
      p = cstr h.sPath := by
    intro p hp
    rcases List.mem_append.mp hp with hp | hp
    · exact hstat c p hp
    · exact List.mem_singleton.mp hp
  have hend {r : WebRequestHandler × FileCache × List Bytes}
      (hr : pure r = (.ok (h', cache, opened) : Cxx _)) (hkept : ∀ p ∈ r.2.2, p = cstr h.sPath) :
      ∀ p ∈ opened, p = cstr h.sPath := by
    obtain rfl : r = (h', cache, opened) := Except.ok.inj hr
    exact hkept
  split at hok
  · exact hend hok (hstat _)
  · by_cases hlen : h.sPath.length = 0
    · rw [if_pos hlen] at hok
      exact hend hok (hstat _)
    · rw [if_neg hlen] at hok
      split at hok
      · exact hend hok (hboth _)
      · obtain ⟨r, _, hok⟩ := bind_eq_ok.mp hok
        exact hend hok (hboth _)

theorem store_ok [Malloc] (x : FileCache) (env : ResourceEnv) (fileData : Bytes) {fileName : Bytes}
    {fileTimeStamp : ℤ} (hfit : (cstr fileName ++ formatInt fileTimeStamp).length ≤ 1024) :
    ∃ r, x.store env fileName fileData fileTimeStamp = .ok r := by
  have h0 : 0 ∉ cstr fileName ++ formatInt fileTimeStamp :=
    List.not_mem_append (zero_notMem_cstr _) (zero_notMem_formatInt _)
  obtain ⟨size, hsize, hprint, _⟩ := Buffer.Holds.null.sprintf (n := 1024) (by decide)
    (by decide) h0
  obtain ⟨b', hb', _⟩ := hprint (by omega)
  unfold FileCache.store
  split_ifs
  · exact ⟨_, rfl⟩
  · rw [hb', ok_bind]
    exact ⟨_, rfl⟩

/-- With nothing cached the file is opened for its time and again for its bytes. -/
theorem getResource_uncached [Malloc] (h : WebRequestHandler) (env : ResourceEnv) (data : Bytes)
    (modified : ℤ) (hpath : h.sPath ≠ []) (hdata : env.contents (cstr h.sPath) = some data)
    (htime : env.modified (cstr h.sPath) = some modified)
    (hfit : (cstr h.sPath ++ formatInt (int32 modified)).length ≤ 1024) :
    ∃ h' cache, h.getResource env {} = .ok (h', cache, [cstr h.sPath, cstr h.sPath]) := by
  have hne : h.sPath.length ≠ 0 := fun hlen => hpath (List.length_eq_zero_iff.mp hlen)
  have hlookup : ({} : FileCache).getFileEntry h.sPath = (none, {}) := rfl
  have hupdate : ({} : FileCache).updateFileAccessTime h.sPath env.accessedAt = {} := rfl
  obtain ⟨⟨bStored, cache⟩, hstore⟩ := store_ok {} env data hfit
  unfold getResource
  dsimp only
  rw [hlookup]
  dsimp only [Option.all_none, Option.filter_none, Option.elim_none]
  rw [if_pos rfl, if_pos rfl, if_neg hne, hdata, htime, hupdate]
  dsimp only [Option.map_some, Option.getD_some]
  rw [hstore, ok_bind]
  exact ⟨_, _, rfl⟩

end WebRequestHandler

/-! ### Where a path leads -/

def moveOf (name : Bytes) : Move Bytes :=
  if name = [] ∨ name = [46] then .here else if name = [46, 46] then .up else .down name

def components (path : Bytes) : List (Move Bytes) := (path.splitOnP (· == 47)).map moveOf

def isRooted (path : Bytes) : Bool := path.head? == some 47

/-- The place a path names, `.` and `..` resolved. -/
def resolve (path : Bytes) : PathPlaces.Place Bytes :=
  PathPlaces.Place.walk (isRooted path) {} (components path)

def appendNames (dir : Bytes) (names : List Bytes) : Bytes :=
  names.foldl (fun sPath name => sPath ++ 47 :: name) dir

theorem components_append (path name : Bytes) (hname : 47 ∉ name) :
    components (path ++ 47 :: name) = components path ++ [moveOf name] := by
  have hnot : ∀ a ∈ name, (a == 47) = false := by
    intro a ha
    rw [beq_eq_false_iff_ne]
    exact fun h => hname (h ▸ ha)
  unfold components
  rw [List.splitOnP_append_cons _ _ (by decide), List.splitOnP_eq_singleton hnot, List.map_append,
    List.map_singleton]

theorem resolve_append {path : Bytes} (hpath : path ≠ []) {name : Bytes} (hname : 47 ∉ name) :
    resolve (path ++ 47 :: name) = (resolve path).move (isRooted path) (moveOf name) := by
  have hrooted : isRooted (path ++ 47 :: name) = isRooted path := by
    cases path with
    | nil => exact absurd rfl hpath
    | cons b path => rfl
  rw [resolve, hrooted, components_append path name hname, PathPlaces.Place.walk_append]
  rfl

theorem isRooted_appendNames {dir : Bytes} (hdir : dir ≠ []) (names : List Bytes) :
    isRooted (appendNames dir names) = isRooted dir := by
  induction names generalizing dir with
  | nil => rfl
  | cons name names ih =>
    have hne : dir ++ 47 :: name ≠ [] := by simp
    refine (ih hne).trans ?_
    cases dir with
    | nil => exact absurd rfl hdir
    | cons b dir => rfl

/-- Names put behind a directory are walked from it. -/
theorem resolve_appendNames {dir : Bytes} (hdir : dir ≠ []) {names : List Bytes}
    (hnames : ∀ name ∈ names, 47 ∉ name) :
    resolve (appendNames dir names) = (resolve dir).walk (isRooted dir) (names.map moveOf) := by
  induction names generalizing dir with
  | nil => rfl
  | cons name names ih =>
    have hne : dir ++ 47 :: name ≠ [] := by simp
    have hrec := ih hne fun n hn => hnames n (List.mem_cons_of_mem _ hn)
    have hrooted : isRooted (dir ++ 47 :: name) = isRooted dir :=
      isRooted_appendNames hdir [name]
    rw [resolve_append hdir (hnames name List.mem_cons_self), hrooted] at hrec
    exact hrec

/-- The names climb out of the directory at most to enter it again: with `k` levels left when each
`..` has cancelled a name in front of it, the remaining names begin with the `k` innermost names of
the directory. -/
def StaysBelow (dir : Bytes) (names : List Bytes) : Prop :=
  let t := trip (names.map moveOf)
  (isRooted dir = true ∨ t.above ≤ (resolve dir).names.length) ∧
    (resolve dir).names.take t.above <:+ t.names

instance (dir : Bytes) (names : List Bytes) : Decidable (StaysBelow dir names) :=
  inferInstanceAs (Decidable (_ ∧ _))

theorem requestNames_ok (pHTTPMessage : Bytes) :
    ∀ name ∈ requestNames pHTTPMessage, 47 ∉ name ∧ 0 ∉ name := by
  unfold requestNames
  split
  · rename_i srcURI _
    intro name hname
    unfold WebRequestHandler.setURI at hname
    dsimp only at hname
    split_ifs at hname
    · rw [List.mem_singleton.mp hname]
      decide
    · have htoken := List.mem_of_mem_filter hname
      refine ⟨fun h => ?_, fun h => ?_⟩
      · exact absurd (of_mem_tokenizer htoken 47 h).2 (by decide)
      · exact zero_notMem_cstr _ (of_mem_tokenizer htoken 0 h).1
  · exact nofun

theorem zero_notMem_appendNames {dir : Bytes} {names : List Bytes} (hdir : 0 ∉ dir)
    (hnames : ∀ name ∈ names, 0 ∉ name) : 0 ∉ appendNames dir names := by
  induction names generalizing dir with
  | nil => exact hdir
  | cons name names ih =>
    refine ih ?_ fun n hn => hnames n (List.mem_cons_of_mem _ hn)
    intro h
    rcases List.mem_append.mp h with h | h
    · exact hdir h
    · rcases List.mem_cons.mp h with h | h
      · exact absurd h (by decide)
      · exact hnames name List.mem_cons_self h

/-- The path a request is answered from, and every path opened for it, lies in the virtual directory
if and only if the names of the request stay below it. -/
theorem opened_path_inside_iff [Malloc] {h h' h'' : WebRequestHandler}
    {dirs : VirtualDirectoryMap} {m : Msg}
    {c : Bytes} {b : Bool} {env : ResourceEnv} {pFileCache cache : FileCache} {opened : List Bytes}
    (hraw : m.msgRawBuffer.Sealed c)
    (hdir : dirs.directoryFor (fieldValue c (bytes "Host")) m.msgArrivalPort ≠ [])
    (hheader : h.processHTTPHeader dirs m = .ok (b, h'))
    (hget : h'.getResource env pFileCache = .ok (h'', cache, opened)) :
    ∀ p, p = h'.sPath ∨ p ∈ opened →
      ((resolve p).Inside
          (resolve (dirs.directoryFor (fieldValue c (bytes "Host")) m.msgArrivalPort)) ↔
        StaysBelow (dirs.directoryFor (fieldValue c (bytes "Host")) m.msgArrivalPort)
          (requestNames c)) := by
  obtain ⟨_, hpath⟩ := (WebRequestHandler.processHTTPHeader_inv hraw hheader).2 hdir
  have hnames := requestNames_ok c
  have hclean : cstr h'.sPath = h'.sPath := by
    rw [hpath]
    exact cstr_eq_self (zero_notMem_appendNames (dirs.zero_notMem_directoryFor _ _)
      fun name hname => (hnames name hname).2)
  intro p hp
  obtain rfl : p = h'.sPath := by
    rcases hp with hp | hp
    · exact hp
    · rw [WebRequestHandler.getResource_opened hget p hp, hclean]
  have hresolve := resolve_appendNames hdir fun name hname => (hnames name hname).1
  rw [hpath]
  refine Iff.trans (Iff.of_eq (congrArg (PathPlaces.Place.Inside · _) hresolve)) ?_
  exact inside_walk_iff _ _ _

/-! ### Two requests -/

def fileRequest (uri : String) : Bytes :=
  bytes "GET " ++ bytes uri ++ bytes " HTTP/1.0\r\n\r\n"

def requestMsg (text : Bytes) : Msg :=
  { msgRawBuffer := Buffer.terminated text, msgArrivalPort := 80 }

def plainDirectories : VirtualDirectoryMap :=
  ({} : VirtualDirectoryMap).mapVirtualDirectory (bytes "port_80") (bytes "/srv") (by decide)

/-- Every file can be opened and is empty. -/
def plainResources : ResourceEnv where
  modified _ := some 1
  contents _ := some []
  checkedAt := 2
  accessedAt := 2
  storedAt := 2
  md5 s := s
  mimeMap := ∅

theorem plainDirectories_port (uri : String)
    (hhost : fieldValue (fileRequest uri) (bytes "Host") = []) :
    plainDirectories.directoryFor (fieldValue (fileRequest uri) (bytes "Host")) 80 =
    bytes "/srv" := by
  rw [hhost]
  decide

theorem sealed_requestMsg (uri : String) (hlen : ((fileRequest uri).length : ℤ) < intMax) :
    (requestMsg (fileRequest uri)).msgRawBuffer.Sealed (fileRequest uri) :=
  Buffer.sealed_terminated hlen

theorem fileRequest_answered [Malloc] (uri : String) (srcURI path : Bytes)
    (hlen : ((fileRequest uri).length : ℤ)+8 ≤ intMax)
    (hget : WebRequestHandler.isGet (fileRequest uri) = true)
    (hsrc : WebRequestHandler.sourceURI (fileRequest uri) = .ok srcURI) (huri : srcURI ≠ [])
    (hhost : fieldValue (fileRequest uri) (bytes "Host") = [])
    (hpath : appendNames (bytes "/srv") (requestNames (fileRequest uri)) = path)
    (hclean : cstr path = path) (hne : path ≠ []) (hfit : (path ++ formatInt 1).length ≤ 1024) :
    ∃ b h' h'' cache, ({} : WebRequestHandler).processHTTPHeader plainDirectories
        (requestMsg (fileRequest uri)) = .ok (b, h') ∧ h'.sPath = path ∧
      h'.getResource plainResources {} = .ok (h'', cache, [path, path]) := by
  have hraw := sealed_requestMsg uri (by omega)
  obtain ⟨⟨b, h'⟩, hheader⟩ := WebRequestHandler.processHTTPHeader_get {} plainDirectories hraw hlen
    hget hsrc huri
  have hdir := plainDirectories_port uri hhost
  have hinv := (WebRequestHandler.processHTTPHeader_inv hraw hheader).2
  rw [show (requestMsg (fileRequest uri)).msgArrivalPort = 80 from rfl, hdir] at hinv
  have hsPath : h'.sPath = path := (hinv (by decide +kernel)).2.trans hpath
  rw [← hsPath] at hclean hne hfit
  obtain ⟨h'', cache, hres⟩ := h'.getResource_uncached plainResources [] 1 hne rfl rfl
      (by rwa [hclean, int32_eq (by decide +kernel) (by decide +kernel)])
  rw [hclean, hsPath] at hres
  exact ⟨b, h', h'', cache, hheader, hsPath, hres⟩

set_option maxRecDepth 8000 in
theorem opened_path_inside_iff_page : ∃ b h' r,
    ({} : WebRequestHandler).processHTTPHeader plainDirectories
      (requestMsg (fileRequest "/a/../b")) = .ok (b, h') ∧
    h'.getResource plainResources {} = .ok r ∧
    (resolve h'.sPath).Inside (resolve (bytes "/srv")) := by
  obtain ⟨b, h', h'', cache, hheader, _, hres⟩ := fileRequest_answered "/a/../b"
    (bytes "/a/../b") (bytes "/srv/a/../b") (by decide +kernel) (by decide +kernel) rfl
    (by decide +kernel) (by decide +kernel) (by decide +kernel) (by decide +kernel)
    (by decide +kernel) (by decide +kernel)
  have hdir := plainDirectories_port "/a/../b" (by decide +kernel)
  have hraw := sealed_requestMsg "/a/../b" (by decide +kernel)
  have hiff := opened_path_inside_iff hraw
      (by rw [show (requestMsg _).msgArrivalPort = 80 from rfl, hdir]; decide)
    hheader hres h'.sPath (Or.inl rfl)
  rw [show (requestMsg (fileRequest "/a/../b")).msgArrivalPort = 80 from rfl, hdir] at hiff
  exact ⟨b, h', _, hheader, hres, hiff.mpr (by decide +kernel)⟩

set_option maxRecDepth 8000 in
/-- The `..` of a request is kept, so it leads out of the directory of the port. -/
theorem request_leaves_directory : ∃ b h' h'' cache opened,
    ({} : WebRequestHandler).processHTTPHeader plainDirectories
      (requestMsg (fileRequest "/../etc/passwd")) = .ok (b, h') ∧
    h'.getResource plainResources {} = .ok (h'', cache, opened) ∧
    bytes "/srv/../etc/passwd" ∈ opened ∧
    plainDirectories.directoryFor (fieldValue (fileRequest "/../etc/passwd") (bytes "Host")) 80 =
      bytes "/srv" ∧
    ¬ (resolve (bytes "/srv/../etc/passwd")).Inside (resolve (bytes "/srv")) := by
  obtain ⟨b, h', h'', cache, hheader, _, hres⟩ := fileRequest_answered "/../etc/passwd"
    (bytes "/../etc/passwd") (bytes "/srv/../etc/passwd") (by decide +kernel) (by decide +kernel)
    rfl (by decide +kernel) (by decide +kernel) (by decide +kernel) (by decide +kernel)
        (by decide +kernel) (by decide +kernel)
  exact ⟨b, h', h'', cache, _, hheader, hres, List.mem_cons_self,
    plainDirectories_port _ (by decide +kernel), by decide⟩

end MsgCourier
