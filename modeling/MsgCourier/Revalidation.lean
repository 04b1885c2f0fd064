import MsgCourier.HttpReply

/-! A client that sends back the tag of a reply: what it is told as long as the file stays. -/
namespace MsgCourier
open ListSearch CText Runs ZeroFill

/-! ### What a request finds -/

namespace FileServer

variable {site : Site} {s t : FileServer} {q : FileRequest} {h h' : WebRequestHandler}
  {cache : FileCache} {opened : List Bytes} {path : Bytes}

/-- The file, if there is one, has the time stamp of the copy. -/
def Agrees (s : FileServer) (path : Bytes) (entry : FileCacheEntry) : Prop :=
  ∀ f, s.disk.file (cstr path) = some f → int32 f.modified = entry.fileTimeStamp

/-- The cache has a copy that agrees with the disk. -/
def Has (s : FileServer) (path : Bytes) (entry : FileCacheEntry) : Prop :=
  s.fileCache.map.lookup path = some entry ∧ s.Agrees path entry

/-- No copy agrees with the disk. -/
def Lacks (s : FileServer) (path : Bytes) : Prop := ∀ entry, ¬ s.Has path entry

/-- `m_Response`, whose sizes are `int`s, can hold the file. -/
def Fitting (s : FileServer) (path : Bytes) : Prop :=
  ∀ f, s.disk.file (cstr path) = some f → (f.contents.length : ℤ)+8 ≤ intMax

/-- A step; requests for one path are a second apart, and the files that are asked for fit. -/
def FittingStep [Malloc] (site : Site) (s : FileServer) (e : Event) (t : FileServer) : Prop :=
  Step site s e t ∧ ∀ q, e = .request q → s.Fitting (q.path site)

/-- The state behind a request. -/
def served (s : FileServer) (site : Site) (q : FileRequest) (cache : FileCache) : FileServer :=
  { s with
    fileCache := cache
    servedAt := Function.update s.servedAt (q.path site) (some q.storedAt) }

/-- A copy that was used is not used again in the same second. -/
theorem used_before [Malloc] (hinv : Inv site s) (hask : s.Asks site q h) {entry : FileCacheEntry}
    (hentry : s.fileCache.map.lookup (q.path site) = some entry) :
    entry.fileLastAccessedTimeStamp < q.checkedAt := by
  obtain ⟨now, hserved, hle⟩ := (hinv _ entry hentry).used
  exact hle.trans_lt (hask.spaced now hserved)

theorem agrees_iff (site : Site) (q : FileRequest) {entry : FileCacheEntry} : s.Agrees path entry ↔
    (((s.env site q).modified (cstr path)).map int32).getD entry.fileTimeStamp =
      entry.fileTimeStamp := by
  change _ ↔ (((s.disk.file (cstr path)).map (·.modified)).map int32).getD _ = _
  unfold Agrees
  rcases s.disk.file (cstr path) with _ | f
  · exact iff_of_true (fun f hf => by cases hf) rfl
  · rw [Option.map_some, Option.map_some, Option.getD_some]
    exact ⟨fun hall => hall f rfl, fun heq g hg => Option.some_inj.mp hg ▸ heq⟩

/-- What `GetResource` does with a file that it has to read. -/
def reading [Malloc] (s : FileServer) (site : Site) (q : FileRequest) (h : WebRequestHandler)
    (f : DiskFile) : Cxx (WebRequestHandler × FileCache × List Bytes) :=
  (WebRequestHandler.noted s.fileCache (s.env site q) h.sPath).store (s.env site q) h.sPath
    f.contents (int32 f.modified) >>= fun r =>
      pure (({ h.searching with
        response := f.contents
        sEntityTag := if r.1 then r.2.getEntityTag h.sPath else h.sEntityTag } :
          WebRequestHandler).getResourceContentType (s.env site q), r.2,
        [cstr h.sPath, cstr h.sPath])

/-- A copy that agrees is served, a file without one is read, and nothing is found else. -/
theorem getResource_eq [Malloc] (hinv : Inv site s) (hask : s.Asks site q h) :
    (∃ entry, s.Has (q.path site) entry ∧ h.getResource (s.env site q) s.fileCache =
      .ok (h.searching.serveEntry (s.env site q) { entry with accessCount := entry.accessCount+1 },
        WebRequestHandler.noted s.fileCache (s.env site q) h.sPath, [cstr h.sPath])) ∨
    s.Lacks (q.path site) ∧ ((s.disk.file (cstr (q.path site)) = none ∧ ∃ opened,
        h.getResource (s.env site q) s.fileCache = .ok (h.searching,
          WebRequestHandler.noted s.fileCache (s.env site q) h.sPath, opened)) ∨
      ∃ f, s.disk.file (cstr (q.path site)) = some f ∧
        h.getResource (s.env site q) s.fileCache = s.reading site q h f) := by
  have hpath := (asking_of_asks hask).sPath
  by_cases hhas : ∃ entry, s.Has (q.path site) entry
  · obtain ⟨entry, hhas⟩ := hhas
    left
    have hstat := used_before hinv hask hhas.1
    have hlookup : s.fileCache.map.lookup h.sPath = some entry := by
      rw [hpath]
      exact hhas.1
    have htime := hhas.2
    rw [← hpath, agrees_iff site q] at htime
    exact ⟨entry, hhas, WebRequestHandler.getResource_cached hlookup hstat htime⟩
  right
  have hlacks : s.Lacks (q.path site) := fun entry hentry => hhas ⟨entry, hentry⟩
  refine ⟨hlacks, ?_⟩
  rcases hfile : s.disk.file (cstr (q.path site)) with _ | f
  · -- without a file every copy agrees, so there is none
    left
    have hlookup : s.fileCache.map.lookup h.sPath = none := by
      rw [hpath]
      apply Option.eq_none_iff_forall_ne_some.mpr
      intro entry hentry
      refine hlacks entry ⟨hentry, fun f hf => ?_⟩
      rw [hfile] at hf
      cases hf
    have hdata : (s.env site q).contents (cstr h.sPath) = none := by
      rw [hpath]
      exact congrArg (Option.map (·.contents)) hfile
    exact ⟨rfl, WebRequestHandler.getResource_missing hlookup hdata⟩
  · right
    refine ⟨f, rfl, ?_⟩
    have hne : h.sPath ≠ [] := by
      intro hnil
      rw [← hpath, hnil, show cstr [] = [] from rfl, s.disk.file_nil] at hfile
      cases hfile
    have hmodified : (s.env site q).modified (cstr h.sPath) = some f.modified := by
      rw [hpath]
      exact congrArg (Option.map (·.modified)) hfile
    have hdata : (s.env site q).contents (cstr h.sPath) = some f.contents := by
      rw [hpath]
      exact congrArg (Option.map (·.contents)) hfile
    refine WebRequestHandler.getResource_read hne ?_ hmodified hdata
    intro entry hentry
    rw [hpath] at hentry
    refine ⟨used_before hinv hask hentry, fun htime => hlacks entry ⟨hentry, fun g hg => ?_⟩⟩
    rw [hfile] at hg
    rw [← Option.some_inj.mp hg, htime]

/-- The cache behind a request that stores nothing. -/
def counted (s : FileServer) (site : Site) (q : FileRequest) : FileCache :=
  WebRequestHandler.noted s.fileCache (s.env site q) (q.path site)

/-- The four ways to serve a request. -/
inductive Serving (s : FileServer) (site : Site) (q : FileRequest) (h : WebRequestHandler) :
    WebRequestHandler → FileCache → Prop
  | copy {entry : FileCacheEntry} (hhas : s.Has (q.path site) entry) :
      Serving s site q h (h.searching.serveEntry (s.env site q)
        { entry with accessCount := entry.accessCount+1 }) (s.counted site q)
  | gone (hlacks : s.Lacks (q.path site)) (hfile : s.disk.file (cstr (q.path site)) = none) :
      Serving s site q h h.searching (s.counted site q)
  | stored {f : DiskFile} (hlacks : s.Lacks (q.path site))
      (hfile : s.disk.file (cstr (q.path site)) = some f)
      (hsize : (f.contents.length : ℤ) ≤ s.fileCache.cacheSize) :
      Serving s site q h
        (({ h.searching with
          response := f.contents
          sEntityTag := cstr (site.md5 (entityTagText (q.path site) (int32 f.modified))) } :
            WebRequestHandler).getResourceContentType (s.env site q))
        { s.counted site q with
          map := (s.counted site q).map.insert (q.path site)
            (FileCache.entryFor (s.env site q) (q.path site) f.contents (int32 f.modified)) }
  | large {f : DiskFile} (hlacks : s.Lacks (q.path site))
      (hfile : s.disk.file (cstr (q.path site)) = some f)
      (hsize : s.fileCache.cacheSize < (f.contents.length : ℤ)) :
      Serving s site q h
        (({ h.searching with response := f.contents, sEntityTag := h.sEntityTag } :
          WebRequestHandler).getResourceContentType (s.env site q)) (s.counted site q)

theorem counted_cacheSize (s : FileServer) (site : Site) (q : FileRequest) :
    (s.counted site q).cacheSize = s.fileCache.cacheSize :=
  WebRequestHandler.noted_cacheSize _ _ _

theorem serving_of_getResource [Malloc] (hinv : Inv site s) (hask : s.Asks site q h)
    (hres : h.getResource (s.env site q) s.fileCache = .ok (h', cache, opened)) :
    Serving s site q h h' cache := by
  have hpath := (asking_of_asks hask).sPath
  rcases getResource_eq hinv hask with ⟨entry, hhas, heq⟩ |
    ⟨hlacks, ⟨hfile, opened', heq⟩ | ⟨f, hfile, heq⟩⟩
  · rw [heq, hpath] at hres
    obtain ⟨rfl, hsnd⟩ := Prod.mk.inj (Except.ok.inj hres)
    obtain ⟨rfl, -⟩ := Prod.mk.inj hsnd
    exact .copy hhas
  · rw [heq, hpath] at hres
    obtain ⟨rfl, hsnd⟩ := Prod.mk.inj (Except.ok.inj hres)
    obtain ⟨rfl, -⟩ := Prod.mk.inj hsnd
    exact .gone hlacks hfile
  · rw [heq, reading, hpath] at hres
    have hcacheSize := s.counted_cacheSize site q
    rcases lt_or_ge s.fileCache.cacheSize (f.contents.length : ℤ) with hsize | hsize
    · rw [FileCache.store_oversize (by rw [WebRequestHandler.noted_cacheSize]; exact hsize),
        ok_bind] at hres
      obtain ⟨rfl, hsnd⟩ := Prod.mk.inj (Except.ok.inj hres)
      obtain ⟨rfl, -⟩ := Prod.mk.inj hsnd
      exact .large hlacks hfile hsize
    rcases lt_or_ge (entityTagText (q.path site) (int32 f.modified)).length 1032 with hname | hname
    · rw [FileCache.store_fits (by rw [WebRequestHandler.noted_cacheSize]; exact hsize) hname,
        ok_bind] at hres
      obtain ⟨rfl, hsnd⟩ := Prod.mk.inj (Except.ok.inj hres)
      obtain ⟨rfl, -⟩ := Prod.mk.inj hsnd
      have htag := Serving.stored (h := h) hlacks hfile hsize
      dsimp only
      rw [if_pos rfl, FileCache.getEntityTag, AList.lookup_insert]
      exact htag
    · -- the name and the time are too long for the buffer of the tag
      rw [FileCache.store_overflow (by rw [WebRequestHandler.noted_cacheSize]; exact hsize)
        hname] at hres
      cases hres

/-! ### What stays while the file stays -/

/-- The size of the cache is the one it was started with, and no copy is larger. -/
structure Sized (cacheSize : ℤ) (s : FileServer) : Prop where
  same : s.fileCache.cacheSize = cacheSize
  copies : ∀ k entry, s.fileCache.map.lookup k = some entry →
    (entry.fileData.length : ℤ) ≤ cacheSize

theorem lookup_counted {k : Bytes} {entry : FileCacheEntry}
    (hlookup : (s.counted site q).map.lookup k = some entry) :
    ∃ old, s.fileCache.map.lookup k = some old ∧ old.fileData = entry.fileData ∧
      old.entityTag = entry.entityTag ∧ old.fileTimeStamp = entry.fileTimeStamp := by
  unfold counted at hlookup
  rw [WebRequestHandler.lookup_noted] at hlookup
  split_ifs at hlookup with hk
  · obtain ⟨old, hold, rfl⟩ := Option.map_eq_some_iff.mp hlookup
    exact ⟨old, hold, rfl, rfl, rfl⟩
  · exact ⟨entry, hlookup, rfl, rfl, rfl⟩

theorem counted_lookup {k : Bytes} {old : FileCacheEntry}
    (hlookup : s.fileCache.map.lookup k = some old) :
    ∃ entry, (s.counted site q).map.lookup k = some entry ∧ entry.fileData = old.fileData ∧
      entry.entityTag = old.entityTag ∧ entry.fileTimeStamp = old.fileTimeStamp := by
  unfold counted
  rw [WebRequestHandler.lookup_noted]
  split_ifs with hk
  · rw [hlookup]
    exact ⟨_, rfl, rfl, rfl, rfl⟩
  · exact ⟨old, hlookup, rfl, rfl, rfl⟩

theorem Sized.serving {cacheSize : ℤ} (hsized : Sized cacheSize s)
    (hserving : Serving s site q h h' cache) : Sized cacheSize (s.served site q cache) := by
  have hcount (k : Bytes) (entry : FileCacheEntry)
      (hlookup : (s.counted site q).map.lookup k = some entry) :
      (entry.fileData.length : ℤ) ≤ cacheSize := by
    obtain ⟨old, hold, hdata, -⟩ := lookup_counted hlookup
    rw [← hdata]
    exact hsized.copies k old hold
  have hcacheSize := (s.counted_cacheSize site q).trans hsized.same
  cases hserving with
  | copy _ => exact ⟨hcacheSize, hcount⟩
  | gone _ _ => exact ⟨hcacheSize, hcount⟩
  | large _ _ _ => exact ⟨hcacheSize, hcount⟩
  | stored _ _ hsize =>
    refine ⟨hcacheSize, fun k entry hlookup => ?_⟩
    by_cases hk : k = q.path site
    · rw [hk] at hlookup
      have hentry := hlookup.symm.trans (AList.lookup_insert _)
      rw [Option.some_inj.mp hentry, ← hsized.same]
      exact hsize
    · exact hcount k entry ((AList.lookup_insert_ne hk).symm.trans hlookup)

theorem sized_step [Malloc] {cacheSize : ℤ} (s : FileServer) (e : Event) (t : FileServer)
    (hgood : Inv site s ∧ Sized cacheSize s) (hstep : Step site s e t) :
    Inv site t ∧ Sized cacheSize t := by
  refine ⟨inv_step s e t hgood.1 hstep, ?_⟩
  cases hstep with
  | edit _ => exact ⟨hgood.2.same, hgood.2.copies⟩
  | request hask hres => exact hgood.2.serving (serving_of_getResource hgood.1 hask hres)

theorem sized_of_run [Malloc] {cacheSize : ℤ} {disk : Disk} {es : List Event}
    (hrun : Run (Step site) (start cacheSize disk) es s) : Sized cacheSize s := by
  have hstart : Inv site (start cacheSize disk) ∧ Sized cacheSize (start cacheSize disk) := by
    refine ⟨inv_of_run Run.nil, rfl, fun k entry hlookup => ?_⟩
    rw [start, AList.lookup_empty] at hlookup
    cases hlookup
  exact (hrun.invariant sized_step hstart).2

/-- What a path is answered with until its file changes: by a copy, or by the file itself, which is
too large for the cache. -/
inductive Settled (s : FileServer) (path tag data : Bytes) : Prop
  | copy {entry : FileCacheEntry} (hhas : s.Has path entry) (hdata : entry.fileData = data)
      (htag : entry.entityTag = tag)
  | large {f : DiskFile} (hlacks : s.Lacks path) (hfile : s.disk.file (cstr path) = some f)
      (hdata : f.contents = data) (htag : tag = [])
      (hsize : s.fileCache.cacheSize < (data.length : ℤ))

variable {tag data : Bytes}

theorem Has.counted {entry : FileCacheEntry} (hhas : s.Has path entry) (site : Site)
    (q : FileRequest) :
    ∃ entry', (s.served site q (s.counted site q)).Has path entry' ∧
      entry'.fileData = entry.fileData ∧ entry'.entityTag = entry.entityTag := by
  obtain ⟨entry', hlookup, hdata, htag, htime⟩ := counted_lookup hhas.1
  refine ⟨entry', ⟨hlookup, fun f hf => ?_⟩, hdata, htag⟩
  rw [htime]
  exact hhas.2 f hf

theorem Lacks.counted (hlacks : s.Lacks path) :
    (s.served site q (s.counted site q)).Lacks path := by
  intro entry hhas
  obtain ⟨old, hold, -, -, htime⟩ := lookup_counted hhas.1
  refine hlacks old ⟨hold, fun f hf => ?_⟩
  rw [htime]
  exact hhas.2 f hf

theorem Settled.counted (hsettled : s.Settled path tag data) (site : Site) (q : FileRequest) :
    (s.served site q (s.counted site q)).Settled path tag data := by
  cases hsettled with
  | copy hhas hdata htag =>
    obtain ⟨entry', hhas', hdata', htag'⟩ := hhas.counted site q
    exact .copy hhas' (hdata'.trans hdata) (htag'.trans htag)
  | large hlacks hfile hdata htag hsize =>
    exact .large hlacks.counted hfile hdata htag ((s.counted_cacheSize site q).trans_lt hsize)

theorem Settled.serving (hsettled : s.Settled path tag data)
    (hserving : Serving s site q h h' cache) :
    (s.served site q cache).Settled path tag data := by
  cases hserving with
  | copy _ => exact hsettled.counted site q
  | gone _ _ => exact hsettled.counted site q
  | large _ _ _ => exact hsettled.counted site q
  | @stored g hlacks hfile hsize =>
    by_cases hk : path = q.path site
    · -- the copy of the path is not replaced, and its file is too large to be stored
      rw [hk] at hsettled
      cases hsettled with
      | copy hhas _ _ => exact absurd hhas (hlacks _)
      | large _ hfile' hdata _ hlarge =>
        rw [hfile] at hfile'
        rw [← hdata, ← Option.some_inj.mp hfile'] at hlarge
        exact absurd hsize (not_le.mpr hlarge)
    · have hother : ∀ entry, (s.served site q { s.counted site q with
          map := (s.counted site q).map.insert (q.path site) (FileCache.entryFor (s.env site q)
            (q.path site) g.contents (int32 g.modified)) }).Has path entry ↔
          (s.served site q (s.counted site q)).Has path entry := by
        intro entry
        unfold Has served
        dsimp only
        rw [AList.lookup_insert_ne hk]
        exact Iff.rfl
      have hcounted := hsettled.counted site q
      cases hcounted with
      | copy hhas hdata htag => exact .copy ((hother _).mpr hhas) hdata htag
      | large hlacks' hfile' hdata htag hsize' =>
        exact .large (fun entry hhas => hlacks' entry ((hother entry).mp hhas)) hfile' hdata htag
          hsize'

/-- A step in which the file of a path stays as it is. -/
def KeepStep [Malloc] (site : Site) (path : Bytes) (s : FileServer) (e : Event) (t : FileServer) :
    Prop :=
  FittingStep site s e t ∧ t.disk.file (cstr path) = s.disk.file (cstr path)

theorem settled_step [Malloc] (s : FileServer) (e : Event) (t : FileServer)
    (hgood : Inv site s ∧ s.Settled path tag data) (hstep : KeepStep site path s e t) :
    Inv site t ∧ t.Settled path tag data := by
  obtain ⟨hinv, hsettled⟩ := hgood
  obtain ⟨⟨hstep, -⟩, hfile⟩ := hstep
  refine ⟨inv_step s e t hinv hstep, ?_⟩
  cases hstep with
  | @edit disk _ =>
    have hagrees (entry : FileCacheEntry) : s.Agrees path entry ↔
        FileServer.Agrees { s with disk := disk } path entry := by
      unfold Agrees
      rw [hfile]
    cases hsettled with
    | copy hhas hdata htag => exact .copy ⟨hhas.1, (hagrees _).mp hhas.2⟩ hdata htag
    | large hlacks hlarge hdata htag hsize =>
      exact .large (fun entry hhas => hlacks entry ⟨hhas.1, (hagrees _).mpr hhas.2⟩)
        (hfile.trans hlarge) hdata htag hsize
  | request hask hres => exact hsettled.serving (serving_of_getResource hinv hask hres)

theorem Settled.run [Malloc] {es : List Event} (hsettled : s.Settled path tag data)
    (hinv : Inv site s)
    (hrun : Run (KeepStep site path) s es t) : Inv site t ∧ t.Settled path tag data :=
  hrun.invariant settled_step ⟨hinv, hsettled⟩

/-- A reply with a page settles what the path is answered with. -/
theorem Serving.settled (hmd5 : ∀ text, site.md5 text ≠ [] ∧ 0 ∉ site.md5 text)
    (hask : h.Asking (q.path site) (messageETag q.text)) (hserving : Serving s site q h h' cache)
    (hnew : h'.bCachedNotModified = false) (hsent : h'.response ≠ []) :
    (s.served site q cache).Settled (q.path site) h'.sEntityTag h'.response := by
  cases hserving with
  | @copy entry hhas =>
    obtain ⟨htag, hkeeps, hsends⟩ := @WebRequestHandler.serveEntry_eq site q h (s.env site q) hask
      { entry with accessCount := entry.accessCount+1 }
    have hnot : ¬ q.Keeps site { entry with accessCount := entry.accessCount+1 } := by
      intro hk
      rw [(hkeeps hk).1] at hnew
      cases hnew
    obtain ⟨entry', hhas', hdata, htag'⟩ := hhas.counted site q
    exact .copy hhas' (hdata.trans (hsends hnot).2.symm) (htag'.trans htag.symm)
  | gone _ _ => exact absurd rfl hsent
  | @stored f hlacks hfile hsize =>
    rw [WebRequestHandler.getResourceContentType_sEntityTag,
      WebRequestHandler.getResourceContentType_response]
    refine .copy ⟨AList.lookup_insert _, fun g hg => ?_⟩ rfl (cstr_eq_self (hmd5 _).2).symm
    have hsame : f = g := Option.some_inj.mp (hfile.symm.trans hg)
    rw [← hsame]
    rfl
  | @large f hlacks hfile hsize =>
    rw [WebRequestHandler.getResourceContentType_sEntityTag,
      WebRequestHandler.getResourceContentType_response]
    exact .large hlacks.counted hfile rfl hask.sEntityTag
      ((s.counted_cacheSize site q).trans_lt hsize)

/-- A page with a script in it. -/
def Scripted (path data : Bytes) : Prop :=
  occursIn (bytes ".htm") path = true ∧ (strstr data (bytes "<?mc")).isSome = true

/-- A client that sends the tag keeps its copy, or gets the same page again. -/
theorem Settled.answer [Malloc] {cacheSize : ℤ} (hinv : Inv site s) (hsized : Sized cacheSize s)
    (hask : s.Asks site q h) (hsettled : s.Settled (q.path site) tag data)
    (hecho : messageETag q.text = tag) :
    ∃ h' cache opened, h.getResource (s.env site q) s.fileCache = .ok (h', cache, opened) ∧
      (h'.bCachedNotModified = true ↔
        (data.length : ℤ) ≤ cacheSize ∧ ¬ Scripted (q.path site) data) ∧
      (h'.bCachedNotModified = false → h'.response = data) ∧ h'.sEntityTag = tag := by
  have hasking := asking_of_asks hask
  cases hsettled with
  | @copy entry hhas hdata htag =>
    rcases getResource_eq hinv hask with ⟨entry', hhas', heq⟩ | ⟨hlacks, -⟩
    · obtain rfl := Option.some_inj.mp (hhas'.1.symm.trans hhas.1)
      obtain ⟨hetag, hkeeps, hsends⟩ := @WebRequestHandler.serveEntry_eq site q h (s.env site q)
        hasking { entry' with accessCount := entry'.accessCount+1 }
      have hsize : (data.length : ℤ) ≤ cacheSize := by
        rw [← hdata]
        exact hsized.copies _ _ hhas.1
      have hiff : q.Keeps site { entry' with accessCount := entry'.accessCount+1 } ↔
          ¬ Scripted (q.path site) data := by
        unfold FileRequest.Keeps Scripted
        dsimp only
        rw [hecho, htag, hdata]
        exact and_iff_right rfl
      refine ⟨_, _, _, heq, ⟨fun hkept => ⟨hsize, fun hscript => ?_⟩, fun hboth => ?_⟩,
        fun hnew => ?_, hetag.trans htag⟩
      · rw [(hsends fun hk => hiff.mp hk hscript).1] at hkept
        cases hkept
      · exact (hkeeps (hiff.mpr hboth.2)).1
      · have hnot : ¬ q.Keeps site { entry' with accessCount := entry'.accessCount+1 } := by
          intro hk
          rw [(hkeeps hk).1] at hnew
          cases hnew
        exact (hsends hnot).2.trans hdata
    · exact absurd hhas (hlacks entry)
  | @large f hlacks hfile hdata htag hsize =>
    rcases getResource_eq hinv hask with ⟨entry', hhas', heq⟩ | ⟨-, ⟨hnone, -⟩ | ⟨g, hg, heq⟩⟩
    · exact absurd hhas' (hlacks entry')
    · rw [hfile] at hnone
      cases hnone
    · obtain rfl := Option.some_inj.mp (hfile.symm.trans hg)
      have hlarge : (WebRequestHandler.noted s.fileCache (s.env site q) h.sPath).cacheSize <
          (f.contents.length : ℤ) := by
        rw [WebRequestHandler.noted_cacheSize, hdata]
        exact hsize
      rw [reading, FileCache.store_oversize hlarge, ok_bind] at heq
      refine ⟨_, _, _, heq, ⟨fun hkept => ?_, fun hboth => ?_⟩, fun _ => ?_, ?_⟩
      · rw [WebRequestHandler.getResourceContentType_bCachedNotModified] at hkept
        have hclear : h.searching.bCachedNotModified = false := hasking.bCachedNotModified
        exact absurd (hclear.symm.trans hkept) (by decide)
      · rw [← hsized.same] at hboth
        exact absurd hboth.1 (not_le.mpr hsize)
      · rw [WebRequestHandler.getResourceContentType_response]
        exact hdata
      · rw [WebRequestHandler.getResourceContentType_sEntityTag, htag]
        exact hasking.sEntityTag

end FileServer

/-! ### The replies of a server -/

/-- The hashes and the content types stay in their lines. -/
structure Site.InLine (site : Site) : Prop where
  md5 : ∀ text, Plain (site.md5 text)
  mimeMap : ∀ extension type, site.mimeMap.lookup extension = some type → Plain type

namespace WebRequestHandler

theorem plain_getResourceContentType (h : WebRequestHandler) {env : ResourceEnv}
    (hmime : ∀ extension type, env.mimeMap.lookup extension = some type → Plain type) :
    Plain (h.getResourceContentType env).sContentType := by
  unfold getResourceContentType
  split
  · rename_i k hk
    dsimp only
    rcases hlookup : env.mimeMap.lookup (h.sPath.drop (h.sPath.length-(k+1))) with _ | type
    · exact plain_nil
    · exact hmime _ type hlookup
  · have hstream : Plain (bytes "application/octet-stream") := ⟨by decide, by decide, by decide⟩
    exact hstream

/-- A copy that is sent has a content type. -/
theorem plain_serveEntry (h : WebRequestHandler) {env : ResourceEnv} (entry : FileCacheEntry)
    (hmime : ∀ extension type, env.mimeMap.lookup extension = some type → Plain type)
    (hnew : (h.serveEntry env entry).bCachedNotModified = false) :
    Plain (h.serveEntry env entry).sContentType := by
  unfold serveEntry at hnew ⊢
  dsimp only at hnew ⊢
  split_ifs at hnew ⊢
  · exact plain_getResourceContentType _ hmime
  · exact plain_getResourceContentType _ hmime

/-- The tag that is read from the reply of a page. -/
theorem fieldValue_replyText {h : WebRequestHandler} {env : ReplyEnv} (hline : h.InLine env)
    (hnew : h.bCachedNotModified = false) (hsent : h.response ≠ []) (keepAlive : Bool) (c : Bytes) :
    fieldValue (h.replyText env keepAlive c) (bytes "ETag") = quoted h.sEntityTag := by
  rw [← text_replyMessage hline, HttpMessage.text]
  apply FieldHeader.fieldValue_block _ (HttpMessage.four_le _)
  change _ ∈ h.replyFields env keepAlive c
  unfold replyFields
  rw [if_neg (by rw [hnew]; decide), if_pos hsent, hline.sEntityTag.cstr_eq]
  simp only [List.mem_cons, true_or, or_true]

end WebRequestHandler

namespace FileServer

variable {site : Site} {s t : FileServer} {q q' : FileRequest} {h h' k : WebRequestHandler}
  {cache : FileCache} {opened : List Bytes} {env : ReplyEnv}

theorem Serving.inLine (hsite : site.InLine) (hname : Plain env.serverName) (hinv : Inv site s)
    (hask : h.Asking (q.path site) (messageETag q.text)) (hserving : Serving s site q h h' cache) :
    h'.InLine env := by
  have hnone : Plain h.sEntityTag := by
    rw [hask.sEntityTag]
    exact plain_nil
  cases hserving with
  | @copy entry hhas =>
    have htag := (@WebRequestHandler.serveEntry_eq site q h (s.env site q) hask
      { entry with accessCount := entry.accessCount+1 }).1
    refine ⟨?_, fun hnew _ => ?_, hname⟩
    · rw [htag]
      dsimp only
      rw [(hinv _ entry hhas.1).tagged]
      exact hsite.md5 _
    · exact WebRequestHandler.plain_serveEntry _ _ hsite.mimeMap hnew
  | gone _ _ => exact ⟨hnone, fun _ hsent => absurd rfl hsent, hname⟩
  | stored _ _ _ =>
    refine ⟨?_, fun _ _ => ?_, hname⟩
    · rw [WebRequestHandler.getResourceContentType_sEntityTag]
      exact (hsite.md5 _).cstr
    · exact WebRequestHandler.plain_getResourceContentType _ hsite.mimeMap
  | large _ _ _ =>
    refine ⟨?_, fun _ _ => ?_, hname⟩
    · rw [WebRequestHandler.getResourceContentType_sEntityTag]
      exact hnone
    · exact WebRequestHandler.plain_getResourceContentType _ hsite.mimeMap

/-- `r` is posted for a request in a state that is reached by requests a second apart for one path,
by a handler that may have served others. The page `c` is what the scripts have made of the
resource. -/
inductive Posted [Malloc] (site : Site) (cacheSize : ℤ) (disk : Disk) : Bytes → Prop
  | intro {es : List Event} {s : FileServer} {q : FileRequest} {h h' : WebRequestHandler}
      {cache : FileCache} {opened : List Bytes} {env : ReplyEnv} {response page : Buffer}
      {m m' : Msg} {c old r : Bytes} (hrun : Run (FittingStep site) (start cacheSize disk) es s)
      (hask : s.Asks site q h)
      (hres : h.getResource (s.env site q) s.fileCache = .ok (h', cache, opened))
      (hname : Plain env.serverName) (hresponse : response.Keeps h'.response)
      (hpage : page.Keeps c) (hm : m.msgBuffer.Holds old)
      (hmax : ((h'.replyText env m.keepAlive c).length : ℤ)+10 ≤ intMax)
      (hpost : h'.postReply env response page m = .ok m') (htext : m'.msgBuffer.Holds r) :
      Posted site cacheSize disk r

theorem Posted.exists_message [Malloc] (hsite : site.InLine) {cacheSize : ℤ} {disk : Disk}
    {r : Bytes} (hposted : Posted site cacheSize disk r) :
    ∃ m : HttpMessage, m.text = r ∧ (r.length : ℤ) ≤ intMax := by
  cases hposted with
  | @intro es s q h h' cache opened env response page m m' c old _ hrun hask hres hname hresponse
      hpage hm hmax hpost htext =>
    have hinv := inv_of_run (hrun.mono fun _ _ _ hstep => hstep.1)
    have hline := (serving_of_getResource hinv hask hres).inLine hsite hname hinv
      (asking_of_asks hask)
    obtain ⟨b, hok, hsealed⟩ := WebRequestHandler.postReply_ok hline hresponse hpage hm hmax
    rw [hok] at hpost
    obtain rfl := Except.ok.inj hpost
    have hr : r = h'.replyText env m.keepAlive c := htext.unique hsealed.holds
    refine ⟨WebRequestHandler.replyMessage hline m.keepAlive c, ?_, ?_⟩
    · rw [WebRequestHandler.text_replyMessage, hr]
    · rw [hr]
      omega

/-- Replies that were put on a stream one behind the other are framed as they were written. -/
theorem replies_cut [Malloc] (hsite : site.InLine) {cacheSize : ℤ} {disk : Disk} {rs : List Bytes}
    (hrs : ∀ r ∈ rs, Posted site cacheSize disk r) (rest : Bytes) :
    cutReplies rs.length (rs.flatten ++ rest) = some (rs, rest) :=
  cutReplies_texts (fun r hr => (hrs r hr).exists_message hsite) rest

theorem messageETag_echo {text r tag : Bytes}
    (hvalue : fieldValue r (bytes "ETag") = WebRequestHandler.quoted tag)
    (hecho : fieldValue text (bytes "If-None-Match") = fieldValue r (bytes "ETag")) :
    messageETag text = tag := by
  have hquote : bytes "\"" = [34] := by decide
  rw [messageETag, hecho, hvalue, WebRequestHandler.quoted, hquote, List.singleton_append,
    List.cons_append, List.drop_succ_cons, List.drop_zero, List.dropLast_concat]

/-- When requests for one path are a second apart: as long as the file of a reply stays, a client
that sends its tag is told to keep the page, or is sent the same page with the same tag; it is told
so exactly if the page went into the cache and has no script in it. -/
theorem revalidated [Malloc] (hsite : site.InLine) (hmd5 : ∀ text, site.md5 text ≠ [])
    {cacheSize : ℤ}
    {disk : Disk} {es es' : List Event} (hrun : Run (FittingStep site) (start cacheSize disk) es s)
    (hask : s.Asks site q h) (hfits : s.Fitting (q.path site))
    (hres : h.getResource (s.env site q) s.fileCache = .ok (h', cache, opened))
    (hnew : h'.bCachedNotModified = false) (hsent : h'.response ≠ [])
    (hname : Plain env.serverName) {keepAlive : Bool} {c : Bytes}
    (hkeep : Run (KeepStep site (q.path site)) (s.served site q cache) es' t)
    (hask' : t.Asks site q' k) (hpath : q'.path site = q.path site)
    (hecho : fieldValue q'.text (bytes "If-None-Match") =
      fieldValue (h'.replyText env keepAlive c) (bytes "ETag")) :
    ∃ k' cache' opened', k.getResource (t.env site q') t.fileCache = .ok (k', cache', opened') ∧
      (k'.bCachedNotModified = true ↔
        (h'.response.length : ℤ) ≤ cacheSize ∧ ¬ Scripted (q.path site) h'.response) ∧
      (k'.bCachedNotModified = false → k'.response = h'.response) ∧
      k'.sEntityTag = h'.sEntityTag := by
  have hforget : ∀ s e t, FittingStep site s e t → Step site s e t := fun _ _ _ hstep => hstep.1
  have hinv := inv_of_run (hrun.mono hforget)
  have hasking := asking_of_asks hask
  have hserving := serving_of_getResource hinv hask hres
  have hline := hserving.inLine hsite hname hinv hasking
  have hthis : ∀ q', Event.request q = .request q' → s.Fitting (q'.path site) := by
    intro q' hq
    rw [← Event.request.inj hq]
    exact hfits
  have hserved : Run (FittingStep site) (start cacheSize disk) (es ++ [.request q])
      (s.served site q cache) := hrun.snoc ⟨.request hask hres, hthis⟩
  have hsettled := hserving.settled (fun text => ⟨hmd5 text, (hsite.md5 text).2.2⟩) hasking hnew
    hsent
  obtain ⟨hinv', hsettled'⟩ := hsettled.run (inv_of_run (hserved.mono hforget)) hkeep
  have hall := (hserved.trans (hkeep.mono fun _ _ _ hstep => hstep.1)).mono hforget
  have hfield := WebRequestHandler.fieldValue_replyText hline hnew hsent keepAlive c
  have hanswer := Settled.answer hinv' (sized_of_run hall) hask' (hpath.symm ▸ hsettled')
    (messageETag_echo hfield hecho)
  rwa [hpath] at hanswer

/-! ### A page that is asked for twice -/

theorem plainSite_inLine : plainSite.InLine where
  md5 := by
    have htag : Plain (plainSite.md5 []) := ⟨by decide, by decide, by decide⟩
    exact fun _ => htag
  mimeMap := by
    intro extension type hlookup
    rw [plainSite, AList.lookup_empty] at hlookup
    cases hlookup

/-- The file is read and stored. -/
theorem first_answer : ∃ h h' cache opened, firstStart.Asks plainSite (askAt 1) h ∧
    h.getResource (firstStart.env plainSite (askAt 1)) firstStart.fileCache =
      .ok (h', cache, opened) ∧ h'.bCachedNotModified = false ∧ h'.response = bytes "x" ∧
    h'.sEntityTag = bytes "2FBE9832FB54ADF83041D96B8A792A92" ∧
    h'.sContentType = bytes "application/octet-stream" := by
  obtain ⟨s, entry, hstep, -⟩ := first_stored
  cases hstep with
  | @request _ h h' cache opened hask hres =>
    have hasking := asking_of_asks hask
    have hfile : firstStart.disk.file (cstr ((askAt 1).path plainSite)) = some ⟨5, bytes "x"⟩ := by
      rw [path_askAt]
      exact oneFile_file
    have hinv : Inv plainSite firstStart := inv_of_run Run.nil
    refine ⟨h, h', cache, opened, hask, hres, ?_⟩
    cases serving_of_getResource hinv hask hres with
    | copy hhas =>
      have hnone : firstStart.fileCache.map.lookup ((askAt 1).path plainSite) = none := rfl
      exact absurd (hhas.1.symm.trans hnone) (by simp)
    | gone _ hnone => exact absurd (hfile.symm.trans hnone) (by simp)
    | @large f _ hf hsize =>
      obtain rfl := Option.some_inj.mp (hfile.symm.trans hf)
      exact absurd hsize (by decide)
    | @stored f _ hf _ =>
      obtain rfl := Option.some_inj.mp (hfile.symm.trans hf)
      have hpath : h.sPath = bytes "/srv/a" := hasking.sPath.trans (path_askAt 1)
      have hclear : h.searching.bCachedNotModified = false := hasking.bCachedNotModified
      rw [WebRequestHandler.getResourceContentType_bCachedNotModified,
        WebRequestHandler.getResourceContentType_response,
        WebRequestHandler.getResourceContentType_sEntityTag]
      refine ⟨hclear, rfl, rfl, ?_⟩
      have hdot : firstOcc [46] (h.searching.sPath.reverse) = none := by
        change firstOcc [46] h.sPath.reverse = none
        rw [hpath]
        decide
      unfold WebRequestHandler.getResourceContentType
      dsimp only
      rw [hdot]

/-- The same request with the tag of the reply, one second later. -/
def echoText : Bytes :=
  bytes "GET /a HTTP/1.0\r\nIf-None-Match: \"2FBE9832FB54ADF83041D96B8A792A92\"\r\n\r\n"

def echoRequest : FileRequest where
  handler := {}
  msg := requestMsg echoText
  text := echoText
  isText := Buffer.sealed_terminated (by decide)
  checkedAt := 2
  accessedAt := 2
  storedAt := 2
  inOrder := ⟨le_rfl, le_rfl⟩

def quietEnv : ReplyEnv where
  date := ⟨4, 1, 0, 70, 0, 0, 0⟩
  serverName := bytes "n"
  bZeroConfig := false

theorem path_echoRequest : echoRequest.path plainSite = (askAt 1).path plainSite := by
  have hpath : echoRequest.path plainSite = bytes "/srv/a" := by decide +kernel
  exact hpath.trans (path_askAt 1).symm

theorem echoText_source : WebRequestHandler.sourceURI echoText = .ok (bytes "/a") := rfl

/-- The header that the first request is answered with. -/
def firstHeader : Bytes :=
  WebRequestHandler.okHeader
    { sEntityTag := bytes "2FBE9832FB54ADF83041D96B8A792A92"
      sContentType := bytes "application/octet-stream" } quietEnv true 1

theorem replyText_first {h : WebRequestHandler} (hnew : h.bCachedNotModified = false)
    (hresponse : h.response = bytes "x")
    (htag : h.sEntityTag = bytes "2FBE9832FB54ADF83041D96B8A792A92")
    (htype : h.sContentType = bytes "application/octet-stream") :
    h.replyText quietEnv true (bytes "x") = firstHeader ++ bytes "x" := by
  have hsent : h.response ≠ [] := by
    rw [hresponse]
    decide
  have hone : ((bytes "x").length : ℤ) = 1 := by decide
  rw [WebRequestHandler.replyText, if_neg (by rw [hnew]; decide), if_pos hsent, hone, firstHeader,
    WebRequestHandler.okHeader, WebRequestHandler.okHeader, htag, htype]

theorem length_firstHeader : ((firstHeader ++ bytes "x").length : ℤ)+10 ≤ intMax := by
  decide +kernel

theorem fitting_first : firstStart.Fitting ((askAt 1).path plainSite) := by
  intro f hf
  rw [path_askAt, show firstStart.disk.file (cstr (bytes "/srv/a")) = _ from oneFile_file] at hf
  rw [← Option.some.inj hf]
  decide

/-- Two replies to the first request, one behind the other. -/
theorem replies_cut_first : ∃ r, r ≠ [] ∧ cutReplies 2 (r ++ r) = some ([r, r], []) := by
  obtain ⟨h, h', cache, opened, hask, hres, hnew, hresponse, htag, htype⟩ := first_answer
  have hrun : Run (FittingStep plainSite) (start 4096000 oneFile) [] firstStart := Run.nil
  have hinv := inv_of_run (hrun.mono fun _ _ _ hstep => hstep.1)
  have hname : Plain quietEnv.serverName := ⟨by decide, by decide, by decide⟩
  have hline := (serving_of_getResource hinv hask hres).inLine plainSite_inLine hname hinv
    (asking_of_asks hask)
  have hx : (Buffer.terminated (bytes "x")).Keeps (bytes "x") :=
    Buffer.keeps_terminated (by decide)
  have hkeeps : (Buffer.terminated (bytes "x")).Keeps h'.response := by
    rw [hresponse]
    exact hx
  have htext := replyText_first hnew hresponse htag htype
  have hmax : ((h'.replyText quietEnv ({} : Msg).keepAlive (bytes "x")).length : ℤ)+10 ≤
      intMax := by
    change ((h'.replyText quietEnv true (bytes "x")).length : ℤ)+10 ≤ intMax
    rw [htext]
    exact length_firstHeader
  have hm : ({} : Msg).msgBuffer.Holds [] := .null
  obtain ⟨b, hpost, hsealed⟩ := WebRequestHandler.postReply_ok hline hkeeps hx hm hmax
  have hposted : Posted plainSite 4096000 oneFile (h'.replyText quietEnv true (bytes "x")) :=
    .intro hrun hask hres hname hkeeps hx hm hmax hpost hsealed.holds
  have hboth : ∀ r ∈ [h'.replyText quietEnv true (bytes "x"),
      h'.replyText quietEnv true (bytes "x")], Posted plainSite 4096000 oneFile r := by
    intro r hr
    rw [List.mem_pair, or_self] at hr
    rw [hr]
    exact hposted
  have hcut := replies_cut plainSite_inLine hboth []
  rw [List.append_nil, List.flatten_cons, List.flatten_singleton] at hcut
  exact ⟨_, WebRequestHandler.replyText_ne_nil hline true, hcut⟩

/-- The client is told to keep its copy. -/
theorem revalidated_first : ∃ cache k k' cache' opened',
    (firstStart.served plainSite (askAt 1) cache).Asks plainSite echoRequest k ∧
    k.getResource ((firstStart.served plainSite (askAt 1) cache).env plainSite echoRequest) cache =
      .ok (k', cache', opened') ∧ k'.bCachedNotModified = true := by
  obtain ⟨h, h', cache, opened, hask, hres, hnew, hresponse, htag, -⟩ := first_answer
  have hrun : Run (FittingStep plainSite) (start 4096000 oneFile) [] firstStart := Run.nil
  have hinv := inv_of_run (hrun.mono fun _ _ _ hstep => hstep.1)
  have hname : Plain quietEnv.serverName := ⟨by decide, by decide, by decide⟩
  have hline := (serving_of_getResource hinv hask hres).inLine plainSite_inLine hname hinv
    (asking_of_asks hask)
  have hsent : h'.response ≠ [] := by
    rw [hresponse]
    decide
  obtain ⟨⟨b, k⟩, hheader⟩ := WebRequestHandler.processHTTPHeader_get
    echoRequest.handler.cleared plainSite.dirs echoRequest.isText
    (show (echoText.length : ℤ)+8 ≤ intMax by decide)
    (show WebRequestHandler.isGet echoText = true by decide) echoText_source (by decide)
  have hask' : (firstStart.served plainSite (askAt 1) cache).Asks plainSite echoRequest k := by
    refine ⟨⟨b, hheader⟩, fun now hnow => ?_⟩
    rw [path_echoRequest] at hnow
    unfold served at hnow
    dsimp only at hnow
    rw [Function.update_self, Option.some.injEq] at hnow
    rw [← hnow]
    decide
  have hecho : fieldValue echoRequest.text (bytes "If-None-Match") =
      fieldValue (h'.replyText quietEnv true (bytes "x")) (bytes "ETag") := by
    rw [WebRequestHandler.fieldValue_replyText hline hnew hsent, htag]
    exact (show fieldValue echoText (bytes "If-None-Match") = _ by decide +kernel)
  obtain ⟨k', cache', opened', hok, hiff, -⟩ := revalidated plainSite_inLine
    (fun text => (plainSite_md5 text).1) hrun hask fitting_first hres hnew hsent hname Run.nil hask'
    path_echoRequest hecho
  refine ⟨cache, k, k', cache', opened', hask', hok, hiff.mpr ⟨?_, ?_⟩⟩
  · rw [hresponse]
    decide
  · rw [hresponse, path_askAt]
    exact fun hscript => absurd hscript.1 (by decide)

end FileServer
end MsgCourier
