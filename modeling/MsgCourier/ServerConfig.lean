import MsgCourier.SortedMap
import MsgCourier.WebRequest
import MsgCourier.XmlSearch

/-! What `cCore::LoadConfig` takes from the elements of the configuration, and the servers that
`cCore::Init` starts from it. -/
namespace MsgCourier
open ListSearch CText

structure BroadcastTarget where
  broadcastIPAddress : Bytes
  port : Bytes
  bTCP : Bool
  bUseHTTP : Bool
  deriving DecidableEq, Repr

/-- The servers are kept by their ports; they are created later, by `Init`. -/
abbrev ServerMap := SortedMap ℤ Unit (· < ·)

structure CoreConfig where
  serverListenAddr : Bytes := []
  serverPrimaryAddr : Bytes := []
  serverSecondaryAddr : Bytes := []
  serverMaxCacheSize : Bytes := []
  virtualDirectoryMap : VirtualDirectoryMap := {}
  tcpServers : ServerMap := {}
  udpServers : ServerMap := {}
  connectionTimeout : Bytes := []
  maxWebServerThreads : Bytes := []
  databaseName : Bytes := []
  ifUsingDatabase : Bool := false
  databaseFlushInterval : Bytes := []
  presenceBroadcast : List BroadcastTarget := []
  dotPath : Bytes := []
  dotFilesPath : Bytes := []

/-- An attribute taken as a `string`. -/
def XmlElement.attribute (e : XmlElement) (pAttributeName : String) : Bytes :=
  cstr (e.getAttributeValue pAttributeName)

/-- The value of an element taken as a `string`, which a null pointer cannot be. -/
def XmlElement.value (e : XmlElement) : Cxx Bytes :=
  match e.xmlValue with
  | none => .error .undefined
  | some v => pure (cstr v)

/-- The value of the first element of the name, or the default. -/
def XmlCursor.valueOr (xml : XmlCursor) (pTag : String) (default : Bytes) :
    Cxx (Bytes × XmlCursor) :=
  match xml.findTag (bytes pTag) with
  | (some pElm, xml) => do pure (← pElm.value, xml)
  | (none, xml) => pure (default, xml)

theorem atoi_cstr (s : Bytes) : atoi (cstr s) = atoi s := by
  unfold atoi strtol
  rw [cstr_eq_self (zero_notMem_cstr s)]

theorem zero_notMem_attribute (e : XmlElement) (pAttributeName : String) :
    0 ∉ e.attribute pAttributeName := zero_notMem_cstr _

namespace CoreConfig

/-- The body of the loop over the hosts, and the end of that over the ports. -/
def mapDirectory (cfg : CoreConfig) (kind : String) (pElm : XmlElement) : CoreConfig :=
  if h : pElm.attribute "directory" ≠ [] then
    { cfg with
      virtualDirectoryMap := cfg.virtualDirectoryMap.mapVirtualDirectory
        (bytes kind ++ pElm.attribute "addr") (pElm.attribute "directory")
        ⟨h, zero_notMem_attribute pElm "directory"⟩ }
  else cfg

def addTCPServer (cfg : CoreConfig) (pElm : XmlElement) : CoreConfig :=
  { cfg with tcpServers := cfg.tcpServers.insert (atoi (pElm.getAttributeValue "addr")) () }
    |>.mapDirectory "port_" pElm

def addUDPServer (cfg : CoreConfig) (pElm : XmlElement) : CoreConfig :=
  { cfg with udpServers := cfg.udpServers.insert (atoi (pElm.attribute "addr")) () }

def loadTCPServers (primaryIP : Bytes) (xml : XmlCursor) (cfg : CoreConfig) :
    Cxx (XmlCursor × CoreConfig) :=
  match xml.findTag (bytes "tcp_servers") with
  | (some _, xml) => do
    let (hosts, xml) ← xml.each "host" "/web"
    let cfg := hosts.foldl (mapDirectory · "host_" ·) cfg
    let (_, xml) := xml.findTag (bytes "tcp_servers")
    let (ports, xml) ← xml.each "port" "/web"
    pure (xml, ports.foldl addTCPServer cfg)
  | (none, xml) => pure (xml, { cfg with
      serverSecondaryAddr := primaryIP
      tcpServers := cfg.tcpServers.insert 3400 () })

def loadUDPServers (xml : XmlCursor) (cfg : CoreConfig) : Cxx (XmlCursor × CoreConfig) :=
  match xml.findTag (bytes "udp_servers") with
  | (some _, xml) => do
    let (ports, xml) ← xml.each "port" "/udp_servers"
    pure (xml, ports.foldl addUDPServer cfg)
  | (none, xml) => pure (xml, { cfg with udpServers := cfg.udpServers.insert 3401 () })

/-- Without the interval a named database ends `LoadConfig`. -/
def loadDatabase (xml : XmlCursor) (cfg : CoreConfig) : Cxx (XmlCursor × CoreConfig) :=
  match xml.findTag (bytes "db_name") with
  | (some pElm, xml) => do
    let databaseName ← pElm.value
    let cfg := { cfg with databaseName, ifUsingDatabase := decide (databaseName.length ≠ 0) }
    let (databaseFlushInterval, xml) ← xml.valueOr "db_flush_interval" cfg.databaseFlushInterval
    if cfg.ifUsingDatabase && databaseFlushInterval.length = 0 then .error .cException
    else pure (xml, { cfg with databaseFlushInterval })
  | (none, xml) => pure (xml, cfg)

/-- The body of the loop over the peers; `broadcastAddress` is that of an address and a mask. -/
def addBroadcast (broadcastAddress : Bytes → Bytes → Bytes) (cfg : CoreConfig)
    (pElm : XmlElement) : Cxx CoreConfig :=
  let sIP := pElm.attribute "ip"
  let sMask := pElm.attribute "mask"
  let bTCP := decide (pElm.attribute "transport" = bytes "tcp")
  let bHTTP := decide (pElm.attribute "use-http" = bytes "yes")
  if bTCP = false ∧ sMask.length = 0 then .error .cException
  else pure { cfg with
    presenceBroadcast := cfg.presenceBroadcast ++
      [⟨if bTCP = false then broadcastAddress sIP sMask else sIP, pElm.attribute "port", bTCP,
        bHTTP⟩] }

def loadPeers (primaryIP : Bytes) (broadcastAddress : Bytes → Bytes → Bytes) (xml : XmlCursor)
    (cfg : CoreConfig) : Cxx (XmlCursor × CoreConfig) :=
  match xml.findTag (bytes "peers") with
  | (some _, xml) => do
    let (targets, xml) ← xml.each "broadcast" "/peers"
    let cfg ← targets.foldlM (addBroadcast broadcastAddress) cfg
    pure (xml, cfg)
  | (none, xml) => pure (xml, { cfg with
      serverPrimaryAddr := primaryIP
      presenceBroadcast := cfg.presenceBroadcast ++
        [⟨primaryIP.rdropWhile (· ≠ 46) ++ bytes "255", bytes "3401", false, false⟩] })

/-- The value of the next element of the name, or the empty text. -/
def nextValue (xml : XmlCursor) (pTag : String) : Cxx (Bytes × XmlCursor) :=
  match xml.findNextTag (bytes pTag) none with
  | (some pElm, xml) => do pure (← pElm.value, xml)
  | (none, xml) => pure ([], xml)

def loadGraphviz (xml : XmlCursor) (cfg : CoreConfig) : Cxx (XmlCursor × CoreConfig) :=
  match xml.findTag (bytes "graphviz") with
  | (some _, xml) => do
    let (dotPath, xml) ← nextValue xml "directory"
    let (dotFilesPath, xml) ← nextValue xml "output"
    pure (xml, { cfg with dotPath, dotFilesPath })
  | (none, xml) => pure (xml, { cfg with dotPath := [], dotFilesPath := [] })

/-- The reading of a configuration that was opened and parsed. -/
def loadConfig (primaryIP : Bytes) (broadcastAddress : Bytes → Bytes → Bytes) (xml : XmlCursor)
    (cfg : CoreConfig) : Cxx (XmlCursor × CoreConfig) := do
  let (serverListenAddr, xml) ← xml.valueOr "server_listen_addr" (bytes "0.0.0.0")
  let (serverPrimaryAddr, xml) ← xml.valueOr "server_primary_addr" primaryIP
  let (serverSecondaryAddr, xml) ← xml.valueOr "server_secondary_addr" primaryIP
  let (serverMaxCacheSize, xml) ← xml.valueOr "server_max_cache_size" (bytes "10000")
  let cfg := { cfg with
    serverListenAddr, serverPrimaryAddr, serverSecondaryAddr, serverMaxCacheSize }
  let (xml, cfg) ← loadTCPServers primaryIP xml cfg
  let (xml, cfg) ← loadUDPServers xml cfg
  let (connectionTimeout, xml) ← xml.valueOr "connectiontimeout" (bytes "30")
  let (maxWebServerThreads, xml) ← xml.valueOr "max_webserver_threads" (bytes "16")
  let cfg := { cfg with connectionTimeout, maxWebServerThreads }
  let (xml, cfg) ← loadDatabase xml cfg
  let (xml, cfg) ← loadPeers primaryIP broadcastAddress xml cfg
  loadGraphviz xml cfg

end CoreConfig

/-- What `Init` starts for one of the two maps: a server for each entry in the order of the map. The
port that is made known is that of the first one. -/
structure StartedServers where
  ports : List ℤ
  port : Bytes
  serverList : Bytes
  deriving DecidableEq, Repr

def startServers (servers : ServerMap) : StartedServers where
  ports := servers.entries.map (·.1)
  port := ((servers.entries.head?).map fun entry => formatInt entry.1).getD []
  serverList := servers.entries.flatMap fun entry => formatInt entry.1 ++ bytes " "

/-! ### The sections of a document -/

/-- The elements behind the first `tag` up to the next `stop`, or to the end of the document. -/
def sectionOf (elements : List XmlElement) (tag stop : String) : List XmlElement :=
  (elements.dropWhile fun e => ! e.isTag (bytes tag)).tail.takeWhile fun e => ! e.isTag (bytes stop)

/-- The elements of a name in a section. -/
def sectionNamed (elements : List XmlElement) (tag stop name : String) : List XmlElement :=
  (sectionOf elements tag stop).filter (·.isTag (bytes name))

def hasTag (elements : List XmlElement) (tag : String) : Bool := elements.any (·.isTag (bytes tag))

namespace XmlCursor

variable {c : XmlCursor}

/-- A search from the head does not depend on the position. -/
theorem findTag_hasTag (c : XmlCursor) (tag : String) :
    (hasTag c.xmlElements tag = true ∧ ∃ e rest,
      c.findTag (bytes tag) = (some e, { c with rest := e :: rest }) ∧
        e :: rest = c.xmlElements.dropWhile fun e => ! e.isTag (bytes tag)) ∨
    (hasTag c.xmlElements tag = false ∧ c.findTag (bytes tag) = (none, c)) := by
  unfold findTag
  cases hdrop : c.xmlElements.dropWhile fun e => ! e.isTag (bytes tag) with
  | nil =>
    rw [List.dropWhile_eq_nil_iff] at hdrop
    refine .inr ⟨?_, rfl⟩
    rw [hasTag, List.any_eq_false]
    intro e he
    simpa using hdrop e he
  | cons e rest =>
    have hmem : e ∈ c.xmlElements :=
      (List.dropWhile_sublist _).subset (hdrop ▸ List.mem_cons_self)
    have hstop := List.head?_dropWhile_not (fun e => ! e.isTag (bytes tag)) c.xmlElements
    rw [hdrop, List.head?_cons] at hstop
    refine .inl ⟨List.any_eq_true.mpr ⟨e, hmem, by simpa using hstop⟩, e, rest, rfl, rfl⟩

/-- A loop behind a search from the head takes the elements of the section. -/
theorem each_section {tag : String} (stop name : String) {e : XmlElement} {rest : List XmlElement}
    (hrest : e :: rest = c.xmlElements.dropWhile fun e => ! e.isTag (bytes tag)) :
    ∃ c', ({ c with rest := e :: rest } : XmlCursor).each name stop =
        .ok (sectionNamed c.xmlElements tag stop name, c') ∧ c'.xmlElements = c.xmlElements := by
  obtain ⟨found, c', hloop, hsweeps⟩ :=
    each_sweeps ({ c with rest := e :: rest } : XmlCursor) name stop
  have hfound : found = sectionNamed c.xmlElements tag stop name := by
    rw [hsweeps.found, sectionNamed, sectionOf, ← hrest]
    rfl
  exact ⟨c', hfound ▸ hloop, hsweeps.elements⟩

end XmlCursor

theorem sectionNamed_nil {elements : List XmlElement} {tag : String}
    (h : hasTag elements tag = false) (stop name : String) :
    sectionNamed elements tag stop name = [] := by
  have hdrop : (elements.dropWhile fun e => ! e.isTag (bytes tag)) = [] := by
    rw [List.dropWhile_eq_nil_iff]
    intro e he
    simpa using List.any_eq_false.mp h e he
  rw [sectionNamed, sectionOf, hdrop]
  rfl

namespace CoreConfig

variable {xml xml' : XmlCursor} {cfg cfg' : CoreConfig} {primaryIP : Bytes}
  {broadcastAddress : Bytes → Bytes → Bytes}

/-- What the `tcp_servers` section makes of a configuration. -/
def loadedTCP (primaryIP : Bytes) (elements : List XmlElement) (cfg : CoreConfig) : CoreConfig :=
  if hasTag elements "tcp_servers" then
    (sectionNamed elements "tcp_servers" "/web" "port").foldl addTCPServer
      ((sectionNamed elements "tcp_servers" "/web" "host").foldl (mapDirectory · "host_" ·) cfg)
  else { cfg with
    serverSecondaryAddr := primaryIP
    tcpServers := cfg.tcpServers.insert 3400 () }

/-- What the `udp_servers` section makes of a configuration. -/
def loadedUDP (elements : List XmlElement) (cfg : CoreConfig) : CoreConfig :=
  if hasTag elements "udp_servers" then
    (sectionNamed elements "udp_servers" "/udp_servers" "port").foldl addUDPServer cfg
  else { cfg with udpServers := cfg.udpServers.insert 3401 () }

theorem loadTCPServers_eq (primaryIP : Bytes) (xml : XmlCursor) (cfg : CoreConfig) :
    ∃ xml', loadTCPServers primaryIP xml cfg =
      .ok (xml', loadedTCP primaryIP xml.xmlElements cfg) ∧
      xml'.xmlElements = xml.xmlElements := by
  unfold loadTCPServers loadedTCP
  rcases xml.findTag_hasTag "tcp_servers" with ⟨hhas, e, rest, hfind, hrest⟩ | ⟨hhas, hfind⟩
  · obtain ⟨hosts, hloop, helements⟩ := xml.each_section "/web" "host" hrest
    rw [hfind, if_pos hhas]
    dsimp only
    rw [hloop, ok_bind]
    dsimp only
    rcases hosts.findTag_hasTag "tcp_servers" with ⟨-, e', rest', hagain, hrest'⟩ | ⟨hnot, -⟩
    · obtain ⟨ports, hloop', helements'⟩ :=
        hosts.each_section "/web" "port" hrest'
      rw [hagain]
      dsimp only
      rw [hloop', ok_bind, helements]
      exact ⟨ports, rfl, helements'.trans helements⟩
    · rw [helements, hhas] at hnot
      cases hnot
  · rw [hfind, if_neg (Bool.eq_false_iff.mp hhas)]
    exact ⟨xml, rfl, rfl⟩

theorem loadUDPServers_eq (xml : XmlCursor) (cfg : CoreConfig) :
    ∃ xml', loadUDPServers xml cfg =
      .ok (xml', loadedUDP xml.xmlElements cfg) ∧ xml'.xmlElements = xml.xmlElements := by
  unfold loadUDPServers loadedUDP
  rcases xml.findTag_hasTag "udp_servers" with ⟨hhas, e, rest, hfind, hrest⟩ | ⟨hhas, hfind⟩
  · obtain ⟨ports, hloop, helements⟩ :=
      xml.each_section "/udp_servers" "port" hrest
    rw [hfind, if_pos hhas]
    dsimp only
    rw [hloop]
    exact ⟨ports, rfl, helements⟩
  · rw [hfind, if_neg (Bool.eq_false_iff.mp hhas)]
    exact ⟨xml, rfl, rfl⟩

theorem valueOr_elements {pTag : String} {default v : Bytes}
    (h : xml.valueOr pTag default = .ok (v, xml')) : xml'.xmlElements = xml.xmlElements := by
  unfold XmlCursor.valueOr at h
  rcases xml.findTag_hasTag pTag with ⟨-, e, rest, hfind, -⟩ | ⟨-, hfind⟩
  · rw [hfind] at h
    obtain ⟨w, -, hw⟩ := bind_eq_ok.mp h
    rw [← (Prod.mk.inj (Except.ok.inj hw)).2]
  · rw [hfind] at h
    rw [← (Prod.mk.inj (Except.ok.inj h)).2]

/-! ### The ports -/

/-- The steps behind the servers leave them and their directories alone. -/
structure SameServers (cfg cfg' : CoreConfig) : Prop where
  tcp : cfg'.tcpServers = cfg.tcpServers
  udp : cfg'.udpServers = cfg.udpServers
  directories : cfg'.virtualDirectoryMap = cfg.virtualDirectoryMap

theorem SameServers.trans {cfg₁ cfg₂ cfg₃ : CoreConfig} (h : SameServers cfg₁ cfg₂)
    (h' : SameServers cfg₂ cfg₃) : SameServers cfg₁ cfg₃ :=
  ⟨h'.tcp.trans h.tcp, h'.udp.trans h.udp, h'.directories.trans h.directories⟩

theorem loadDatabase_same (h : loadDatabase xml cfg = .ok (xml', cfg')) :
    SameServers cfg cfg' := by
  unfold loadDatabase at h
  rcases xml.findTag_hasTag "db_name" with ⟨-, e, rest, hfind, -⟩ | ⟨-, hfind⟩
  · rw [hfind] at h
    obtain ⟨name, -, h⟩ := bind_eq_ok.mp h
    obtain ⟨flush, -, h⟩ := bind_eq_ok.mp h
    dsimp only at h
    split_ifs at h
    rw [← (Prod.mk.inj (Except.ok.inj h)).2]
    exact ⟨rfl, rfl, rfl⟩
  · rw [hfind] at h
    rw [← (Prod.mk.inj (Except.ok.inj h)).2]
    exact ⟨rfl, rfl, rfl⟩

theorem addBroadcast_same {e : XmlElement} (h : addBroadcast broadcastAddress cfg e = .ok cfg') :
    SameServers cfg cfg' := by
  unfold addBroadcast at h
  dsimp only at h
  split_ifs at h
  · rw [← Except.ok.inj h]
    exact ⟨rfl, rfl, rfl⟩
  · rw [← Except.ok.inj h]
    exact ⟨rfl, rfl, rfl⟩

theorem foldlM_addBroadcast_same {targets : List XmlElement}
    (h : targets.foldlM (addBroadcast broadcastAddress) cfg = .ok cfg') : SameServers cfg cfg' := by
  induction targets generalizing cfg with
  | nil =>
    rw [← Except.ok.inj h]
    exact ⟨rfl, rfl, rfl⟩
  | cons e targets ih =>
    obtain ⟨next, hfirst, hrest⟩ := bind_eq_ok.mp h
    exact (addBroadcast_same hfirst).trans (ih hrest)

theorem loadPeers_same (h : loadPeers primaryIP broadcastAddress xml cfg = .ok (xml', cfg')) :
    SameServers cfg cfg' := by
  unfold loadPeers at h
  rcases xml.findTag_hasTag "peers" with ⟨-, e, rest, hfind, hrest⟩ | ⟨-, hfind⟩
  · obtain ⟨c', hloop, -⟩ := xml.each_section "/peers" "broadcast" hrest
    rw [hfind] at h
    dsimp only at h
    rw [hloop, ok_bind] at h
    obtain ⟨next, hfold, h⟩ := bind_eq_ok.mp h
    rw [← (Prod.mk.inj (Except.ok.inj h)).2]
    exact foldlM_addBroadcast_same hfold
  · rw [hfind] at h
    rw [← (Prod.mk.inj (Except.ok.inj h)).2]
    exact ⟨rfl, rfl, rfl⟩

theorem loadGraphviz_same (h : loadGraphviz xml cfg = .ok (xml', cfg')) : SameServers cfg cfg' := by
  unfold loadGraphviz at h
  rcases xml.findTag_hasTag "graphviz" with ⟨-, e, rest, hfind, -⟩ | ⟨-, hfind⟩
  · rw [hfind] at h
    obtain ⟨path, -, h⟩ := bind_eq_ok.mp h
    obtain ⟨files, -, h⟩ := bind_eq_ok.mp h
    rw [← (Prod.mk.inj (Except.ok.inj h)).2]
    exact ⟨rfl, rfl, rfl⟩
  · rw [hfind] at h
    rw [← (Prod.mk.inj (Except.ok.inj h)).2]
    exact ⟨rfl, rfl, rfl⟩

/-- The servers and directories of a configuration that was read are those of its two sections. -/
theorem loadConfig_servers
    (h : loadConfig primaryIP broadcastAddress xml {} = .ok (xml', cfg')) :
    ∃ first : CoreConfig, first.tcpServers = {} ∧ first.udpServers = {} ∧
      first.virtualDirectoryMap = {} ∧
      SameServers (loadedUDP xml.xmlElements (loadedTCP primaryIP xml.xmlElements first)) cfg' := by
  unfold loadConfig at h
  obtain ⟨⟨listenAddr, xml₁⟩, h₁, h⟩ := bind_eq_ok.mp h
  obtain ⟨⟨primaryAddr, xml₂⟩, h₂, h⟩ := bind_eq_ok.mp h
  obtain ⟨⟨secondaryAddr, xml₃⟩, h₃, h⟩ := bind_eq_ok.mp h
  obtain ⟨⟨cacheSize, xml₄⟩, h₄, h⟩ := bind_eq_ok.mp h
  have helements : xml₄.xmlElements = xml.xmlElements :=
    (valueOr_elements h₄).trans <| (valueOr_elements h₃).trans <|
      (valueOr_elements h₂).trans (valueOr_elements h₁)
  dsimp only at h
  obtain ⟨xml₅, htcp, helements₅⟩ := loadTCPServers_eq primaryIP xml₄
    { serverListenAddr := listenAddr
      serverPrimaryAddr := primaryAddr
      serverSecondaryAddr := secondaryAddr
      serverMaxCacheSize := cacheSize }
  rw [htcp, ok_bind] at h
  dsimp only at h
  obtain ⟨xml₆, hudp, helements₆⟩ := loadUDPServers_eq xml₅ (loadedTCP primaryIP xml₄.xmlElements
    { serverListenAddr := listenAddr
      serverPrimaryAddr := primaryAddr
      serverSecondaryAddr := secondaryAddr
      serverMaxCacheSize := cacheSize })
  rw [hudp, ok_bind, helements₅, helements] at h
  dsimp only at h
  obtain ⟨⟨timeout, xml₇⟩, -, h⟩ := bind_eq_ok.mp h
  obtain ⟨⟨threads, xml₈⟩, -, h⟩ := bind_eq_ok.mp h
  obtain ⟨⟨xml₉, cfg₉⟩, hdatabase, h⟩ := bind_eq_ok.mp h
  obtain ⟨⟨xml₁₀, cfg₁₀⟩, hpeers, hgraph⟩ := bind_eq_ok.mp h
  have hsame := (loadDatabase_same hdatabase).trans <|
    (loadPeers_same hpeers).trans (loadGraphviz_same hgraph)
  exact ⟨_, rfl, rfl, rfl, ⟨hsame.tcp, hsame.udp, hsame.directories⟩⟩

theorem mapDirectory_tcp (cfg : CoreConfig) (kind : String) (e : XmlElement) :
    (cfg.mapDirectory kind e).tcpServers = cfg.tcpServers := by
  unfold mapDirectory
  split_ifs
  · rfl
  · rfl

theorem mapDirectory_udp (cfg : CoreConfig) (kind : String) (e : XmlElement) :
    (cfg.mapDirectory kind e).udpServers = cfg.udpServers := by
  unfold mapDirectory
  split_ifs
  · rfl
  · rfl

theorem foldl_hosts (hosts : List XmlElement) (cfg : CoreConfig) :
    (hosts.foldl (mapDirectory · "host_" ·) cfg).tcpServers = cfg.tcpServers ∧
      (hosts.foldl (mapDirectory · "host_" ·) cfg).udpServers = cfg.udpServers := by
  induction hosts generalizing cfg with
  | nil => exact ⟨rfl, rfl⟩
  | cons e hosts ih =>
    obtain ⟨htcp, hudp⟩ := ih (cfg.mapDirectory "host_" e)
    exact ⟨htcp.trans (mapDirectory_tcp cfg _ e), hudp.trans (mapDirectory_udp cfg _ e)⟩

/-- The ports of a map. -/
def portsOf (servers : ServerMap) : List ℤ := servers.entries.map Prod.fst

theorem mem_foldl_addTCPServer (ports : List XmlElement) (cfg : CoreConfig) (p : ℤ) :
    p ∈ portsOf (ports.foldl addTCPServer cfg).tcpServers ↔
      p ∈ portsOf cfg.tcpServers ∨ ∃ e ∈ ports, atoi (e.getAttributeValue "addr") = p := by
  induction ports generalizing cfg with
  | nil => simp
  | cons e ports ih =>
    have hone : p ∈ portsOf (cfg.addTCPServer e).tcpServers ↔
        p = atoi (e.getAttributeValue "addr") ∨ p ∈ portsOf cfg.tcpServers := by
      rw [addTCPServer, mapDirectory_tcp]
      exact SortedMap.key_mem_insert _ _ _ _
    rw [List.foldl_cons, ih, hone, List.exists_mem_cons_iff, or_comm (a := p = _), or_assoc,
      eq_comm (a := p)]

theorem foldl_addTCPServer_udp (ports : List XmlElement) (cfg : CoreConfig) :
    (ports.foldl addTCPServer cfg).udpServers = cfg.udpServers := by
  induction ports generalizing cfg with
  | nil => rfl
  | cons e ports ih => exact (ih (cfg.addTCPServer e)).trans (mapDirectory_udp _ _ e)

theorem mem_foldl_addUDPServer (ports : List XmlElement) (cfg : CoreConfig) (p : ℤ) :
    p ∈ portsOf (ports.foldl addUDPServer cfg).udpServers ↔
      p ∈ portsOf cfg.udpServers ∨ ∃ e ∈ ports, atoi (e.attribute "addr") = p := by
  induction ports generalizing cfg with
  | nil => simp
  | cons e ports ih =>
    have hone : p ∈ portsOf (cfg.addUDPServer e).udpServers ↔
        p = atoi (e.attribute "addr") ∨ p ∈ portsOf cfg.udpServers :=
      SortedMap.key_mem_insert _ _ _ _
    rw [List.foldl_cons, ih, hone, List.exists_mem_cons_iff, or_comm (a := p = _), or_assoc,
      eq_comm (a := p)]

theorem foldl_addUDPServer_same (ports : List XmlElement) (cfg : CoreConfig) :
    (ports.foldl addUDPServer cfg).tcpServers = cfg.tcpServers ∧
      (ports.foldl addUDPServer cfg).virtualDirectoryMap = cfg.virtualDirectoryMap := by
  induction ports generalizing cfg with
  | nil => exact ⟨rfl, rfl⟩
  | cons e ports ih => exact ih (cfg.addUDPServer e)

theorem loadedUDP_same (elements : List XmlElement) (cfg : CoreConfig) :
    (loadedUDP elements cfg).tcpServers = cfg.tcpServers ∧
      (loadedUDP elements cfg).virtualDirectoryMap = cfg.virtualDirectoryMap := by
  unfold loadedUDP
  split_ifs
  · exact foldl_addUDPServer_same _ cfg
  · exact ⟨rfl, rfl⟩

theorem loadedTCP_udp (primaryIP : Bytes) (elements : List XmlElement) (cfg : CoreConfig) :
    (loadedTCP primaryIP elements cfg).udpServers = cfg.udpServers := by
  unfold loadedTCP
  split_ifs
  · rw [foldl_addTCPServer_udp]
    exact (foldl_hosts _ cfg).2
  · rfl

/-- The ports that a document asks servers for. -/
def Asks (elements : List XmlElement) (tag stop : String) (default p : ℤ) : Prop :=
  if hasTag elements tag then ∃ e ∈ sectionNamed elements tag stop "port",
    atoi (e.getAttributeValue "addr") = p
  else p = default

theorem startServers_ports (servers : ServerMap) : (startServers servers).ports = portsOf servers :=
  rfl

/-- One server for each port in the order of the ports, of which the lowest is made known. -/
structure StartedFor (s : StartedServers) (wanted : ℤ → Prop) : Prop where
  mem : ∀ p, p ∈ s.ports ↔ wanted p
  increasing : s.ports.Pairwise (· < ·)
  known : (s.ports = [] ∧ s.port = []) ∨
    ∃ p, wanted p ∧ (∀ q, wanted q → p ≤ q) ∧ s.port = formatInt p
  listed : s.serverList = s.ports.flatMap fun p => formatInt p ++ bytes " "

theorem startServers_for {servers : ServerMap} {wanted : ℤ → Prop}
    (h : ∀ p, p ∈ portsOf servers ↔ wanted p) : StartedFor (startServers servers) wanted := by
  refine ⟨h, List.pairwise_map.mpr servers.sorted, ?_, ?_⟩
  · cases hentries : servers.entries with
    | nil => exact .inl ⟨by rw [startServers_ports, portsOf, hentries]; rfl,
        by rw [startServers, hentries]; rfl⟩
    | cons entry rest =>
      right
      have hsorted := servers.sorted
      rw [hentries, List.pairwise_cons] at hsorted
      refine ⟨entry.1, (h _).mp ?_, ?_, by rw [startServers, hentries]; rfl⟩
      · rw [portsOf, hentries]
        exact List.mem_cons_self
      · intro q hq
        have hmem := (h q).mpr hq
        rw [portsOf, hentries, List.map_cons, List.mem_cons] at hmem
        rcases hmem with rfl | hmem
        · exact le_refl _
        · obtain ⟨entry', hentry', rfl⟩ := List.mem_map.mp hmem
          exact (hsorted.1 entry' hentry').le
  · rw [startServers, List.flatMap_map]

/-- For every document: `Init` starts one server for each different port of the two sections, or for
the default port where a section is missing. The TCP section ends at `/web` alone. -/
theorem started_servers
    (h : loadConfig primaryIP broadcastAddress xml {} = .ok (xml', cfg')) :
    StartedFor (startServers cfg'.tcpServers)
        (Asks xml.xmlElements "tcp_servers" "/web" 3400) ∧
      StartedFor (startServers cfg'.udpServers)
        (Asks xml.xmlElements "udp_servers" "/udp_servers" 3401) := by
  obtain ⟨first, htcp, hudp, -, hsame⟩ := loadConfig_servers h
  constructor
  · apply startServers_for
    intro p
    rw [hsame.tcp, (loadedUDP_same _ _).1, loadedTCP, Asks]
    split_ifs
    · rw [mem_foldl_addTCPServer, (foldl_hosts _ first).1, htcp]
      simp [portsOf]
    · rw [portsOf, SortedMap.key_mem_insert, htcp]
      simp
  · apply startServers_for
    intro p
    rw [hsame.udp, loadedUDP, Asks]
    split_ifs
    · rw [mem_foldl_addUDPServer, loadedTCP_udp, hudp]
      simp [portsOf, XmlElement.attribute, atoi_cstr]
    · rw [portsOf, SortedMap.key_mem_insert, loadedTCP_udp, hudp]
      simp

/-- A section with a host and a port. -/
def smallSection : List XmlElement :=
  [{ xmlTagName := some (bytes "tcp_servers") },
    { xmlTagName := some (bytes "host")
      xmlAttributes := [(bytes "addr", bytes "a"), (bytes "directory", bytes "w")] },
    { xmlTagName := some (bytes "port"), xmlAttributes := [(bytes "addr", bytes "80")] },
    { xmlTagName := some (bytes "/web") }]

theorem started_smallSection : ∃ r,
    loadConfig [] (fun ip _ => ip) ⟨smallSection, []⟩ {} = .ok r ∧
      StartedFor (startServers r.2.tcpServers) (Asks smallSection "tcp_servers" "/web" 3400) ∧
      StartedFor (startServers r.2.udpServers)
        (Asks smallSection "udp_servers" "/udp_servers" 3401) :=
  ⟨_, rfl, @started_servers ⟨smallSection, []⟩ _ _ [] (fun ip _ => ip) rfl⟩

/-! ### The directories -/

/-- The elements of a kind that give a name its directory. -/
def gives (kind : String) (name : Bytes) (e : XmlElement) : Bool :=
  decide (bytes kind ++ e.attribute "addr" = name ∧ e.attribute "directory" ≠ [])

/-- The directory of the first element that gives one. -/
def firstGiven (kind : String) (name : Bytes) (elements : List XmlElement) : Bytes :=
  ((elements.find? (gives kind name)).map (XmlElement.attribute · "directory")).getD []

theorem mapVirtualDirectory_get (x : VirtualDirectoryMap) {portName d : Bytes}
    (hd : d ≠ [] ∧ 0 ∉ d) (name : Bytes) :
    (x.mapVirtualDirectory portName d hd).getVirtualDirectory name =
      if name = portName ∧ x.getVirtualDirectory name = [] then d
      else x.getVirtualDirectory name := by
  unfold VirtualDirectoryMap.mapVirtualDirectory VirtualDirectoryMap.getVirtualDirectory
  cases hlookup : x.map.lookup portName with
  | some old =>
    -- the entry that is there is no empty text
    have hne := (x.isDirectory portName old hlookup).1
    rw [Option.isSome_some, if_pos rfl, if_neg]
    intro h
    rw [h.1, hlookup] at h
    exact hne h.2
  | none =>
    rw [Option.isSome_none, if_neg Bool.false_ne_true]
    dsimp only
    by_cases hname : name = portName
    · rw [hname, AList.lookup_insert, hlookup]
      simp
    · rw [AList.lookup_insert_ne hname, if_neg fun h => hname h.1]

theorem mapDirectory_get (cfg : CoreConfig) (kind : String) (e : XmlElement) (name : Bytes) :
    (cfg.mapDirectory kind e).virtualDirectoryMap.getVirtualDirectory name =
      if gives kind name e = true ∧ cfg.virtualDirectoryMap.getVirtualDirectory name = [] then
        e.attribute "directory"
      else cfg.virtualDirectoryMap.getVirtualDirectory name := by
  unfold mapDirectory gives
  by_cases hdir : e.attribute "directory" ≠ []
  · rw [dif_pos hdir]
    dsimp only
    rw [mapVirtualDirectory_get]
    simp only [decide_eq_true_eq, hdir, ne_eq, not_false_eq_true, and_true, eq_comm (a := name)]
  · rw [dif_neg hdir]
    simp [hdir]

/-- A loop leaves the directory that a name has, and otherwise gives it the first one. -/
theorem foldl_get (step : CoreConfig → XmlElement → CoreConfig) (kind : String)
    (hstep : ∀ cfg e name, (step cfg e).virtualDirectoryMap.getVirtualDirectory name =
      (cfg.mapDirectory kind e).virtualDirectoryMap.getVirtualDirectory name)
    (elements : List XmlElement) (cfg : CoreConfig) (name : Bytes) :
    (elements.foldl step cfg).virtualDirectoryMap.getVirtualDirectory name =
      if cfg.virtualDirectoryMap.getVirtualDirectory name ≠ [] then
        cfg.virtualDirectoryMap.getVirtualDirectory name
      else firstGiven kind name elements := by
  induction elements generalizing cfg with
  | nil =>
    by_cases hold : cfg.virtualDirectoryMap.getVirtualDirectory name = []
    · simp [hold, firstGiven]
    · simp [hold]
  | cons e elements ih =>
    rw [List.foldl_cons, ih, hstep, mapDirectory_get]
    by_cases hold : cfg.virtualDirectoryMap.getVirtualDirectory name = []
    · cases hgives : gives kind name e with
      | true =>
        have hdir : e.attribute "directory" ≠ [] := (of_decide_eq_true hgives).2
        simp [hold, hdir, firstGiven, hgives]
      | false => simp [hold, firstGiven, hgives]
    · simp [hold]

theorem addTCPServer_get (cfg : CoreConfig) (e : XmlElement) (name : Bytes) :
    (cfg.addTCPServer e).virtualDirectoryMap.getVirtualDirectory name =
      (cfg.mapDirectory "port_" e).virtualDirectoryMap.getVirtualDirectory name := by
  rw [addTCPServer, mapDirectory_get, mapDirectory_get]

/-- The names of one kind are none of the other. -/
theorem firstGiven_other (kind : String) {name : Bytes} (elements : List XmlElement)
    (h : ∀ addr, bytes kind ++ addr ≠ name) : firstGiven kind name elements = [] := by
  have hnone : elements.find? (gives kind name) = none := by
    rw [List.find?_eq_none]
    intro e he
    rw [gives, decide_eq_true_eq]
    exact fun hboth => h _ hboth.1
  rw [firstGiven, hnone]
  rfl

theorem directories_loaded
    (h : loadConfig primaryIP broadcastAddress xml {} = .ok (xml', cfg')) (name : Bytes) :
    let hosts := sectionNamed xml.xmlElements "tcp_servers" "/web" "host"
    let ports := sectionNamed xml.xmlElements "tcp_servers" "/web" "port"
    cfg'.virtualDirectoryMap.getVirtualDirectory name =
      if firstGiven "host_" name hosts ≠ [] then firstGiven "host_" name hosts
      else firstGiven "port_" name ports := by
  obtain ⟨first, -, -, hnone, hsame⟩ := loadConfig_servers h
  have hempty : first.virtualDirectoryMap.getVirtualDirectory name = [] := by
    rw [hnone]
    rfl
  dsimp only
  rw [hsame.directories, (loadedUDP_same _ _).2, loadedTCP]
  cases hhas : hasTag xml.xmlElements "tcp_servers" with
  | true =>
    rw [if_pos rfl, foldl_get addTCPServer "port_" addTCPServer_get,
      foldl_get (mapDirectory · "host_" ·) "host_" fun _ _ _ => rfl, hempty]
    simp
  | false =>
    rw [if_neg Bool.false_ne_true, sectionNamed_nil hhas, sectionNamed_nil hhas]
    simpa [firstGiven] using hempty

/-- For every document, the directory of a request is that of the first `host` element of its host,
and otherwise of the first `port` element whose address is the text of the port. -/
theorem directoryFor_loaded
    (h : loadConfig primaryIP broadcastAddress xml {} = .ok (xml', cfg')) (sHost : Bytes)
    (iPort : ℤ) :
    let byHost := if sHost = [] then []
      else firstGiven "host_" (bytes "host_" ++ sHost)
        (sectionNamed xml.xmlElements "tcp_servers" "/web" "host")
    let byPort := firstGiven "port_" (bytes "port_" ++ formatInt iPort)
      (sectionNamed xml.xmlElements "tcp_servers" "/web" "port")
    cfg'.virtualDirectoryMap.directoryFor sHost iPort = if byHost ≠ [] then byHost else byPort := by
  have hkinds (a b : Bytes) : bytes "port_" ++ a ≠ bytes "host_" ++ b := by
    intro heq
    have hhead := congrArg List.head? heq
    simp [bytes] at hhead
  have hport := directories_loaded h (bytes "port_" ++ formatInt iPort)
  have hhost := directories_loaded h (bytes "host_" ++ sHost)
  dsimp only at hport hhost ⊢
  rw [firstGiven_other "host_" _ fun addr => (hkinds _ _).symm, if_neg (by simp)] at hport
  rw [firstGiven_other "port_" _ fun addr => hkinds _ _] at hhost
  unfold VirtualDirectoryMap.directoryFor
  dsimp only
  rw [hport, hhost]
  by_cases hnil : sHost = []
  · simp [hnil]
  · have hpos : 0 < sHost.length := List.length_pos_iff.mpr hnil
    rw [if_pos hpos, if_neg hnil]
    by_cases hgiven : firstGiven "host_" (bytes "host_" ++ sHost)
        (sectionNamed xml.xmlElements "tcp_servers" "/web" "host") = []
    · simp [hgiven]
    · have hlength : ¬ (firstGiven "host_" (bytes "host_" ++ sHost)
          (sectionNamed xml.xmlElements "tcp_servers" "/web" "host")).length < 1 := by
        have hlen := List.length_pos_iff.mpr hgiven
        omega
      simp [hgiven, hlength]

theorem directoryFor_smallSection : ∃ r,
    loadConfig [] (fun ip _ => ip) ⟨smallSection, []⟩ {} = .ok r ∧
      r.2.virtualDirectoryMap.directoryFor (bytes "a") 80 = bytes "w" :=
  ⟨_, rfl, (@directoryFor_loaded ⟨smallSection, []⟩ _ _ [] (fun ip _ => ip) rfl (bytes "a") 80).trans
    (by decide)⟩

end CoreConfig

end MsgCourier
