import Kbms.Ams.Refresh

/-! # Registration and discovery agree on the wire format

`GenRegistBody` writes what `ParserData` reads, but the two share only the names of the
fields. In between stands the registry, which takes the instance out of each body and
lists the instances by their application.
-/
namespace Kbms.Discovery
open Args
variable {lib : JsonLib} {apps : List String} {servers : List (Registrant × String)} {t : Tables}

/-- The value of the member `app` of an instance. -/
def appOf (inst : JsonDoc) : Option String := (inst.member Args.app).bind (fun d => d.asString)

/-- What the registry stores for a server and its status: the instance of the body. -/
def registered (lib : JsonLib) (s : Registrant × String) : Option JsonDoc :=
  (lib.parse (s.1.genRegistBody lib s.2)).bind (fun d => d.member instanceField)

def applicationEntry (name : String) (instances : List JsonDoc) : JsonDoc :=
  .build [(Args.name,.string name),(instanceField,.array instances)]

/-- The list document around the entries of the applications. -/
def wrap (entries : List JsonDoc) : JsonDoc :=
  .build [(application,.build [(application,.array entries)])]

/-- The list document of the registry, with its applications in the order of `apps`. -/
def listDocument (apps : List String) (instances : List JsonDoc) : JsonDoc :=
  wrap (apps.map (fun name => applicationEntry name (instances.filter (fun d => appOf d = some name))))

/-- The text of the list document after the servers have registered. -/
def listText (lib : JsonLib) (apps : List String) (servers : List (Registrant × String)) : Option String :=
  (servers.mapM (registered lib)).map (fun instances => jsonToStr lib (listDocument apps instances))

/-- What `ParserData` should keep of a server. -/
def serverStatus (s : Registrant × String) : ServerStatus := ⟨s.1.host,toString s.1.port.toNat,s.2⟩

/-- The servers that registered under a name with the valid status, in order. -/
def candidates (servers : List (Registrant × String)) (name : String) : List ServerStatus :=
  (servers.filter (fun s => s.1.serviceName = name && s.2 = validStatus)).map serverStatus

/-- Writing a value gives a text, and parsing the text gives the value. -/
def RoundTrip (lib : JsonLib) (d : JsonDoc) : Prop := lib.write d ≠ "" ∧ lib.parse (lib.write d) = some d

/-- The values that travel between the servers, the registry and a client. -/
def documents (apps : List String) (servers : List (Registrant × String)) : List JsonDoc :=
  listDocument apps (servers.map (fun s => s.1.instanceJson s.2)) ::
    servers.map (fun s => s.1.requestJson s.2)

theorem mapM_range {α β : Type} (xs : List α) {f : ℕ → Option β} {g : α → β}
    (h : ∀ i x, xs[i]? = some x → f i = some (g x)) :
    (List.range xs.length).mapM f = some (xs.map g) := by
  rw [JsonDoc.mapM_range (g := fun x => some (g x)) xs h]
  exact List.mapM_pure

/-- The inner loop reads back what the body was made of. -/
theorem readServer_instance {instances : List JsonDoc} {idy : ℕ} {s : Registrant × String}
    (h : instances[idy]? = some (s.1.instanceJson s.2)) :
    readServer (.array instances) idy = some (serverStatus s) := by
  obtain ⟨hip,_,hstatus,hport,hdolar⟩ := s.1.member_instance s.2
  simp only [readServer, JsonDoc.index, h, Option.getD_some, Option.bind_eq_bind, Option.bind_some,
    hip, hstatus, hport, hdolar, JsonDoc.asString]
  rfl

theorem appOf_instance (r : Registrant) (status : String) :
    appOf (r.instanceJson status) = some r.serviceName := by
  rw [appOf, (r.member_instance status).2.1]
  rfl

theorem member_applicationEntry (name : String) (instances : List JsonDoc) :
    (applicationEntry name instances).member Args.name = some (.string name) ∧
    (applicationEntry name instances).member instanceField = some (.array instances) := by
  constructor
  · rw [applicationEntry, JsonDoc.member_build]
    rfl
  · rw [applicationEntry, JsonDoc.member_build]
    rfl

theorem applicationJson_wrap (entries : List JsonDoc) :
    applicationJson (wrap entries) = some (.array entries) := by
  have hinner : (JsonDoc.build [(application,.array entries)]).member application =
      some (.array entries) := by
    rw [JsonDoc.member_build]
    rfl
  have houter : (wrap entries).member application = some (.build [(application,.array entries)]) := by
    rw [wrap, JsonDoc.member_build]
    rfl
  rw [applicationJson, houter, Option.bind_some, hinner]

/-- The registry groups the servers by the name that they registered under. -/
theorem filter_appOf (servers : List (Registrant × String)) (name : String) :
    (servers.map (fun s => s.1.instanceJson s.2)).filter (fun d => appOf d = some name) =
      (servers.filter (fun s => s.1.serviceName = name)).map (fun s => s.1.instanceJson s.2) := by
  have hname : ∀ s ∈ servers, ((fun d => decide (appOf d = some name)) ∘
      fun s : Registrant × String => s.1.instanceJson s.2) s = decide (s.1.serviceName = name) := by
    intro s _
    rw [Function.comp_apply, appOf_instance]
    exact decide_eq_decide.mpr Option.some_inj
  rw [List.filter_map, List.filter_congr hname]

theorem filter_valid (servers : List (Registrant × String)) (name : String) :
    ((servers.filter (fun s => s.1.serviceName = name)).map serverStatus).filter
      (fun ss => ss.status = validStatus) = candidates servers name := by
  rw [candidates, List.filter_map, List.filter_filter]
  congr 2
  funext s
  exact Bool.and_comm _ _

theorem readServers (servers : List (Registrant × String)) :
    (List.range (JsonDoc.array (servers.map (fun s => s.1.instanceJson s.2))).size).mapM
      (readServer (.array (servers.map (fun s => s.1.instanceJson s.2)))) =
        some (servers.map serverStatus) := by
  rw [JsonDoc.size, List.length_map]
  refine mapM_range servers (fun i s hs => readServer_instance ?_)
  rw [List.getElem?_map, hs]
  rfl

/-- The outer loop reads back the servers of one application. -/
theorem readApplication_entry {entries : List JsonDoc} {idx : ℕ} {name : String}
    (h : entries[idx]? = some (applicationEntry name
      ((servers.filter (fun s => s.1.serviceName = name)).map (fun s => s.1.instanceJson s.2)))) :
    readApplication (.array entries) idx = some (name,candidates servers name) := by
  obtain ⟨hname,hinst⟩ := member_applicationEntry name
    ((servers.filter (fun s => s.1.serviceName = name)).map (fun s => s.1.instanceJson s.2))
  have hread := readServers (servers.filter (fun s => s.1.serviceName = name))
  rw [readApplication, JsonDoc.index, h, Option.getD_some, Option.bind_eq_bind, Option.bind_some, hname,
    Option.bind_eq_bind, Option.bind_some, JsonDoc.asString, Option.bind_eq_bind, Option.bind_some, hinst,
    Option.bind_some, hread, Option.bind_some, filter_valid]
  rfl

/-- The registry takes out of a body what `GenRegistBody` has put in. -/
theorem registered_instance {s : Registrant × String} (h : RoundTrip lib (s.1.requestJson s.2)) :
    registered lib s = some (s.1.instanceJson s.2) := by
  rw [registered, Registrant.genRegistBody, jsonToStr, h.2, Option.bind_some, s.1.member_requestJson]

theorem mapM_registered {servers : List (Registrant × String)}
    (h : ∀ s ∈ servers, RoundTrip lib (s.1.requestJson s.2)) :
    servers.mapM (registered lib) = some (servers.map (fun s => s.1.instanceJson s.2)) := by
  induction servers with
  | nil => rfl
  | cons s servers ih =>
    rw [List.mapM_cons, registered_instance (h s List.mem_cons_self),
      ih (fun s hs => h s (List.mem_cons_of_mem _ hs))]
    rfl

/-- When each name has one entry, the table holds the servers of the entry. -/
theorem table_map (hn : apps.Nodup) (f : String → List ServerStatus) (name : String) :
    (table (apps.map (fun app => (app,f app))) name).getD [] = if name ∈ apps then f name else [] := by
  induction apps with
  | nil => rfl
  | cons app apps ih =>
    obtain ⟨hnot,hn⟩ := List.nodup_cons.mp hn
    rw [List.map_cons, table_cons]
    have hhead : table [(app,f app)] name = if app = name ∧ f app ≠ [] then some (f app) else none := by
      by_cases h : app = name
      · subst h
        by_cases hf : f app = [] <;> simp [table,hf]
      · simp [table,h]
    rw [hhead]
    by_cases h : app = name
    · subst h
      have hrest : (table (apps.map (fun app => (app,f app))) app).getD [] = [] := by
        rw [ih hn, if_neg hnot]
      by_cases hf : f app = []
      · simp [hf,hrest]
      · simp [hf]
    · have hne : name ≠ app := fun he => h he.symm
      simp [h,hne,ih hn]

theorem candidates_of_not_mem {name : String} (hcover : ∀ s ∈ servers, s.1.serviceName ∈ apps)
    (h : name ∉ apps) : candidates servers name = [] := by
  rw [candidates, List.map_eq_nil_iff, List.filter_eq_nil_iff]
  intro s hs hsel
  simp only [Bool.and_eq_true, decide_eq_true_eq] at hsel
  exact h (hsel.1 ▸ hcover s hs)

/-- `ParserData` accepts the list document that the registry makes of the bodies of the
servers, and the candidates that it finds for a name are those expected. -/
def Discovers (lib : JsonLib) (t : Tables) (apps : List String) (servers : List (Registrant × String))
    (expected : String → List ServerStatus) : Prop :=
  ∃ text t', listText lib apps servers = some text ∧ t.parserData lib text = some (t',true) ∧
    ∀ name, (t'.visible name).getD [] = expected name

theorem discovers_candidates (h : 0 ≤ t.flagNum) (hlt : t.flagNum + 1 < 2^31) (hn : apps.Nodup)
    (hcover : ∀ s ∈ servers, s.1.serviceName ∈ apps)
    (hround : ∀ d ∈ documents apps servers, RoundTrip lib d) :
    Discovers lib t apps servers (candidates servers) := by
  have hbodies : ∀ s ∈ servers, RoundTrip lib (s.1.requestJson s.2) := fun s hs =>
    hround _ (List.mem_cons_of_mem _ (List.mem_map_of_mem hs))
  obtain ⟨hne,hparse⟩ := hround _ List.mem_cons_self
  have htext : listText lib apps servers =
      some (lib.write (listDocument apps (servers.map (fun s => s.1.instanceJson s.2)))) := by
    rw [listText, mapM_registered hbodies]
    rfl
  generalize hdoc : lib.write (listDocument apps (servers.map (fun s => s.1.instanceJson s.2))) = text
    at hne hparse htext
  have hentries : (List.range (apps.map (fun name => applicationEntry name
      ((servers.map (fun s => s.1.instanceJson s.2)).filter (fun d => appOf d = some name)))).length).mapM
        (readApplication (.array (apps.map (fun name => applicationEntry name
          ((servers.map (fun s => s.1.instanceJson s.2)).filter (fun d => appOf d = some name)))))) =
      some (apps.map (fun name => (name,candidates servers name))) := by
    rw [List.length_map]
    refine mapM_range apps (fun i name hi => readApplication_entry ?_)
    rw [List.getElem?_map, hi, Option.map_some, filter_appOf]
  have hdecode : decode lib ⟨scSuccess,text⟩ = some (apps.map (fun name => (name,candidates servers name))) := by
    have hempty : text.isEmpty = false := by simpa using hne
    rw [decode, if_neg (by simp), strToJson, hempty, hparse]
    simp only [Bool.false_eq_true, if_false, Option.bind_some]
    rw [listDocument, applicationJson_wrap, Option.bind_some, JsonDoc.size, hentries]
  obtain ⟨t',ht',hvis,_⟩ := t.reqSerList_spec lib ⟨scSuccess,text⟩ h hlt
  rw [hdecode] at ht' hvis
  have hparser : t.parserData lib text = some (t',true) := by
    rw [← Option.isSome_some, ← ht', Tables.reqSerList, if_neg (by simp)]
  refine ⟨text,t',htext,hparser,fun name => ?_⟩
  rw [hvis, Option.map_some, Option.getD_some, table_map hn]
  split
  · rfl
  · rename_i hname
    exact (candidates_of_not_mem hcover hname).symm

/-- Server `i` registers with another status. -/
def withStatus (servers : List (Registrant × String)) (i : ℕ) (status : String) :
    List (Registrant × String) := servers.modify i (fun s => (s.1,status))

theorem candidates_withStatus {i : ℕ} {status : String} (h : status ≠ validStatus) (name : String) :
    candidates (withStatus servers i status) name = candidates (servers.eraseIdx i) name := by
  unfold candidates withStatus
  congr 1
  induction servers generalizing i with
  | nil => simp
  | cons s servers ih =>
    cases i with
    | zero => simp [h]
    | succ i =>
      rw [List.modify_succ_cons, List.eraseIdx_cons_succ, List.filter_cons, List.filter_cons, ih]

theorem mem_withStatus {i : ℕ} {status : String} {s : Registrant × String}
    (h : s ∈ withStatus servers i status) : ∃ r ∈ servers, r.1 = s.1 := by
  obtain ⟨j,hj⟩ := List.getElem?_of_mem h
  rw [withStatus, List.getElem?_modify] at hj
  obtain ⟨r,hr,he⟩ := Option.map_eq_some_iff.mp hj
  refine ⟨r,List.mem_of_getElem? hr,?_⟩
  rw [← he]
  split <;> rfl

/-- Whatever servers register, in any order of the applications: each name is given the
servers that registered under it with the status UP, by host and decimal port, in
order; and another status of server `i` removes exactly that server. -/
theorem discovery_agrees {i : ℕ} {status : String} (h : 0 ≤ t.flagNum) (hlt : t.flagNum + 1 < 2^31)
    (hn : apps.Nodup) (hcover : ∀ s ∈ servers, s.1.serviceName ∈ apps) (hstatus : status ≠ validStatus)
    (hround : ∀ d ∈ documents apps servers, RoundTrip lib d)
    (hround' : ∀ d ∈ documents apps (withStatus servers i status), RoundTrip lib d) :
    Discovers lib t apps servers (candidates servers) ∧
    Discovers lib t apps (withStatus servers i status) (candidates (servers.eraseIdx i)) := by
  refine ⟨discovers_candidates h hlt hn hcover hround,?_⟩
  have hcover' : ∀ s ∈ withStatus servers i status, s.1.serviceName ∈ apps := by
    intro s hs
    obtain ⟨r,hr,he⟩ := mem_withStatus hs
    exact he ▸ hcover r hr
  have hcand : candidates (withStatus servers i status) = candidates (servers.eraseIdx i) := by
    funext name
    exact candidates_withStatus hstatus name
  rw [← hcand]
  exact discovers_candidates h hlt hn hcover' hround'

section Compact

mutual
/-- The text of a value without indentation, for strings that need no escapes. -/
def compact : JsonDoc → String
  | .null => "null"
  | .int value => toString value
  | .real text => text
  | .bool value => toString value
  | .string value => "\"" ++ value ++ "\""
  | .array values => "[" ++ compactValues values ++ "]"
  | .object members => "\x7b" ++ compactMembers members ++ "\x7d"

def compactValues : List JsonDoc → String
  | [] => ""
  | [d] => compact d
  | d :: rest => compact d ++ "," ++ compactValues rest

def compactMembers : List (String × JsonDoc) → String
  | [] => ""
  | [(key,d)] => "\"" ++ key ++ "\":" ++ compact d
  | (key,d) :: rest => "\"" ++ key ++ "\":" ++ compact d ++ "," ++ compactMembers rest
end

def compactLib (docs : List JsonDoc) : JsonLib where
  parse text := docs.find? (fun d => compact d = text)
  write := compact

def twoServers : List (Registrant × String) :=
  [(⟨"h1",80,"v1","Svc",30,90⟩,"UP"),(⟨"h2",81,"v1","Svc",30,90⟩,"UP")]

def twoLib : JsonLib :=
  compactLib (documents ["Svc"] twoServers ++ documents ["Svc"] (withStatus twoServers 0 "DOWN"))

set_option maxRecDepth 20000 in
theorem twoLib_roundTrip : (∀ d ∈ documents ["Svc"] twoServers, RoundTrip twoLib d) ∧
    ∀ d ∈ documents ["Svc"] (withStatus twoServers 0 "DOWN"), RoundTrip twoLib d := by
  constructor
  · intro d hd
    simp only [documents, twoServers, List.map_cons, List.map_nil, List.mem_cons, List.not_mem_nil,
      or_false] at hd
    rcases hd with rfl | rfl | rfl
    · exact ⟨by decide,rfl⟩
    · exact ⟨by decide,rfl⟩
    · exact ⟨by decide,rfl⟩
  · intro d hd
    simp only [documents, twoServers, withStatus, List.modify_zero_cons, List.map_cons, List.map_nil,
      List.mem_cons, List.not_mem_nil, or_false] at hd
    rcases hd with rfl | rfl | rfl
    · exact ⟨by decide,rfl⟩
    · exact ⟨by decide,rfl⟩
    · exact ⟨by decide,rfl⟩

/-- Two servers of one service are found, and one of them after the other has gone down. -/
theorem discovery_agrees_two_servers :
    candidates twoServers "Svc" = [⟨"h1","80","UP"⟩,⟨"h2","81","UP"⟩] ∧
    Discovers twoLib .new ["Svc"] twoServers (candidates twoServers) ∧
    Discovers twoLib .new ["Svc"] (withStatus twoServers 0 "DOWN") (candidates (twoServers.eraseIdx 0)) :=
  ⟨rfl,discovery_agrees (by decide) (by decide) (by decide) (by decide) (by decide)
    twoLib_roundTrip.1 twoLib_roundTrip.2⟩

end Compact

end Kbms.Discovery
