import Kbms.Ams.Client
import Kbms.Ams.Discovery
import Kbms.Ams.Sharing

/-! # Where the requests of a client go

Servers register, the registry lists them, the refresher turns its lists into tables while
callers look names up, and a client sends its request to what it is told. Each table that callers
ever see comes from one list, so the address of a request is that of a server which was
registered under the name and UP in it.
-/
namespace Kbms
open Foundation Args
variable {lib : JsonLib}

/-- What the registry holds when it sends its list: the servers with their status, and the order
in which it lists the names. -/
structure Registry where
  apps : List String
  servers : List (Registrant × String)
  nodup : apps.Nodup
  cover : ∀ s ∈ servers, s.1.serviceName ∈ apps

namespace Registry
variable {reg : Registry} {name : String}

/-- The table that belongs to the list. -/
def map (reg : Registry) : ServerMap := fun name =>
  match Discovery.candidates reg.servers name with
  | [] => none
  | ss :: rest => some (ss :: rest)

/-- The JSON library reads what it writes on the documents of the registry. -/
def Legible (lib : JsonLib) (reg : Registry) : Prop :=
  ∀ d ∈ Discovery.documents reg.apps reg.servers, Discovery.RoundTrip lib d

theorem map_none (h : reg.map name = none) : ∀ s ∈ reg.servers, s.1.serviceName = name → s.2 ≠ validStatus := by
  intro s hs hname hup
  have hmem : Discovery.serverStatus s ∈ Discovery.candidates reg.servers name := by
    refine List.mem_map_of_mem (List.mem_filter.mpr ⟨hs,?_⟩)
    simp [hname,hup]
  unfold map at h
  split at h
  · rename_i hnil
    rw [hnil] at hmem
    cases hmem
  · cases h

theorem map_some {list : List ServerStatus} {ss : ServerStatus} (h : reg.map name = some list) (hss : ss ∈ list) :
    ∃ s ∈ reg.servers, s.1.serviceName = name ∧ s.2 = validStatus ∧ ss = Discovery.serverStatus s := by
  have hmem : ss ∈ Discovery.candidates reg.servers name := by
    unfold map at h
    split at h
    · cases h
    · rename_i heq
      cases h
      rw [heq]
      exact hss
  obtain ⟨s,hs,rfl⟩ := List.mem_map.mp hmem
  obtain ⟨hs,hsel⟩ := List.mem_filter.mp hs
  rw [Bool.and_eq_true, decide_eq_true_eq, decide_eq_true_eq] at hsel
  exact ⟨s,hs,hsel.1,hsel.2,rfl⟩

theorem table_ne_nil {entries : List (String × List ServerStatus)} {list : List ServerStatus}
    (h : table entries name = some list) : list ≠ [] := by
  obtain ⟨e,he,rfl⟩ := Option.map_eq_some_iff.mp h
  have hsel := List.find?_some he
  simp only [Bool.and_eq_true, Bool.not_eq_eq_eq_not, Bool.not_true, List.isEmpty_eq_false_iff] at hsel
  exact hsel.2

/-- A client accepts the list and makes its table of it. -/
theorem decode_list {r : Response} (h : reg.Legible lib) (hcode : r.code = scSuccess)
    (hbody : Discovery.listText lib reg.apps reg.servers = some r.body) :
    ∃ entries, decode lib r = some entries ∧ table entries = reg.map := by
  obtain ⟨text,t',htext,hparse,hfound⟩ :=
    Discovery.discovers_candidates (t := .new) (by decide) (by decide) reg.nodup reg.cover h
  rw [hbody] at htext
  cases htext
  obtain ⟨u,hu,hvis,_⟩ := Tables.new.reqSerList_spec lib r (by decide) (by decide)
  rw [Tables.reqSerList, if_neg (not_not.mpr hcode), hparse] at hu
  obtain ⟨entries,hentries⟩ : ∃ entries, decode lib r = some entries :=
    Option.isSome_iff_exists.mp (congrArg Prod.snd (Option.some.inj hu)).symm
  obtain rfl : t' = u := congrArg Prod.fst (Option.some.inj hu)
  rw [hentries, Option.map_some, Option.getD_some] at hvis
  refine ⟨entries,hentries,funext (fun name => ?_)⟩
  have hname := hfound name
  rw [hvis] at hname
  unfold map
  rw [← hname]
  cases htable : table entries name with
  | none => rfl
  | some list =>
    cases list with
    | nil => exact absurd rfl (table_ne_nil htable)
    | cons ss rest => rfl

end Registry

theorem table_concat (entries : List (String × List ServerStatus)) (e : String × List ServerStatus) :
    insertApplication (table entries) e = table (entries ++ [e]) := by
  funext name
  rw [insertApplication_apply]
  simp only [table, List.find?_append, Option.map_or]

namespace Client

theorem transferRequest_url {send : String → HttpConnectInfo → HttpRequest}
    (hsend : ∀ url info, (send url info).url = url) {reqBody : ReqBody} {e : Encounter} {res : ResBody}
    {req : HttpRequest} (h : (transferRequest send reqBody e res).2 = some req) :
    ∃ host, e.instanceHost = some host ∧ req.url = host ++ "/" ++ reqBody.tailAffix := by
  unfold transferRequest genParams at h
  cases hhost : e.instanceHost with
  | none =>
    rw [hhost] at h
    cases h
  | some host =>
    rw [hhost, Option.map_some] at h
    dsimp only at h
    split at h
    · cases h
    · cases h
      exact ⟨host,rfl,hsend _ _⟩

/-- A client sends nothing without an instance, and goes to the instance otherwise. -/
theorem request_url {type : String} {reqBody : ReqBody} {e : Encounter} {res : ResBody} {req : HttpRequest}
    (h : (request type reqBody e res).2 = some req) :
    ∃ host, e.instanceHost = some host ∧ req.url = host ++ "/" ++ reqBody.tailAffix := by
  rw [request, find_mapFunc] at h
  by_cases hget : type = "Get"
  · rw [if_pos hget] at h
    exact transferRequest_url (fun _ _ => rfl) h
  · by_cases hpost : type = "Post"
    · rw [if_neg hget, if_pos hpost] at h
      exact transferRequest_url (fun _ _ => rfl) h
    · rw [if_neg hget, if_neg hpost] at h
      cases h

end Client

namespace Sharing
variable {s t : Sharing} {tr es : List TableEvent} {i : ℕ} {num : ℤ} {name : String}
  {P : List TableEvent → Sharing → Action → Prop} {Q : Response → Prop}

/-- The map under construction holds the table of the applications that have been read so far. -/
def Underway (lib : JsonLib) (Q : Response → Prop) (s : Sharing) : Refresher → Prop
  | .cleared num body => Q ⟨scSuccess,body⟩ ∧ s.tables.serverVec num = table []
  | .filling num applications idxs => ∃ body done entries, Q ⟨scSuccess,body⟩ ∧
      (strToJson lib body).bind applicationJson = some applications ∧
      List.range applications.size = done ++ idxs ∧
      done.mapM (readApplication applications) = some entries ∧ s.tables.serverVec num = table entries
  | _ => True

/-- The table comes from a response, all of it. -/
def Accepted (lib : JsonLib) (Q : Response → Prop) (map : ServerMap) : Prop :=
  ∃ r entries, Q r ∧ decode lib r = some entries ∧ map = table entries

structure Sourced (lib : JsonLib) (Q : Response → Prop) (tr : List TableEvent) (s : Sharing) : Prop where
  published : ∀ map, .published map ∈ tr → Accepted lib Q map
  underway : Underway lib Q s s.refresher

theorem Sourced.begin {r : Response} (h : Sourced lib Q tr s) (hQ : Q r) (hs : begin s r = some (t,es)) :
    Sourced lib Q (tr ++ es) t := by
  have hold : ∀ map, .published map ∈ tr ++ [.refreshed false] → Accepted lib Q map := by
    intro map hm
    exact h.published map (by simpa using hm)
  rw [Sharing.begin] at hs
  split at hs
  · split at hs
    · cases hs
      exact ⟨hold,h.underway⟩
    · rename_i hcode
      split at hs
      · split at hs
        · cases hs
          exact ⟨hold,h.underway⟩
        · split at hs
          · cases hs
            rw [List.append_nil]
            have hr : r = ⟨scSuccess,r.body⟩ := by rw [← not_not.mp hcode]
            exact ⟨h.published,hr ▸ hQ,Tables.serverVec_setMap .empty⟩
          · cases hs
            rw [List.append_nil]
            exact ⟨h.published,trivial⟩
      · cases hs
        rw [List.append_nil]
        exact ⟨h.published,trivial⟩
  · cases hs

theorem Sourced.advance (h : Sourced lib Q tr s) (hs : advance lib s = some (t,es)) :
    Sourced lib Q (tr ++ es) t := by
  have hu := h.underway
  have hold : ∀ map, .published map ∈ tr ++ [.refreshed false] → Accepted lib Q map := by
    intro map hm
    exact h.published map (by simpa using hm)
  rw [Sharing.advance] at hs
  split at hs
  · cases hs
  · cases hs
  · rename_i num body hphase
    rw [hphase] at hu
    split at hs
    · rename_i applications happ
      cases hs
      rw [List.append_nil]
      exact ⟨h.published,body,[],[],hu.1,happ,rfl,rfl,hu.2⟩
    · cases hs
      exact ⟨hold,trivial⟩
  · rename_i num applications idx rest hphase
    rw [hphase] at hu
    obtain ⟨body,done,entries,hQ,happ,hrange,hread,hmap⟩ := hu
    split at hs
    · rename_i entry hentry
      cases hs
      rw [List.append_nil]
      refine ⟨h.published,body,done ++ [idx],entries ++ [entry],hQ,happ,?_,?_,?_⟩
      · rw [hrange, List.append_assoc, List.singleton_append]
      · rw [List.mapM_append, hread]
        simp [hentry]
      · rw [Tables.serverVec_setMap, hmap, table_concat]
    · cases hs
      exact ⟨hold,trivial⟩
  · rename_i num applications hphase
    rw [hphase] at hu
    obtain ⟨body,done,entries,hQ,happ,hrange,hread,hmap⟩ := hu
    cases hs
    refine ⟨fun map hm => ?_,trivial⟩
    rcases List.mem_append.mp hm with hm | hm
    · exact h.published map hm
    · have heq : map = s.tables.serverVec num := by simpa using hm
      refine ⟨⟨scSuccess,body⟩,entries,hQ,?_,heq.trans hmap⟩
      obtain ⟨data,hdata,hlist⟩ := Option.bind_eq_some_iff.mp happ
      rw [decode, if_neg (by simp), hdata, Option.bind_some, hlist, Option.bind_some, hrange, List.append_nil]
      exact hread

def Action.reads : Action → Bool
  | .begin _ | .advance => false
  | _ => true

/-- The readers leave the tables alone. -/
theorem reads_frame {a : Action} (ha : a.reads = true) (hs : (machine lib).step s a = some (t,es)) :
    t.tables = s.tables ∧ t.refresher = s.refresher ∧ ∀ map, .published map ∉ es := by
  cases a with
  | begin _ | advance => cases ha
  | call i name =>
    simp only [machine, step, call] at hs
    split at hs
    · cases hs
      exact ⟨rfl,rfl,by simp⟩
    · cases hs
  | load i =>
    simp only [machine, step, load] at hs
    split at hs
    · cases hs
      exact ⟨rfl,rfl,by simp⟩
    · cases hs
  | find i =>
    simp only [machine, step, find] at hs
    split at hs
    · split at hs
      · split at hs
        · cases hs
          exact ⟨rfl,rfl,by simp⟩
        · cases hs
          exact ⟨rfl,rfl,by simp⟩
      · cases hs
        exact ⟨rfl,rfl,by simp⟩
    · cases hs
  | copy i r =>
    simp only [machine, step, copy] at hs
    split at hs
    · split at hs
      · cases hs
        exact ⟨rfl,rfl,by simp⟩
      · cases hs
        exact ⟨rfl,rfl,by simp⟩
    · cases hs
      exact ⟨rfl,rfl,by simp⟩
    · cases hs

theorem Underway.congr {r : Refresher} (h : Underway lib Q s r) (ht : t.tables = s.tables) : Underway lib Q t r := by
  cases r with
  | cleared num body | filling num applications idxs => simpa only [Underway, ht] using h
  | idle | undefined => trivial

theorem Sourced.reads {a : Action} (h : Sourced lib Q tr s) (ha : a.reads = true)
    (hs : (machine lib).step s a = some (t,es)) : Sourced lib Q (tr ++ es) t := by
  obtain ⟨htables,hrefresher,hno⟩ := reads_frame ha hs
  refine ⟨fun map hm => ?_,?_⟩
  · exact h.published map ((List.mem_append.mp hm).resolve_right (hno map))
  · rw [hrefresher]
    exact h.underway.congr htables

/-- Every table that is published comes from one response to a refresh, whatever the readers do. -/
theorem sourced_of_runs (hP : ∀ tr s r, P tr s (.begin r) → Q r) (hr : (machine lib).Runs P tr s) :
    Sourced lib Q tr s := by
  refine hr.invariant (I := Sourced lib Q) ?_ ?_
  · rintro _ rfl
    exact ⟨by simp,trivial⟩
  · intro tr s a t es _ h hp hs
    cases a with
    | begin r => exact h.begin (hP _ _ _ hp) hs
    | advance => exact h.advance hs
    | call i name | load i | find i | copy i r => exact h.reads rfl hs

/-- No list had been published when reader `i` made its last call. -/
def Unlisted (i : ℕ) (tr : List TableEvent) : Prop :=
  ∃ before name during, tr = before ++ .called i name :: during ∧ (∀ map, .published map ∉ before) ∧
    ∀ name, .called i name ∉ during

theorem Unlisted.append {es : List TableEvent} (h : Unlisted i tr) (hes : ∀ name, .called i name ∉ es) :
    Unlisted i (tr ++ es) := by
  obtain ⟨before,called,during,rfl,hbefore,hduring⟩ := h
  refine ⟨before,called,during ++ es,by rw [List.append_assoc, List.cons_append],hbefore,fun name hmem => ?_⟩
  rcases List.mem_append.mp hmem with hmem | hmem
  · exact hduring name hmem
  · exact hes name hmem

/-- A table that was visible is the first one, which is empty, or has been published. -/
theorem observe_published (i : ℕ) (tr : List TableEvent) :
    (((observe i tr).1 = .empty ∧ ∀ map, .published map ∉ tr) ∨ .published (observe i tr).1 ∈ tr) ∧
    ∀ map ∈ window i tr, (map = .empty ∧ Unlisted i tr) ∨ .published map ∈ tr := by
  unfold window
  induction tr using List.reverseRecOn with
  | nil => exact ⟨.inl ⟨rfl,by simp⟩,by simp [observe]⟩
  | append_singleton tr e ih =>
    obtain ⟨hnow,hseen⟩ := ih
    have hkeep : (∀ map, e ≠ .published map) → ((observe i tr).1 = .empty ∧ ∀ map, .published map ∉ tr ++ [e]) ∨
        .published (observe i tr).1 ∈ tr ++ [e] := by
      intro he
      refine hnow.imp (fun hempty => ⟨hempty.1,fun map hmem => ?_⟩) (List.mem_append_left _)
      rcases List.mem_append.mp hmem with hmem | hmem
      · exact hempty.2 map hmem
      · exact he map (List.mem_singleton.mp hmem).symm
    have hold : (∀ name, e ≠ .called i name) → ∀ map ∈ (observe i tr).2,
        (map = .empty ∧ Unlisted i (tr ++ [e])) ∨ .published map ∈ tr ++ [e] := by
      intro he map hm
      refine (hseen map hm).imp (fun hempty => ⟨hempty.1,hempty.2.append (fun name hmem => ?_)⟩) (List.mem_append_left _)
      exact he name (List.mem_singleton.mp hmem).symm
    rw [observe_append, List.foldl_cons, List.foldl_nil]
    cases e with
    | published map =>
      refine ⟨.inr (List.mem_append_right _ (List.mem_singleton.mpr rfl)),fun m hm => ?_⟩
      rcases List.mem_append.mp hm with hm | hm
      · exact hold (by simp) m hm
      · rw [List.mem_singleton.mp hm]
        exact .inr (List.mem_append_right _ (List.mem_singleton.mpr rfl))
    | called j name =>
      rw [track]
      split
      · rename_i hj
        subst hj
        refine ⟨hkeep (by simp),fun m hm => ?_⟩
        rw [List.mem_singleton.mp hm]
        exact hnow.imp (fun hempty => ⟨hempty.1,tr,name,[],rfl,hempty.2,by simp⟩) (List.mem_append_left _)
      · rename_i hj
        exact ⟨hkeep (by simp),hold (fun n he => by cases he; exact hj rfl)⟩
    | read j num busy | answered j name result | refreshed ok =>
      exact ⟨hkeep (by simp),hold (by simp)⟩

section Clients
variable {R : Registry → Prop}

/-- The response, if it is accepted, is the list of the registry in one of the states `R`. -/
def Listed (lib : JsonLib) (R : Registry → Prop) (r : Response) : Prop :=
  ∀ entries, decode lib r = some entries → ∃ reg, R reg ∧ reg.Legible lib ∧
    Discovery.listText lib reg.apps reg.servers = some r.body

def Fed (lib : JsonLib) (R : Registry → Prop) (tr : List TableEvent) (s : Sharing) (a : Action) : Prop :=
  Grace tr s a ∧ ∀ r, a = .begin r → Listed lib R r

theorem Accepted.origin {map : ServerMap} (h : Accepted lib (Listed lib R) map) : ∃ reg, R reg ∧ map = reg.map := by
  obtain ⟨r,entries,hlisted,hdec,rfl⟩ := h
  obtain ⟨reg,hreg,hlegible,htext⟩ := hlisted entries hdec
  have hcode : r.code = scSuccess := by
    by_contra hne
    rw [decode, if_pos hne] at hdec
    cases hdec
  obtain ⟨entries',hdec',htable⟩ := Registry.decode_list hlegible hcode htext
  rw [hdec] at hdec'
  cases hdec'
  exact ⟨reg,hreg,htable⟩

/-- The answer is right for the servers of one list. -/
def Accounts (reg : Registry) (name : String) : Option String → Prop
  | none => ∀ srv ∈ reg.servers, srv.1.serviceName = name → srv.2 ≠ validStatus
  | some url => ∃ srv ∈ reg.servers, srv.1.serviceName = name ∧ srv.2 = validStatus ∧
      url = Args.getUrlOf srv.1.host (toString srv.1.port.toNat)

theorem accounts_of_explains {reg : Registry} {result : Option String} (h : Explains reg.map name result) :
    Accounts reg name result := by
  cases result with
  | none => exact Registry.map_none h
  | some url =>
    obtain ⟨list,hlist,ss,hss,rfl⟩ := h
    obtain ⟨srv,hsrv,hname,hup,rfl⟩ := Registry.map_some hlist hss
    exact ⟨srv,hsrv,hname,hup,rfl⟩

/-- The URL of a request that is made with the answer has the text of the host and the port of a server
of the list that was registered under the name and UP. -/
def Reaches (reg : Registry) (name : String) (result : Option String) : Prop :=
  ∀ type reqBody transfer res req, (Client.request type reqBody ⟨result,transfer⟩ res).2 = some req →
    ∃ srv ∈ reg.servers, srv.1.serviceName = name ∧ srv.2 = validStatus ∧
      req.url = Args.getUrlOf srv.1.host (toString srv.1.port.toNat) ++ "/" ++ reqBody.tailAffix

theorem Accounts.reaches {reg : Registry} {result : Option String} (h : Accounts reg name result) :
    Reaches reg name result := by
  intro type reqBody transfer res req hreq
  obtain ⟨host,rfl,hurl⟩ := Client.request_url hreq
  obtain ⟨srv,hsrv,hname,hup,rfl⟩ := h
  exact ⟨srv,hsrv,hname,hup,hurl⟩

/-- In every run in which the accepted responses are lists of the registry and no map is cleared
under a reader, an answer and the request that is made with it are right for one list that was
current between the call and the return. Only a call before the first list may find no server at all. -/
theorem calls_registered {R : Registry → Prop} (hr : (machine lib).Runs (Fed lib R) tr s)
    {tr₁ tr₂ : List TableEvent} {result : Option String} (h : tr = tr₁ ++ .answered i name result :: tr₂) :
    ∃ map ∈ window i tr₁, (map = .empty ∧ result = none ∧ Unlisted i tr₁) ∨
      ∃ reg, R reg ∧ map = reg.map ∧ Accounts reg name result ∧ Reaches reg name result := by
  have hgrace := hr.mono (Q := Grace) (fun _ _ _ _ hp => hp.1)
  obtain ⟨map,hmap,hexplains⟩ := (inv_of_runs hgrace).explained tr₁ tr₂ i name result h
  have hsourced := sourced_of_runs (fun _ _ r hp => hp.2 r rfl) hr
  refine ⟨map,hmap,?_⟩
  rcases (observe_published i tr₁).2 map hmap with ⟨rfl,hunlisted⟩ | hpublished
  · left
    cases result with
    | none => exact ⟨rfl,rfl,hunlisted⟩
    | some url =>
      obtain ⟨_,hlist,_⟩ := hexplains
      cases hlist
  · have hmem : .published map ∈ tr := by
      rw [h]
      exact List.mem_append_left _ hpublished
    obtain ⟨reg,hreg,rfl⟩ := (hsourced.published map hmem).origin
    have haccounts := accounts_of_explains hexplains
    exact .inr ⟨reg,hreg,rfl,haccounts,haccounts.reaches⟩

end Clients

section Example

def oneServer : Registrant × String := (⟨"h1",80,"v1","Svc",30,90⟩,"UP")

def oneRegistry : Registry := ⟨["Svc"],[oneServer],by decide,by decide⟩

/-- The two documents that occur, by a word for each. -/
def oneLib : JsonLib where
  parse text :=
    if text = "list" then some (Discovery.listDocument ["Svc"] [oneServer.1.instanceJson oneServer.2])
    else if text = "body" then some (oneServer.1.requestJson oneServer.2)
    else none
  write d :=
    match d.member application with
    | some (.object _) => "list"
    | _ => "body"

theorem oneRegistry_legible : oneRegistry.Legible oneLib := by
  intro d hd
  rcases List.mem_cons.mp hd with rfl | hd
  · exact ⟨by decide,rfl⟩
  · obtain rfl := List.mem_singleton.mp hd
    exact ⟨by decide,rfl⟩

/-- Everything but the beginning of a refresh. -/
def midRound : Action → Bool
  | .begin _ => false
  | _ => true

/-- The server registers, a list is fetched, and a caller is sent to the server. -/
theorem calls_registered_one_server : ∃ tr, ∃ s : Sharing,
    (machine oneLib).Runs (Fed oneLib (fun reg => reg = oneRegistry)) (tr ++ [.answered 0 "Svc" (some "http:://h1:80")]) s ∧
    ∃ map ∈ window 0 tr, (map = .empty ∧ some "http:://h1:80" = none ∧ Unlisted 0 tr) ∨ ∃ reg, reg = oneRegistry ∧ map = reg.map ∧
      Accounts reg "Svc" (some "http:://h1:80") ∧ Reaches reg "Svc" (some "http:://h1:80") := by
  have hfed : Fed oneLib (fun reg => reg = oneRegistry) [] new (.begin ⟨200,"list"⟩) := by
    refine ⟨fun _ => ⟨by decide,fun i num hi => ?_⟩,?_⟩
    · cases hi
    · rintro r ⟨⟩ entries -
      exact ⟨oneRegistry,rfl,oneRegistry_legible,rfl⟩
  have hstart : (machine oneLib).Runs (Fed oneLib (fun reg => reg = oneRegistry)) [] new := .start rfl
  have hbegin : (machine oneLib).step new (.begin ⟨200,"list"⟩) =
      some (⟨new.tables.setMap 1 .empty,.cleared 1 "list",fun _ => .idle⟩,[]) := rfl
  obtain ⟨c,hc,htr⟩ : ∃ c, (machine oneLib).replay (fun _ _ a => midRound a)
      [.advance,.advance,.advance,.call 0 "Svc",.load 0,.find 0,.copy 0 7]
      ([],⟨new.tables.setMap 1 .empty,.cleared 1 "list",fun _ => .idle⟩) = some c ∧
      c.1 = c.1.dropLast ++ [.answered 0 "Svc" (some "http:://h1:80")] := ⟨_,rfl,rfl⟩
  have hr := Machine.replay_runs (P := Fed oneLib (fun reg => reg = oneRegistry)) (by
    intro tr s a ha
    cases a with
    | begin response => cases ha
    | advance | call i name | load i | find i | copy i r => exact ⟨trivial,fun r he => by cases he⟩)
    (hstart.next hfed hbegin) hc
  rw [htr] at hr
  exact ⟨_,_,hr,calls_registered hr rfl⟩

end Example

end Sharing
end Kbms
