import Kbms.Ams.Refresh

/-! # What a list document publishes

`ParserData` walks over the document by indices, and the accessors make null values of
what is missing. Read as a whole, an accepted document gives each name the instances
that are UP in the first of its entries that has any.
-/
namespace Kbms

namespace JsonDoc

def elements : JsonDoc → List JsonDoc
  | .array values => values
  | _ => []

/-- A loop over the indices of a value that ends normally has gone through its
elements. -/
theorem mapM_index {β : Type} {d : JsonDoc} {f : ℕ → Option β} {g : JsonDoc → Option β} {bs : List β}
    (hf : ∀ i, f i = (d.index i).bind g) (h : (List.range d.size).mapM f = some bs) :
    d.elements.mapM g = some bs := by
  cases d with
  | array values =>
    rw [← h]
    refine (mapM_range values (fun i x hx => ?_)).symm
    rw [hf, index, hx]
    rfl
  | object members =>
    cases members with
    | nil => exact h
    | cons m ms =>
      have hzero : f 0 = none := hf 0
      rw [size, List.length_cons, List.range_succ_eq_map, List.mapM_cons, hzero] at h
      cases h
  | null | int value | real text | bool value | string value => exact h

end JsonDoc

/-! ## The published table -/

namespace Listing
variable {lib : JsonLib} {t t' : Tables} {docs : List JsonDoc}
  {entries : List (String × List ServerStatus)} {r : Response} {text : String}

/-- The name of an application entry, the instances that it lists, and what is read of
an instance. -/
def nameOf (d : JsonDoc) : Option String := (d.member Args.name).bind (fun d => d.asString)

def instancesOf (d : JsonDoc) : List JsonDoc :=
  ((d.member Args.instanceField).map (fun d => d.elements)).getD []

def statusOf (i : JsonDoc) : Option String := (i.member Args.sstatus).bind (fun d => d.asString)

def pairOf (i : JsonDoc) : Option (String × String) := do
  let host ← (i.member Args.ipAddr).bind (fun d => d.asString)
  let port ← ((i.member Args.portName).bind (fun d => d.member Args.dolar)).bind (fun d => d.asString)
  return (host,port)

def upInstances (d : JsonDoc) : List JsonDoc :=
  (instancesOf d).filter (fun i => statusOf i = some Args.validStatus)

def applicationsOf (data : JsonDoc) : List JsonDoc :=
  ((applicationJson data).map (fun d => d.elements)).getD []

/-- What the inner loop makes of an instance, and the outer loop of an entry. -/
def serverOf (entry : JsonDoc) : Option ServerStatus := do
  let host ← (← entry.member Args.ipAddr).asString
  let port ← (← (← entry.member Args.portName).member Args.dolar).asString
  let status ← (← entry.member Args.sstatus).asString
  return ⟨host,port,status⟩

def applicationOf (entry : JsonDoc) : Option (String × List ServerStatus) := do
  let serviceName ← (← entry.member Args.name).asString
  let instances ← entry.member Args.instanceField
  let servers ← (List.range instances.size).mapM (readServer instances)
  return (serviceName,servers.filter (fun ss => ss.status = Args.validStatus))

theorem readServer_eq (instances : JsonDoc) (idy : ℕ) :
    readServer instances idy = (instances.index idy).bind serverOf := rfl

theorem readApplication_eq (applications : JsonDoc) (idx : ℕ) :
    readApplication applications idx = (applications.index idx).bind applicationOf := rfl

theorem serverOf_spec {i : JsonDoc} {ss : ServerStatus} (h : serverOf i = some ss) :
    pairOf i = some (ss.host,ss.port) ∧ statusOf i = some ss.status := by
  unfold serverOf at h
  obtain ⟨ip,hip,h⟩ := Option.bind_eq_some_iff.mp h
  obtain ⟨host,hhost,h⟩ := Option.bind_eq_some_iff.mp h
  obtain ⟨portJson,hportJson,h⟩ := Option.bind_eq_some_iff.mp h
  obtain ⟨dolar,hdolar,h⟩ := Option.bind_eq_some_iff.mp h
  obtain ⟨port,hport,h⟩ := Option.bind_eq_some_iff.mp h
  obtain ⟨statusJson,hstatusJson,h⟩ := Option.bind_eq_some_iff.mp h
  obtain ⟨status,hstatus,h⟩ := Option.bind_eq_some_iff.mp h
  cases h
  constructor
  · rw [pairOf, hip, Option.bind_some, hhost, hportJson, Option.bind_some, hdolar, Option.bind_some, hport]
    rfl
  · rw [statusOf, hstatusJson, Option.bind_some, hstatus]

theorem mapM_cons_some {α β : Type} {f : α → Option β} {x : α} {xs : List α} {bs : List β}
    (h : (x :: xs).mapM f = some bs) : ∃ b rest, f x = some b ∧ xs.mapM f = some rest ∧ bs = b :: rest := by
  rw [List.mapM_cons] at h
  obtain ⟨b,hb,h⟩ := Option.bind_eq_some_iff.mp h
  obtain ⟨rest,hrest,h⟩ := Option.bind_eq_some_iff.mp h
  exact ⟨b,rest,hb,hrest,(Option.some.inj h).symm⟩

/-- The servers that are kept are the instances that are UP, in their order. -/
theorem servers_spec {servers : List ServerStatus} (h : docs.mapM serverOf = some servers) :
    (docs.filter (fun i => statusOf i = some Args.validStatus)).map pairOf =
      (servers.filter (fun ss => ss.status = Args.validStatus)).map (fun ss => some (ss.host,ss.port)) := by
  induction docs generalizing servers with
  | nil =>
    cases h
    rfl
  | cons i docs ih =>
    obtain ⟨ss,rest,hi,hrest,rfl⟩ := mapM_cons_some h
    obtain ⟨hpair,hstatus⟩ := serverOf_spec hi
    rw [List.filter_cons, List.filter_cons, hstatus]
    by_cases hup : ss.status = Args.validStatus
    · simp [hup,hpair,ih hrest]
    · simp [hup,ih hrest]

theorem applicationOf_spec {d : JsonDoc} {e : String × List ServerStatus} (h : applicationOf d = some e) :
    nameOf d = some e.1 ∧ (upInstances d).map pairOf = e.2.map (fun ss => some (ss.host,ss.port)) ∧
    ∀ ss ∈ e.2, ss.status = Args.validStatus := by
  unfold applicationOf at h
  obtain ⟨nameJson,hname,h⟩ := Option.bind_eq_some_iff.mp h
  obtain ⟨serviceName,hstring,h⟩ := Option.bind_eq_some_iff.mp h
  obtain ⟨instances,hinst,h⟩ := Option.bind_eq_some_iff.mp h
  obtain ⟨servers,hservers,h⟩ := Option.bind_eq_some_iff.mp h
  cases h
  refine ⟨?_,?_,fun ss hss => of_decide_eq_true (List.mem_filter.mp hss).2⟩
  · rw [nameOf, hname, Option.bind_some, hstring]
  · rw [upInstances, instancesOf, hinst]
    exact servers_spec (JsonDoc.mapM_index (readServer_eq instances) hservers)

theorem upInstances_eq_nil {d : JsonDoc} {e : String × List ServerStatus} (h : applicationOf d = some e) :
    upInstances d = [] ↔ e.2 = [] := by
  rw [← List.map_eq_nil_iff (f := pairOf), (applicationOf_spec h).2.1, List.map_eq_nil_iff]

/-- Where the entry of a name comes from, or why there is none. -/
theorem table_source (h : docs.mapM applicationOf = some entries) (name : String) :
    (table entries name = none ∧ ∀ d ∈ docs, nameOf d = some name → upInstances d = []) ∨
    ∃ pre d post list, docs = pre ++ d :: post ∧ applicationOf d = some (name,list) ∧ list ≠ [] ∧
      (∀ d' ∈ pre, nameOf d' = some name → upInstances d' = []) ∧ table entries name = some list := by
  induction docs generalizing entries with
  | nil =>
    cases h
    exact .inl ⟨rfl,by simp⟩
  | cons d docs ih =>
    obtain ⟨e,rest,hd,hrest,rfl⟩ := mapM_cons_some h
    obtain ⟨hname,-,-⟩ := applicationOf_spec hd
    rw [table_cons]
    by_cases hsel : e.1 = name ∧ e.2 ≠ []
    · obtain ⟨rfl,hne⟩ := hsel
      refine .inr ⟨[],d,docs,e.2,rfl,hd,hne,by simp,?_⟩
      simp [table,hne]
    · have hhead : table [e] name = none := by
        simp only [table, List.find?_cons, List.find?_nil]
        split
        · simp_all
        · rfl
      have hskip : nameOf d = some name → upInstances d = [] := by
        intro hn
        rw [hname] at hn
        rw [upInstances_eq_nil hd]
        by_contra hne
        exact hsel ⟨Option.some.inj hn,hne⟩
      rw [hhead, Option.none_or]
      rcases ih hrest with ⟨hnone,hall⟩ | ⟨pre,d',post,list,rfl,hd',hne,hpre,hsome⟩
      · refine .inl ⟨hnone,fun x hx => ?_⟩
        rcases List.mem_cons.mp hx with rfl | hx
        · exact hskip
        · exact hall x hx
      · refine .inr ⟨d :: pre,d',post,list,rfl,hd',hne,fun x hx => ?_,hsome⟩
        rcases List.mem_cons.mp hx with rfl | hx
        · exact hskip
        · exact hpre x hx

theorem parserData_eq (h : r.code = scSuccess) : t.parserData lib r.body = t.reqSerList lib r := by
  rw [Tables.reqSerList, if_neg (not_not.mpr h)]

theorem decode_eq {d : JsonDoc} (hcode : r.code = scSuccess) (hparse : strToJson lib r.body = some d) :
    decode lib r = (applicationJson d).bind (fun applications =>
      (List.range applications.size).mapM (readApplication applications)) := by
  rw [decode, if_neg (not_not.mpr hcode), hparse, Option.bind_some]

theorem decode_some (hcode : r.code = scSuccess) (h : decode lib r = some entries) :
    ∃ data, strToJson lib r.body = some data ∧ (applicationsOf data).mapM applicationOf = some entries := by
  rw [decode, if_neg (not_not.mpr hcode)] at h
  obtain ⟨data,hdata,h⟩ := Option.bind_eq_some_iff.mp h
  obtain ⟨applications,happs,h⟩ := Option.bind_eq_some_iff.mp h
  refine ⟨data,hdata,?_⟩
  rw [applicationsOf, happs]
  exact JsonDoc.mapM_index (readApplication_eq applications) h

theorem acqInstance_none {name : String} (h : 0 ≤ t.flagNum) (hv : t.visible name = none) (r : ℕ) :
    t.acqInstance name r = some none := by
  have hvalid : Tables.valid t.active = true := Tables.active_eq h ▸ Tables.valid_mod t.flagNum
  rw [Tables.acqInstance, if_pos hvalid, hv]

theorem acqInstance_some {name : String} {list : List ServerStatus} (h : 0 ≤ t.flagNum)
    (hv : t.visible name = some list) (hne : list ≠ []) (r : ℕ) :
    ∃ ss, list[r % list.length]? = some ss ∧
      t.acqInstance name r = some (some (Args.getUrlOf ss.host ss.port)) := by
  have hvalid : Tables.valid t.active = true := Tables.active_eq h ▸ Tables.valid_mod t.flagNum
  have hlen : 0 < list.length := List.length_pos_iff.mpr hne
  have hidx := List.getElem?_eq_getElem (Nat.mod_lt r hlen)
  refine ⟨_,hidx,?_⟩
  rw [Tables.acqInstance, if_pos hvalid, hv]
  dsimp only
  rw [if_neg (by omega), Tables.randSample, hidx]
  rfl

/-- The list that is published for a name is that of the UP instances of the first entry
of the name that has any, and a choice is one of them. -/
theorem parse_exact {rs : List Response} (hn : (rs.filterMap (decode lib)).length < 2^31 - 1)
    (ht : Tables.new.refreshes lib rs = some t) (hp : t.parserData lib text = some (t',true)) :
    ∃ data, strToJson lib text = some data ∧ ∀ name,
      ((t'.visible name).isSome ↔ ∃ d ∈ applicationsOf data, nameOf d = some name ∧
        ∃ i ∈ instancesOf d, statusOf i = some "UP") ∧
      (∀ list, t'.visible name = some list → ∃ pre d post, applicationsOf data = pre ++ d :: post ∧
        nameOf d = some name ∧ upInstances d ≠ [] ∧
        (∀ d' ∈ pre, nameOf d' = some name → upInstances d' = []) ∧
        (upInstances d).map pairOf = list.map (fun ss => some (ss.host,ss.port)) ∧
        ∀ ss ∈ list, ss.status = "UP") ∧
      ∀ r, (t'.visible name = none → t'.acqInstance name r = some none) ∧
        ∀ list, t'.visible name = some list → ∃ ss, list[r % list.length]? = some ss ∧
          t'.acqInstance name r = some (some (Args.getUrlOf ss.host ss.port)) := by
  obtain ⟨u,hu,hflag,-⟩ := Tables.refreshes_spec lib rs hn
  rw [ht] at hu
  cases hu
  obtain ⟨v,hv,hvis,hflag'⟩ := t.reqSerList_spec lib ⟨scSuccess,text⟩ (by omega) (by omega)
  rw [← parserData_eq rfl, hp] at hv
  obtain ⟨rfl,hok⟩ := Prod.mk.inj (Option.some.inj hv)
  obtain ⟨entries,hdec⟩ := Option.isSome_iff_exists.mp hok.symm
  obtain ⟨data,hdata,hentries⟩ := decode_some rfl hdec
  rw [hdec, Option.map_some, Option.getD_some] at hvis
  refine ⟨data,hdata,fun name => ?_⟩
  have hpos : 0 ≤ t'.flagNum := by omega
  rcases table_source hentries name with ⟨hnone,hall⟩ | ⟨pre,d,post,list,hdocs,hd,hne,hpre,hsome⟩
  · rw [← hvis] at hnone
    refine ⟨?_,fun list h => ?_,fun r => ⟨fun h => acqInstance_none hpos h r,fun list h => ?_⟩⟩
    · rw [hnone]
      refine ⟨fun h => absurd h Bool.false_ne_true,?_⟩
      rintro ⟨d,hmem,hname,i,hi,hup⟩
      have hmem : i ∈ upInstances d := List.mem_filter.mpr ⟨hi,decide_eq_true hup⟩
      rw [hall d ‹_› hname] at hmem
      cases hmem
    · rw [hnone] at h
      cases h
    · rw [hnone] at h
      cases h
  · obtain ⟨hname,hpairs,hstatus⟩ := applicationOf_spec hd
    have hup : upInstances d ≠ [] := fun h => hne ((upInstances_eq_nil hd).mp h)
    rw [← hvis] at hsome
    refine ⟨⟨fun _ => ?_,fun _ => hsome ▸ rfl⟩,fun list' h => ?_,
      fun r => ⟨fun h => acqInstance_none hpos h r,fun list' h => ?_⟩⟩
    · obtain ⟨i,hi⟩ := List.exists_mem_of_ne_nil _ hup
      obtain ⟨hi,hstat⟩ := List.mem_filter.mp hi
      exact ⟨d,hdocs ▸ List.mem_append_right pre List.mem_cons_self,hname,i,hi,of_decide_eq_true hstat⟩
    · rw [hsome] at h
      cases h
      exact ⟨pre,d,post,hdocs,hname,hup,hpre,hpairs,hstatus⟩
    · have hlist : list' = list := Option.some.inj (h.symm.trans hsome)
      exact acqInstance_some hpos h (hlist ▸ hne) r

theorem parse_exact_one_instance : ∃ t', Tables.new.parserData Tables.listLib Tables.listText = some (t',true) ∧
    t'.acqInstance "a" 5 = some (some "http:://h:80") ∧ t'.acqInstance "b" 5 = some none := by
  obtain ⟨t',ht'⟩ : ∃ t', Tables.new.parserData Tables.listLib Tables.listText = some (t',true) := ⟨_,rfl⟩
  have hstart : Tables.new.refreshes Tables.listLib [] = some .new := rfl
  obtain ⟨data,hdata,hall⟩ := parse_exact (by decide) hstart ht'
  have hdoc : strToJson Tables.listLib Tables.listText =
      some (.object [("application",.object [("application",.array [Tables.listEntry 80])])]) := rfl
  cases hdata.symm.trans hdoc
  have happs : applicationsOf (.object [("application",.object [("application",.array [Tables.listEntry 80])])]) =
      [Tables.listEntry 80] := rfl
  rw [happs] at hall
  obtain ⟨hiff,hlist,hacq⟩ := hall "a"
  obtain ⟨list,hv⟩ := Option.isSome_iff_exists.mp (hiff.mpr ⟨_,List.mem_cons_self,rfl,_,List.mem_cons_self,rfl⟩)
  obtain ⟨pre,d,post,hd,-,-,-,hpairs,-⟩ := hlist list hv
  obtain ⟨ss,hss,hurl⟩ := (hacq 5).2 list hv
  have hmem : d = Tables.listEntry 80 := by
    have hd' : d ∈ [Tables.listEntry 80] := hd ▸ List.mem_append_right pre List.mem_cons_self
    exact List.mem_singleton.mp hd'
  have hpair : some (ss.host,ss.port) ∈ (upInstances d).map pairOf := by
    rw [hpairs]
    exact List.mem_map_of_mem (List.mem_of_getElem? hss)
  have hone : (upInstances (Tables.listEntry 80)).map pairOf = [some ("h","80")] := rfl
  rw [hmem, hone, List.mem_singleton] at hpair
  obtain ⟨hhost,hport⟩ := Prod.mk.inj (Option.some.inj hpair)
  refine ⟨t',ht',by rw [hurl, hhost, hport]; rfl,?_⟩
  obtain ⟨hiff,-,hacq⟩ := hall "b"
  refine (hacq 5).1 (Option.not_isSome_iff_eq_none.mp (fun hv => ?_))
  obtain ⟨d,hd,hname,-⟩ := hiff.mp hv
  rw [List.mem_singleton.mp hd] at hname
  exact absurd hname (by decide)

/-! ## Documents without a list -/

/-- A value whose members can be accessed. -/
def hasMembers : JsonDoc → Bool
  | .null | .object _ => true
  | _ => false

/-- The shapes that make an accessor of `ParserData` throw before the first entry: a
value without members on the path, or an object with members at its end. -/
def Deviates (d : JsonDoc) : Prop :=
  hasMembers d = false ∨
  (∃ inner, d.member Args.application = some inner ∧ hasMembers inner = false) ∨
  ∃ m ms, applicationJson d = some (.object (m :: ms))

theorem member_eq_none {d : JsonDoc} (key : String) : d.member key = none ↔ hasMembers d = false := by
  cases d <;> simp [JsonDoc.member,hasMembers]

theorem applicationJson_eq_none {d : JsonDoc} : applicationJson d = none ↔
    hasMembers d = false ∨ ∃ inner, d.member Args.application = some inner ∧ hasMembers inner = false := by
  rw [applicationJson]
  cases hd : d.member Args.application with
  | none => simp [(member_eq_none _).mp hd]
  | some inner =>
    have hd' : hasMembers d = true := by
      rw [← Bool.not_eq_false, ← member_eq_none Args.application, hd]
      exact fun h => by cases h
    simp [hd',member_eq_none]

/-- Without a list, a document is decoded when there is nothing to loop over. -/
theorem decode_eq_none {d : JsonDoc} (hcode : r.code = scSuccess) (hparse : strToJson lib r.body = some d)
    (hpath : ∀ values, applicationJson d ≠ some (.array values)) : decode lib r = none ↔ Deviates d := by
  rw [decode_eq hcode hparse, Deviates, ← or_assoc, ← applicationJson_eq_none]
  cases happ : applicationJson d with
  | none => simp
  | some applications =>
    rw [Option.bind_some]
    cases applications with
    | array values => exact absurd happ (hpath values)
    | object members =>
      cases members with
      | nil => simp [JsonDoc.size]
      | cons m ms =>
        have hzero : readApplication (.object (m :: ms)) 0 = none := rfl
        rw [JsonDoc.size, List.length_cons, List.range_succ_eq_map, List.mapM_cons, hzero]
        simp
    | null | int value | real value | bool value | string value => simp [JsonDoc.size]

/-- A reply with a document but no list is refused, and the table kept, exactly while
the flag can be increased and when the document makes an accessor throw. A missing list,
which the accessors read as null, is accepted as an empty one. -/
theorem keeps_table_iff {rs : List Response} {d : JsonDoc} (ht : Tables.new.refreshes lib rs = some t)
    (hcode : r.code = scSuccess) (hparse : strToJson lib r.body = some d)
    (hpath : ∀ values, applicationJson d ≠ some (.array values)) :
    (∃ t', t.reqSerList lib r = some (t',false) ∧ t'.visible = t.visible) ↔
      t.flagNum + 1 < 2^31 ∧ Deviates d := by
  have hpos : 0 ≤ t.flagNum := Tables.refreshes_nonneg (Int.le_refl 0) ht
  rw [← decode_eq_none hcode hparse hpath]
  constructor
  · rintro ⟨t',ht',-⟩
    by_cases hlt : t.flagNum + 1 < 2^31
    · obtain ⟨u,hu,-,-⟩ := t.reqSerList_spec lib r hpos hlt
      rw [ht'] at hu
      obtain ⟨-,hok⟩ := Prod.mk.inj (Option.some.inj hu)
      exact ⟨hlt,Option.not_isSome_iff_eq_none.mp (fun h => by rw [h] at hok; cases hok)⟩
    · rw [Tables.reqSerList_none hcode hlt] at ht'
      cases ht'
  · rintro ⟨hlt,hdec⟩
    obtain ⟨u,hu,hvis,-⟩ := t.reqSerList_spec lib r hpos hlt
    rw [hdec] at hu hvis
    exact ⟨u,hu,hvis⟩

def errorText : String := "\x7b\"application\":\"gone\"\x7d"

/-- The reader of the list, with an error document and an empty one. -/
def errorLib : JsonLib where
  parse s :=
    if s = errorText then some (.object [("application",.string "gone")])
    else if s = "\x7b\x7d" then some (.object [])
    else Tables.listLib.parse s
  write _ := ""

/-- A text in the place of the list is refused. -/
theorem keeps_table_iff_error : ∃ t t', Tables.new.refreshes errorLib [⟨200,Tables.listText⟩] = some t ∧
    t.reqSerList errorLib ⟨200,errorText⟩ = some (t',false) ∧ t'.visible = t.visible := by
  obtain ⟨t,ht⟩ : ∃ t, Tables.new.refreshes errorLib [⟨200,Tables.listText⟩] = some t := ⟨_,rfl⟩
  have hflag : t.flagNum + 1 < 2^31 := by
    cases ht
    decide
  have hnone : applicationJson (.object [("application",.string "gone")]) = none := rfl
  obtain ⟨t',ht'⟩ := (keeps_table_iff (r := ⟨200,errorText⟩)
    (d := .object [("application",.string "gone")]) ht rfl rfl (fun values h => by rw [hnone] at h; cases h)).mpr
      ⟨hflag,.inr (.inl ⟨_,rfl,rfl⟩)⟩
  exact ⟨t,t',ht,ht'⟩

/-- An empty object after a list makes the service of the list unreachable. -/
theorem empty_object_wipes : ∃ t t', Tables.new.refreshes errorLib [⟨200,Tables.listText⟩] = some t ∧
    t.visible "a" = some [⟨"h","80","UP"⟩] ∧ strToJson errorLib "\x7b\x7d" = some (.object []) ∧
    applicationJson (.object []) = some .null ∧ t.reqSerList errorLib ⟨200,"\x7b\x7d"⟩ = some (t',true) ∧
    t'.visible "a" = none := ⟨_,_,rfl,rfl,rfl,rfl,rfl,rfl⟩

end Listing
end Kbms
