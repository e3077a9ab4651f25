import DnsRelay.ConfigCenter
import DnsRelay.IpTable
import DnsRelay.Session
set_option autoImplicit false

/-!
The parsers that dns_resolver.c, server.c and logger.c register, and which of
them gives a value whenever it reports success.
-/

namespace DnsRelay

open Lib Lib.Exec ConfigCenter

def toLower (b : UInt8) : UInt8 := if 65 ≤ b ∧ b ≤ 90 then b+32 else b

def strcasecmp (a b : Bytes) : Int := strcmp (a.map toLower) (b.map toLower)

/-- The number at the start of a string: whitespace, a sign and digits, held to a 64-bit `long`. -/
def atol (s : Bytes) : Int :=
  let t := trimLeft s
  let negative := t.head? = some 45
  let digits := if t.head? = some 43 ∨ negative then t.tail else t
  let n : Int := (atoi digits : Nat)
  if negative then max (-n) (-9223372036854775808) else min n 9223372036854775807

def atoiInt (s : Bytes) : Int := toInt32 (atol s)

/-- The values of the program behind a `T`. -/
inductive Setting where
  | long (n : Int)
  | upstreams (ends : List NetEnd)
  | stdout
  | stderr
  | file (path : Bytes)

/-- "dnsresolver" -/
def sectionDnsResolver : Bytes := [100,110,115,114,101,115,111,108,118,101,114]

/-- "usecache" -/
def keyUseCache : Bytes := [117,115,101,99,97,99,104,101]

/-- "server" -/
def servSection : Bytes := [115,101,114,118,101,114]

/-- "dns_packet_timeout" -/
def keyPacketTimeout : Bytes :=
  [100,110,115,95,112,97,99,107,101,116,95,116,105,109,101,111,117,116]

/-- "max_retry_time" -/
def keyMaxRetryTime : Bytes := [109,97,120,95,114,101,116,114,121,95,116,105,109,101]

/-- "server_upstream" -/
def keyUpstreams : Bytes := [115,101,114,118,101,114,95,117,112,115,116,114,101,97,109]

/-- "log" -/
def logSection : Bytes := [108,111,103]

/-- "log_level" -/
def keyLogLevel : Bytes := [108,111,103,95,108,101,118,101,108]

/-- "TRACE", "DEBUG", "INFO", "WARN", "ERROR" -/
def levelStr : List Bytes :=
  [[84,82,65,67,69],[68,69,66,85,71],[73,78,70,79],[87,65,82,78],[69,82,82,79,82]]

def logInfo : Nat := 2

/-- The comparison is the wrong way around: it holds for every key but the one meant. -/
def dnsResolverConfigParser : ConfigParser Setting := fun key value =>
  if strcasecmp key keyUseCache ≠ 0 then
    let n := atoiInt value
    if n ≠ 0 ∧ n ≠ 1 then .ok (1,.value (.long 1)) else .ok (0,.value (.long n))
  else .ok (0,.indeterminate)

/-- "localhost", "127.0.0.1" and "::1" -/
def validateIpstr (ipstr : Bytes) : Bool :=
  decide (strcasecmp ipstr [108,111,99,97,108,104,111,115,116] = 0) ||
  decide (strcasecmp ipstr [49,50,55,46,48,46,48,46,49] = 0) ||
  decide (strcasecmp ipstr [58,58,49] = 0)

/-- 53 with its two bytes swapped. -/
def serverPort : Int := 13568

/-- The address is held with the zeros that `memset` left behind it. The message of a failure
prints the number `errno` as a string: zero passes for a null pointer, any other for an address. -/
def ipstr2binary (pton : InetPton) (errno : Int) (ipStr : Bytes) : Exec (Option NetEnd) :=
  match pton.v4 ipStr with
  | some address => .ok (some ⟨address.1,.ipv4,serverPort⟩)
  | none =>
      match pton.v6 ipStr with
      | some address => .ok (some ⟨address.1,.ipv6,serverPort⟩)
      | none => if errno = 0 then .ok none else .fault .wildPointer

/-- The end of an item: the list with its address in front, or `none` for the return value -1. -/
def upstreamItem (pton : InetPton) (errno : Int) (item : Bytes) (ups : List NetEnd) :
    Exec (Option (List NetEnd)) :=
  if item.length < 64 then
    if validateIpstr item then .ok none
    else do
      let found ← ipstr2binary pton errno item
      .ok (found.map (· :: ups))
  else .fault .outOfBounds

/-- The loop over the characters, with those of the current item and the list so far. -/
def upstreamItems (pton : InetPton) (errno : Int) (item : Bytes) (ups : List NetEnd) :
    Bytes → Exec (Option (List NetEnd))
  | [] => upstreamItem pton errno item ups
  | c :: rest =>
      if c = 44 then do
        let next ← upstreamItem pton errno item ups
        match next with
        | none => .ok none
        | some ups => upstreamItems pton errno [] ups rest
      else upstreamItems pton errno (item ++ [c]) ups rest

def serverConfigParser (pton : InetPton) (errno : Int) : ConfigParser Setting := fun key value =>
  if strcmp key keyUpstreams = 0 then
    if value = [] then .ok (0,.indeterminate)
    else do
      let ups ← upstreamItems pton errno [] [] (if value.head? = some 44 then value.tail else value)
      match ups with
      | none => .ok (-1,.indeterminate)
      | some ups => .ok (0,.value (.upstreams ups))
  else if strcmp key keyMaxRetryTime = 0 then .ok (0,.value (.long (atol value)))
  else if strcmp key keyPacketTimeout = 0 then .ok (0,.value (.long (atol value)))
  else .ok (-1,.indeterminate)

/-- Which files can be opened for writing, and which for appending after that. -/
structure LogFiles where
  writable : Bytes → Bool
  appendable : Bytes → Bool

def logLevelOf (value : Bytes) : Nat :=
  (levelStr.findIdx? fun name => decide (strcasecmp name value = 0)).getD logInfo

/-- Closing the stream that could not be opened is a read through NULL. -/
def outputChannel (files : LogFiles) (value : Bytes) : Exec Setting :=
  if strcasecmp value [115,116,100,111,117,116] = 0 then .ok .stdout
  else if strcasecmp value [115,116,100,101,114,114] = 0 then .ok .stderr
  else if files.writable value then
    .ok (if files.appendable value then .file value else .stdout)
  else .fault .nullDeref

/-- One turn of the loop over the level names. -/
def setChannel (files : LogFiles) (key value : Bytes) (result : ConfigT Setting) (name : Bytes) :
    Exec (ConfigT Setting) :=
  if strcasecmp name key = 0 then do
    let channel ← outputChannel files value
    .ok (.value channel)
  else .ok result

def logConfigParser (files : LogFiles) : ConfigParser Setting := fun key value =>
  if strcmp key keyLogLevel = 0 then .ok (0,.value (.long (logLevelOf value)))
  else do
    let result ← levelStr.foldlM (setChannel files key value) .indeterminate
    .ok (0,result)

def repoParsers (pton : InetPton) (errno : Int) (files : LogFiles) (s : Bytes) :
    Option (ConfigParser Setting) :=
  if s = sectionDnsResolver then some dnsResolverConfigParser
  else if s = servSection then some (serverConfigParser pton errno)
  else if s = logSection then some (logConfigParser files)
  else none

/-- The registration, then the get into `use_cache`; the return value and the variable. -/
def dnsResolverInit (parserOf : Bytes → Exec (Option (ConfigParser Setting)))
    (c : ConfigCenter Setting) (useCache : ConfigT Setting) :
    Exec (Int × Option (ConfigT Setting) × ConfigCenter Setting) := do
  let got ← c.configGet parserOf sectionDnsResolver keyUseCache (some useCache)
  .ok (if got.code = -1 then 1 else 0,got.value,got.center)

def Assigns {V : Type} (parser : ConfigParser V) (key value : Bytes) : Prop :=
  ∀ result, parser key value = .ok (0,result) → result ≠ .indeterminate

/-- The keys and strings that the parser of a section takes a value from, or rejects. -/
def Handled (s key value : Bytes) : Prop :=
  (s = sectionDnsResolver → strcasecmp key keyUseCache ≠ 0) ∧
  (s = servSection → key = keyUpstreams → value ≠ []) ∧
  (s = logSection → key = keyLogLevel ∨ ∃ name ∈ levelStr, strcasecmp name key = 0)

theorem dnsResolverConfigParser_assigns (key value : Bytes) :
    Assigns dnsResolverConfigParser key value ↔ strcasecmp key keyUseCache ≠ 0 := by
  unfold Assigns dnsResolverConfigParser
  constructor
  · intro h hkey
    rw [if_neg (not_not.mpr hkey)] at h
    exact h .indeterminate rfl rfl
  · intro hkey result hresult
    rw [if_pos hkey] at hresult
    dsimp only at hresult
    split at hresult
    · simp at hresult
    · obtain ⟨_,rfl⟩ := Prod.mk.inj (Exec.ok.inj hresult)
      simp

theorem serverConfigParser_assigns (pton : InetPton) (errno : Int) (key value : Bytes) :
    Assigns (serverConfigParser pton errno) key value ↔ (key = keyUpstreams → value ≠ []) := by
  unfold Assigns serverConfigParser
  constructor
  · rintro h hkey rfl
    rw [if_pos ((strcmp_eq_zero key keyUpstreams).mpr hkey),if_pos rfl] at h
    exact h .indeterminate rfl rfl
  · intro h result hresult
    split at hresult
    · rename_i hkey
      rw [if_neg (h ((strcmp_eq_zero key keyUpstreams).mp hkey))] at hresult
      obtain ⟨ups,_,hresult⟩ := bind_eq_ok.mp hresult
      cases ups with
      | none => simp at hresult
      | some ups =>
        obtain ⟨_,rfl⟩ := Prod.mk.inj (Exec.ok.inj hresult)
        simp
    · split at hresult
      · obtain ⟨_,rfl⟩ := Prod.mk.inj (Exec.ok.inj hresult)
        simp
      · split at hresult
        · obtain ⟨_,rfl⟩ := Prod.mk.inj (Exec.ok.inj hresult)
          simp
        · simp at hresult

section Channels
variable {files : LogFiles} {key value : Bytes} {names : List Bytes}

theorem foldlM_setChannel_miss (h : ∀ name ∈ names, strcasecmp name key ≠ 0)
    (acc : ConfigT Setting) : names.foldlM (setChannel files key value) acc = .ok acc := by
  induction names with
  | nil => rfl
  | cons name names ih =>
    rw [List.foldlM_cons,setChannel,if_neg (h name (List.mem_cons_self ..)),ok_bind]
    exact ih fun name' hname => h name' (List.mem_cons_of_mem _ hname)

theorem foldlM_setChannel_hit {acc result : ConfigT Setting}
    (h : acc ≠ .indeterminate ∨ ∃ name ∈ names, strcasecmp name key = 0)
    (hloop : names.foldlM (setChannel files key value) acc = .ok result) :
    result ≠ .indeterminate := by
  induction names generalizing acc with
  | nil =>
    obtain rfl := Exec.ok.inj hloop
    exact h.resolve_right (by simp)
  | cons name names ih =>
    rw [List.foldlM_cons] at hloop
    obtain ⟨acc',hacc,hloop⟩ := bind_eq_ok.mp hloop
    refine ih ?_ hloop
    unfold setChannel at hacc
    split at hacc
    · obtain ⟨channel,_,hacc⟩ := bind_eq_ok.mp hacc
      obtain rfl := Exec.ok.inj hacc
      exact .inl (by simp)
    · rename_i hmiss
      obtain rfl := Exec.ok.inj hacc
      refine h.imp_right ?_
      rintro ⟨name',hname,hhit⟩
      rcases List.mem_cons.mp hname with rfl | hname
      · exact absurd hhit hmiss
      · exact ⟨name',hname,hhit⟩

end Channels

theorem logConfigParser_assigns (files : LogFiles) (key value : Bytes) :
    Assigns (logConfigParser files) key value ↔
      key = keyLogLevel ∨ ∃ name ∈ levelStr, strcasecmp name key = 0 := by
  unfold Assigns logConfigParser
  constructor
  · intro h
    by_contra hmiss
    obtain ⟨hkey,hnames⟩ := not_or.mp hmiss
    have hnames : ∀ name ∈ levelStr, strcasecmp name key ≠ 0 :=
      fun name hname hhit => hnames ⟨name,hname,hhit⟩
    rw [if_neg fun h0 => hkey ((strcmp_eq_zero key keyLogLevel).mp h0),
      foldlM_setChannel_miss hnames] at h
    exact h .indeterminate rfl rfl
  · intro h result hresult
    split at hresult
    · obtain ⟨_,rfl⟩ := Prod.mk.inj (Exec.ok.inj hresult)
      simp
    · rename_i hkey
      obtain ⟨channel,hloop,hresult⟩ := bind_eq_ok.mp hresult
      obtain ⟨_,rfl⟩ := Prod.mk.inj (Exec.ok.inj hresult)
      refine foldlM_setChannel_hit (h.imp ?_ id) hloop
      rintro rfl
      exact absurd ((strcmp_eq_zero keyLogLevel keyLogLevel).mpr rfl) hkey

theorem repoParsers_assigns {pton : InetPton} {errno : Int} {files : LogFiles} {s : Bytes}
    {parser : ConfigParser Setting} (h : repoParsers pton errno files s = some parser)
    (key value : Bytes) : Assigns parser key value ↔ Handled s key value := by
  have hserver : servSection ≠ sectionDnsResolver := by decide
  have hlog : logSection ≠ sectionDnsResolver ∧ logSection ≠ servSection := by decide
  unfold repoParsers at h
  unfold Handled
  split at h
  · rename_i hs
    obtain rfl := Option.some.inj h
    simp [dnsResolverConfigParser_assigns,hs,hserver.symm,hlog.1.symm]
  · rename_i hdns
    split at h
    · rename_i hs
      obtain rfl := Option.some.inj h
      simp [serverConfigParser_assigns,hs,hserver,hlog.2.symm]
    · split at h
      · rename_i hs
        obtain rfl := Option.some.inj h
        simp [logConfigParser_assigns,hs,hlog.1,hlog.2]
      · simp at h

/-- No value of the center comes from a variable that was never set. -/
def Determinate (c : ConfigCenter Setting) : Prop :=
  ∀ s k entry, c.lookup s k = some entry → entry.value ≠ .indeterminate

section Getting
variable {pton : InetPton} {errno : Int} {files : LogFiles} {c : ConfigCenter Setting} {s k : Bytes}

/-- A get keeps the center determinate and gives such a value exactly when the parser that it runs
handles the key and the string. -/
theorem determinate_get (h : c.Sound) (hc : Determinate c) (hs : s.length < keySize)
    (hk : k.length < keySize) {value : ConfigT Setting} (hvalue : value ≠ .indeterminate)
    {got : Got Setting}
    (hgot : c.configGet (fun s => .ok (repoParsers pton errno files s)) s k (some value) =
      .ok got) :
    (got.value ≠ some .indeterminate ∧ Determinate got.center) ↔
      ∀ raw parser, c.lookup s k = some ⟨false,.string raw⟩ →
        repoParsers pton errno files s = some parser → Handled s k raw := by
  rw [configGet_eq _ c hs hk] at hgot
  cases hold : c.lookup s k with
  | none =>
    rw [hold] at hgot
    obtain rfl := Exec.ok.inj hgot
    simp [hc,hvalue]
  | some entry =>
    have hentry := hc s k entry hold
    rw [hold] at hgot
    dsimp only at hgot
    obtain ⟨cook,stored⟩ := entry
    cases cook with
    | true =>
      simp only [if_true,ok_bind,Exec.ok.injEq] at hgot
      subst hgot
      exact iff_of_true ⟨by simpa using hentry,hc⟩ fun raw parser hraw _ => by simp at hraw
    | false =>
      simp only [Bool.false_eq_true,if_false,ok_bind] at hgot
      cases hfound : repoParsers pton errno files s with
      | none =>
        simp only [hfound,Exec.ok.injEq] at hgot
        subst hgot
        exact iff_of_true ⟨by simpa using hentry,hc⟩ fun raw parser _ hparser => by simp at hparser
      | some parser =>
      simp only [hfound] at hgot
      obtain ⟨raw,hraw,hread⟩ := bind_eq_ok.mp hgot
      obtain ⟨⟨code,tmp⟩,hrun,hdone⟩ := bind_eq_ok.mp hread
      obtain rfl : stored = .string raw := by
        cases stored with
        | string s' => exact congrArg ConfigT.string (Exec.ok.inj hraw)
        | value v => simp [readString] at hraw
        | indeterminate => simp [readString] at hraw
      have hassigns := repoParsers_assigns hfound k raw
      have hhandled : (∀ raw' parser', some (⟨false,.string raw⟩ : ConfigValue Setting) =
          some ⟨false,.string raw'⟩ → some parser = some parser' → Handled s k raw') ↔
          Handled s k raw := by
        constructor
        · exact fun h => h raw parser rfl rfl
        · intro h raw' _ heq _
          simp only [Option.some.injEq,ConfigValue.mk.injEq,true_and,ConfigT.string.injEq] at heq
          exact heq ▸ h
      rw [hhandled,← hassigns]
      by_cases hcode : code = 0
      · subst hcode
        obtain rfl := Exec.ok.inj hdone
        obtain ⟨_,hlookup⟩ := h.updated hold (⟨true,tmp⟩ : ConfigValue Setting)
        constructor
        · intro hdet result hresult
          rw [hrun] at hresult
          obtain ⟨_,rfl⟩ := Prod.mk.inj (Exec.ok.inj hresult)
          exact fun htmp => hdet.1 (by rw [htmp])
        · intro hassign
          have htmp := hassign tmp hrun
          refine ⟨by simpa using htmp,fun s' k' entry' hentry' => ?_⟩
          rw [hlookup s' k'] at hentry'
          split at hentry'
          · obtain rfl := Option.some.inj hentry'
            exact htmp
          · exact hc s' k' entry' hentry'
      · rw [if_neg hcode] at hdone
        obtain rfl := Exec.ok.inj hdone
        refine iff_of_true ⟨by simpa using hvalue,hc⟩ fun result hresult => ?_
        rw [hrun] at hresult
        exact absurd (Prod.mk.inj (Exec.ok.inj hresult)).1 hcode

/-- The get of `dns_resolver_init` leaves its variable without a value, whatever was injected. -/
theorem dnsResolverInit_indeterminate
    (hraw : ∃ raw, c.lookup sectionDnsResolver keyUseCache = some ⟨false,.string raw⟩)
    (useCache : ConfigT Setting) :
    ∃ center, dnsResolverInit (fun s => .ok (repoParsers pton errno files s)) c useCache =
      .ok (0,some .indeterminate,center) := by
  obtain ⟨raw,hraw⟩ := hraw
  have hparser :
      repoParsers pton errno files sectionDnsResolver = some dnsResolverConfigParser := by
    rw [repoParsers,if_pos rfl]
  have hrun : dnsResolverConfigParser keyUseCache raw = .ok (0,.indeterminate) := by
    rw [dnsResolverConfigParser,if_neg (by decide)]
  refine ⟨c.updated sectionDnsResolver keyUseCache ⟨true,.indeterminate⟩,?_⟩
  rw [dnsResolverInit,configGet_eq _ c (by decide) (by decide),hraw]
  simp [hparser,readString,hrun]

/-- The parsers give a value with every success exactly on the keys and strings that they handle,
a get by them gives and keeps a value exactly then, and the cache setting never gets one. -/
theorem parsers_assign_iff (pton : InetPton) (errno : Int) (files : LogFiles) :
    (∀ s parser key value, repoParsers pton errno files s = some parser →
      (Assigns parser key value ↔ Handled s key value)) ∧
    (∀ (c : ConfigCenter Setting) s k value got, c.Sound → Determinate c → s.length < 64 →
      k.length < 64 → value ≠ .indeterminate →
      c.configGet (fun s => .ok (repoParsers pton errno files s)) s k (some value) = .ok got →
      ((got.value ≠ some .indeterminate ∧ Determinate got.center) ↔
        ∀ raw parser, c.lookup s k = some ⟨false,.string raw⟩ →
          repoParsers pton errno files s = some parser → Handled s k raw)) ∧
    ∀ (c : ConfigCenter Setting) raw useCache, c.Sound →
      ∃ w useCache' center,
        c.configInject (fun _ => .ok (none : Option Unit)) sectionDnsResolver keyUseCache raw =
          .ok w ∧
        dnsResolverInit (fun s => .ok (repoParsers pton errno files s)) w.center useCache =
          .ok (0,some useCache',center) ∧
        (((atoiInt raw = 0 → useCache' = .value (.long 0)) ∧
          (atoiInt raw = 1 → useCache' = .value (.long 1))) ↔
            atoiInt raw ≠ 0 ∧ atoiInt raw ≠ 1) := by
  refine ⟨fun s parser key value h => repoParsers_assigns h key value,
    fun c s k value got h hc hs hk hvalue hgot => determinate_get h hc hs hk hvalue hgot,
    fun c raw useCache h => ?_⟩
  obtain ⟨w,hw,_,_,hlookup,_⟩ := h.write (s := sectionDnsResolver)
    (fun _ => .ok (none : Option Unit)) ⟨false,.string raw⟩ fun _ _ _ => rfl
  have hstored : w.center.lookup sectionDnsResolver keyUseCache = some ⟨false,.string raw⟩ := by
    rw [hlookup,if_pos ⟨rfl,rfl⟩]
  obtain ⟨center,hinit⟩ : ∃ center, dnsResolverInit (fun s => .ok (repoParsers pton errno files s))
      w.center useCache = .ok (0,some .indeterminate,center) :=
    dnsResolverInit_indeterminate ⟨raw,hstored⟩ useCache
  refine ⟨w,.indeterminate,center,hw,hinit,?_⟩
  simp

/-- The string "1" for the cache setting is reported as parsed, without a value. -/
theorem useCache_unassigned : ¬ Assigns dnsResolverConfigParser keyUseCache [49] := by
  intro h
  have hrun : dnsResolverConfigParser keyUseCache [49] = .ok (0,.indeterminate) := by
    rw [dnsResolverConfigParser,if_neg (by decide)]
  exact h .indeterminate hrun rfl

theorem parsers_assign_timeout : ∃ (w : Wrote Unit Setting) (got : Got Setting),
    (init : ConfigCenter Setting).configInject (fun _ => .ok none) servSection keyPacketTimeout
      [51] = .ok w ∧ w.center.Sound ∧ Determinate w.center ∧
    w.center.configGet (fun s => .ok (repoParsers ⟨fun _ => none,fun _ => none⟩ 0
      ⟨fun _ => true,fun _ => true⟩ s)) servSection keyPacketTimeout (some (.value (.long 0))) =
        .ok got ∧
    got.value = some (.value (.long 3)) ∧ Determinate got.center := by
  obtain ⟨w,hw,_,hsound,hlookup,_⟩ := (sound_init (V := Setting)).write
    (fun _ => .ok (none : Option Unit)) ⟨false,.string [51]⟩
    fun old (_ : init.lookup servSection keyPacketTimeout = some old) _ => rfl
  have hstored : w.center.lookup servSection keyPacketTimeout = some ⟨false,.string [51]⟩ := by
    rw [hlookup,if_pos ⟨rfl,rfl⟩]
  have hdeterminate : Determinate w.center := by
    intro s k entry hentry
    rw [hlookup] at hentry
    split at hentry
    · obtain rfl := Option.some.inj hentry
      simp
    · simp at hentry
  obtain ⟨got,hgot,hvalue⟩ : ∃ got, w.center.configGet (fun s => .ok (repoParsers
      ⟨fun _ => none,fun _ => none⟩ 0 ⟨fun _ => true,fun _ => true⟩ s)) servSection
      keyPacketTimeout (some (.value (.long 0))) = .ok got ∧
      got.value = some (.value (.long 3)) := by
    rw [configGet_eq _ _ (by decide) (by decide),hstored]
    exact ⟨_,rfl,rfl⟩
  have hassigned := ((parsers_assign_iff ⟨fun _ => none,fun _ => none⟩ 0
    ⟨fun _ => true,fun _ => true⟩).2.1 w.center servSection keyPacketTimeout _ got hsound
    hdeterminate (by decide) (by decide) (by simp) hgot).mpr fun _ _ _ _ =>
      ⟨fun h => absurd h (by decide),fun _ h => absurd h (by decide),fun h => absurd h (by decide)⟩
  exact ⟨w,got,hw,hsound,hdeterminate,hgot,hvalue,hassigned.2⟩

end Getting
end DnsRelay
