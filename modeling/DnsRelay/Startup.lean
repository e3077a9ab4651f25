import DnsRelay.ConfigLines
import DnsRelay.ConfigRegistry
import DnsRelay.UpstreamList
set_option autoImplicit false

/-!
The configuration at startup, main.c. The file that the arguments name is loaded first, and then
the arguments write over it: the servers as one string, which is parsed when the server starts.
-/

namespace DnsRelay

open Lib Lib.Exec ConfigCenter

/-- "-c" -/
def flagConfig : Bytes := [45,99]

/-- "-d" -/
def flagDebug : Bytes := [45,100]

/-- "-dd" -/
def flagTrace : Bytes := [45,100,100]

/-- "./dnsrelay.ini" -/
def configFile : Bytes := [46,47,100,110,115,114,101,108,97,121,46,105,110,105]

def logTrace : Nat := 0

def logDebug : Nat := 1

def ipsSize : Nat := 1024

def strcat (size : Nat) (dest src : Bytes) : Exec Bytes :=
  if dest.length+src.length < size then .ok (dest ++ src) else .fault .outOfBounds

/-- The return value, and `config_file` after the call; the arguments are those behind the name of
the program. -/
def paramGetConfigFile (configFile : Bytes) : List Bytes → Int × Bytes
  | [] => (1,configFile)
  | arg :: rest =>
      if strcmp arg flagConfig = 0 then
        match rest with
        | path :: _ => (0,path)
        | [] => (1,configFile)
      else paramGetConfigFile configFile rest

section Injecting
variable {C : Type} (cleanerOf : Bytes → Exec (Option C))

/-- The loop over the arguments: `ips` and the center after it. -/
def injectArgs (ips : Bytes) (c : ConfigCenter Setting) :
    List Bytes → Exec (Bytes × ConfigCenter Setting)
  | [] => .ok (ips,c)
  | arg :: rest =>
      if strcmp arg flagDebug = 0 then do
        let w ← c.configSet cleanerOf logSection keyLogLevel (.value (.long logDebug))
        injectArgs ips w.center rest
      else if strcmp arg flagTrace = 0 then do
        let w ← c.configSet cleanerOf logSection keyLogLevel (.value (.long logTrace))
        injectArgs ips w.center rest
      else if strcmp arg flagConfig = 0 then
        match rest with
        | _ :: rest => injectArgs ips c rest
        | [] => .ok (ips,c)
      else do
        let ips ← strcat ipsSize ips [44]
        let ips ← strcat ipsSize ips arg
        injectArgs ips c rest

def paramInjectConfig (c : ConfigCenter Setting) (args : List Bytes) :
    Exec (Int × ConfigCenter Setting) := do
  let (ips,c) ← injectArgs cleanerOf [] c args
  if ips ≠ [] then do
    let w ← c.configInject cleanerOf servSection keyUpstreams ips
    .ok (0,w.center)
  else .ok (0,c)

end Injecting

/-- The registry of cleaners before the modules are initialised. -/
def unregistered (C : Type) : Bytes → Exec (Option C) :=
  ConfigRegistry.get (fun _ => none) HashMap.create

/-- The first part of `main`, up to `logger_init`. A file that does not load is only warned of. -/
def configure (C : Type) (fopen : Bytes → Option Bytes) (buffer : Bytes) (args : List Bytes) :
    Exec (ConfigCenter Setting) := do
  let (_,path) := paramGetConfigFile configFile args
  let (_,c,_) ← configLoadFile (unregistered C) buffer init (fopen path)
  let (_,c) ← paramInjectConfig (unregistered C) c args
  .ok c

inductive Word where
  | config (path : Option Bytes)
  | level (n : Nat)
  | server (text : Bytes)

def Word.path? : Word → Option Bytes
  | .config path => path
  | .level _ => none
  | .server _ => none

def Word.level? : Word → Option Nat
  | .config _ => none
  | .level n => some n
  | .server _ => none

def Word.server? : Word → Option Bytes
  | .config _ => none
  | .level _ => none
  | .server text => some text

/-- The argument behind "-c" is part of it. -/
def words : List Bytes → List Word
  | [] => []
  | arg :: rest =>
      if arg = flagDebug then .level logDebug :: words rest
      else if arg = flagTrace then .level logTrace :: words rest
      else if arg = flagConfig then
        match rest with
        | path :: rest => .config (some path) :: words rest
        | [] => [.config none]
      else .server arg :: words rest

def serverTexts (args : List Bytes) : List Bytes := (words args).filterMap Word.server?

def lastLevel (args : List Bytes) : Option Nat := ((words args).filterMap Word.level?).getLast?

def firstPath (args : List Bytes) : Option Bytes := ((words args).filterMap Word.path?).head?

/-- A comma stands in front of each text. -/
def joined (texts : List Bytes) : Bytes := texts.flatMap fun text => 44 :: text

def flagged (args : List Bytes) (s k : Bytes) : Option (ConfigValue Setting) :=
  if logSection = s ∧ keyLogLevel = k then (lastLevel args).map fun n => ⟨true,.value (.long n)⟩
  else none

def given (args : List Bytes) (s k : Bytes) : Option (ConfigValue Setting) :=
  if serverTexts args ≠ [] ∧ servSection = s ∧ keyUpstreams = k then
    some ⟨false,.string (joined (serverTexts args))⟩
  else flagged args s k

/-- The arguments stand over the file, unless they do not fit the buffer. -/
def Configures (args : List Bytes) (loaded : ConfigCenter Setting) :
    Exec (ConfigCenter Setting) → Prop
  | .ok c => (joined (serverTexts args)).length < ipsSize ∧ c.Sound ∧
      ∀ s k, c.lookup s k = (given args s k).or (loaded.lookup s k)
  | .fault e => ipsSize ≤ (joined (serverTexts args)).length ∧ e = .outOfBounds
  | .diverge => False

section Words
variable {arg : Bytes} {rest : List Bytes}

theorem words_debug : words (flagDebug :: rest) = .level logDebug :: words rest := by
  cases rest <;> rfl

theorem words_trace : words (flagTrace :: rest) = .level logTrace :: words rest := by
  cases rest <;> rfl

theorem words_config (path : Bytes) :
    words (flagConfig :: path :: rest) = .config (some path) :: words rest := rfl

theorem words_server (hd : arg ≠ flagDebug) (ht : arg ≠ flagTrace) (hc : arg ≠ flagConfig) :
    words (arg :: rest) = .server arg :: words rest := by
  cases rest <;> simp only [words,if_neg hd,if_neg ht,if_neg hc]

theorem paramGetConfigFile_skip (default : Bytes) (hc : arg ≠ flagConfig) :
    paramGetConfigFile default (arg :: rest) = paramGetConfigFile default rest := by
  have hne : strcmp arg flagConfig ≠ 0 := fun h => hc ((strcmp_eq_zero _ _).mp h)
  cases rest <;> simp only [paramGetConfigFile,if_neg hne]

theorem firstPath_skip {word : Word} (hword : word.path? = none)
    (h : words (arg :: rest) = word :: words rest) : firstPath (arg :: rest) = firstPath rest := by
  rw [firstPath,h,List.filterMap_cons_none hword,← firstPath]

theorem paramGetConfigFile_eq (default : Bytes) (args : List Bytes) :
    (paramGetConfigFile default args).2 = (firstPath args).getD default := by
  induction args using words.induct with
  | case1 => rfl
  | case2 rest ih =>
    rw [paramGetConfigFile_skip default (by decide),firstPath_skip rfl words_debug,ih]
  | case3 rest _ ih =>
    rw [paramGetConfigFile_skip default (by decide),firstPath_skip rfl words_trace,ih]
  | case4 path rest => rfl
  | case5 => rfl
  | case6 arg rest hd ht hc ih =>
    rw [paramGetConfigFile_skip default hc,firstPath_skip rfl (words_server hd ht hc),ih]

end Words

section Placing
variable {C : Type} {c : ConfigCenter Setting}

theorem set_eq (cleaners : Bytes → Option C) (h : c.Sound) (s k : Bytes) (value : ConfigT Setting) :
    ∃ w, c.configSet (fun s => .ok (cleaners s)) s k value = .ok w ∧ w.center.Sound ∧
      ∀ s' k', w.center.lookup s' k' =
        if s = s' ∧ k = k' then some ⟨true,value⟩ else c.lookup s' k' := by
  obtain ⟨w,hw,_,hsound,hlookup,_⟩ :=
    h.write (s := s) (fun s => .ok (cleaners s)) ⟨true,value⟩ fun _ _ _ => rfl
  exact ⟨w,hw,hsound,hlookup⟩

/-- The loop appends the texts to `ips` and leaves the last level in the center. -/
def Injects (ips : Bytes) (c : ConfigCenter Setting) (args : List Bytes) :
    Exec (Bytes × ConfigCenter Setting) → Prop
  | .ok (ips',c') => ips' = ips ++ joined (serverTexts args) ∧ ips'.length < ipsSize ∧ c'.Sound ∧
      ∀ s k, c'.lookup s k = (flagged args s k).or (c.lookup s k)
  | .fault e => ipsSize ≤ ips.length+(joined (serverTexts args)).length ∧ e = .outOfBounds
  | .diverge => False

theorem lastLevel_cons {args args' : List Bytes} {n : Nat}
    (h : words args' = .level n :: words args) :
    lastLevel args' = (lastLevel args).or (some n) := by
  have hlevel : (Word.level n).level? = some n := rfl
  rw [lastLevel,h,List.filterMap_cons_some hlevel,List.getLast?_cons,← lastLevel]
  cases lastLevel args <;> rfl

theorem serverTexts_cons {args args' : List Bytes} {word : Word} (hword : word.server? = none)
    (h : words args' = word :: words args) : serverTexts args' = serverTexts args := by
  rw [serverTexts,h,List.filterMap_cons_none hword,← serverTexts]

theorem lastLevel_cons_none {args args' : List Bytes} {word : Word} (hword : word.level? = none)
    (h : words args' = word :: words args) : lastLevel args' = lastLevel args := by
  rw [lastLevel,h,List.filterMap_cons_none hword,← lastLevel]

theorem Injects.level {ips : Bytes} {args args' : List Bytes} {n : Nat}
    (hwords : words args' = .level n :: words args) {w : Wrote C Setting}
    (hlookup : ∀ s k, w.center.lookup s k =
      if logSection = s ∧ keyLogLevel = k then some ⟨true,.value (.long n)⟩ else c.lookup s k)
    {r : Exec (Bytes × ConfigCenter Setting)} (h : Injects ips w.center args r) :
    Injects ips c args' r := by
  have htexts := serverTexts_cons rfl hwords
  rcases r with ⟨ips',c'⟩ | e | _
  · obtain ⟨hips,hfits,hsound,hvalues⟩ := h
    refine ⟨by rw [htexts]; exact hips,hfits,hsound,fun s k => ?_⟩
    rw [hvalues s k,hlookup s k,flagged,flagged,lastLevel_cons hwords]
    split_ifs
    · cases lastLevel args <;> rfl
    · rfl
  · rw [Injects,htexts]
    exact h
  · exact h

theorem Injects.skip {ips : Bytes} {args args' : List Bytes}
    (htexts : serverTexts args' = serverTexts args) (hlevel : lastLevel args' = lastLevel args)
    {r : Exec (Bytes × ConfigCenter Setting)} (h : Injects ips c args r) :
    Injects ips c args' r := by
  have hflagged : flagged args' = flagged args := by
    funext s k
    rw [flagged,flagged,hlevel]
  rcases r with ⟨ips',c'⟩ | e | _
  · rw [Injects,htexts,hflagged]
    exact h
  · rw [Injects,htexts]
    exact h
  · exact h

theorem joined_cons {arg : Bytes} {args args' : List Bytes}
    (h : words args' = .server arg :: words args) :
    joined (serverTexts args') = 44 :: arg ++ joined (serverTexts args) := by
  have hserver : (Word.server arg).server? = some arg := rfl
  rw [serverTexts,h,List.filterMap_cons_some hserver,joined,List.flatMap_cons]
  rfl

theorem Injects.server {ips : Bytes} {arg : Bytes} {args args' : List Bytes}
    (hwords : words args' = .server arg :: words args)
    {r : Exec (Bytes × ConfigCenter Setting)} (h : Injects (ips ++ 44 :: arg) c args r) :
    Injects ips c args' r := by
  have htexts := joined_cons hwords
  have hlevel := lastLevel_cons_none rfl hwords
  rcases r with ⟨ips',c'⟩ | e | _
  · obtain ⟨hips,hfits,hsound,hvalues⟩ := h
    refine ⟨by rw [hips,htexts,List.append_assoc],hfits,hsound,fun s k => ?_⟩
    rw [hvalues s k,flagged,flagged,hlevel]
  · obtain ⟨hlong,he⟩ := h
    refine ⟨?_,he⟩
    rw [htexts]
    simp only [List.length_append,List.length_cons] at hlong ⊢
    omega
  · exact h

theorem strcat_comma {α : Type} (ips arg : Bytes) (f : Bytes → Exec α) : (do
      let ips ← strcat ipsSize ips [44]
      let ips ← strcat ipsSize ips arg
      f ips) =
    if ips.length+arg.length+1 < ipsSize then f (ips ++ 44 :: arg) else .fault .outOfBounds := by
  have hsum : (ips ++ [44]).length+arg.length = ips.length+arg.length+1 := by
    rw [List.length_append,List.length_singleton]
    omega
  rw [strcat,List.length_singleton]
  by_cases hcomma : ips.length+1 < ipsSize
  · rw [if_pos hcomma,ok_bind,strcat,hsum,List.append_assoc]
    split_ifs <;> rfl
  · rw [if_neg hcomma,fault_bind,if_neg (by omega)]

theorem injectArgs_injects (cleaners : Bytes → Option C) (h : c.Sound) {ips : Bytes}
    (hips : ips.length < ipsSize) (args : List Bytes) :
    Injects ips c args (injectArgs (fun s => .ok (cleaners s)) ips c args) := by
  have hdone : ∀ {args : List Bytes}, serverTexts args = [] → lastLevel args = none →
      ∀ {ips : Bytes} {c : ConfigCenter Setting}, c.Sound → ips.length < ipsSize →
        Injects ips c args (.ok (ips,c)) := by
    intro args htexts hlevel ips c h hips
    refine ⟨by rw [htexts]; exact (List.append_nil ips).symm,hips,h,fun s k => ?_⟩
    rw [flagged,hlevel]
    split_ifs <;> rfl
  induction args using words.induct generalizing ips c with
  | case1 => exact hdone rfl rfl h hips
  | case2 rest ih =>
    obtain ⟨w,hw,hsound,hlookup⟩ := set_eq cleaners h logSection keyLogLevel
      (.value (.long logDebug))
    have hrun : injectArgs (fun s => .ok (cleaners s)) ips c (flagDebug :: rest) =
        injectArgs (fun s => .ok (cleaners s)) ips w.center rest := by
      cases rest <;> simp only [injectArgs,strcmp_eq_zero,if_true,hw,ok_bind]
    rw [hrun]
    exact (ih hsound hips).level words_debug hlookup
  | case3 rest hne ih =>
    obtain ⟨w,hw,hsound,hlookup⟩ := set_eq cleaners h logSection keyLogLevel
      (.value (.long logTrace))
    have hrun : injectArgs (fun s => .ok (cleaners s)) ips c (flagTrace :: rest) =
        injectArgs (fun s => .ok (cleaners s)) ips w.center rest := by
      cases rest <;> simp only [injectArgs,strcmp_eq_zero,if_neg hne,if_true,hw,ok_bind]
    rw [hrun]
    exact (ih hsound hips).level words_trace hlookup
  | case4 path rest hd ht ih =>
    have hrun : injectArgs (fun s => .ok (cleaners s)) ips c (flagConfig :: path :: rest) =
        injectArgs (fun s => .ok (cleaners s)) ips c rest := by
      simp only [injectArgs,strcmp_eq_zero,if_neg hd,if_neg ht,if_true]
    rw [hrun]
    exact (ih h hips).skip (serverTexts_cons rfl (words_config path))
      (lastLevel_cons_none rfl (words_config path))
  | case5 hd ht =>
    have hrun : injectArgs (fun s => .ok (cleaners s)) ips c [flagConfig] = .ok (ips,c) := by
      simp only [injectArgs,strcmp_eq_zero,if_neg hd,if_neg ht,if_true]
    rw [hrun]
    exact hdone rfl rfl h hips
  | case6 arg rest hd ht hc ih =>
    have hrun : injectArgs (fun s => .ok (cleaners s)) ips c (arg :: rest) = (do
        let ips ← strcat ipsSize ips [44]
        let ips ← strcat ipsSize ips arg
        injectArgs (fun s => .ok (cleaners s)) ips c rest) := by
      cases rest <;> simp only [injectArgs,strcmp_eq_zero,if_neg hd,if_neg ht,if_neg hc]
    have hwords : words (arg :: rest) = .server arg :: words rest := words_server hd ht hc
    rw [hrun,strcat_comma]
    split_ifs with hfits
    · exact (ih h (by simpa [Nat.add_assoc] using hfits)).server hwords
    · refine ⟨?_,rfl⟩
      rw [joined_cons hwords]
      simp only [List.length_append,List.length_cons]
      omega

theorem joined_eq_nil {texts : List Bytes} : joined texts = [] ↔ texts = [] := by
  cases texts <;> simp [joined]

theorem paramInjectConfig_configures (cleaners : Bytes → Option C) (h : c.Sound)
    (args : List Bytes) : Configures args c (do
      let (_,c) ← paramInjectConfig (fun s => .ok (cleaners s)) c args
      .ok c) := by
  have hinjects := @injectArgs_injects C c cleaners h [] (by decide) args
  rw [paramInjectConfig]
  generalize injectArgs (fun s => .ok (cleaners s)) [] c args = r at hinjects
  rcases r with ⟨ips,c'⟩ | e | _
  · obtain ⟨hips,hfits,hsound,hvalues⟩ := hinjects
    rw [List.nil_append] at hips
    rw [hips] at hfits
    rw [ok_bind]
    dsimp only
    by_cases hnone : serverTexts args = []
    · rw [if_neg (not_not.mpr (hips.trans (joined_eq_nil.mpr hnone))),ok_bind]
      refine ⟨hfits,hsound,fun s k => ?_⟩
      rw [hvalues s k,given,if_neg fun hc => hc.1 hnone]
    · obtain ⟨w,hw,hsound',hlookup⟩ :=
        ConfigFile.inject_eq cleaners hsound servSection keyUpstreams ips
      rw [if_pos fun hnil => hnone (joined_eq_nil.mp (hips ▸ hnil)),hw,ok_bind,ok_bind]
      refine ⟨hfits,hsound',fun s k => ?_⟩
      rw [hlookup s k,hvalues s k,given,← hips]
      simp only [ne_eq,hnone,not_false_eq_true,true_and]
      split_ifs <;> rfl
  · obtain ⟨hlong,he⟩ := hinjects
    rw [List.length_nil,Nat.zero_add] at hlong
    exact ⟨hlong,he⟩
  · exact hinjects.elim

end Placing

theorem unregistered_eq (C : Type) : unregistered C = fun _ => .ok none := by
  funext s
  rw [unregistered,(ConfigRegistry.files_create 0).get s,if_pos]
  exact fun name hname => absurd hname (List.not_mem_nil)

/-- The result has the property, or an access out of bounds was met. -/
def EndsIn {α : Type} (P : α → Prop) : Exec α → Prop
  | .ok a => P a
  | .fault e => e = .outOfBounds
  | .diverge => False

theorem EndsIn.bind {α β : Type} {P : α → Prop} {Q : β → Prop} {x : Exec α} {f : α → Exec β}
    (hx : EndsIn P x) (hf : ∀ a, P a → EndsIn Q (f a)) : EndsIn Q (x >>= f) := by
  cases x with
  | ok a => exact hf a hx
  | fault e => exact hx
  | diverge => exact hx.elim

section Loading
variable {C : Type} {c : ConfigCenter Setting}

theorem scan_endsIn (stop : UInt8 → Bool) (nc : Bytes) : EndsIn (fun _ => True) (scan stop nc) := by
  rw [scan]
  split_ifs
  · rfl
  · trivial

theorem copyToken_endsIn (size : Nat) (token : Bytes) :
    EndsIn (fun _ => True) (copyToken size token) := by
  rw [copyToken]
  split_ifs
  · trivial
  · rfl

theorem loadLine_endsIn (cleaners : Bytes → Option C) (h : c.Sound) (line s : Bytes) :
    EndsIn (fun next => ∀ after ∈ next, after.2.Sound)
      (loadLine (fun s => .ok (cleaners s)) line s c) := by
  have hsame : ∀ s' : Bytes, ∀ after ∈ some (s',c), after.2.Sound := by
    intro s' after hafter
    obtain rfl := Option.some.inj hafter
    exact h
  have hnone : ∀ after ∈ (none : Option (Bytes × ConfigCenter Setting)), after.2.Sound :=
    fun after hafter => absurd hafter (by simp)
  refine (scan_endsIn _ line).bind fun nc _ => ?_
  dsimp only
  split_ifs
  · exact hsame s
  · refine (scan_endsIn _ _).bind fun name _ => (scan_endsIn _ _).bind fun token _ => ?_
    split_ifs
    · exact hnone
    · exact (copyToken_endsIn _ _).bind fun s' _ => hsame s'
  · refine (scan_endsIn _ _).bind fun token _ => ?_
    split_ifs
    · exact hnone
    · refine (copyToken_endsIn _ _).bind fun key _ => (scan_endsIn _ _).bind fun text _ => ?_
      split_ifs
      · exact hnone
      · refine (copyToken_endsIn _ _).bind fun value _ => ?_
        obtain ⟨w,hw,hsound,_⟩ := ConfigFile.inject_eq cleaners h s key value
        rw [hw,ok_bind]
        intro after hafter
        obtain rfl := Option.some.inj hafter
        exact hsound

theorem length_fgets (n : Nat) (file : Bytes) : (fgets n file).2.length ≤ file.length := by
  induction file generalizing n with
  | nil => cases n <;> exact Nat.le_refl _
  | cons b file ih =>
    cases n with
    | zero => exact Nat.le_refl _
    | succ n =>
      rw [fgets]
      split_ifs
      · exact Nat.le_succ _
      · exact (ih n).trans (Nat.le_succ _)

/-- Each turn takes a line off the file. -/
theorem loadFrom_endsIn (cleaners : Bytes → Option C) {fuel : Nat} {file : Bytes}
    (hfuel : file.length ≤ fuel) (h : c.Sound) (buffer s : Bytes) :
    EndsIn (fun done => done.1.Sound)
      (loadFrom (fun s => .ok (cleaners s)) fuel file buffer s c) := by
  induction fuel generalizing file buffer s c with
  | zero =>
    obtain rfl := List.length_eq_zero_iff.mp (Nat.le_zero.mp hfuel)
    exact h
  | succ fuel ih =>
    cases file with
    | nil => exact h
    | cons b file =>
      rw [loadFrom]
      dsimp only
      refine (loadLine_endsIn cleaners h _ s).bind fun next hnext => ?_
      rcases next with _ | ⟨s',c'⟩
      · exact h
      · have hshorter : (fgets (lineSize-1) (b :: file)).2.length ≤ fuel := by
          rw [lineSize,fgets]
          split_ifs
          · exact Nat.le_of_succ_le_succ hfuel
          · exact (length_fgets _ file).trans (Nat.le_of_succ_le_succ hfuel)
        exact ih hshorter (hnext (s',c') rfl) _ s'

theorem configLoadFile_endsIn (cleaners : Bytes → Option C) (h : c.Sound) (buffer : Bytes)
    (file : Option Bytes) : EndsIn (fun done => done.2.1.Sound)
      (configLoadFile (fun s => .ok (cleaners s)) buffer c file) := by
  cases file with
  | none => exact h
  | some file =>
    exact (loadFrom_endsIn cleaners (Nat.le_refl _) h buffer []).bind fun _ hdone => hdone

end Loading

section Starting
variable (C : Type) (fopen : Bytes → Option Bytes) (buffer : Bytes) (args : List Bytes)

def loadNamed : Exec (Int × ConfigCenter Setting × Bytes) :=
  configLoadFile (unregistered C) buffer init (fopen ((firstPath args).getD configFile))

theorem configure_eq : configure C fopen buffer args = (do
    let (_,c,_) ← loadNamed C fopen buffer args
    let (_,c) ← paramInjectConfig (unregistered C) c args
    .ok c) := by
  rw [configure,loadNamed,← paramGetConfigFile_eq]

theorem loadNamed_endsIn :
    EndsIn (fun done => done.2.1.Sound) (loadNamed C fopen buffer args) := by
  rw [loadNamed,unregistered_eq]
  exact configLoadFile_endsIn (fun _ => none) sound_init buffer _

variable {args}

def Starts (args : List Bytes) (r : Exec (ConfigCenter Setting)) :
    Exec (Int × ConfigCenter Setting × Bytes) → Prop
  | .ok (_,loaded,_) => loaded.Sound ∧ Configures args loaded r
  | .fault e => e = .outOfBounds ∧ r = .fault .outOfBounds
  | .diverge => False

theorem configure_of_loaded {code : Int} {loaded : ConfigCenter Setting} {rest : Bytes}
    (hload : loadNamed C fopen buffer args = .ok (code,loaded,rest)) :
    loaded.Sound ∧ Configures args loaded (configure C fopen buffer args) := by
  have hsound := loadNamed_endsIn C fopen buffer args
  rw [hload] at hsound
  refine ⟨hsound,?_⟩
  rw [configure_eq,hload,ok_bind]
  dsimp only
  rw [unregistered_eq]
  exact paramInjectConfig_configures (fun _ => none) hsound args

/-- Whatever files there are and whatever the arguments are, the configuration ends. What the
arguments say stands over the file that they name, the last level and all the servers, and nothing
else is changed. Outside the loading the one fault is that the servers do not fit the buffer. -/
theorem configure_starts (args : List Bytes) :
    Starts args (configure C fopen buffer args) (loadNamed C fopen buffer args) := by
  have hends := loadNamed_endsIn C fopen buffer args
  cases hload : loadNamed C fopen buffer args with
  | ok done =>
    obtain ⟨code,loaded,rest⟩ := done
    exact configure_of_loaded C fopen buffer hload
  | fault e =>
    rw [hload] at hends
    obtain rfl : e = .outOfBounds := hends
    exact ⟨rfl,by rw [configure_eq,hload,fault_bind]⟩
  | diverge =>
    rw [hload] at hends
    exact hends

end Starting

section Serving
variable {pton : InetPton} {errno : Int} {files : LogFiles}

end Serving

section Examples

set_option maxRecDepth 20000
end Examples

end DnsRelay
